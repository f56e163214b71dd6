import SysY.Text.Quote
import SysY.Text.Stream
import SysY.Token

/-!
# Reading tokens

The lexer is a finite machine that is fed one character at a time. It knows where the word it is
reading began, which character it took last and which one comes next, so that every token has its
exact location. After an error the rest of the line is dropped, and reading goes on with the next
line.

`Lexer.results` is everything found in a stream, tokens and errors in order; `Lexer.tokens` is the
list of tokens, or the list of errors if there is any.
-/

namespace SysY

inductive LexicalError
  | unreadable
  | badCharacter (c : Char)
  | expected (c : Char)
  /-- A letter or digit that the base of a literal does not have. -/
  | badDigit (c : Char)
  | literalTooLarge
  | unclosedComment
deriving DecidableEq, Repr

def maxLiteral : Nat := 4294967295

def LexicalError.message : LexicalError → String
  | .unreadable => "I/O error"
  | .badCharacter c => "Bad character " ++ Text.quote c ++ " in input stream"
  | .expected c => "Expected " ++ Text.quote c
  | .badDigit c => "Invalid digit " ++ Text.quote c ++ " in integer literal"
  | .literalTooLarge => s!"Integer literal overflow, valid range is [0, {maxLiteral}]"
  | .unclosedComment => "Unterminated block comment"

namespace Lexer

/-! ## Character classes -/

def isWordChar (c : Char) : Bool := c.isAlphanum || c == '_'

def isWordStart (c : Char) : Bool := c.isAlpha || c == '_'

def isBlank (c : Char) : Bool := c == ' ' || c == '\t' || c == '\n' || c == '\x0c' || c == '\r'

inductive Radix
  | octal | decimal | hexadecimal
deriving DecidableEq, Repr

def Radix.size : Radix → Nat
  | .octal => 8
  | .decimal => 10
  | .hexadecimal => 16

def digitValue? (c : Char) : Option Nat :=
  if c.isDigit then some (c.toNat - 48)
  else if 'a' ≤ c ∧ c ≤ 'f' then some (c.toNat - 87)
  else if 'A' ≤ c ∧ c ≤ 'F' then some (c.toNat - 55)
  else none

def Radix.digit? (radix : Radix) (c : Char) : Option Nat :=
  (digitValue? c).filter (· < radix.size)

/-! ## The machine -/

/-- What has been read of a token. -/
inductive State
  | start
  /-- The rest of a line is being dropped after an error. -/
  | skipping
  /-- A whole mark that nothing can extend. -/
  | complete (mark : Mark)
  | slash
  | lineComment
  | blockComment
  | blockCommentStar
  /-- A mark that an equals sign makes another one. -/
  | maybeEqual (alone extended : Mark)
  /-- The first half of a mark that doubles a character. -/
  | doubled (c : Char) (mark : Mark)
  | zero
  /-- Digits of a literal; `digits` tells whether there is one yet. -/
  | integer (value : Nat) (radix : Radix) (digits : Bool)
  /-- An identifier or keyword; the last character comes first. -/
  | word (reversed : List Char)
deriving DecidableEq

/-- What a character does to a token that has been begun. -/
inductive Move
  /-- It belongs to the token. -/
  | take (next : State)
  /-- It ends the token in front of it. -/
  | yield (token : Token)
  | reject (error : LexicalError)

def wordToken (reversed : List Char) : Token :=
  let name := String.ofList reversed.reverse
  match Keyword.ofText? name with
  | some word => .keyword word
  | none => .identifier name

/-- The first character of a token, or one between tokens. -/
def begin (c : Char) : Except LexicalError State :=
  match c with
  | ',' => .ok (.complete .comma)
  | ';' => .ok (.complete .semicolon)
  | '+' => .ok (.complete .plus)
  | '-' => .ok (.complete .minus)
  | '*' => .ok (.complete .times)
  | '%' => .ok (.complete .rem)
  | '(' => .ok (.complete .openParen)
  | ')' => .ok (.complete .closeParen)
  | '[' => .ok (.complete .openSquare)
  | ']' => .ok (.complete .closeSquare)
  | '\x7b' => .ok (.complete .openCurly)
  | '\x7d' => .ok (.complete .closeCurly)
  | '/' => .ok .slash
  | '=' => .ok (.maybeEqual .assign .equal)
  | '!' => .ok (.maybeEqual .not .notEqual)
  | '<' => .ok (.maybeEqual .less .lessOrEqual)
  | '>' => .ok (.maybeEqual .greater .greaterOrEqual)
  | '&' => .ok (.doubled '&' .and)
  | '|' => .ok (.doubled '|' .or)
  | '0' => .ok .zero
  | _ =>
    if isWordStart c then .ok (.word [c])
    else match Radix.decimal.digit? c with
      | some digit => .ok (.integer digit .decimal true)
      | none => if isBlank c then .ok .start else .error (.badCharacter c)

def extendInteger (value : Nat) (radix : Radix) (digits : Bool) (c : Char) : Move :=
  match radix.digit? c with
  | some digit =>
    let extended := value * radix.size + digit
    if extended > maxLiteral then .reject .literalTooLarge
    else .take (.integer extended radix true)
  | none =>
    if !digits then .reject (.expected '0')
    else if isWordChar c then .reject (.badDigit c)
    else .yield (.literal (Int32.ofNat value))

def extend (state : State) (c : Char) : Move :=
  match state with
  | .start => match begin c with
    | .ok next => .take next
    | .error error => .reject error
  | .skipping => .take (if c = '\n' then .start else .skipping)
  | .complete mark => .yield (.mark mark)
  | .slash =>
    if c = '/' then .take .lineComment
    else if c = '*' then .take .blockComment
    else .yield (.mark .div)
  | .lineComment => .take (if c = '\n' then .start else .lineComment)
  | .blockComment => .take (if c = '*' then .blockCommentStar else .blockComment)
  | .blockCommentStar =>
    if c = '/' then .take .start
    else if c = '*' then .take .blockCommentStar
    else .take .blockComment
  | .maybeEqual alone extended =>
    if c = '=' then .take (.complete extended) else .yield (.mark alone)
  | .doubled first mark =>
    if c = first then .take (.complete mark) else .reject (.expected first)
  | .zero =>
    if c = 'x' ∨ c = 'X' then .take (.integer 0 .hexadecimal false)
    else if c.isDigit then extendInteger 0 .octal true c
    else if isWordChar c then .reject (.badDigit c)
    else .yield (.literal 0)
  | .integer value radix digits => extendInteger value radix digits c
  | .word reversed =>
    if isWordChar c then .take (.word (c :: reversed)) else .yield (wordToken reversed)

/-- What the end of the text makes of a token that has been begun. -/
def finish : State → Option (Except LexicalError Token)
  | .start | .skipping | .lineComment => none
  | .complete mark => some (.ok (.mark mark))
  | .slash => some (.ok (.mark .div))
  | .blockComment | .blockCommentStar => some (.error .unclosedComment)
  | .maybeEqual alone _ => some (.ok (.mark alone))
  | .doubled first _ => some (.error (.expected first))
  | .zero => some (.ok (.literal 0))
  | .integer value _ digits =>
    some (if digits then .ok (.literal (Int32.ofNat value)) else .error (.expected '0'))
  | .word reversed => some (.ok (wordToken reversed))

/-! ## Running the machine -/

abbrev Result := Except (Located LexicalError) (Located Token)

/-- The machine and where it stands: `start` is where the token began, `last` is the character taken
last, `next` is the character that comes next. -/
structure Cursor where
  state : State
  start : Location
  last : Location
  next : Location

namespace Cursor

def initial (location : Location) : Cursor := ⟨.start, location, location, location⟩

/-- Between tokens the next token would begin at the next character. -/
def anchored (cursor : Cursor) : Cursor :=
  if cursor.state = .start then { cursor with start := cursor.next } else cursor

/-- Takes the next character, `behind` being the location behind it. -/
def take (cursor : Cursor) (state : State) (behind : Location) : Cursor :=
  { cursor with state := state, last := cursor.next, next := behind }

def found (cursor : Cursor) (token : Token) : Result :=
  .ok ⟨token, .span cursor.start cursor.last⟩

def failed (cursor : Cursor) (error : LexicalError) : Result :=
  .error ⟨error, cursor.next⟩

/-- The machine after an error: it drops the character that comes next, too. -/
def skip (cursor : Cursor) (c : Char) (behind : Location) : Cursor :=
  cursor.take (if c = '\n' then .start else .skipping) behind

/-- Feeds one character to a machine that stands between tokens. -/
def feedStart (cursor : Cursor) (c : Char) (behind : Location) : List Result × Cursor :=
  let cursor := { cursor with state := .start, start := cursor.next }
  match begin c with
  | .ok state => ([], cursor.take state behind)
  | .error error => ([cursor.failed error], cursor.skip c behind)

/-- Feeds one character. It can end one token and begin the next one. -/
def feed (cursor : Cursor) (c : Char) (behind : Location) : List Result × Cursor :=
  let cursor := cursor.anchored
  match extend cursor.state c with
  | .take state => ([], cursor.take state behind)
  | .reject error => ([cursor.failed error], cursor.skip c behind)
  | .yield token =>
    let (results, cursor') := cursor.feedStart c behind
    (cursor.found token :: results, cursor')

def run (cursor : Cursor) : List Text.Item → List Result
  | [] => match finish cursor.state with
    | none => []
    | some (.ok token) => [cursor.found token]
    | some (.error error) => [cursor.failed error]
  | .unreadable :: rest =>
    cursor.failed .unreadable :: { cursor with state := .skipping }.run rest
  | .char c behind :: rest =>
    let (results, cursor') := cursor.feed c behind
    results ++ cursor'.run rest

end Cursor

def results (stream : Stream) : List Result :=
  (Cursor.initial stream.start).run stream.items

def errors (results : List Result) : List (Located LexicalError) :=
  results.filterMap fun
    | .ok _ => none
    | .error error => some error

/-- The tokens of a stream, or all its errors if there is any. -/
def tokens (stream : Stream) : Except (List (Located LexicalError)) (List (Located Token)) :=
  (results stream).foldr (fun result found =>
    match result, found with
    | .ok token, .ok tokens => .ok (token :: tokens)
    | .ok _, .error errors => .error errors
    | .error error, .ok _ => .error [error]
    | .error error, .error errors => .error (error :: errors)) (.ok [])

end Lexer

end SysY

/-!
# Tokens

The words of the language: identifiers, keywords, integer literals and marks, which are the
operators and the punctuation. A literal is already a machine word: literals go up to `2^32 - 1` and
are read in two's complement.
-/

namespace SysY

inductive Keyword
  | int | void | const | if | else | while | break | continue | return
deriving DecidableEq, Repr

namespace Keyword

def text : Keyword → String
  | .int => "int"
  | .void => "void"
  | .const => "const"
  | .if => "if"
  | .else => "else"
  | .while => "while"
  | .break => "break"
  | .continue => "continue"
  | .return => "return"

def all : List Keyword := [.int, .void, .const, .if, .else, .while, .break, .continue, .return]

def ofText? (word : String) : Option Keyword := all.find? fun keyword => keyword.text == word

end Keyword

inductive Mark
  | assign | comma | semicolon
  | plus | minus | times | div | rem
  | not | and | or
  | equal | notEqual | less | greater | lessOrEqual | greaterOrEqual
  | openParen | closeParen | openSquare | closeSquare | openCurly | closeCurly
deriving DecidableEq, Repr

def Mark.text : Mark → String
  | .assign => "="
  | .comma => ","
  | .semicolon => ";"
  | .plus => "+"
  | .minus => "-"
  | .times => "*"
  | .div => "/"
  | .rem => "%"
  | .not => "!"
  | .and => "&&"
  | .or => "||"
  | .equal => "=="
  | .notEqual => "!="
  | .less => "<"
  | .greater => ">"
  | .lessOrEqual => "<="
  | .greaterOrEqual => ">="
  | .openParen => "("
  | .closeParen => ")"
  | .openSquare => "["
  | .closeSquare => "]"
  | .openCurly => "\x7b"
  | .closeCurly => "\x7d"

inductive Token
  | identifier (name : String)
  | keyword (word : Keyword)
  | literal (value : Int32)
  | mark (sign : Mark)
deriving DecidableEq

/-- How messages name a token. -/
def Token.text : Token → String
  | .identifier name => "identifier `" ++ name ++ "`"
  | .keyword word => "keyword `" ++ word.text ++ "`"
  | .literal value => "literal `" ++ toString value.toInt ++ "`"
  | .mark sign => "`" ++ sign.text ++ "`"

end SysY

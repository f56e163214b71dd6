import SysY.Token
import SysY.Tree

/-!
# Reading trees

A recursive descent over the tokens of a program. Expressions have six levels of operators that
associate to the left, then operators in front of an operand, then primaries; their elements come
out in postfix order.

A parser knows the tokens ahead and the location of the last one it took, which is where it reports
what is wrong. Every loop takes a token in each round and every nested construct takes one before it
opens, so the number of tokens bounds both: loops and nesting run on such a bound, and never reach
its end.
-/

namespace SysY

inductive GrammarError
  | unexpectedToken (expected found : Token)
  | missingToken (expected : Token)
  | expectedIdentifier
  | expectedExpression
  | unexpectedEnd
deriving DecidableEq

def GrammarError.message : GrammarError → String
  | .unexpectedToken expected found =>
    "Expected token " ++ expected.text ++ ", found " ++ found.text ++ " instead"
  | .missingToken expected => "Expected token " ++ expected.text ++ ", none was found instead"
  | .expectedIdentifier => "Expected identifier"
  | .expectedExpression => "Expected an expression"
  | .unexpectedEnd => "Abrupt end of program"

namespace Tree

/-- The tokens ahead, and the location of the last token taken. -/
structure Cursor where
  tokens : List (Located Token)
  last : Location

/-- Why a parser failed. A weak failure says that what was asked for does not stand here at all;
where it is optional, it is then left out. -/
structure Failure where
  weak : Bool
  error : Located GrammarError

abbrev Parser := StateT Cursor (Except Failure)

namespace Parser

/-! ## Single tokens -/

/-- Fails at the last token taken. -/
def fail {α : Type} (error : GrammarError) : Parser α := do
  throw ⟨false, error, (← get).last⟩

def failing {α : Type} (weak : Bool) (parser : Parser α) : Parser α := fun cursor =>
  (parser cursor).mapError fun failure => { failure with weak := weak }

def weakly {α : Type} (parser : Parser α) : Parser α := failing true parser

def strictly {α : Type} (parser : Parser α) : Parser α := failing false parser

def peek : Parser (Option Token) := do
  return (← get).tokens.head?.map (·.value)

/-- The location of the token ahead, or of the last one at the end. -/
def here : Parser Location := do
  let cursor ← get
  return match cursor.tokens with
    | [] => cursor.last
    | token :: _ => token.location

def since (start : Location) : Parser Location := do
  return .span start (← get).last

def next : Parser (Located Token) := do
  match (← get).tokens with
  | [] => fail .unexpectedEnd
  | token :: rest =>
    set (⟨rest, token.location⟩ : Cursor)
    return token

def accept (token : Token) : Parser Bool := do
  match (← get).tokens with
  | [] => return false
  | found :: rest =>
    if found.value = token then
      set (⟨rest, found.location⟩ : Cursor)
      return true
    else return false

def expect (token : Token) : Parser Unit := do
  match (← get).tokens with
  | [] => fail (.missingToken token)
  | found :: rest =>
    set (⟨rest, found.location⟩ : Cursor)
    if found.value = token then return () else fail (.unexpectedToken token found.value)

def identifier : Parser Name := do
  let token ← next
  match token.value with
  | .identifier name => return ⟨name, token.location⟩
  | _ => fail .expectedIdentifier

/-! ## Loops and choices -/

/-- How many rounds a loop from here on can have at most. -/
def bound : Parser Nat := do return (← get).tokens.length + 1

/-- What a parser past its bound would answer. -/
def exhausted {α : Type} : Parser α := fail .unexpectedEnd

/-- Tries a parser; if it fails, nothing has been taken. -/
def attempt {α : Type} (parser : Parser α) : Parser (Option α) := fun cursor =>
  match parser cursor with
  | .ok (value, cursor') => .ok (some value, cursor')
  | .error _ => .ok (none, cursor)

/-- Tries a parser; if it fails weakly, nothing has been taken. -/
def optionally {α : Type} (parser : Parser α) : Parser (Option α) := fun cursor =>
  match parser cursor with
  | .ok (value, cursor') => .ok (some value, cursor')
  | .error failure => if failure.weak then .ok (none, cursor) else .error failure

def commaRest {α : Type} (item : Parser α) : Nat → Parser (List α)
  | 0 => exhausted
  | n + 1 => do
    if ← accept (.mark .comma) then
      let first ← strictly item
      return first :: (← commaRest item n)
    else return []

def commaSeparated {α : Type} (item : Parser α) : Parser (List α) := do
  let first ← strictly item
  return first :: (← commaRest item (← bound))

/-- Any number of items, with commas between them. There are none if the first one fails weakly. -/
def commaSeparatedOrEmpty {α : Type} (item : Parser α) : Parser (List α) := do
  match ← optionally item with
  | none => return []
  | some first => return first :: (← commaRest item (← bound))

/-! ## Expressions -/

/-- The operators between operands by level, the loosest level first. -/
def levels : List (List (Mark × BinaryOperator)) :=
  [[(.or, .or)],
   [(.and, .and)],
   [(.equal, .equal), (.notEqual, .notEqual)],
   [(.less, .less), (.greater, .greater), (.lessOrEqual, .lessOrEqual),
    (.greaterOrEqual, .greaterOrEqual)],
   [(.plus, .add), (.minus, .sub)],
   [(.times, .mul), (.div, .div), (.rem, .rem)]]

/-- The operator of a level that a token is. -/
def operatorIn (level : List (Mark × BinaryOperator)) : Option Token → Option BinaryOperator
  | some (.mark sign) => level.lookup sign
  | _ => none

/-- The marker behind the left operand of an operator. -/
def splitMarker (operator : BinaryOperator) : List Element :=
  match operator.connective? with
  | some connective => [.split connective]
  | none => []

/-- Further operands of one level, each behind an operator of the level. -/
def operandRest (operand : Parser (List Element)) (level : List (Mark × BinaryOperator)) :
    Nat → List Element → Parser (List Element)
  | 0, _ => exhausted
  | n + 1, left => do
    match operatorIn level (← peek) with
    | none => return left
    | some operator =>
      let _ ← next
      let right ← strictly operand
      operandRest operand level n (left ++ (splitMarker operator ++ (right ++ [.binary operator])))

/-- An expression of the given levels over operands of the tightest one. -/
def leveled (operand : Parser (List Element)) :
    List (List (Mark × BinaryOperator)) → Parser (List Element)
  | [] => operand
  | level :: tighter => do
    let left ← leveled operand tighter
    operandRest (leveled operand tighter) level (← bound) left

def signOf : Option Token → Option UnaryOperator
  | some (.mark .plus) => some .plus
  | some (.mark .minus) => some .minus
  | some (.mark .not) => some .not
  | _ => none

def signed (primary : Parser (List Element)) : Nat → Parser (List Element)
  | 0 => exhausted
  | n + 1 => do
    match signOf (← peek) with
    | none => primary
    | some operator =>
      let _ ← next
      return (← strictly (signed primary n)) ++ [.unary operator]

def located (elements : Parser (List Element)) : Parser Expr := do
  let start ← here
  let elements ← elements
  return .mk elements (← since start)

def indexRest (expr : Parser Expr) : Nat → Parser (List Expr)
  | 0 => exhausted
  | n + 1 => do
    if ← accept (.mark .openSquare) then
      let index ← expr
      expect (.mark .closeSquare)
      return index :: (← indexRest expr n)
    else return []

def indices (expr : Parser Expr) : Parser (List Expr) := do
  indexRest expr (← bound)

def primary (inner : Parser (List Element)) : Parser (List Element) := do
  let token ← next
  match token.value with
  | .mark .openParen =>
    let elements ← inner
    expect (.mark .closeParen)
    return elements
  | .literal value => return [.literal value token.location]
  | .identifier name =>
    if ← accept (.mark .openParen) then
      let arguments ←
        if ← accept (.mark .closeParen) then pure []
        else do
          let arguments ← commaSeparated (located inner)
          expect (.mark .closeParen)
          pure arguments
      return [.call ⟨name, token.location⟩ arguments (← since token.location)]
    else
      let indices ← indices (located inner)
      return [.read ⟨name, token.location⟩ indices (← since token.location)]
  | _ => weakly (fail .expectedExpression)

/-- The elements of an expression, nested at most `depth` deep. -/
def elements : (depth : Nat) → Parser (List Element)
  | 0 => exhausted
  | depth + 1 => do
    leveled (signed (primary (elements depth)) (← bound)) levels

def expr (depth : Nat) : Parser Expr := located (elements depth)

/-! ## Declarations -/

def initializer (expr : Parser Expr) : (depth : Nat) → Parser Initializer
  | 0 => exhausted
  | depth + 1 => do
    let start ← here
    if ← accept (.mark .openCurly) then
      let items ←
        if ← accept (.mark .closeCurly) then pure []
        else do
          let items ← commaSeparated (initializer expr depth)
          expect (.mark .closeCurly)
          pure items
      return .list items (← since start)
    else return .expr (← expr)

def definition (depth : Nat) : Parser Definition := do
  let name ← identifier
  let dimensions ← indices (expr depth)
  let initializer ←
    if ← accept (.mark .assign) then some <$> initializer (expr depth) depth else pure none
  return { name, dimensions, initializer }

def declaration (depth : Nat) : Parser Declaration := do
  let constant ← accept (.keyword .const)
  expect (.keyword .int)
  let definitions ← commaSeparated (definition depth)
  expect (.mark .semicolon)
  return { constant, definitions }

/-! ## Statements -/

def condition (depth : Nat) : Parser Expr := do
  expect (.mark .openParen)
  let condition ← expr depth
  expect (.mark .closeParen)
  return condition

def target (depth : Nat) : Parser (Located Place) := do
  let name ← identifier
  let indices ← indices (expr depth)
  let location ← since name.location
  expect (.mark .assign)
  return ⟨{ name, indices }, location⟩

/-- A statement that begins with no keyword: an assignment or an expression. -/
def simpleStatement (depth : Nat) : Parser Statement := do
  match ← attempt (target depth) with
  | some target =>
    let value ← expr depth
    expect (.mark .semicolon)
    return .assign target.value target.location value
  | none =>
    let value ← expr depth
    expect (.mark .semicolon)
    return .expr value

def blockRest (depth : Nat) (statement : Parser Statement) : Nat → Parser Block
  | 0 => exhausted
  | n + 1 => do
    if ← accept (.mark .closeCurly) then return .nil
    else match ← peek with
      | some (.keyword .const) | some (.keyword .int) =>
        let item ← declaration depth
        return .declaration item (← blockRest depth statement n)
      | _ =>
        let item ← statement
        return .statement item (← blockRest depth statement n)

def block (depth : Nat) (statement : Parser Statement) : Parser Block := do
  expect (.mark .openCurly)
  blockRest depth statement (← bound)

/-- A statement whose expressions are nested at most `depth` deep and whose statements are nested at
most as deep as the last argument says. -/
def statement (depth : Nat) : Nat → Parser Statement
  | 0 => exhausted
  | n + 1 => do
    let start ← here
    match ← peek with
    | some (.mark .openCurly) => return .block (← block depth (statement depth n))
    | some (.mark .semicolon) =>
      let _ ← next
      return .empty
    | some (.keyword .if) =>
      let _ ← next
      let condition ← condition depth
      let yes ← statement depth n
      if ← accept (.keyword .else) then
        return .ifElse condition yes (← statement depth n)
      else return .ifThen condition yes
    | some (.keyword .while) =>
      let _ ← next
      let condition ← condition depth
      return .while condition (← statement depth n)
    | some (.keyword .break) =>
      let _ ← next
      expect (.mark .semicolon)
      return .break (← since start)
    | some (.keyword .continue) =>
      let _ ← next
      expect (.mark .semicolon)
      return .continue (← since start)
    | some (.keyword .return) =>
      let _ ← next
      if ← accept (.mark .semicolon) then return .return none (← since start)
      else
        let value ← expr depth
        expect (.mark .semicolon)
        return .return (some value) (← since start)
    | _ => simpleStatement depth

/-! ## Programs -/

def parameter (depth : Nat) : Parser Parameter := do
  weakly (expect (.keyword .int))
  let name ← identifier
  if ← accept (.mark .openSquare) then
    expect (.mark .closeSquare)
    return { name, dimensions := some (← indices (expr depth)) }
  else return { name, dimensions := none }

/-- The type that a function of the tokens ahead would return, if they begin a function. -/
def functionAhead : List (Located Token) → Option ReturnType
  | first :: second :: third :: _ =>
    match first.value, second.value, third.value with
    | .keyword .int, .identifier _, .mark .openParen => some .int
    | .keyword .void, .identifier _, .mark .openParen => some .void
    | _, _, _ => none
  | _ => none

def function (depth : Nat) (returns : ReturnType) : Parser Function := do
  let _ ← next
  let name ← identifier
  expect (.mark .openParen)
  let parameters ← commaSeparatedOrEmpty (parameter depth)
  expect (.mark .closeParen)
  let body ← block depth (statement depth depth)
  return { returns, name, parameters, body }

def item (depth : Nat) : Parser Item := do
  match functionAhead (← get).tokens with
  | some returns => return .function (← function depth returns)
  | none => return .declaration (← declaration depth)

def itemRest (depth : Nat) : Nat → Parser (List Item)
  | 0 => exhausted
  | n + 1 => do
    if (← peek).isNone then return []
    else
      let first ← item depth
      return first :: (← itemRest depth n)

def program : Parser Program := do
  let depth ← bound
  let items ← itemRest depth depth
  return { items, stop := (← get).last }

end Parser

def Program.ofTokens (tokens : List (Located Token)) : Except (Located GrammarError) Program :=
  match Parser.program.run ⟨tokens, .unknown⟩ with
  | .ok (program, _) => .ok program
  | .error failure => .error failure.error

end Tree

end SysY

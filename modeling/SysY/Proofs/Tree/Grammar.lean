import SysY.Token
import SysY.Tree

/-!
# The grammar of programs

The rules of the language, with the tree that each of them stands for. A rule relates a list of
tokens to a tree: `Sentence ts e` says that the tokens `ts` are an expression, and that `e` is its
tree.

Expressions are given by their operators and operands (`Operation`); their tree is the postfix order
of these. Only one rule is ambiguous: an `else` may belong to any open `if` in front of it. Among the
trees of a program, the one that counts gives every `else` to the nearest `if` (`ElseNearest`).
-/

namespace SysY.Tree

abbrev Tokens := List (Located Token)

namespace Grammar

variable {α : Type}

/-! ## Locations -/

/-- Where the last of some tokens stands, if there is one. -/
def lastOf (last : Location) : Tokens → Location
  | [] => last
  | token :: rest => lastOf token.location rest

/-- From the first of some tokens to the last one. -/
def extent : Tokens → Location
  | [] => .unknown
  | first :: rest => .span first.location (lastOf first.location rest)

/-! ## Lists -/

/-- Any number of things, one behind the other. -/
inductive Repeated (rule : Tokens → α → Prop) : Tokens → List α → Prop
  | nil : Repeated rule [] []
  | cons {xs ys : Tokens} {a : α} {as : List α} (head : rule xs a) (tail : Repeated rule ys as) :
    Repeated rule (xs ++ ys) (a :: as)

/-- One thing or more, with commas between them. -/
inductive Separated (rule : Tokens → α → Prop) : Tokens → List α → Prop
  | single {xs : Tokens} {a : α} (head : rule xs a) : Separated rule xs [a]
  | cons {xs ys : Tokens} {comma : Located Token} {a : α} {as : List α} (head : rule xs a)
    (hcomma : comma.value = .mark .comma) (tail : Separated rule ys as) :
    Separated rule (xs ++ comma :: ys) (a :: as)

/-- Any number of things, with commas between them. -/
inductive Listing (rule : Tokens → α → Prop) : Tokens → List α → Prop
  | none : Listing rule [] []
  | some {xs : Tokens} {as : List α} (items : Separated rule xs as) : Listing rule xs as

/-! ## Expressions -/

/-- The sign of an operator. -/
def unaryMark : UnaryOperator → Mark
  | .plus => .plus
  | .minus => .minus
  | .not => .not

def binaryMark : BinaryOperator → Mark
  | .add => .plus
  | .sub => .minus
  | .mul => .times
  | .div => .div
  | .rem => .rem
  | .less => .less
  | .greater => .greater
  | .lessOrEqual => .lessOrEqual
  | .greaterOrEqual => .greaterOrEqual
  | .equal => .equal
  | .notEqual => .notEqual
  | .and => .and
  | .or => .or

/-- How tightly an operator binds its operands. -/
def level : BinaryOperator → Nat
  | .or => 0
  | .and => 1
  | .equal | .notEqual => 2
  | .less | .greater | .lessOrEqual | .greaterOrEqual => 3
  | .add | .sub => 4
  | .mul | .div | .rem => 5

/-- The level of operators in front of an operand. -/
def unaryLevel : Nat := 6

/-- The level of parenthesized expressions, literals, calls and variables. -/
def primaryLevel : Nat := 7

/-- The operators and operands of an expression. -/
inductive Operation
  | literal (value : Int32) (location : Location)
  | read (name : Name) (indices : List Expr) (location : Location)
  | call (function : Name) (arguments : List Expr) (location : Location)
  | unary (operator : UnaryOperator) (operand : Operation)
  | binary (operator : BinaryOperator) (left right : Operation)

/-- The postfix order of an expression; behind the left operand of a connective there is a marker. -/
def Operation.elements : Operation → List Element
  | .literal value location => [.literal value location]
  | .read name indices location => [.read name indices location]
  | .call function arguments location => [.call function arguments location]
  | .unary operator operand => operand.elements ++ [.unary operator]
  | .binary .and left right =>
    left.elements ++ .split .and :: (right.elements ++ [.binary .and])
  | .binary .or left right =>
    left.elements ++ .split .or :: (right.elements ++ [.binary .or])
  | .binary operator left right => left.elements ++ (right.elements ++ [.binary operator])

mutual

/-- An operand of a level: a level is a tighter one, or has one of its operators behind an operand of
the same level and in front of a tighter one. -/
inductive Operand : Nat → Tokens → Operation → Prop
  | tighter {k : Nat} {ts : Tokens} {t : Operation} (hk : k < primaryLevel)
    (h : Operand (k + 1) ts t) : Operand k ts t
  | binary {operator : BinaryOperator} {k : Nat} {xs ys : Tokens} {sign : Located Token}
    {left right : Operation} (hlevel : level operator = k) (hleft : Operand k xs left)
    (hsign : sign.value = .mark (binaryMark operator)) (hright : Operand (k + 1) ys right) :
    Operand k (xs ++ sign :: ys) (.binary operator left right)
  | unary {operator : UnaryOperator} {ts : Tokens} {sign : Located Token} {t : Operation}
    (hsign : sign.value = .mark (unaryMark operator)) (h : Operand unaryLevel ts t) :
    Operand unaryLevel (sign :: ts) (.unary operator t)
  | parenthesized {ts : Tokens} {left right : Located Token} {t : Operation}
    (hleft : left.value = .mark .openParen) (h : Operand 0 ts t)
    (hright : right.value = .mark .closeParen) : Operand primaryLevel (left :: (ts ++ [right])) t
  | literal {value : Int32} {token : Located Token} (htoken : token.value = .literal value) :
    Operand primaryLevel [token] (.literal value token.location)
  | call {x : String} {ts : Tokens} {name left right : Located Token} {arguments : List Expr}
    (hname : name.value = .identifier x) (hleft : left.value = .mark .openParen)
    (harguments : Listing Sentence ts arguments) (hright : right.value = .mark .closeParen) :
    Operand primaryLevel (name :: left :: (ts ++ [right]))
      (.call ⟨x, name.location⟩ arguments (extent (name :: left :: (ts ++ [right]))))
  | read {x : String} {ts : Tokens} {name : Located Token} {indices : List Expr}
    (hname : name.value = .identifier x) (hindices : Repeated Index ts indices) :
    Operand primaryLevel (name :: ts) (.read ⟨x, name.location⟩ indices (extent (name :: ts)))

/-- An expression. -/
inductive Sentence : Tokens → Expr → Prop
  | mk {ts : Tokens} {t : Operation} (h : Operand 0 ts t) : Sentence ts (.mk t.elements (extent ts))

/-- An expression in square brackets. -/
inductive Index : Tokens → Expr → Prop
  | mk {ts : Tokens} {left right : Located Token} {e : Expr}
    (hleft : left.value = .mark .openSquare) (h : Sentence ts e)
    (hright : right.value = .mark .closeSquare) : Index (left :: (ts ++ [right])) e

end

theorem Operand.ne_nil : ∀ {k : Nat} {ts : Tokens} {t : Operation}, Operand k ts t → ts ≠ []
  | _, _, _, .tighter _ h => h.ne_nil
  | _, _, _, .binary _ _ _ _ => by simp
  | _, _, _, .unary _ _ => by simp
  | _, _, _, .parenthesized _ _ _ => by simp
  | _, _, _, .literal _ => by simp
  | _, _, _, .call _ _ _ _ => by simp
  | _, _, _, .read _ _ => by simp

/-! ## Declarations -/

/-- What a definition is initialized with. -/
inductive Initial : Tokens → Initializer → Prop
  | expr {ts : Tokens} {e : Expr} (h : Sentence ts e) : Initial ts (.expr e)
  | list {ts : Tokens} {left right : Located Token} {items : List Initializer}
    (hleft : left.value = .mark .openCurly) (hitems : Listing Initial ts items)
    (hright : right.value = .mark .closeCurly) :
    Initial (left :: (ts ++ [right])) (.list items (extent (left :: (ts ++ [right]))))

/-- One name of a declaration. -/
inductive Defines : Tokens → Definition → Prop
  | plain {x : String} {ds : Tokens} {name : Located Token} {dimensions : List Expr}
    (hname : name.value = .identifier x) (hdimensions : Repeated Index ds dimensions) :
    Defines (name :: ds) ⟨⟨x, name.location⟩, dimensions, none⟩
  | initialized {x : String} {ds ts : Tokens} {name assign : Located Token}
    {dimensions : List Expr} {initializer : Initializer} (hname : name.value = .identifier x)
    (hdimensions : Repeated Index ds dimensions) (hassign : assign.value = .mark .assign)
    (hinitializer : Initial ts initializer) :
    Defines (name :: (ds ++ assign :: ts)) ⟨⟨x, name.location⟩, dimensions, some initializer⟩

inductive Declares : Tokens → Declaration → Prop
  | ordinary {ts : Tokens} {type semicolon : Located Token} {definitions : List Definition}
    (htype : type.value = .keyword .int) (hdefinitions : Separated Defines ts definitions)
    (hsemicolon : semicolon.value = .mark .semicolon) :
    Declares (type :: (ts ++ [semicolon])) ⟨false, definitions⟩
  | constant {ts : Tokens} {const type semicolon : Located Token} {definitions : List Definition}
    (hconst : const.value = .keyword .const) (htype : type.value = .keyword .int)
    (hdefinitions : Separated Defines ts definitions)
    (hsemicolon : semicolon.value = .mark .semicolon) :
    Declares (const :: type :: (ts ++ [semicolon])) ⟨true, definitions⟩

/-! ## Statements -/

mutual

inductive States : Tokens → Statement → Prop
  | assign {x : String} {is ts : Tokens} {name assign semicolon : Located Token}
    {indices : List Expr} {value : Expr} (hname : name.value = .identifier x)
    (hindices : Repeated Index is indices) (hassign : assign.value = .mark .assign)
    (hvalue : Sentence ts value) (hsemicolon : semicolon.value = .mark .semicolon) :
    States (name :: (is ++ assign :: (ts ++ [semicolon])))
      (.assign ⟨⟨x, name.location⟩, indices⟩ (extent (name :: is)) value)
  | expr {ts : Tokens} {semicolon : Located Token} {value : Expr} (hvalue : Sentence ts value)
    (hsemicolon : semicolon.value = .mark .semicolon) : States (ts ++ [semicolon]) (.expr value)
  | empty {semicolon : Located Token} (hsemicolon : semicolon.value = .mark .semicolon) :
    States [semicolon] .empty
  | block {ts : Tokens} {body : Block} (h : Braces ts body) : States ts (.block body)
  | ifThen {cs ts : Tokens} {keyword left right : Located Token} {condition : Expr}
    {yes : Statement} (hkeyword : keyword.value = .keyword .if)
    (hleft : left.value = .mark .openParen) (hcondition : Sentence cs condition)
    (hright : right.value = .mark .closeParen) (hyes : States ts yes) :
    States (keyword :: left :: (cs ++ right :: ts)) (.ifThen condition yes)
  | ifElse {cs ts us : Tokens} {keyword left right other : Located Token} {condition : Expr}
    {yes no : Statement} (hkeyword : keyword.value = .keyword .if)
    (hleft : left.value = .mark .openParen) (hcondition : Sentence cs condition)
    (hright : right.value = .mark .closeParen) (hyes : States ts yes)
    (hother : other.value = .keyword .else) (hno : States us no) :
    States (keyword :: left :: (cs ++ right :: (ts ++ other :: us))) (.ifElse condition yes no)
  | while {cs ts : Tokens} {keyword left right : Located Token} {condition : Expr}
    {body : Statement} (hkeyword : keyword.value = .keyword .while)
    (hleft : left.value = .mark .openParen) (hcondition : Sentence cs condition)
    (hright : right.value = .mark .closeParen) (hbody : States ts body) :
    States (keyword :: left :: (cs ++ right :: ts)) (.while condition body)
  | break {keyword semicolon : Located Token} (hkeyword : keyword.value = .keyword .break)
    (hsemicolon : semicolon.value = .mark .semicolon) :
    States [keyword, semicolon] (.break (extent [keyword, semicolon]))
  | continue {keyword semicolon : Located Token} (hkeyword : keyword.value = .keyword .continue)
    (hsemicolon : semicolon.value = .mark .semicolon) :
    States [keyword, semicolon] (.continue (extent [keyword, semicolon]))
  | returnNothing {keyword semicolon : Located Token}
    (hkeyword : keyword.value = .keyword .return)
    (hsemicolon : semicolon.value = .mark .semicolon) :
    States [keyword, semicolon] (.return none (extent [keyword, semicolon]))
  | returnValue {ts : Tokens} {keyword semicolon : Located Token} {value : Expr}
    (hkeyword : keyword.value = .keyword .return) (hvalue : Sentence ts value)
    (hsemicolon : semicolon.value = .mark .semicolon) :
    States (keyword :: (ts ++ [semicolon]))
      (.return (some value) (extent (keyword :: (ts ++ [semicolon]))))

/-- Declarations and statements, one behind the other. -/
inductive Sequence : Tokens → Block → Prop
  | nil : Sequence [] .nil
  | declaration {ds ts : Tokens} {declaration : Declaration} {rest : Block}
    (head : Declares ds declaration) (tail : Sequence ts rest) :
    Sequence (ds ++ ts) (.declaration declaration rest)
  | statement {ss ts : Tokens} {statement : Statement} {rest : Block}
    (head : States ss statement) (tail : Sequence ts rest) :
    Sequence (ss ++ ts) (.statement statement rest)

/-- A block. -/
inductive Braces : Tokens → Block → Prop
  | mk {ts : Tokens} {left right : Located Token} {body : Block}
    (hleft : left.value = .mark .openCurly) (hbody : Sequence ts body)
    (hright : right.value = .mark .closeCurly) : Braces (left :: (ts ++ [right])) body

end

/-! ## Programs -/

/-- A parameter. -/
inductive Takes : Tokens → Parameter → Prop
  | scalar {x : String} {type name : Located Token} (htype : type.value = .keyword .int)
    (hname : name.value = .identifier x) : Takes [type, name] ⟨⟨x, name.location⟩, none⟩
  | array {x : String} {ds : Tokens} {type name left right : Located Token}
    {dimensions : List Expr} (htype : type.value = .keyword .int)
    (hname : name.value = .identifier x) (hleft : left.value = .mark .openSquare)
    (hright : right.value = .mark .closeSquare) (hdimensions : Repeated Index ds dimensions) :
    Takes (type :: name :: left :: right :: ds) ⟨⟨x, name.location⟩, some dimensions⟩

def returnKeyword : ReturnType → Keyword
  | .int => .int
  | .void => .void

/-- A declaration or a function. -/
inductive Part : Tokens → Item → Prop
  | declaration {ts : Tokens} {declaration : Declaration} (h : Declares ts declaration) :
    Part ts (.declaration declaration)
  | function {returns : ReturnType} {x : String} {ps bs : Tokens}
    {type name left right : Located Token} {parameters : List Parameter} {body : Block}
    (htype : type.value = .keyword (returnKeyword returns)) (hname : name.value = .identifier x)
    (hleft : left.value = .mark .openParen) (hparameters : Listing Takes ps parameters)
    (hright : right.value = .mark .closeParen) (hbody : Braces bs body) :
    Part (type :: name :: left :: (ps ++ right :: bs))
      (.function ⟨returns, ⟨x, name.location⟩, parameters, body⟩)

/-- A program. -/
inductive Whole : Tokens → Program → Prop
  | mk {ts : Tokens} {items : List Item} (h : Repeated Part ts items) :
    Whole ts ⟨items, lastOf .unknown ts⟩

end Grammar

/-! ## The nearest `if` -/

/-- Whether an `else` behind a statement could belong to an `if` in it. -/
def Statement.endsOpen : Statement → Bool
  | .ifThen _ _ => true
  | .ifElse _ _ no => no.endsOpen
  | .while _ body => body.endsOpen
  | _ => false

mutual

/-- Every `else` of a statement belongs to the nearest `if` that it could belong to. -/
def Statement.ElseNearest : Statement → Prop
  | .block body => body.ElseNearest
  | .ifThen _ yes => yes.ElseNearest
  | .ifElse _ yes no => yes.endsOpen = false ∧ yes.ElseNearest ∧ no.ElseNearest
  | .while _ body => body.ElseNearest
  | _ => True

def Block.ElseNearest : Block → Prop
  | .nil => True
  | .declaration _ rest => rest.ElseNearest
  | .statement statement rest => statement.ElseNearest ∧ rest.ElseNearest

end

def Program.ElseNearest (program : Program) : Prop :=
  ∀ f ∈ program.functions, f.body.ElseNearest

end SysY.Tree

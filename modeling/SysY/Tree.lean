import SysY.Text.Location

/-!
# Program trees

A program is a list of declarations and functions. Statements form trees. Expressions do not: an
expression is the sequence of its terms and operators in postfix order, in which every `&&` and `||`
also has a split marker right behind its left operand, so that a reader knows where the operand ends
that may have to be skipped.
-/

namespace SysY.Tree

abbrev Name := Located String

/-- An operator in front of its operand. -/
inductive UnaryOperator
  | plus | minus | not
deriving DecidableEq, Repr

inductive BinaryOperator
  | add | sub | mul | div | rem
  | less | greater | lessOrEqual | greaterOrEqual | equal | notEqual
  | and | or
deriving DecidableEq, Repr

/-- An operator that may skip its right operand. -/
inductive Connective
  | and | or
deriving DecidableEq, Repr

def Connective.operator : Connective → BinaryOperator
  | .and => .and
  | .or => .or

def BinaryOperator.connective? : BinaryOperator → Option Connective
  | .and => some .and
  | .or => some .or
  | _ => none

mutual

/-- One step of an expression in postfix order. -/
inductive Element
  | literal (value : Int32) (location : Location)
  | read (name : Name) (indices : List Expr) (location : Location)
  | call (function : Name) (arguments : List Expr) (location : Location)
  /-- An operator on the operand in front of it. -/
  | unary (operator : UnaryOperator)
  /-- An operator on the two operands in front of it. -/
  | binary (operator : BinaryOperator)
  /-- The end of the left operand of a connective. -/
  | split (connective : Connective)

inductive Expr
  | mk (elements : List Element) (location : Location)

end

def Expr.elements : Expr → List Element
  | .mk elements _ => elements

def Expr.location : Expr → Location
  | .mk _ location => location

/-- A variable, or an element of an array, that can be assigned. -/
structure Place where
  name : Name
  indices : List Expr

inductive Initializer
  | expr (value : Expr)
  | list (items : List Initializer) (location : Location)

def Initializer.location : Initializer → Location
  | .expr value => value.location
  | .list _ location => location

/-- One name of a declaration; an array has one dimension or more. -/
structure Definition where
  name : Name
  dimensions : List Expr
  initializer : Option Initializer

structure Declaration where
  constant : Bool
  definitions : List Definition

mutual

inductive Statement
  | assign (target : Place) (location : Location) (value : Expr)
  | expr (value : Expr)
  | empty
  | block (body : Block)
  | ifThen (condition : Expr) (yes : Statement)
  | ifElse (condition : Expr) (yes no : Statement)
  | while (condition : Expr) (body : Statement)
  | break (location : Location)
  | continue (location : Location)
  | return (value : Option Expr) (location : Location)

inductive Block
  | nil
  | declaration (declaration : Declaration) (rest : Block)
  | statement (statement : Statement) (rest : Block)

end

inductive ReturnType
  | int | void
deriving DecidableEq, Repr

/-- A formal parameter. The dimensions of an array parameter do not count its first, open one. -/
structure Parameter where
  name : Name
  dimensions : Option (List Expr)

structure Function where
  returns : ReturnType
  name : Name
  parameters : List Parameter
  body : Block

inductive Item
  | declaration (declaration : Declaration)
  | function (function : Function)

/-- A program, and the location of its last token. -/
structure Program where
  items : List Item
  stop : Location

def Program.functions (program : Program) : List Function :=
  program.items.filterMap fun
    | .declaration _ => none
    | .function function => some function

end SysY.Tree

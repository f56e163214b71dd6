import SysY.Eeyore.Symbol
import SysY.Operator

/-!
# Three-address code

Eeyore is the first intermediate language: global declarations and functions, each function a list
of instructions over symbols. A function knows its own variables from its declarations; every other
variable is global. Array indices count bytes, and reading a symbol that names an array gives its
address.
-/

namespace SysY.Eeyore

/-- An operand: a constant or the value of a symbol. -/
inductive Value
  | const (value : Int32)
  | symbol (x : Symbol)
deriving DecidableEq, Hashable

namespace Value

def symbol? : Value → Option Symbol
  | .const _ => none
  | .symbol x => some x

def mapSymbol (f : Symbol → Symbol) : Value → Value
  | .const value => .const value
  | .symbol x => .symbol (f x)

end Value

/-- A declared symbol, with its number of elements if it is an array. -/
structure Decl where
  symbol : Symbol
  size : Option UInt32
deriving DecidableEq

inductive Instruction
  /-- `dest = op operand` -/
  | unary (dest : Symbol) (op : UnaryOp) (operand : Value)
  /-- `dest = left op right` -/
  | binary (dest : Symbol) (op : BinaryOp) (left right : Value)
  /-- `dest = value` -/
  | copy (dest : Symbol) (value : Value)
  /-- `array[index] = value` -/
  | store (array : Symbol) (index value : Value)
  /-- `dest = array[index]` -/
  | load (dest array : Symbol) (index : Value)
  | branch (left : Value) (relation : Relation) (right : Value) (target : Label)
  | jump (target : Label)
  /-- The place that jumps to `l` go to. -/
  | label (l : Label)
  | call (function : String) (arguments : List Value) (output : Option Symbol)
  | return (value : Option Value)
deriving DecidableEq

namespace Instruction

/-- The scalar symbol that the instruction writes. A store does not redefine its array. -/
def definition : Instruction → Option Symbol
  | .unary dest .. | .binary dest .. | .copy dest _ | .load dest .. => some dest
  | .call _ _ output => output
  | .store .. | .branch .. | .jump _ | .label _ | .return _ => none

/-- The symbols that the instruction reads, array bases included, in order. -/
def uses : Instruction → List Symbol
  | .unary _ _ operand => operand.symbol?.toList
  | .binary _ _ left right | .branch left _ right _ => left.symbol?.toList ++ right.symbol?.toList
  | .copy _ value => value.symbol?.toList
  | .store array index value => array :: (index.symbol?.toList ++ value.symbol?.toList)
  | .load _ array index => array :: index.symbol?.toList
  | .call _ arguments _ => arguments.filterMap Value.symbol?
  | .return (some value) => value.symbol?.toList
  | .return none | .jump _ | .label _ => []

/-- The operands, in order; array bases and destinations are none. -/
def operands : Instruction → List Value
  | .unary _ _ operand => [operand]
  | .binary _ _ left right | .branch left _ right _ => [left, right]
  | .copy _ value => [value]
  | .store _ index value => [index, value]
  | .load _ _ index => [index]
  | .call _ arguments _ => arguments
  | .return (some value) => [value]
  | .return none | .jump _ | .label _ => []

def mapOperands (f : Value → Value) : Instruction → Instruction
  | .unary dest op operand => .unary dest op (f operand)
  | .binary dest op left right => .binary dest op (f left) (f right)
  | .copy dest value => .copy dest (f value)
  | .store array index value => .store array (f index) (f value)
  | .load dest array index => .load dest array (f index)
  | .branch left relation right target => .branch (f left) relation (f right) target
  | .jump target => .jump target
  | .label l => .label l
  | .call function arguments output => .call function (arguments.map f) output
  | .return value => .return (value.map f)

/-- The destination, then the array base of a load, or the base of a store. -/
def places : Instruction → List Symbol
  | .unary dest .. | .binary dest .. | .copy dest _ => [dest]
  | .load dest array _ => [dest, array]
  | .store array .. => [array]
  | .call _ _ output => output.toList
  | .branch .. | .jump _ | .label _ | .return _ => []

def symbols (instruction : Instruction) : List Symbol :=
  instruction.operands.filterMap Value.symbol? ++ instruction.places

def mapPlaces (f : Symbol → Symbol) : Instruction → Instruction
  | .unary dest op operand => .unary (f dest) op operand
  | .binary dest op left right => .binary (f dest) op left right
  | .copy dest value => .copy (f dest) value
  | .store array index value => .store (f array) index value
  | .load dest array index => .load (f dest) (f array) index
  | .call function arguments output => .call function arguments (output.map f)
  | .branch left relation right target => .branch left relation right target
  | .jump target => .jump target
  | .label l => .label l
  | .return value => .return value

def mapSymbols (f : Symbol → Symbol) (instruction : Instruction) : Instruction :=
  (instruction.mapOperands (Value.mapSymbol f)).mapPlaces f

def target? : Instruction → Option Label
  | .branch _ _ _ target | .jump target => some target
  | _ => none

/-- Whether control never goes on to the next instruction. -/
def isTerminator : Instruction → Bool
  | .jump _ | .return _ => true
  | _ => false

def isCall : Instruction → Bool
  | .call .. => true
  | _ => false

end Instruction

structure Function where
  name : String
  parameters : UInt32
  decls : List Decl
  body : Array Instruction
deriving DecidableEq

def Function.isLocal (function : Function) (symbol : Symbol) : Bool :=
  match symbol.kind with
  | .variable => function.decls.any (·.symbol == symbol)
  | .temporary | .parameter => true

structure Program where
  globals : List Decl
  code : List Function
deriving DecidableEq

/-- Functions that measure time. They are told the line of the call, and the written code does not
show them. -/
def isTiming (function : String) : Bool :=
  function == "starttime" || function == "stoptime"

end SysY.Eeyore

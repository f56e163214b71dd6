import SysY.Operator
import SysY.Tigger.Register
import SysY.Eeyore.Symbol

/-!
# Register code

Tigger is the second intermediate language: three-address code over physical registers. What does
not live in a register lives in a slot of the function's frame, counted in words, or in a global
variable.
-/

namespace SysY.Tigger

inductive Operand
  | register (r : Register)
  | immediate (value : Int32)
deriving DecidableEq

structure Global where
  id : UInt32
deriving DecidableEq

/-- One step of a function. Offsets count bytes, slots count words. -/
inductive Instruction
  | binary (dest : Register) (op : BinaryOp) (left : Register) (right : Operand)
  | unary (dest : Register) (op : UnaryOp) (operand : Register)
  | move (dest source : Register)
  | constant (dest : Register) (value : Int32)
  /-- `base[offset] = value` -/
  | store (base : Register) (offset : Int32) (value : Register)
  /-- `dest = base[offset]` -/
  | load (dest base : Register) (offset : Int32)
  | branch (left : Register) (relation : Relation) (right : Register) (target : Label)
  | jump (target : Label)
  | label (l : Label)
  | call (function : String)
  | return
  | stackStore (value : Register) (slot : UInt32)
  | stackLoad (slot : UInt32) (dest : Register)
  | stackAddress (slot : UInt32) (dest : Register)
  | globalLoad (global : Global) (dest : Register)
  | globalAddress (global : Global) (dest : Register)
deriving DecidableEq

/-- A global variable, with its number of elements if it is an array. -/
structure GlobalDecl where
  global : Global
  size : Option UInt32
deriving DecidableEq

structure Function where
  name : String
  parameters : UInt32
  frame : UInt32
  body : List Instruction
deriving DecidableEq

structure Program where
  globals : List GlobalDecl
  code : List Function
deriving DecidableEq

end SysY.Tigger

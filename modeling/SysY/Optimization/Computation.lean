import SysY.Eeyore.Printer
import SysY.Flow.Slots
import SysY.Flow.Walk

/-!
# Computations and what invalidates them

A computation is what an instruction does to find the value of its destination, apart from that
destination. Two equal computations have the same value if nothing they depend on is written between
them. `unchanged` looks for such a write on all ways at once: it walks back from the later position
without passing the earlier one, and looks at every instruction it meets until it finds one.
-/

namespace SysY.Optimization

open Eeyore SysY.Flow

variable {n k : Nat}

/-- What can be computed again. -/
inductive Computation
  | unary (op : UnaryOp) (operand : Value)
  | binary (op : BinaryOp) (left right : Value)
  | load (array : Symbol) (index : Value)
deriving DecidableEq, Hashable

namespace Computation

/-- The computation of an instruction, and the symbol that receives its value. -/
def ofInstruction? : Instruction → Option (Symbol × Computation)
  | .unary dest op operand => some (dest, .unary op operand)
  | .binary dest op left right => some (dest, .binary op left right)
  | .load dest array index => some (dest, .load array index)
  | _ => none

def swapped? : Computation → Option Computation
  | .binary op left right => op.swapped?.map (.binary · right left)
  | _ => none

def operands : Computation → List Symbol
  | .unary _ operand => operand.symbol?.toList
  | .binary _ left right => left.symbol?.toList ++ right.symbol?.toList
  | .load _ index => index.symbol?.toList

/-- The fault of a noted computation that defines no symbol. -/
def fault : Computation → Fault
  | .load .. => .loadWithoutResult
  | _ => .computationWithoutResult

def text : Computation → String
  | .unary op operand => s!"{op}{operand}"
  | .binary op left right => s!"{left} {op} {right}"
  | .load array index => s!"{array}[{index}]"

end Computation

/-! ## Writes -/

/-- Whether an instruction may write one of some scalar symbols. A call may write every global one.
-/
def writesAny (slots : Slots k) (symbols : List Symbol) (instruction : Instruction) : Bool :=
  symbols.any fun symbol =>
    instruction.definition = some symbol || (instruction.isCall && (slots.find? symbol).isNone)

/-- Whether an instruction may write an element of an array. A parameter may point into any array.
-/
def clobbers (array : Symbol) : Instruction → Bool
  | .call .. => true
  | .store other _ _ => other = array || other.kind = .parameter || array.kind = .parameter
  | _ => false

/-- Whether an instruction may change the value of a computation, or the symbol that holds it. -/
def Computation.isSpoiledBy (slots : Slots k) (computation : Computation) (result : Symbol)
    (instruction : Instruction) : Bool :=
  writesAny slots (computation.operands ++ [result]) instruction ||
  match computation with
  | .load array _ => clobbers array instruction
  | _ => false

/-! ## Pollution -/

/-- What a search for pollution knows: whether it is about to begin, whether all it has looked at is
clean, and the positions it has looked at. -/
structure Inspection (n : Nat) where
  first : Bool
  clean : Bool
  seen : NodeSet n

/-- Looks at every position once, but not at `earlier` and not at the beginning of the walk; nothing
lets a walk go on once a pollution has been found. -/
def inspecting (body : Vector Instruction n) (earlier : Fin n) (pollutes : Instruction → Bool) :
    Guide (Inspection n) n where
  call known p :=
    if known.first then (true, { known with first := false })
    else if !known.clean || p = earlier || known.seen.get p then (false, known)
    else
      let clean := !pollutes (body.get p)
      (clean, ⟨false, clean, known.seen.add p⟩)
  room known := known.first.toNat + known.seen.room
  room_le known p := by
    have := NodeSet.room_add_le known.seen p
    grind
  room_lt known p := by
    have := @NodeSet.room_add_lt n known.seen p
    grind

/-- Whether no way from `earlier` to `later` meets an instruction that pollutes. The ends do not
count, but `later` does if a way leads back to it without passing `earlier`. -/
def unchanged (graph : Graph n) (body : Vector Instruction n) (later earlier : Fin n)
    (pollutes : Instruction → Bool) : Bool :=
  (graph.walk (inspecting body earlier pollutes) later ⟨true, true, .none⟩).clean

end SysY.Optimization

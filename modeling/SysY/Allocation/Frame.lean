import SysY.Flow.Slots
import SysY.Word

/-!
# Frames

The frame of a function is a row of words: spilled parameters, the registers that the function has
to preserve for its caller, those that it preserves around its own calls, and then spilled scalars
and arrays in the order of their declaration. Each object begins where the one before it ends.
-/

namespace SysY.Allocation

open Eeyore SysY.Flow

variable {k : Nat}

inductive Object (k : Nat)
  | slot (s : Fin k)
  | register (r : Register)
deriving DecidableEq

def Object.words (slots : Slots k) : Object k → UInt32
  | .slot s => (slots.decls.get s).size.getD 1
  | .register _ => 1

inductive Home
  | register (r : Register)
  | stack (offset : UInt32)
  | array (offset : UInt32)
deriving DecidableEq

/-- Places objects one after the other, from an offset on; the result has the final offset. -/
def placeFrom (words : Object k → UInt32) (start : UInt32) :
    List (Object k) → Except Fault (List (Object k × UInt32) × UInt32)
  | [] => .ok ([], start)
  | object :: objects => do
    let next ← checkedAdd start (words object)
    let (placed, size) ← placeFrom words next objects
    return ((object, start) :: placed, size)

structure Frame (k : Nat) where
  homes : Vector (Option Home) k
  /-- The registers preserved for the caller, with their offsets. -/
  saved : List (Register × UInt32)
  /-- The registers preserved around calls, with their offsets. -/
  spared : List (Register × UInt32)
  size : UInt32
deriving DecidableEq

namespace Frame

/-- The registers in use that satisfy a predicate, in the order of the register file. -/
def usedRegisters (registers : Vector (Option Register) k) (p : Register → Bool) : List Register :=
  Register.all.filter fun register => p register && registers.contains (some register)

def savedRegisters (registers : Vector (Option Register) k) : List Register :=
  usedRegisters registers Register.isSaved

def sparedRegisters (registers : Vector (Option Register) k) (hasCalls : Bool) : List Register :=
  if hasCalls then usedRegisters registers Register.isVolatile else []

def needsRoom (slots : Slots k) (registers : Vector (Option Register) k) (slot : Fin k) : Bool :=
  slots.isArray slot || (registers.get slot).isNone

def objects (parameters : UInt32) (slots : Slots k) (registers : Vector (Option Register) k)
    (hasCalls : Bool) : List (Object k) :=
  let roomy := (List.finRange k).filter (needsRoom slots registers)
  (roomy.filter (·.val < parameters.toNat)).map .slot ++
  (savedRegisters registers).map .register ++
  (sparedRegisters registers hasCalls).map .register ++
  (roomy.filter (parameters.toNat ≤ ·.val)).map .slot

/-- Where a slot lives, by its register and by what has been placed. -/
def homeOf (slots : Slots k) (registers : Vector (Option Register) k)
    (placed : List (Object k × UInt32)) (slot : Fin k) : Option Home :=
  if slots.isArray slot then (placed.lookup (.slot slot)).map .array
  else match registers.get slot with
    | some register => some (.register register)
    | none => (placed.lookup (.slot slot)).map .stack

def registerOffsets (placed : List (Object k × UInt32)) (registers : List Register) :
    List (Register × UInt32) :=
  registers.filterMap fun register => (placed.lookup (.register register)).map (register, ·)

/-- Lays out a frame; it is a fault if its size is no word. -/
def ofRegisters (parameters : UInt32) (slots : Slots k) (registers : Vector (Option Register) k)
    (hasCalls : Bool) : Except Fault (Frame k) := do
  let (placed, size) ←
    placeFrom (·.words slots) 0 (objects parameters slots registers hasCalls)
  return {
    homes := Vector.ofFn (homeOf slots registers placed)
    saved := registerOffsets placed (savedRegisters registers)
    spared := registerOffsets placed (sparedRegisters registers hasCalls)
    size := size }

end Frame

end SysY.Allocation

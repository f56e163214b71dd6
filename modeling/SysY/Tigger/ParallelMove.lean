import SysY.Fault
import SysY.Tigger

/-!
# Parallel moves

A parallel move gives several registers new values at once. In sequence, a register is written once
nothing that is left to do reads it. If every register that is left is still read, the moves form
cycles, and one register of a cycle is put aside in the scratch register.
-/

namespace SysY.Tigger

structure Move where
  dest : Register
  source : Register
deriving DecidableEq

namespace Move

def instruction (move : Move) : Instruction := .move move.dest move.source

/-- The copy when a register has been put aside. -/
def redirect (blocked scratch : Register) (move : Move) : Move :=
  if move.source = blocked then ⟨move.dest, scratch⟩ else move

/-- Whether no pending copy reads what this one writes. -/
def isReady (pending : List Move) (move : Move) : Bool :=
  pending.all fun other => other.source ≠ move.dest

/-- The copies in an order that has the effect of all at once. -/
def sequence (scratch : Register) (pending : List Move) : List Move :=
  match pending with
  | [] => []
  | first :: rest =>
    match _h : (first :: rest).find? (isReady (first :: rest)) with
    | some move => move :: sequence scratch ((first :: rest).erase move)
    | none =>
      ⟨scratch, first.dest⟩ :: first :: sequence scratch (rest.map (redirect first.dest scratch))
termination_by pending.length
decreasing_by
  · rw [List.length_erase_of_mem (List.mem_of_find?_eq_some _h)]
    simp
  · simp

/-- What is wrong with a parallel move: the scratch register takes part in it, or a register is
written twice. -/
def defect? (scratch : Register) : List Move → Option Fault
  | [] => none
  | move :: rest =>
    if move.dest = scratch ∨ move.source = scratch then some .scratchInMove
    else if rest.any (·.dest = move.dest) then some (.writtenTwice move.dest)
    else defect? scratch rest

end Move

def parallelMove (scratch : Register) (moves : List Move) : Except Fault (List Instruction) :=
  let pending := moves.filter fun move => move.dest ≠ move.source
  match Move.defect? scratch pending with
  | some fault => .error fault
  | none => .ok ((Move.sequence scratch pending).map Move.instruction)

end SysY.Tigger

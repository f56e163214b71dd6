import SysY.Optimization.Pass

/-!
# The optimizer

Functions are optimized one by one. First the instructions that cannot be reached go. Then passes
follow until one of them changes nothing, and at most three of them.
-/

namespace SysY.Optimization

open Eeyore SysY.Flow

variable {n : Nat}

def maxRounds : Nat := 3

def reachablePart (graph : Graph n) (body : Vector Instruction n) : Array Instruction :=
  let reachable := graph.reachable
  (((List.finRange n).filter reachable.get).map body.get).toArray

/-- Takes out the instructions that cannot be reached. A function has to have instructions. -/
def prune (function : Function) : Logged Fault Function := do
  let body := function.body.toVector
  let graph ← Logged.ofExcept (Graph.ofBody function.name body)
  if function.body.isEmpty then Logged.ofExcept (.error .outOfBounds)
  else
    let kept := reachablePart graph body
    let pruned := function.body.size - kept.size
    if pruned > 0 then
      Logged.say .debug .optimizer
        s!"f_{function.name}: pruned {pruned} unreachable instructions"
    return { function with body := kept }

/-- One pass over a function; the result tells how many changes it made. -/
def round (number : Nat) (function : Function) : Logged Fault (Function × Nat) := do
  let body := function.body.toVector
  let graph ← Logged.ofExcept (Graph.ofBody function.name body)
  let (body, changes) ← Logged.ofExcept (onePass graph (Slots.ofFunction function) body)
  Logged.tell (changes.map fun change => ⟨.trace, .optimizer, change.message⟩)
  Logged.say .debug .optimizer
    s!"f_{function.name}: round {number} made {changes.length} rewrites"
  return ({ function with body := body.toArray }, changes.length)

/-- Passes over a function, as long as they change something. -/
def rounds (number : Nat) (function : Function) : (left : Nat) → Logged Fault Function
  | 0 => return function
  | left + 1 => do
    let (function, count) ← round number function
    if count = 0 then return function else rounds (number + 1) function left

def optimizeFunction (function : Function) : Logged Fault Function := do
  rounds 1 (← prune function) maxRounds

def optimize (program : Program) : Logged Fault Program := do
  return { program with code := ← program.code.mapM optimizeFunction }

end SysY.Optimization

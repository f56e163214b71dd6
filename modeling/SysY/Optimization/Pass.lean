import SysY.Flow.Dominators
import SysY.Log
import SysY.Optimization.Computation
import SysY.Optimization.Table

/-!
# One pass over a function

A pass visits the dominator tree of a function depth first. What it notes at a position, the
definition of a symbol or a computation, holds below that position only and is forgotten on the way
back. An operand that was copied from another symbol is replaced by that symbol, and a computation
that was done before becomes a copy of its result.
-/

namespace SysY.Optimization

open Eeyore SysY.Flow

variable {n k : Nat}

inductive Change
  /-- The operand `symbol` became `source`. -/
  | propagated (position : Nat) (symbol source : Symbol)
  /-- The computation of `dest` became a copy of `prior`. -/
  | repeated (position : Nat) (dest : Symbol) (computation : Computation) (prior : Symbol)
deriving DecidableEq

def Change.message : Change → String
  | .propagated position symbol source => s!"{position}: {symbol} <- {source}"
  | .repeated position dest computation prior =>
    s!"{position}: `{dest} = " ++ computation.text ++ s!"` repeats {prior}"

/-- What is known on the way from the entry to a position. -/
structure Facts (n : Nat) where
  definitions : ScopedTable Symbol (Fin n)
  computations : ScopedTable Computation (Fin n)

namespace Facts

def empty : Facts n := ⟨.empty, .empty⟩

def checkpoint (facts : Facts n) : Checkpoint × Checkpoint :=
  (facts.definitions.checkpoint, facts.computations.checkpoint)

def restore (facts : Facts n) (checkpoint : Checkpoint × Checkpoint) : Except Fault (Facts n) := do
  let definitions ← facts.definitions.restore checkpoint.1
  let computations ← facts.computations.restore checkpoint.2
  return ⟨definitions, computations⟩

/-- The place of a computation, or of the one with its operands exchanged. -/
def place? (facts : Facts n) (computation : Computation) : Option (Fin n) :=
  match facts.computations.get? computation with
  | some p => some p
  | none => computation.swapped?.bind facts.computations.get?

end Facts

structure Pass (n : Nat) where
  body : Vector Instruction n
  facts : Facts n
  changes : List Change

namespace Pass

/-- The symbol that `symbol` is still a copy of at a position. -/
def copySource? (pass : Pass n) (graph : Graph n) (slots : Slots k) (p : Fin n) (symbol : Symbol) :
    Option Symbol := do
  let definition ← pass.facts.definitions.get? symbol
  match pass.body.get definition with
  | .copy _ (.symbol source) =>
    if source ≠ symbol ∧
        unchanged graph pass.body p definition (writesAny slots [symbol, source]) then some source
    else none
  | _ => none

def copies (pass : Pass n) (graph : Graph n) (slots : Slots k) (p : Fin n) :
    List (Symbol × Symbol) :=
  ((pass.body.get p).operands.filterMap Value.symbol?).filterMap fun symbol =>
    (pass.copySource? graph slots p symbol).map (symbol, ·)

def propagate (copies : List (Symbol × Symbol)) (instruction : Instruction) : Instruction :=
  instruction.mapOperands fun
    | .const c => .const c
    | .symbol x => .symbol ((copies.lookup x).getD x)

/-- The symbol that still holds the value of a computation at a position. -/
def holder? (pass : Pass n) (graph : Graph n) (slots : Slots k) (p : Fin n)
    (computation : Computation) : Except Fault (Option Symbol) :=
  match pass.facts.place? computation with
  | none => .ok none
  | some earlier =>
    match (pass.body.get earlier).definition with
    | none => .error computation.fault
    | some prior =>
      if unchanged graph pass.body p earlier (computation.isSpoiledBy slots prior) then
        .ok (some prior)
      else .ok none

/-- Notes a computation, unless its own result changes its value. -/
def note (facts : Facts n) (p : Fin n) (dest : Symbol) (computation : Computation) : Facts n :=
  if computation.operands.contains dest then facts
  else { facts with computations := facts.computations.insert computation p }

def place (pass : Pass n) (p : Fin n) (instruction : Instruction) (facts : Facts n)
    (changes : List Change) : Pass n where
  body := put pass.body p instruction
  facts := match instruction.definition with
    | some symbol => { facts with definitions := facts.definitions.insert symbol p }
    | none => facts
  changes := changes ++ pass.changes

def improveAt (pass : Pass n) (graph : Graph n) (slots : Slots k) (p : Fin n) :
    Except Fault (Pass n) := do
  let copies := pass.copies graph slots p
  let instruction := propagate copies (pass.body.get p)
  let propagated := (copies.map fun (symbol, source) => Change.propagated p symbol source).reverse
  match Computation.ofInstruction? instruction with
  | none => return pass.place p instruction pass.facts propagated
  | some (dest, computation) =>
    match ← pass.holder? graph slots p computation with
    | some prior =>
      return pass.place p (.copy dest (.symbol prior)) pass.facts
        (.repeated p dest computation prior :: propagated)
    | none => return pass.place p instruction (note pass.facts p dest computation) propagated

/-- Improves a position and all that it dominates; the tree below it is at most `depth` deep. -/
def run (graph : Graph n) (slots : Slots k) (tree : DominatorTree n) :
    (depth : Nat) → Fin n → Pass n → Except Fault (Pass n)
  | 0, _, pass => .ok pass
  | depth + 1, p, pass => do
    let checkpoint := pass.facts.checkpoint
    let pass ← pass.improveAt graph slots p
    let pass ← (tree.children.get p).foldlM (fun pass q => run graph slots tree depth q pass) pass
    let facts ← pass.facts.restore checkpoint
    return { pass with facts := facts }

end Pass

def onePass (graph : Graph n) (slots : Slots k) (body : Vector Instruction n) :
    Except Fault (Vector Instruction n × List Change) := do
  let tree ← graph.dominatorTree
  match Graph.firstPosition? with
  | none => .error .outOfBounds
  | some first =>
    let pass ← Pass.run graph slots tree n first ⟨body, .empty, []⟩
    return (pass.body, pass.changes.reverse)

end SysY.Optimization

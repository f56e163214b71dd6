import SysY.Flow.Liveness

/-!
# Colouring the interference graph

Slots that are live together get different colours. The graph is taken apart slot by slot, always
one with fewer neighbours left than there are colours; where there is none, the slot of the least
weight goes, as a candidate for spilling. Put back in reverse order, every slot takes the lowest
colour that none of its neighbours has, and a candidate for which no colour is left stays without
one.
-/

namespace SysY.Allocation

open Eeyore SysY.Flow

variable {n k : Nat}

/-- How many colours there are: as many as registers that a symbol may live in. -/
def colorCount : Nat := 25

/-- A colour, which stands for a register that is not chosen yet. -/
abbrev Color := Fin colorCount

/-! ## Weights -/

/-- What each access to a slot weighs: one more than the loop depth of its instruction. -/
def accessWeights (graph : Graph n) (body : Vector Instruction n) (slots : Slots k) :
    List (Fin k × Nat) :=
  let depths := graph.loopDepths
  (List.finRange n).flatMap fun p =>
    ((body.get p).uses ++ (body.get p).definition.toList).filterMap fun symbol =>
      (slots.find? symbol).map fun slot => (slot, depths.get p + 1)

def weights (graph : Graph n) (body : Vector Instruction n) (slots : Slots k) : Vector Nat k :=
  (accessWeights graph body slots).foldl
    (fun weights access => put weights access.1 (weights.get access.1 + access.2))
    (Vector.replicate k 0)

/-! ## Taking the graph apart -/

structure Removal (k : Nat) where
  slot : Fin k
  /-- The slot had as many neighbours left as there are colours, or more. -/
  isCandidate : Bool
deriving DecidableEq

def degrees (interference : Interference k) (colorable : NodeSet k) : Vector Nat k :=
  Vector.ofFn fun slot => ((interference.neighbors.get slot).filter colorable.get).length

def lowerDegree (colorable : NodeSet k) (degrees : Vector Nat k) (slot : Fin k) :
    Except Fault (Vector Nat k) :=
  if !(colorable.get slot) then .ok degrees
  else match degrees.get slot with
    | 0 => .error .overflow
    | degree + 1 => .ok (put degrees slot degree)

/-- The first slot with fewer neighbours than colours, or else the first one. -/
def nextRemoval (degrees : Vector Nat k) (first : Fin k) (rest : List (Fin k)) : Fin k :=
  ((first :: rest).find? (degrees.get · < colorCount)).getD first

theorem nextRemoval_mem (degrees : Vector Nat k) (first : Fin k) (rest : List (Fin k)) :
    nextRemoval degrees first rest ∈ first :: rest := by
  unfold nextRemoval
  cases h : (first :: rest).find? (degrees.get · < colorCount) with
  | none => simp
  | some slot => exact List.mem_of_find?_eq_some h

def removeAll (interference : Interference k) (colorable : NodeSet k) (degrees : Vector Nat k)
    (remaining : List (Fin k)) : Except Fault (List (Removal k)) :=
  match remaining with
  | [] => .ok []
  | first :: rest => do
    let slot := nextRemoval degrees first rest
    let lowered ← (interference.neighbors.get slot).foldlM (lowerDegree colorable) degrees
    let removals ← removeAll interference colorable lowered ((first :: rest).erase slot)
    return ⟨slot, colorCount ≤ degrees.get slot⟩ :: removals
termination_by remaining.length
decreasing_by
  rw [List.length_erase_of_mem (nextRemoval_mem degrees first rest)]
  simp

/-- Takes the graph apart, slots of small weight first. -/
def simplify (interference : Interference k) (colorable : NodeSet k) (weights : Vector Nat k) :
    Except Fault (List (Removal k)) :=
  let slots := (List.finRange k).filter colorable.get
  let order := slots.mergeSort fun a b => weights.get a ≤ weights.get b
  removeAll interference colorable (degrees interference colorable) order

/-! ## Putting it together again -/

def lowestFree (taken : List Color) : Option Color :=
  (List.finRange colorCount).find? (!taken.contains ·)

/-- Colours a slot with the lowest colour that none of its neighbours has. -/
def colorSlot (interference : Interference k) (slot : Fin k) (colors : Vector (Option Color) k) :
    Vector (Option Color) k :=
  put colors slot (lowestFree ((interference.neighbors.get slot).filterMap colors.get))

def select (interference : Interference k) (removed : List (Fin k)) : Vector (Option Color) k :=
  removed.foldr (colorSlot interference) (Vector.replicate k none)

end SysY.Allocation

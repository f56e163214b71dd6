import SysY.Flow.Marking
import SysY.Flow.Slots

/-!
# Liveness

A slot is live into a position if its value may still be read from there on before it is written
again. A read at a position makes the slot live there, even if the same instruction writes it; from
there the slot is live back to the instructions that define it. Arrays are not tracked.

The live slots of a position are in ascending order, so that one of them is found by halving.
-/

namespace SysY.Flow

open Eeyore

variable {n k : Nat}

/-! ## Rows in order -/

/-- Whether an ascending row has a member between two places, found by halving. -/
def foundBetween (row : Array (Fin k)) (member : Fin k) (low high : Nat) (h : high ≤ row.size) :
    Bool :=
  if _ : low < high then
    let middle := low + (high - low) / 2
    have : middle < row.size := by omega
    if row[middle] = member then true
    else if row[middle] < member then foundBetween row member (middle + 1) high h
    else foundBetween row member low middle (by omega)
  else false
termination_by high - low

def found (row : Array (Fin k)) (member : Fin k) : Bool :=
  foundBetween row member 0 row.size (Nat.le_refl _)

theorem pairwise_get_grouped (positions : Fin k → List (Fin n)) (h : ∀ slot, (positions slot).Nodup)
    (p : Fin n) : ((grouped ((List.finRange k).flatMap fun slot => (positions slot).map fun p => (p,
    slot))).get p).Pairwise (· < ·) := by
  rw [get_grouped, List.pairwise_map, List.pairwise_filter, List.pairwise_flatMap]
  constructor
  · intro slot _
    rw [List.pairwise_map]
    refine (h slot).imp fun {a b} hne ha hb => absurd ?_ hne
    simp only [decide_eq_true_eq] at ha hb
    rw [ha, hb]
  · refine (List.pairwise_lt_finRange k).imp fun {a b} hlt x hx y hy _ _ => ?_
    obtain ⟨_, _, rfl⟩ := List.mem_map.1 hx
    obtain ⟨_, _, rfl⟩ := List.mem_map.1 hy
    exact hlt

/-! ## Liveness -/

/-- The slots that are live into each position, in ascending order. -/
structure Liveness (n k : Nat) where
  liveIn : Vector (Array (Fin k)) n
  ascending : ∀ p, (liveIn.get p).toList.Pairwise (· < ·)

/-- For every slot that is no array, the positions that read it. -/
def usePositions (body : Vector Instruction n) (slots : Slots k) : Vector (List (Fin n)) k :=
  grouped ((List.finRange n).flatMap fun p =>
    (body.get p).uses.filterMap fun symbol =>
      ((slots.find? symbol).filter (!slots.isArray ·)).map fun slot => (slot, p))

/-- The positions that a symbol is live into, from those that read it. -/
def livePositions (graph : Graph n) (body : Vector Instruction n) (symbol : Symbol)
    (uses : List (Fin n)) : List (Fin n) :=
  (graph.markBack (fun q => (body.get q).definition = some symbol) .none uses).1

theorem nodup_livePositions (graph : Graph n) (body : Vector Instruction n) (symbol : Symbol)
    (uses : List (Fin n)) : (livePositions graph body symbol uses).Nodup :=
  (graph.marks_markBack _ _ _).nodup

namespace Liveness

def ofBody (graph : Graph n) (body : Vector Instruction n) (slots : Slots k) : Liveness n k :=
  let uses := usePositions body slots
  let positions slot := livePositions graph body (slots.decls.get slot).symbol (uses.get slot)
  { liveIn := (grouped ((List.finRange k).flatMap fun slot =>
      (positions slot).map fun p => (p, slot))).map List.toArray
    ascending := fun p => by
      rw [get_eq_getElem, Vector.getElem_map]
      exact pairwise_get_grouped positions (fun slot => nodup_livePositions ..) p }

def isLiveIn (liveness : Liveness n k) (p : Fin n) (slot : Fin k) : Bool :=
  found (liveness.liveIn.get p) slot

def isLiveOut (liveness : Liveness n k) (graph : Graph n) (p : Fin n) (slot : Fin k) : Bool :=
  (graph.successors.get p).any fun q => liveness.isLiveIn q slot

/-- The slots that are live out of a position, in ascending order. -/
def liveOut (liveness : Liveness n k) (graph : Graph n) (p : Fin n) : List (Fin k) :=
  let live := NodeSet.ofList ((graph.successors.get p).flatMap fun q => (liveness.liveIn.get q).toList)
  (List.finRange k).filter live.get

def positions (liveness : Liveness n k) : Vector (List (Fin n)) k :=
  grouped ((List.finRange n).flatMap fun p =>
    (liveness.liveIn.get p).toList.map fun slot => (slot, p))

end Liveness

/-! ## Interference -/

/-- For every slot the other slots that are live together with it somewhere. -/
structure Interference (k : Nat) where
  neighbors : Vector (List (Fin k)) k
deriving DecidableEq

namespace Interference

/-- The other slots that are live into one of the positions of a slot, in ascending order. -/
def neighborsAt (liveness : Liveness n k) (slot : Fin k) (positions : List (Fin n)) :
    List (Fin k) :=
  let together := NodeSet.ofList (positions.flatMap fun p => (liveness.liveIn.get p).toList)
  (List.finRange k).filter fun other => other ≠ slot && together.get other

/-- Slots interfere if they are live into one position. -/
def ofLiveness (liveness : Liveness n k) : Interference k :=
  let positions := liveness.positions
  ⟨Vector.ofFn fun slot => neighborsAt liveness slot (positions.get slot)⟩

end Interference

end SysY.Flow

import SysY.Flow.Graph

/-!
# Walks against the flow

A walk goes back from a position along the edges, breadth first. At every position it calls at it
asks a guide whether to go on from there; the guide remembers what it has been asked. A walk keeps no
account of its own, so a guide has to run out of answers that let the walk go on.
-/

namespace SysY.Flow

variable {n : Nat} {σ : Type}

/-- Decides where walks go on. Every position it lets a walk go on from takes some of its room. -/
structure Guide (σ : Type) (n : Nat) where
  call : σ → Fin n → Bool × σ
  room : σ → Nat
  room_le : ∀ known p, room (call known p).2 ≤ room known
  room_lt : ∀ known p, (call known p).1 = true → room (call known p).2 < room known

namespace Guide

/-- Of some positions called at, those to go on from; and what is known then. -/
def callAll (guide : Guide σ n) (known : σ) : List (Fin n) → List (Fin n) × σ
  | [] => ([], known)
  | p :: rest =>
    let answer := guide.call known p
    let later := guide.callAll answer.2 rest
    (if answer.1 then p :: later.1 else later.1, later.2)

theorem room_callAll (guide : Guide σ n) (known : σ) (called : List (Fin n)) :
    guide.room (guide.callAll known called).2 + (guide.callAll known called).1.length ≤
      guide.room known := by
  induction called generalizing known with
  | nil => exact Nat.le_refl _
  | cons p rest ih =>
    have hrest := ih (guide.call known p).2
    rw [callAll]
    dsimp only
    split
    · have := guide.room_lt known p ‹_›
      rw [List.length_cons]
      omega
    · exact Nat.le_trans hrest (guide.room_le known p)

/-- Goes on from every position it is asked about for the first time, but for barriers, and lists all
it is asked about, the last one first. -/
def recording (barrier : Fin n → Bool) : Guide (NodeSet n × List (Fin n)) n where
  call known p := (!(known.1.get p || barrier p), known.1.add p, p :: known.2)
  room known := known.1.room
  room_le known p := NodeSet.room_add_le known.1 p
  room_lt known p h := NodeSet.room_add_lt fun hseen => by simp [hseen] at h

end Guide

namespace Graph

def walkFrom (graph : Graph n) (guide : Guide σ n) (queue : List (Fin n)) (known : σ) : σ :=
  match queue with
  | [] => known
  | p :: rest =>
    let called := guide.callAll known (graph.predecessors.get p)
    graph.walkFrom guide (rest ++ called.1) called.2
termination_by guide.room known + queue.length
decreasing_by
  have := guide.room_callAll known (graph.predecessors.get p)
  rw [List.length_append, List.length_cons]
  omega

/-- What is known after a walk back from `start`. -/
def walk (graph : Graph n) (guide : Guide σ n) (start : Fin n) (known : σ) : σ :=
  let answer := guide.call known start
  if answer.1 then graph.walkFrom guide [start] answer.2 else answer.2

/-- The positions that a walk back from `start` calls at, in order. -/
def walkBack (graph : Graph n) (barrier : Fin n → Bool) (start : Fin n) : List (Fin n) :=
  (graph.walk (.recording barrier) start (.none, [])).2.reverse

end Graph

end SysY.Flow

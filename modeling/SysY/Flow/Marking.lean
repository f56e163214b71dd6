import SysY.Flow.Graph

/-!
# Walks that mark

A walk goes back from a position along the edges, breadth first, and marks what it comes to. It stops
in front of positions that stop it and of positions that are marked already. The position where a
walk begins stops it only if it is marked. Several walks share their marks.
-/

namespace SysY.Flow

variable {n : Nat}

/-! ## Marks -/

/-- Marks those of some positions that do not stop the walk; these are listed. -/
def markFresh (stops : Fin n → Bool) (marked : NodeSet n) : List (Fin n) → List (Fin n) × NodeSet n
  | [] => ([], marked)
  | p :: rest =>
    if marked.get p || stops p then markFresh stops marked rest
    else
      let later := markFresh stops (marked.add p) rest
      (p :: later.1, later.2)

/-- A list of all positions that were marked in between, each of them once. -/
structure Marks (marked : NodeSet n) (result : List (Fin n) × NodeSet n) : Prop where
  nodup : result.1.Nodup
  fresh : ∀ q ∈ result.1, marked.get q = false
  final : ∀ q, result.2.get q = true ↔ q ∈ result.1 ∨ marked.get q = true

namespace Marks

variable {marked middle : NodeSet n} {first second : List (Fin n)} {last : NodeSet n}

theorem none (marked : NodeSet n) : Marks marked ([], marked) := ⟨.nil, by simp, by simp⟩

theorem single {p : Fin n} (h : marked.get p = false) : Marks marked ([p], marked.add p) where
  nodup := by simp
  fresh := by simpa using h
  final q := by simp [NodeSet.get_add]

theorem trans (h₁ : Marks marked (first, middle)) (h₂ : Marks middle (second, last)) :
    Marks marked (first ++ second, last) where
  nodup := by
    refine List.nodup_append.2 ⟨h₁.nodup, h₂.nodup, ?_⟩
    rintro p hp _ hq rfl
    have := h₂.fresh p hq
    rw [(h₁.final p).2 (.inl hp)] at this
    cases this
  fresh q hq := by
    rcases List.mem_append.1 hq with hq | hq
    · exact h₁.fresh q hq
    · have := h₂.fresh q hq
      cases hget : marked.get q with
      | false => rfl
      | true => rw [(h₁.final q).2 (.inr hget)] at this; cases this
  final q := by
    rw [h₂.final, h₁.final, List.mem_append]
    constructor
    · rintro (h | h | h)
      · exact .inl (.inr h)
      · exact .inl (.inl h)
      · exact .inr h
    · rintro ((h | h) | h)
      · exact .inr (.inl h)
      · exact .inl h
      · exact .inr (.inr h)

end Marks

theorem marks_markFresh (stops : Fin n → Bool) (marked : NodeSet n) (called : List (Fin n)) :
    Marks marked (markFresh stops marked called) := by
  induction called generalizing marked with
  | nil => exact .none marked
  | cons p rest ih =>
    rw [markFresh]
    split
    · exact ih marked
    · rename_i hp
      have hfresh : marked.get p = false := by
        cases h : marked.get p <;> simp [h] at hp ⊢
      exact (Marks.single hfresh).trans (ih (marked.add p))

theorem room_markFresh (stops : Fin n → Bool) (called : List (Fin n)) (marked : NodeSet n) :
    (markFresh stops marked called).2.room + (markFresh stops marked called).1.length ≤
      marked.room := by
  induction called generalizing marked with
  | nil => exact Nat.le_refl _
  | cons p rest ih =>
    rw [markFresh]
    split
    · exact ih marked
    · rename_i hp
      have hrest := ih (marked.add p)
      have hlt : (marked.add p).room < marked.room :=
        NodeSet.room_add_lt fun hmarked => by simp [hmarked] at hp
      simp only [List.length_cons]
      omega

/-! ## Walks -/

namespace Graph

/-- The positions marked from a queue of positions on. -/
def markFrom (graph : Graph n) (stops : Fin n → Bool) (queue : List (Fin n)) (marked : NodeSet n) :
    List (Fin n) × NodeSet n :=
  match queue with
  | [] => ([], marked)
  | p :: rest =>
    let called := markFresh stops marked (graph.predecessors.get p)
    let later := markFrom graph stops (rest ++ called.1) called.2
    (called.1 ++ later.1, later.2)
termination_by marked.room + queue.length
decreasing_by
  have := room_markFresh stops (graph.predecessors.get p) marked
  rw [List.length_append, List.length_cons]
  omega

/-- The positions marked by walks from each of the given ones. -/
def markBack (graph : Graph n) (stops : Fin n → Bool) (marked : NodeSet n) :
    (starts : List (Fin n)) → List (Fin n) × NodeSet n
  | [] => ([], marked)
  | start :: starts =>
    if marked.get start then graph.markBack stops marked starts
    else
      let walk := graph.markFrom stops [start] (marked.add start)
      let later := graph.markBack stops walk.2 starts
      (start :: (walk.1 ++ later.1), later.2)

theorem marks_markFrom (graph : Graph n) (stops : Fin n → Bool) (queue : List (Fin n))
    (marked : NodeSet n) : Marks marked (graph.markFrom stops queue marked) := by
  induction queue, marked using markFrom.induct graph stops with
  | case1 marked =>
    rw [markFrom]
    exact .none marked
  | case2 marked p rest called ih =>
    rw [markFrom]
    exact (marks_markFresh stops marked _).trans ih

theorem marks_markBack (graph : Graph n) (stops : Fin n → Bool) (marked : NodeSet n)
    (starts : List (Fin n)) : Marks marked (graph.markBack stops marked starts) := by
  induction starts generalizing marked with
  | nil => exact .none marked
  | cons start starts ih =>
    rw [markBack]
    split
    · exact ih marked
    · rename_i hstart
      have hwalk := (Marks.single (Bool.eq_false_iff.2 hstart)).trans
        (graph.marks_markFrom stops [start] (marked.add start))
      exact hwalk.trans (ih _)

end Graph

end SysY.Flow

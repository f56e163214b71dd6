import SysY.Flow.Marking
import SysY.Proofs.Flow.Search

/-!
# What walks mark

Walks back mark exactly the positions met from their beginnings along edges that lead, backwards, to
positions that do not stop a walk: `mem_markBack`. That walks share their marks does no harm, since
whatever lies behind a marked position has been marked as well by the end of the walk that came there.
-/

namespace SysY.Flow

open List

variable {n : Nat} {stops : Fin n → Bool} {marked : NodeSet n} {called : List (Fin n)} {q : Fin n}

theorem markFresh_sound
    (h : q ∈ (markFresh stops marked called).1) : q ∈ called ∧ stops q = false := by
  induction called generalizing marked with
  | nil => exact absurd h not_mem_nil
  | cons p rest ih =>
    rw [markFresh] at h
    split at h
    · exact ⟨mem_cons_of_mem _ (ih h).1, (ih h).2⟩
    · rename_i hp
      simp only [Bool.or_eq_true, not_or, Bool.not_eq_true] at hp
      rcases List.mem_cons.1 h with rfl | h
      · exact ⟨mem_cons_self, hp.2⟩
      · exact ⟨mem_cons_of_mem _ (ih h).1, (ih h).2⟩

theorem markFresh_complete (h : q ∈ called) (hq : stops q = false) :
    (markFresh stops marked called).2.get q = true := by
  induction called generalizing marked with
  | nil => exact absurd h not_mem_nil
  | cons p rest ih =>
    have hrest := marks_markFresh stops (marked.add p) rest
    rw [markFresh]
    split
    · rename_i hp
      rcases List.mem_cons.1 h with rfl | h
      · rw [hq, Bool.or_false] at hp
        exact ((marks_markFresh stops marked rest).final q).2 (.inr hp)
      · exact ih h
    · rcases List.mem_cons.1 h with rfl | h
      · exact (hrest.final q).2 (.inr ((NodeSet.get_add _ _ _).2 (.inl rfl)))
      · exact ih h

namespace Graph

variable (graph : Graph n) (stops : Fin n → Bool) {q p : Fin n} {queue starts : List (Fin n)}
  {marked : NodeSet n}

/-- The positions that a walk comes to directly. -/
def before (p : Fin n) : List (Fin n) := (graph.predecessors.get p).filter (!stops ·)

theorem mem_before : q ∈ graph.before stops p ↔ q ∈ graph.predecessors.get p ∧ stops q = false := by
  simp [before]

theorem markFrom_sound (h : q ∈ (graph.markFrom stops queue marked).1) :
    Met (graph.before stops) (queue.flatMap (graph.before stops)) q := by
  induction queue, marked using markFrom.induct graph stops with
  | case1 marked =>
    rw [markFrom] at h
    exact absurd h not_mem_nil
  | case2 marked p rest called ih =>
    have hcalled : ∀ r ∈ called.1,
        Met (graph.before stops) ((p :: rest).flatMap (graph.before stops)) r := fun r hr =>
      .start (mem_flatMap_of_mem mem_cons_self ((mem_before ..).2 (markFresh_sound hr)))
    rw [markFrom] at h
    rcases List.mem_append.1 h with h | h
    · exact hcalled q h
    · refine (ih h).trans fun r hr => ?_
      obtain ⟨a, ha, hr⟩ := List.mem_flatMap.1 hr
      rcases List.mem_append.1 ha with ha | ha
      · exact .start (mem_flatMap_of_mem (mem_cons_of_mem _ ha) hr)
      · exact .step (hcalled a ha) hr

theorem markFrom_complete (hp : p ∈ queue) (hq : q ∈ graph.before stops p) :
    (graph.markFrom stops queue marked).2.get q = true := by
  induction queue, marked using markFrom.induct graph stops with
  | case1 marked => exact absurd hp not_mem_nil
  | case2 marked a rest called ih =>
    rw [markFrom]
    rcases List.mem_cons.1 hp with rfl | hp
    · obtain ⟨hq, hstp⟩ := (mem_before ..).1 hq
      refine ((graph.marks_markFrom stops _ _).final q).2 (.inr ?_)
      exact markFresh_complete hq hstp
    · exact ih (List.mem_append.2 (.inl hp))

/-- Nothing that a walk comes to directly from a marked position is left without a mark. -/
def Closed (marked : NodeSet n) : Prop :=
  ∀ p, marked.get p = true → ∀ q ∈ graph.before stops p, marked.get q = true

theorem markFrom_closed (h : ∀ p, marked.get p = true →
      p ∈ queue ∨ ∀ q ∈ graph.before stops p, marked.get q = true) :
    graph.Closed stops (graph.markFrom stops queue marked).2 := by
  induction queue, marked using markFrom.induct graph stops with
  | case1 marked =>
    rw [markFrom]
    exact fun p hp => (h p hp).resolve_left not_mem_nil
  | case2 marked p rest called ih =>
    have hmarks : Marks marked called := marks_markFresh stops marked _
    rw [markFrom]
    refine ih fun q hq => ?_
    rcases (hmarks.final q).1 hq with hfr | hold
    · exact .inl (List.mem_append.2 (.inr hfr))
    · rcases h q hold with hqueue | hdone
      · rcases List.mem_cons.1 hqueue with rfl | hrest
        · refine .inr fun r hr => ?_
          obtain ⟨hr, hstp⟩ := (mem_before ..).1 hr
          exact markFresh_complete hr hstp
        · exact .inl (List.mem_append.2 (.inl hrest))
      · exact .inr fun r hr => (hmarks.final r).2 (.inr (hdone r hr))

theorem markBack_sound
    (h : q ∈ (graph.markBack stops marked starts).1) : Met (graph.before stops) starts q := by
  induction starts generalizing marked with
  | nil => exact absurd h not_mem_nil
  | cons start starts ih =>
    have hlater : ∀ r, Met (graph.before stops) starts r →
        Met (graph.before stops) (start :: starts) r := fun r hr =>
      hr.mono (fun _ _ hq => hq) fun _ => mem_cons_of_mem _
    rw [markBack] at h
    split at h
    · exact hlater q (ih h)
    · rcases List.mem_cons.1 h with rfl | h
      · exact .start mem_cons_self
      · rcases List.mem_append.1 h with h | h
        · refine (graph.markFrom_sound stops h).trans fun r hr => ?_
          rw [flatMap_singleton] at hr
          exact .step (.start mem_cons_self) hr
        · exact hlater q (ih h)

theorem markBack_closed (h : graph.Closed stops marked) :
    graph.Closed stops (graph.markBack stops marked starts).2 ∧
      ∀ start ∈ starts, (graph.markBack stops marked starts).2.get start = true := by
  induction starts generalizing marked with
  | nil => exact ⟨h, by simp⟩
  | cons start starts ih =>
    rw [markBack]
    split
    · rename_i hstart
      refine ⟨(ih h).1, List.forall_mem_cons.2 ⟨?_, (ih h).2⟩⟩
      exact ((graph.marks_markBack stops marked starts).final start).2 (.inr hstart)
    · have hwalk : graph.Closed stops (graph.markFrom stops [start] (marked.add start)).2 := by
        refine graph.markFrom_closed stops fun p hp => ?_
        rcases (NodeSet.get_add _ _ _).1 hp with rfl | hp
        · exact .inl mem_cons_self
        · exact .inr fun q hq => (NodeSet.get_add _ _ _).2 (.inr (h p hp q hq))
      refine ⟨(ih hwalk).1, List.forall_mem_cons.2 ⟨?_, (ih hwalk).2⟩⟩
      refine ((graph.marks_markBack stops _ starts).final start).2 (.inr ?_)
      refine ((graph.marks_markFrom stops [start] _).final start).2 (.inr ?_)
      exact (NodeSet.get_add _ _ _).2 (.inl rfl)

theorem mem_markBack :
    q ∈ (graph.markBack stops .none starts).1 ↔ Met (graph.before stops) starts q := by
  refine ⟨graph.markBack_sound stops, fun h => ?_⟩
  have hmarks := graph.marks_markBack stops .none starts
  obtain ⟨hclo, hstarts⟩ := @markBack_closed n graph stops starts .none (by
    intro p hp
    simp at hp)
  have hmarked : (graph.markBack stops .none starts).2.get q = true := by
    induction h with
    | start hp => exact hstarts _ hp
    | step _ hq ih => exact hclo _ ih _ hq
  simpa using (hmarks.final q).1 hmarked

end Graph

end SysY.Flow

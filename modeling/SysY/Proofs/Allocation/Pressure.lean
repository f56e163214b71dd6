import SysY.Proofs.Allocation.Coloring

/-!
# Spilling happens only under pressure

A slot that has fewer neighbours left than there are colours when it is removed gets a colour: when
it is put back, only these neighbours have one. So only candidates for spilling can be left without a
colour, and there are none where every slot has few neighbours.
-/

namespace SysY.Allocation

open Eeyore SysY.Flow

variable {k : Nat} {interference : Interference k} {slot : Fin k}

/-- A list shorter than the palette leaves a colour free. -/
theorem isSome_lowestFree {taken : List Color} (h : taken.length < colorCount) :
    (lowestFree taken).isSome = true := by
  by_contra hnone
  have hsubset : List.finRange colorCount ⊆ taken := by
    intro color hcolor
    simpa using List.find?_eq_none.1 (Option.not_isSome_iff_eq_none.1 hnone) color hcolor
  have hlength := (List.subperm_of_subset (List.nodup_finRange colorCount) hsubset).length_le
  rw [List.length_finRange] at hlength
  omega

/-- Only slots that were put back have taken a colour. -/
theorem length_taken_le_pressure (slot : Fin k) (removed : List (Fin k)) :
    ((interference.neighbors.get slot).filterMap (select interference removed).get).length ≤
      pressure interference slot removed := by
  rw [pressure, List.length_filterMap_eq_countP, ← List.countP_eq_length_filter]
  refine List.countP_mono_left fun a _ hcolored => decide_eq_true ?_
  by_contra hnot
  rw [get_select_of_not_mem interference hnot] at hcolored
  cases hcolored

theorem isSome_select_of_pressure {removed : List (Fin k)}
    (h : pressure interference slot removed < colorCount) :
    ((select interference (slot :: removed)).get slot).isSome = true := by
  have hself : (select interference (slot :: removed)).get slot = lowestFree
      ((interference.neighbors.get slot).filterMap (select interference removed).get) :=
    get_put_self ..
  rw [hself]
  exact isSome_lowestFree (Nat.lt_of_le_of_lt (length_taken_le_pressure slot removed) h)

/-- Slots that are put back later leave the colours of the others alone. -/
theorem get_select_append {before : List (Fin k)} (removed : List (Fin k)) (h : slot ∉ before) :
    (select interference (before ++ removed)).get slot = (select interference removed).get slot := by
  induction before with
  | nil => rfl
  | cons other before ih =>
    obtain ⟨hne, hnot⟩ := not_or.1 fun hor => h (List.mem_cons.2 hor)
    exact (get_put_of_ne _ _ (Ne.symm hne)).trans (ih hnot)

theorem Dismantled.of_append {before removals : List (Removal k)}
    (h : Dismantled interference (before ++ removals)) : Dismantled interference removals := by
  induction before with
  | nil => exact h
  | cons removal before ih =>
    cases h with
    | cons _ _ rest => exact ih rest

theorem isSome_select_of_split {before after : List (Removal k)} {removal : Removal k}
    (hnd : ((before ++ removal :: after).map (·.slot)).Nodup)
    (h : pressure interference removal.slot (after.map (·.slot)) < colorCount) :
    ((select interference ((before ++ removal :: after).map (·.slot))).get
      removal.slot).isSome = true := by
  rw [List.map_append, List.map_cons] at hnd ⊢
  have hnot : removal.slot ∉ before.map (·.slot) := fun hmem =>
    (List.nodup_append.1 hnd).2.2 _ hmem _ List.mem_cons_self rfl
  rw [get_select_append _ hnot]
  exact isSome_select_of_pressure h

theorem mem_removals_of_colorless {removals : List (Removal k)}
    (hdis : Dismantled interference removals) (hnd : (removals.map (·.slot)).Nodup)
    (hslot : slot ∈ removals.map (·.slot))
    (hnone : (select interference (removals.map (·.slot))).get slot = none) :
    ⟨slot, true⟩ ∈ removals := by
  obtain ⟨removal, hmem, rfl⟩ := List.mem_map.1 hslot
  obtain ⟨before, after, rfl⟩ := List.append_of_mem hmem
  cases hdis.of_append with
  | cons candidate _ _ =>
    have hcandidate : removal.isCandidate = true := by
      rw [candidate]
      by_contra hlow
      have hsome := isSome_select_of_split hnd (Nat.not_le.1 hlow)
      rw [hnone] at hsome
      cases hsome
    rw [← hcandidate]
    exact hmem

/-- Every colourable slot is removed exactly once. It is removed as a candidate for spilling exactly
if as many of its neighbours as there are colours, or more, are left, and then this holds of all slots
that are left; with fewer neighbours it gets a colour. So a slot without a colour was a candidate, and
none is without one if every slot has fewer neighbours than there are colours. -/
theorem spilled_only_under_pressure (hsim : Simple interference) (colorable : NodeSet k)
    (weights : Vector Nat k) :
    ∃ removals, simplify interference colorable weights = .ok removals ∧
      (removals.map (·.slot)).Perm ((List.finRange k).filter colorable.get) ∧
      (∀ before removal after, removals = before ++ removal :: after →
        (removal.isCandidate = true ↔
          25 ≤ pressure interference removal.slot (after.map (·.slot))) ∧
        (removal.isCandidate = true → ∀ other ∈ after,
          25 ≤ pressure interference other.slot (removal.slot :: after.map (·.slot))) ∧
        (pressure interference removal.slot (after.map (·.slot)) < 25 →
          ((select interference (removals.map (·.slot))).get removal.slot).isSome = true)) ∧
      (∀ slot, colorable.get slot = true →
        (select interference (removals.map (·.slot))).get slot = none →
          ⟨slot, true⟩ ∈ removals) ∧
      ((∀ slot, (interference.neighbors.get slot).length < 25) → ∀ slot, colorable.get slot = true →
        ((select interference (removals.map (·.slot))).get slot).isSome = true) := by
  obtain ⟨removals, hremovals, hperm, hdis⟩ := simplify_spec hsim colorable weights
  have hnd : (removals.map (·.slot)).Nodup :=
    hperm.nodup_iff.2 ((List.nodup_finRange k).filter _)
  have hslots : ∀ slot, colorable.get slot = true → slot ∈ removals.map (·.slot) := by
    intro slot hcolorable
    simp [hperm.mem_iff, hcolorable]
  refine ⟨removals, hremovals, hperm, ?_, fun slot hcolorable hnone =>
    mem_removals_of_colorless hdis hnd (hslots slot hcolorable) hnone, ?_⟩
  · rintro before removal after rfl
    cases hdis.of_append with
    | cons candidate pressed _ => exact ⟨candidate, pressed, isSome_select_of_split hnd⟩
  · intro hfew slot hcolorable
    obtain ⟨removal, hmem, rfl⟩ := List.mem_map.1 (hslots slot hcolorable)
    obtain ⟨before, after, rfl⟩ := List.append_of_mem hmem
    refine isSome_select_of_split hnd (Nat.lt_of_le_of_lt ?_ (hfew removal.slot))
    exact List.length_filter_le ..

/-! ## All slots at once -/

/-- Every slot interferes with every other one. -/
def complete (k : Nat) : Interference k :=
  ⟨Vector.ofFn fun slot => (List.finRange k).filter (· ≠ slot)⟩

theorem mem_neighbors_complete {a b : Fin k} : b ∈ (complete k).neighbors.get a ↔ b ≠ a := by
  simp [complete, get_eq_getElem]

theorem simple_complete (k : Nat) : Simple (complete k) where
  symm _ _ h := mem_neighbors_complete.2 (mem_neighbors_complete.1 h).symm
  irrefl _ h := mem_neighbors_complete.1 h rfl
  nodup a := by
    rw [complete, get_eq_getElem, Vector.getElem_ofFn]
    exact (List.nodup_finRange k).filter _

/-- Twenty-five slots that are all live at once get a colour each. -/
theorem complete_colored : Simple (complete 25) ∧
    (∀ slot, ((complete 25).neighbors.get slot).length < 25) ∧
    ∃ removals, simplify (complete 25) (Vector.replicate 25 true) (Vector.replicate 25 0) =
        .ok removals ∧
      ∀ slot, ((select (complete 25) (removals.map (·.slot))).get slot).isSome = true := by
  have hfew : ∀ slot, ((complete 25).neighbors.get slot).length < 25 := by decide +kernel
  obtain ⟨removals, hremovals, -, -, -, hall⟩ := spilled_only_under_pressure (simple_complete 25)
    (Vector.replicate 25 true) (Vector.replicate 25 0)
  exact ⟨simple_complete 25, hfew, removals, hremovals, fun slot =>
    hall hfew slot (by simp [get_eq_getElem])⟩

end SysY.Allocation

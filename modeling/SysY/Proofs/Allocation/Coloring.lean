import Mathlib.Data.List.Nodup
import Mathlib.Data.List.Perm.Basic
import Mathlib.Order.Fin.Basic
import SysY.Allocation.Coloring
import SysY.Proofs.Bind
import SysY.Proofs.Flow.Liveness

/-!
# The colouring is proper

Taking the graph apart never fails, since the degree of a slot is the number of its neighbours that
are left. Whatever the order in which slots are put back, neighbours get different colours.
-/

namespace SysY.Allocation

open Eeyore SysY.Flow

variable {k : Nat} {interference : Interference k} {slot : Fin k}

/-- Interference goes both ways, no slot interferes with itself, and no neighbour is listed twice.
-/
structure Simple (interference : Interference k) : Prop where
  symm : ∀ a b, b ∈ interference.neighbors.get a → a ∈ interference.neighbors.get b
  irrefl : ∀ a, a ∉ interference.neighbors.get a
  nodup : ∀ a, (interference.neighbors.get a).Nodup

theorem simple_ofLiveness {n : Nat} (liveness : Liveness n k) :
    Simple (Interference.ofLiveness liveness) where
  symm _ _ h := Interference.mem_neighbors_symm h
  irrefl _ h := (Interference.mem_neighbors.1 h).1 rfl
  nodup := Interference.nodup_neighbors liveness

/-! ## Taking the graph apart -/

/-- The degree of a slot is the number of its neighbours that are left. -/
def Exact (interference : Interference k) (colorable : NodeSet k) (degrees : Vector Nat k)
    (remaining : List (Fin k)) : Prop :=
  ∀ b, colorable.get b = true →
    degrees.get b = ((interference.neighbors.get b).filter (· ∈ remaining)).length

theorem foldlM_lowerDegree (colorable : NodeSet k) {slots : List (Fin k)} (hnd : slots.Nodup)
    (degrees : Vector Nat k) (hpos : ∀ b ∈ slots, colorable.get b = true → 0 < degrees.get b) :
    ∃ lowered, slots.foldlM (lowerDegree colorable) degrees = .ok lowered ∧
      ∀ b, colorable.get b = true →
        lowered.get b = degrees.get b - if b ∈ slots then 1 else 0 := by
  induction slots generalizing degrees with
  | nil => exact ⟨degrees, rfl, fun b _ => by simp⟩
  | cons slot slots ih =>
    obtain ⟨hnot, hnd⟩ := List.nodup_cons.1 hnd
    rw [List.foldlM_cons]
    by_cases hcolr : colorable.get slot = true
    · obtain ⟨degree, hdegree⟩ := Nat.exists_eq_add_of_lt (hpos slot List.mem_cons_self hcolr)
      have hdegree : degrees.get slot = degree + 1 := by omega
      have hlow : lowerDegree colorable degrees slot = .ok (put degrees slot degree) := by
        simp [lowerDegree, hcolr, hdegree]
      have hoth : ∀ b, b ≠ slot → (put degrees slot degree).get b = degrees.get b :=
        fun b hb => get_put_of_ne _ _ hb.symm
      obtain ⟨lowered, hlwd, hget⟩ := ih hnd (put degrees slot degree) fun b hb hcol => by
        rw [hoth b fun heq => hnot (heq ▸ hb)]
        exact hpos b (List.mem_cons_of_mem _ hb) hcol
      refine ⟨lowered, by rw [hlow, ok_bind, hlwd], fun b hcol => ?_⟩
      rw [hget b hcol]
      by_cases hb : b = slot
      · subst hb
        simp [hnot, hdegree]
      · simp [hoth b hb, hb]
    · have hlow : lowerDegree colorable degrees slot = .ok degrees := by
        simp [lowerDegree, hcolr]
      obtain ⟨lowered, hlwd, hget⟩ := ih hnd degrees fun b hb hcol =>
        hpos b (List.mem_cons_of_mem _ hb) hcol
      refine ⟨lowered, by rw [hlow, ok_bind, hlwd], fun b hcol => ?_⟩
      have hb : b ≠ slot := fun heq => hcolr (heq ▸ hcol)
      simp [hget b hcol, hb]

theorem length_filter_erase {neighbors remaining : List (Fin k)} {a : Fin k}
    (hneighbors : neighbors.Nodup) (hremaining : remaining.Nodup) (ha : a ∈ remaining) :
    (neighbors.filter (· ∈ remaining.erase a)).length =
      (neighbors.filter (· ∈ remaining)).length - if a ∈ neighbors then 1 else 0 := by
  have hfilter : neighbors.filter (· ∈ remaining.erase a) =
      (neighbors.filter (· ∈ remaining)).erase a := by
    rw [(hneighbors.filter _).erase_eq_filter, List.filter_filter]
    refine List.filter_congr fun b _ => ?_
    rw [Bool.eq_iff_iff]
    simp [hremaining.mem_erase_iff]
  rw [hfilter]
  by_cases h : a ∈ neighbors
  · rw [List.length_erase_of_mem (List.mem_filter.2 ⟨h, by simpa using ha⟩), if_pos h]
  · rw [List.erase_of_not_mem fun hmem => h (List.mem_of_mem_filter hmem), if_neg h]
    rfl

/-- How many neighbours of a slot are among those that are left. -/
def pressure (interference : Interference k) (slot : Fin k) (left : List (Fin k)) : Nat :=
  ((interference.neighbors.get slot).filter (· ∈ left)).length

theorem pressure_congr (slot : Fin k) {left left' : List (Fin k)} (h : ∀ a, a ∈ left ↔ a ∈ left') :
    pressure interference slot left = pressure interference slot left' := by
  simp only [pressure, h]

theorem pressure_erase_self (hsim : Simple interference) {left : List (Fin k)} (hnd : left.Nodup)
    (h : slot ∈ left) :
    pressure interference slot (left.erase slot) = pressure interference slot left := by
  unfold pressure
  rw [length_filter_erase (hsim.nodup slot) hnd h, if_neg (hsim.irrefl slot)]
  rfl

/-- A slot is removed as a candidate exactly if it has as many neighbours left as there are colours,
or more, and then so has every slot that is left. -/
inductive Dismantled (interference : Interference k) : List (Removal k) → Prop
  | nil : Dismantled interference []
  | cons {removal : Removal k} {removals : List (Removal k)}
    (candidate : removal.isCandidate = true ↔
      colorCount ≤ pressure interference removal.slot (removals.map (·.slot)))
    (pressed : removal.isCandidate = true → ∀ other ∈ removals,
      colorCount ≤ pressure interference other.slot (removal.slot :: removals.map (·.slot)))
    (rest : Dismantled interference removals) : Dismantled interference (removal :: removals)

theorem le_degree_of_nextRemoval {degrees : Vector Nat k} {first : Fin k} {rest : List (Fin k)}
    (h : colorCount ≤ degrees.get (nextRemoval degrees first rest)) :
    ∀ a ∈ first :: rest, colorCount ≤ degrees.get a := by
  intro a ha
  unfold nextRemoval at h
  cases hfind : (first :: rest).find? (degrees.get · < colorCount) with
  | none => simpa using List.find?_eq_none.1 hfind a ha
  | some slot =>
    have hlow := List.find?_some hfind
    rw [hfind, Option.getD_some] at h
    simp only [decide_eq_true_eq] at hlow
    omega

theorem removeAll_spec (hsim : Simple interference) (colorable : NodeSet k) (degrees : Vector Nat k)
    (remaining : List (Fin k)) (hexact : Exact interference colorable degrees remaining)
    (hnd : remaining.Nodup) (hcolr : ∀ a ∈ remaining, colorable.get a = true) :
    ∃ removals, removeAll interference colorable degrees remaining = .ok removals ∧
      (removals.map (·.slot)).Perm remaining ∧ Dismantled interference removals := by
  induction h : remaining.length generalizing degrees remaining with
  | zero =>
    obtain rfl := List.eq_nil_of_length_eq_zero h
    exact ⟨[], by rw [removeAll], .nil, .nil⟩
  | succ length ih =>
    obtain ⟨first, rest, rfl⟩ := List.exists_cons_of_length_eq_add_one h
    have hmem := nextRemoval_mem degrees first rest
    have hall := @le_degree_of_nextRemoval k degrees first rest
    rw [removeAll]
    generalize nextRemoval degrees first rest = slot at hmem hall ⊢
    have hpos : ∀ b ∈ interference.neighbors.get slot, colorable.get b = true →
        0 < degrees.get b := by
      intro b hb hcol
      rw [hexact b hcol]
      exact List.length_pos_of_mem (List.mem_filter.2 ⟨hsim.symm _ _ hb, decide_eq_true hmem⟩)
    obtain ⟨lowered, hlwd, hget⟩ := foldlM_lowerDegree colorable (hsim.nodup slot) degrees hpos
    have hexact' : Exact interference colorable lowered ((first :: rest).erase slot) := by
      intro b hcol
      rw [hget b hcol, hexact b hcol, length_filter_erase (hsim.nodup b) hnd hmem]
      have hiff : b ∈ interference.neighbors.get slot ↔ slot ∈ interference.neighbors.get b :=
        ⟨hsim.symm _ _, hsim.symm _ _⟩
      simp only [hiff]
    obtain ⟨removals, hrem, hperm, hdis⟩ := ih lowered ((first :: rest).erase slot) hexact'
      (hnd.erase slot) (fun a ha => hcolr a (List.mem_of_mem_erase ha))
      (by rw [List.length_erase_of_mem hmem, h]; rfl)
    have hslots := (hperm.cons slot).trans (List.perm_cons_erase hmem).symm
    refine ⟨⟨slot, colorCount ≤ degrees.get slot⟩ :: removals, ?_, hslots, .cons ?_ ?_ hdis⟩
    · simp only [hlwd, hrem, ok_bind]
      rfl
    · rw [pressure_congr slot fun a => hperm.mem_iff, pressure_erase_self hsim hnd hmem,
        decide_eq_true_iff, hexact slot (hcolr slot hmem)]
      rfl
    · intro hcand other hother
      have hleft : other.slot ∈ first :: rest :=
        List.mem_of_mem_erase (hperm.mem_iff.1 (List.mem_map_of_mem hother))
      have hle := hall (of_decide_eq_true hcand) other.slot hleft
      rw [hexact other.slot (hcolr other.slot hleft)] at hle
      rw [pressure_congr other.slot fun a => hslots.mem_iff]
      exact hle

theorem simplify_spec (hsim : Simple interference)
    (colorable : NodeSet k) (weights : Vector Nat k) :
    ∃ removals, simplify interference colorable weights = .ok removals ∧
      (removals.map (·.slot)).Perm ((List.finRange k).filter colorable.get) ∧
      Dismantled interference removals := by
  let order := ((List.finRange k).filter colorable.get).mergeSort fun a b =>
    weights.get a ≤ weights.get b
  have hperm : order.Perm ((List.finRange k).filter colorable.get) := List.mergeSort_perm ..
  have hmem : ∀ a, a ∈ order ↔ colorable.get a = true := fun a => by simp [hperm.mem_iff]
  have hexact : Exact interference colorable (degrees interference colorable) order := by
    intro b _
    simp only [hmem, Bool.decide_eq_true]
    simp [degrees, get_eq_getElem]
    rfl
  obtain ⟨removals, hrem, horder, hdis⟩ := removeAll_spec hsim colorable _ order hexact
    (hperm.nodup_iff.2 ((List.nodup_finRange k).filter _)) fun a ha => (hmem a).1 ha
  exact ⟨removals, hrem, horder.trans hperm, hdis⟩

/-! ## Putting it together again -/

theorem not_mem_of_lowestFree {taken : List Color} {color : Color}
    (h : lowestFree taken = some color) : color ∉ taken := by
  simpa using List.find?_some h

/-- Neighbours have different colours. -/
def Proper (interference : Interference k) (colors : Vector (Option Color) k) : Prop :=
  ∀ a b color, b ∈ interference.neighbors.get a → colors.get a = some color →
    colors.get b ≠ some color

theorem Proper.colorSlot {interference : Interference k} (hsim : Simple interference)
    {colors : Vector (Option Color) k} (h : Proper interference colors) (slot : Fin k) :
    Proper interference (colorSlot interference slot colors) := by
  -- The new colour differs from those of all neighbours, whichever of the two ends is coloured.
  have hnew : ∀ b color, b ∈ interference.neighbors.get slot → colors.get b = some color →
      lowestFree ((interference.neighbors.get slot).filterMap colors.get) ≠ some color :=
    fun b color hb hcol hfree =>
      not_mem_of_lowestFree hfree (List.mem_filterMap.2 ⟨b, hb, hcol⟩)
  intro a b color hb ha hcol
  unfold Allocation.colorSlot at ha hcol
  by_cases hslot : slot = a
  · subst hslot
    have hne : slot ≠ b := fun heq => hsim.irrefl slot (by rwa [← heq] at hb)
    rw [get_put_self] at ha
    rw [get_put_of_ne _ _ hne] at hcol
    exact hnew b color hb hcol ha
  · rw [get_put_of_ne _ _ hslot] at ha
    by_cases hslot' : slot = b
    · subst hslot'
      rw [get_put_self] at hcol
      exact hnew a color (hsim.symm _ _ hb) ha hcol
    · rw [get_put_of_ne _ _ hslot'] at hcol
      exact h a b color hb ha hcol

theorem proper_select (hsim : Simple interference)
    (removed : List (Fin k)) : Proper interference (select interference removed) := by
  induction removed with
  | nil =>
    intro a b color _ ha
    simp [select, get_eq_getElem] at ha
  | cons slot removed ih => exact ih.colorSlot hsim slot

theorem get_select_of_not_mem (interference : Interference k) {removed : List (Fin k)}
    (h : slot ∉ removed) : (select interference removed).get slot = none := by
  induction removed with
  | nil => simp [select, get_eq_getElem]
  | cons other removed ih =>
    obtain ⟨hne, hnot⟩ := not_or.1 fun hor => h (List.mem_cons.2 hor)
    exact (get_put_of_ne _ _ (Ne.symm hne)).trans (ih hnot)

end SysY.Allocation

import SysY.Optimization.Optimizer
import SysY.Proofs.Optimization.Reuse

/-!
# Taking out what cannot be reached

The positions that are kept are in ascending order, hold the entry and are closed under edges. So a
kept position and the next one are neighbours again after pruning, a label that is still gone to is
still set, and the pruned body runs in step with the whole one, up to the numbers of the positions.
-/

namespace SysY.Optimization

open Eeyore SysY.Flow Activation

variable {n : Nat} {p : Fin n} {s t : State}

/-- Positions in ascending order, with the entry and closed under edges. -/
structure Closed (body : Vector Instruction n) (kept : List (Fin n)) : Prop where
  sorted : kept.Pairwise (· < ·)
  entry : ∀ h : 0 < n, ⟨0, h⟩ ∈ kept
  edge : ∀ p ∈ kept, ∀ q ∈ targets body p, q ∈ kept

/-- The instructions at some positions. -/
def restrict (body : Vector Instruction n) (kept : List (Fin n)) : Vector Instruction kept.length :=
  Vector.ofFn fun i => body.get (kept.get i)

@[simp] theorem get_restrict (body : Vector Instruction n) (kept : List (Fin n))
    (i : Fin kept.length) : (restrict body kept).get i = body.get (kept.get i) := by
  simp [restrict, get_eq_getElem]

namespace Closed

variable {body : Vector Instruction n} {kept : List (Fin n)} {i j : Fin kept.length} {label : Label}

theorem get_lt (h : Closed body kept) (hij : i < j) :
    kept.get i < kept.get j :=
  List.pairwise_iff_getElem.1 h.sorted i j i.isLt j.isLt hij

theorem lt_of_get_lt (h : Closed body kept) (hij : kept.get i < kept.get j) : i < j := by
  rcases Nat.lt_trichotomy i.val j.val with hlt | heq | hgt
  · exact hlt
  · rw [Fin.ext heq] at hij
    exact absurd hij (Fin.lt_irrefl _)
  · exact absurd hij (Fin.not_lt.2 (Fin.le_of_lt (h.get_lt hgt)))

theorem next (h : Closed body kept)
    (hij : (kept.get j).val = (kept.get i).val + 1) : j.val = i.val + 1 := by
  have hlt : i < j := h.lt_of_get_lt (by rw [Fin.lt_def]; omega)
  refine Classical.byContradiction fun hne => ?_
  have hmid : i.val + 1 < kept.length := by
    have := j.isLt
    rw [Fin.lt_def] at hlt
    omega
  have hl : kept.get i < kept.get ⟨i.val + 1, hmid⟩ := h.get_lt (Nat.lt_succ_self _)
  have hr : kept.get ⟨i.val + 1, hmid⟩ < kept.get j := h.get_lt (by
    rw [Fin.lt_def] at hlt ⊢
    simp only
    omega)
  rw [Fin.lt_def] at hl hr
  omega

theorem last (h : Closed body kept) (hi : (kept.get i).val + 1 = n) :
    i.val + 1 = kept.length := by
  refine Classical.byContradiction fun hne => ?_
  have hnxt : i.val + 1 < kept.length := by
    have := i.isLt
    omega
  have hlt : kept.get i < kept.get ⟨i.val + 1, hnxt⟩ := h.get_lt (Nat.lt_succ_self _)
  have := (kept.get ⟨i.val + 1, hnxt⟩).isLt
  rw [Fin.lt_def] at hlt
  omega

theorem first (h : Closed body kept) (hi : (kept.get i).val = 0) :
    i.val = 0 := by
  refine Classical.byContradiction fun hne => ?_
  have hpos : 0 < kept.length := by
    have := i.isLt
    omega
  have hlt : kept.get ⟨0, hpos⟩ < kept.get i := h.get_lt (by rw [Fin.lt_def]; exact Nat.pos_of_ne_zero hne)
  rw [Fin.lt_def] at hlt
  omega

theorem labelPosition? (h : Closed body kept)
    (hi : Flow.labelPosition? body label = some (kept.get i)) :
    Flow.labelPosition? (restrict body kept) label = some i := by
  rw [labelPosition?_eq_some] at hi ⊢
  refine ⟨by rw [get_restrict, hi.1], fun j hj => ?_⟩
  rw [get_restrict]
  exact hi.2 _ (h.get_lt hj)

theorem labelPosition?_eq_none (hnone : Flow.labelPosition? body label = none) :
    Flow.labelPosition? (restrict body kept) label = none := by
  rw [Flow.labelPosition?, List.find?_eq_none] at hnone ⊢
  intro i _
  rw [get_restrict]
  exact hnone (kept.get i) (List.mem_reverse.2 (List.mem_finRange _))

theorem mem_targets (h : Closed body kept)
    (hj : kept.get j ∈ targets body (kept.get i)) : j ∈ targets (restrict body kept) i := by
  rw [Flow.mem_targets, get_restrict]
  rcases Flow.mem_targets.1 hj with ⟨label, htgt, hlab⟩ | ⟨hjump, hnxt⟩
  · exact .inl ⟨label, htgt, h.labelPosition? hlab⟩
  · exact .inr ⟨hjump, h.next hnxt⟩

theorem mem_of_reached (h : Closed body kept) (hp : Reached (targets body) p) :
    p ∈ kept := by
  induction hp with
  | @start p hp =>
    unfold Graph.firstPosition? at hp
    split at hp
    · rename_i hpos
      obtain rfl : p = ⟨0, hpos⟩ := by simpa using hp
      exact h.entry hpos
    · cases hp
  | step _ hq ih => exact h.edge _ ih _ hq

theorem reached (h : Closed body kept) (hp : Reached (targets body) p) :
    ∀ i : Fin kept.length, kept.get i = p → Reached (targets (restrict body kept)) i := by
  induction hp with
  | @start p hp =>
    intro i hi
    have hz : (kept.get i).val = 0 := by
      unfold Graph.firstPosition? at hp
      split at hp
      · rename_i hpos
        obtain rfl : p = ⟨0, hpos⟩ := by simpa using hp
        rw [hi]
      · cases hp
    have hpos : 0 < kept.length := Nat.lt_of_le_of_lt (Nat.zero_le _) i.isLt
    refine .start ?_
    rw [Graph.firstPosition?, dif_pos hpos, Option.mem_toList]
    exact congrArg some (Fin.ext (h.first hz).symm)
  | @step p q hp hq ih =>
    rintro j rfl
    obtain ⟨i, rfl⟩ := List.mem_iff_get.1 (h.mem_of_reached hp)
    exact .step (ih i rfl) (h.mem_targets hq)

end Closed

/-! ## Runs of the kept positions -/

/-- The same state at a kept position and at its new number, or behind both bodies. -/
def Corresponds (kept : List (Fin n)) (s t : State) : Prop :=
  ∃ i, s = t.at i ∧
    ((∃ j : Fin kept.length, i = j.val ∧ t.position = (kept.get j).val) ∨
      i = kept.length ∧ t.position = n)

section
variable {act : Activation} {body : Vector Instruction n} {kept : List (Fin n)}

theorem Closed.step (h : Closed body kept) (hst : Corresponds kept s t) :
    (∃ s' t', act.step (restrict body kept) s = ⟨.running, s'⟩ ∧
      act.step body t = ⟨.running, t'⟩ ∧ Corresponds kept s' t') ∨
    (act.step body t).status ≠ .running ∧
      (act.step (restrict body kept) s).unplaced = (act.step body t).unplaced := by
  obtain ⟨i, rfl, ⟨j, rfl, hj⟩ | ⟨rfl, hn⟩⟩ := hst
  · have hlt : t.position < n := hj ▸ (kept.get j).isLt
    have hpos : (⟨t.position, hlt⟩ : Fin n) = kept.get j := Fin.ext hj
    have hnew : act.step (restrict body kept) (t.at j.val) =
        act.execute (restrict body kept) (t.at j.val) (body.get (kept.get j)) := by
      rw [← get_restrict]
      exact dif_pos j.isLt
    have hold : act.step body t = act.execute body t (body.get (kept.get j)) := by
      rw [← hpos]
      exact dif_pos hlt
    rw [hnew, hold]
    unfold execute
    rw [effect_at]
    have hdirection : act.direction (t.at j.val) (body.get (kept.get j)) =
        act.direction t (body.get (kept.get j)) := rfl
    rw [hdirection]
    cases heff : act.effect t (body.get (kept.get j)) with
    | none => exact .inr ⟨by simp, rfl⟩
    | some t' =>
      cases hdir : act.direction t (body.get (kept.get j)) with
      | none => exact .inr ⟨by simp, rfl⟩
      | some direction =>
        have ht' : t'.position = (kept.get j).val := (position_of_effect heff).trans hj
        simp only [Option.map_some]
        cases direction with
        | next =>
          refine .inl ⟨_, _, rfl, rfl, j.val + 1, rfl, ?_⟩
          by_cases hlast : (kept.get j).val + 1 = n
          · exact .inr ⟨h.last hlast, by simp only [ht', hlast]⟩
          · have hnxt : (kept.get j).val + 1 < n := by
              have := (kept.get j).isLt
              omega
            have hmem : ⟨(kept.get j).val + 1, hnxt⟩ ∈ kept :=
              h.edge _ (List.get_mem kept j) _
                (mem_targets_of_direction hdir (.inl ⟨rfl, rfl⟩))
            obtain ⟨i, hi⟩ := List.mem_iff_get.1 hmem
            have hval : (kept.get i).val = (kept.get j).val + 1 := congrArg Fin.val hi
            exact .inl ⟨i, (h.next hval).symm, by simp only [ht', hval]⟩
        | goto label =>
          cases hlab : Flow.labelPosition? body label with
          | some q =>
            have hmem : q ∈ kept := h.edge _ (List.get_mem kept j) _
              (mem_targets_of_direction hdir (.inr ⟨label, rfl, hlab⟩))
            obtain ⟨i, rfl⟩ := List.mem_iff_get.1 hmem
            simp only [follow, hlab, h.labelPosition? hlab]
            exact .inl ⟨_, _, rfl, rfl, i.val, rfl, .inl ⟨i, rfl, rfl⟩⟩
          | none =>
            simp only [follow, hlab, labelPosition?_eq_none hlab]
            exact .inr ⟨by simp, rfl⟩
        | «return» value => exact .inr ⟨by simp [follow], rfl⟩
  · have hnew : act.step (restrict body kept) (t.at kept.length) = ⟨.stuck, t.at kept.length⟩ :=
      dif_neg (Nat.lt_irrefl _)
    have hold : act.step body t = ⟨.stuck, t⟩ := dif_neg (by omega)
    rw [hnew, hold]
    exact .inr ⟨by simp, rfl⟩

theorem Closed.run (h : Closed body kept) (steps : Nat) (hst : Corresponds kept s t) :
    (act.run (restrict body kept) steps s).unplaced = (act.run body steps t).unplaced := by
  induction steps generalizing s t with
  | zero =>
    obtain ⟨i, rfl, _⟩ := hst
    rfl
  | succ steps ih =>
    unfold run
    rcases h.step hst with ⟨s', t', hs, ht, hst'⟩ | ⟨hstat, heq⟩
    · rw [hs, ht]
      exact ih hst'
    · revert hstat heq
      generalize act.step body t = outcome
      generalize act.step (restrict body kept) s = outcome'
      obtain ⟨status, u⟩ := outcome
      obtain ⟨status', u'⟩ := outcome'
      intro hstat heq
      obtain rfl : status' = status := congrArg Outcome.status heq
      cases status' with
      | running => exact absurd rfl hstat
      | returned value => exact heq
      | stuck => exact heq

end

end SysY.Optimization

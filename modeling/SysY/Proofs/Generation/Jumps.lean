import SysY.Proofs.Generation.Branching
import SysY.Proofs.Generation.Evaluation

/-!
# Conditional jumps

The code of a condition jumps to its target exactly if the condition has the wanted truth value, and
otherwise runs to its end. What is known about the jump without running it is right: a condition that
always jumps has the wanted truth value, and one that never jumps does not.
-/

namespace SysY.Generation

open Eeyore Eeyore.Activation Structured
open Tree (Formula Formulas)

variable {b b1 b2 b' : Builder} {sigs : Signatures} {loc : Location} {formula : Formula}
  {v : Int32}

/-- No byte is stale. -/
def clean : UInt32 → Prop := fun _ => False

theorem clean_hidden (a : UInt32) (h : clean a) : (none : Option Region).any (·.contains a) = true :=
  h.elim

namespace Stage

/-- A run of the code of a condition: it comes to its target or to its end, and what is known about
the jump is right. -/
structure Branches (stage : Stage) (j : Jumping) (taken : Bool) (b' target : Builder) (m' : Moment)
    (s s' : State) : Prop where
  always : j = .always → taken = true
  never : j = .never → taken = false
  comes : Comes stage.act stage.body s s'
  arrives : stage.At clean (if taken then target else b') m'.store s'

variable {stage : Stage} {env : Environment} {m m' : Moment} {s : State}

theorem operands_compared {op : BinaryOp} {left right : Value}
    (h : Compared sigs loc formula b op left right b') (hnm : stage.Names env)
    (henv : b.scopes.find? = env) (hcov : stage.Covers b')
    (hv : stage.site.value env none formula m = some (v, m')) (hat : stage.At clean b m.store s) :
    ∃ s' a c, stage.Advances none clean b b' m m' s s' ∧ stage.Denotes b' m' s' left a ∧
      stage.Denotes b' m' s' right c ∧ op.fold a c = some v := by
  induction h generalizing v m' with
  | plus _ ih =>
    rw [Site.value] at hv
    obtain ⟨⟨a, m1⟩, ha, hv⟩ := Option.bind_eq_some_iff.1 hv
    cases hv
    exact ih henv hcov ha hat
  | @binary operator first second b b1 b' left right hfst hsnd =>
    rw [Site.value] at hv
    obtain ⟨⟨a, m1⟩, ha, hv⟩ := Option.bind_eq_some_iff.1 hv
    obtain ⟨⟨c, m2⟩, hc, hv⟩ := Option.bind_eq_some_iff.1 hv
    obtain ⟨w, hw, hv⟩ := Option.bind_eq_some_iff.1 hv
    cases hv
    have hcov1 := hcov.mono (emits_eval hsnd).toGrows
    have henv1 := (emits_eval hfst).find?_eq henv
    obtain ⟨s1, hadv1, hden1⟩ := evaluates_eval clean_hidden hnm henv hfst hcov1 ha s hat
    obtain ⟨s2, hadv2, hden2⟩ := evaluates_eval clean_hidden hnm henv1 hsnd hcov hc s1 hadv1.arrives
    exact ⟨s2, a, c, hadv1.trans hadv2 (emits_eval hfst).toGrows,
      hden1.persist hadv1.arrives.toShows hadv2 (emits_eval hsnd).toGrows, hden2,
      (fold_operation operator a c).trans hw⟩
  | @logic conn first second b b1 b' c left hdec hfst hsnd =>
    rw [Site.value] at hv
    obtain ⟨⟨a, m1⟩, ha, hv⟩ := Option.bind_eq_some_iff.1 hv
    have hcov1 := hcov.mono (emits_eval hsnd).toGrows
    have henv1 := (emits_eval hfst).find?_eq henv
    obtain ⟨s1, hadv1, hden1⟩ := evaluates_eval clean_hidden hnm henv hfst hcov1 ha s hat
    cases hden1.value
    dsimp only at hv
    rw [if_neg (Bool.eq_false_iff.1 (decides_eq_false.2 hdec))] at hv
    obtain ⟨⟨d, m2⟩, hd, hv⟩ := Option.bind_eq_some_iff.1 hv
    cases hv
    obtain ⟨s2, hadv2, hden2⟩ := evaluates_eval clean_hidden hnm henv1 hsnd hcov hd s1 hadv1.arrives
    exact ⟨s2, d, 0, hadv1.trans hadv2 (emits_eval hfst).toGrows, hden2, .const _ _ _ _,
      fold_ne_zero d⟩

theorem branches_leaf {wanted : Bool} {target : Label} {j : Jumping} {bt : Builder}
    (hleaf : IsLeaf formula) (htidy : Tidy b)
    (hb : Builds (branch sigs loc wanted target formula) b j b') (hnm : stage.Names env)
    (henv : b.scopes.find? = env) (hcov : stage.Covers b')
    (htgt : stage.Covers (bt.emit (.label target)))
    (hv : stage.site.value env none formula m = some (v, m')) (hat : stage.At clean b m.store s) :
    ∃ s', stage.Branches j (decide (v ≠ 0) == wanted) b' bt m' s s' := by
  have hjump : ∀ {b1 : Builder} {left right : Value} {relation : Relation} {a c : Int32} {s1 : State},
      stage.Covers (b1.emit (.branch left relation right target)) →
      Comes stage.act stage.body s s1 → stage.At clean b1 m'.store s1 →
      stage.act.value s1 left = some a → stage.act.value s1 right = some c →
      relation.holds a c = (decide (v ≠ 0) == wanted) →
      ∃ s', stage.Branches .maybe (decide (v ≠ 0) == wanted)
        (b1.emit (.branch left relation right target)) bt m' s s' := by
    intro b1 left right relation a c s1 hcov hcom hat1 hleft hright hholds
    cases htkn : (decide (v ≠ 0) == wanted) with
    | true =>
      exact ⟨_, by simp, by simp, hcom.trans (comes_branch_taken hcov htgt hat1.position hleft
        hright (hholds.trans htkn)), hat1.toShows.at _, rfl⟩
    | false =>
      exact ⟨_, by simp, by simp, hcom.trans (comes_branch_skipped hcov hat1.position hleft
        hright (hholds.trans htkn)), hat1.toShows.at _, rfl⟩
  rcases leaf_cases hleaf htidy hb with ⟨c, b1, heval, hc⟩ |
    ⟨op, l, relation, r, b1, hcpd, hop, rfl, rfl⟩ | ⟨x, b1, heval, rfl, rfl⟩
  · have hcov1 : stage.Covers b1 := by
      rcases hc with ⟨_, _, rfl⟩ | ⟨_, _, rfl⟩
      · exact hcov.of_emit
      · exact hcov
    obtain ⟨s1, hadv, hden⟩ := evaluates_eval clean_hidden hnm henv heval hcov1 hv s hat
    cases hden.value
    rcases hc with ⟨hwant, rfl, rfl⟩ | ⟨hwant, rfl, rfl⟩
    · rw [hwant, beq_self_eq_true]
      exact ⟨_, fun _ => rfl, by simp, hadv.comes.trans (comes_goto hcov htgt
        hadv.arrives.position rfl rfl), hadv.arrives.toShows.at _, rfl⟩
    · rw [beq_eq_false_iff_ne.2 hwant]
      exact ⟨s1, by simp, fun _ => rfl, hadv.comes, hadv.arrives⟩
  · obtain ⟨s1, a, c, hadv, hl, hr, hfold⟩ := operands_compared hcpd hnm henv hcov.of_emit hv hat
    exact hjump hcov hadv.comes hadv.arrives hl.value hr.value (holds_wanted wanted hop hfold)
  · obtain ⟨s1, hadv, hden⟩ := evaluates_eval clean_hidden hnm henv heval hcov.of_emit hv s hat
    have hholds := holds_wanted wanted (rfl : BinaryOp.ne.relation? = some .ne) (fold_ne_zero v)
    rw [ne_zero_truth] at hholds
    exact hjump hcov hadv.comes hadv.arrives hden.value rfl hholds

theorem decides_eq (conn : Tree.Connective) (a : Int32) :
    decides conn a = (decide (a ≠ 0) == decide (conn = .or)) := by
  cases conn <;> simp [decides]

theorem value_logic {site : Site} {conn : Tree.Connective} {left right : Formula}
    (h : site.value env none (.logic conn left right) m = some (v, m')) :
    ∃ a m1, site.value env none left m = some (a, m1) ∧
      ((decide (a ≠ 0) == decide (conn = .or)) = true ∧ decide (v ≠ 0) = decide (a ≠ 0) ∧
        m' = m1 ∨
      (decide (a ≠ 0) == decide (conn = .or)) = false ∧
        ∃ c, site.value env none right m1 = some (c, m') ∧ decide (v ≠ 0) = decide (c ≠ 0)) := by
  rw [Site.value] at h
  obtain ⟨⟨a, m1⟩, ha, h⟩ := Option.bind_eq_some_iff.1 h
  refine ⟨a, m1, ha, ?_⟩
  rw [← decides_eq]
  dsimp only at h
  split at h
  · rename_i hdcd
    cases h
    exact .inl ⟨hdcd, ne_zero_truth _, rfl⟩
  · rename_i hdcd
    obtain ⟨⟨c, m2⟩, hc, h⟩ := Option.bind_eq_some_iff.1 h
    cases h
    exact .inr ⟨Bool.eq_false_iff.2 hdcd, c, hc, ne_zero_truth _⟩

theorem branches_branch {formula : Formula} {wanted : Bool} {target : Label} {j : Jumping}
    {b b' bt : Builder} {m m' : Moment} {v : Int32} {s : State} (htidy : Tidy b)
    (hb : Builds (branch sigs loc wanted target formula) b j b')
    (hnm : stage.Names env) (henv : b.scopes.find? = env) (hcov : stage.Covers b')
    (htgt : stage.Covers (bt.emit (.label target)))
    (hv : stage.site.value env none formula m = some (v, m')) (hat : stage.At clean b m.store s) :
    ∃ s', stage.Branches j (decide (v ≠ 0) == wanted) b' bt m' s s' := by
  rcases formula_cases formula with ⟨operand, rfl⟩ | ⟨conn, left, right, rfl⟩ | hleaf
  · rw [branch] at hb
    rw [Site.value] at hv
    obtain ⟨⟨a, m1⟩, ha, hv⟩ := Option.bind_eq_some_iff.1 hv
    cases hv
    have htkn : (decide (unaryValue .not a ≠ 0) == wanted) = (decide (a ≠ 0) == !wanted) := by
      rw [unaryValue, ne_zero_truth]
      by_cases h : a = 0 <;> cases wanted <;> simp [h]
    rw [htkn]
    exact branches_branch htidy hb hnm henv hcov htgt ha hat
  · obtain ⟨a, m1, ha, hr⟩ := value_logic hv
    by_cases hwant : decide (conn = .or) = wanted
    · obtain ⟨j1, b1, hl, hcas⟩ := branch_either hwant hb
      have hem := emits_branch htidy hl
      have htidy1 := hem.tidy htidy
      have henv1 := hem.find?_eq henv
      have hcov1 : stage.Covers b1 := by
        rcases hcas with ⟨_, _, rfl⟩ | ⟨_, j2, hsnd, _⟩
        · exact hcov
        · exact hcov.mono (emits_branch htidy1 hsnd).toGrows
      obtain ⟨s1, hbrs1⟩ := branches_branch htidy hl hnm henv hcov1 htgt ha hat
      rw [hwant] at hr
      rcases hr with ⟨htkn, hva, rfl⟩ | ⟨htkn, c, hc, hvc⟩
      · rw [htkn] at hbrs1
        rw [hva, htkn]
        refine ⟨s1, fun _ => rfl, fun hj => ?_, hbrs1.comes, hbrs1.arrives⟩
        rcases hcas with ⟨_, rfl, _⟩ | ⟨_, _, _, _, hnever⟩
        · cases hj
        · cases hbrs1.never (hnever hj).1
      · rw [htkn] at hbrs1
        rcases hcas with ⟨halw, _⟩ | ⟨_, j2, hsnd, halw, hnever⟩
        · cases hbrs1.always halw
        · obtain ⟨s2, hbrs2⟩ := branches_branch htidy1 hsnd hnm henv1 hcov htgt hc hbrs1.arrives
          rw [hvc]
          exact ⟨s2, fun hj => hbrs2.always (halw hj), fun hj => hbrs2.never (hnever hj).2,
            hbrs1.comes.trans hbrs2.comes, hbrs2.arrives⟩
    · obtain ⟨hroom, j1, b1, b2, hl, rfl, hcas⟩ := branch_both hwant hb
      have htidy0 := (Emits.addLabel hroom).tidy htidy
      have hem := emits_branch htidy0 hl
      have htidy1 := hem.tidy htidy0
      have henv1 : b1.scopes.find? = env := hem.find?_eq henv
      have hcov1 : stage.Covers b1 := by
        rcases hcas with ⟨_, _, rfl⟩ | ⟨_, j2, hsnd, _⟩
        · exact hcov.of_emit
        · exact hcov.of_emit.mono (emits_branch htidy1 hsnd).toGrows
      have hstart : stage.At clean b.addLabel m.store s := ⟨hat.toShows, hat.position⟩
      have henv0 : b.addLabel.scopes.find? = env := henv
      obtain ⟨s1, hbrs1⟩ := branches_branch htidy0 hl hnm henv0 hcov1 hcov ha hstart
      have hskip : decide (conn = .or) = !wanted := by
        cases wanted <;> simpa using hwant
      rw [hskip] at hr
      rcases hr with ⟨htkn, hva, rfl⟩ | ⟨htkn, c, hc, hvc⟩
      · rw [htkn] at hbrs1
        have hnot : (decide (v ≠ 0) == wanted) = false := by
          rw [hva, beq_eq_false_iff_ne, beq_iff_eq.1 htkn]
          cases wanted <;> simp
        rw [hnot]
        refine ⟨_, fun hj => ?_, fun _ => rfl, hbrs1.comes.trans
          (comes_label hcov hbrs1.arrives.position), hbrs1.arrives.toShows.at _, rfl⟩
        rcases hcas with ⟨_, rfl, _⟩ | ⟨_, _, _, halw, _⟩
        · cases hj
        · cases hbrs1.never (halw hj).1
      · rw [htkn] at hbrs1
        rcases hcas with ⟨halw, _⟩ | ⟨_, j2, hsnd, halw, hnever⟩
        · cases hbrs1.always halw
        · obtain ⟨s2, hbrs2⟩ := branches_branch htidy1 hsnd hnm henv1 hcov.of_emit htgt
            hc hbrs1.arrives
          have hcom := hbrs1.comes.trans hbrs2.comes
          have harv := hbrs2.arrives
          rw [hvc]
          cases htkn2 : (decide (c ≠ 0) == wanted) with
          | true =>
            rw [htkn2] at harv
            exact ⟨s2, fun _ => rfl, fun hj => by rw [← htkn2]; exact hbrs2.never (hnever hj),
              hcom, harv⟩
          | false =>
            rw [htkn2] at harv
            exact ⟨_, fun hj => by rw [← htkn2]; exact hbrs2.always (halw hj).2, fun _ => rfl,
              hcom.trans (comes_label hcov harv.position), harv.toShows.at _, rfl⟩
  · exact branches_leaf hleaf htidy hb hnm henv hcov htgt hv hat
termination_by sizeOf formula
decreasing_by all_goals (subst_vars; simp; try omega)

end Stage

end SysY.Generation

import SysY.Proofs.Generation.Constants
import SysY.Proofs.Generation.Emission

/-!
# Inversion of conditional jumps

The code of a condition follows its connectives down to conditions that cannot be split. Their value
is computed, and a comparison at the end of its code becomes part of the jump. That the comparison
can be taken back rests on its being the last thing that was written for this condition: operations
have temporaries as their destinations, and names do not stand for temporaries.
-/

namespace SysY.Generation

open Eeyore
open Tree (Formula Formulas)

variable {b b1 b2 b' : Builder} {sigs : Signatures} {loc : Location} {wanted : Bool}
  {j : Jumping} {x : Symbol} {i : Symbol → Instruction} {target : Label}
  {conn : Tree.Connective} {left right : Value} {code : Code} {relation : Relation}
  {formula : Formula}

/-! ## Inversion -/

theorem jumpIf_cases {value : Value} (h : Builds (jumpIf value wanted target) b j b') :
    (∃ c, value = .const c ∧ decide (c ≠ 0) = wanted ∧ j = .always ∧ b' = b.emit (.jump target)) ∨
    (∃ c, value = .const c ∧ decide (c ≠ 0) ≠ wanted ∧ j = .never ∧ b' = b) ∨
    (∃ x left relation right code, value = .symbol x ∧
      lastComparison? b.code x = some (left, relation, right) ∧ b.code.takeBack x = .ok code ∧
      j = .maybe ∧ b' = { b with code := code }.emit
        (.branch left (if wanted then relation else relation.negate) right target)) ∨
    (∃ x, value = .symbol x ∧ lastComparison? b.code x = none ∧ j = .maybe ∧
      b' = b.emit (.branch (.symbol x) (if wanted then .ne else .eq) (.const 0) target)) := by
  cases value with
  | const c =>
    unfold jumpIf at h
    dsimp only at h
    split at h
    · rename_i hwant
      obtain ⟨_, _, hpush, h⟩ := builds_bind.1 h
      rw [builds_push] at hpush
      obtain ⟨rfl, rfl⟩ := builds_pure.1 h
      exact .inl ⟨c, rfl, hwant, rfl, hpush⟩
    · rename_i hwant
      obtain ⟨rfl, rfl⟩ := builds_pure.1 h
      exact .inr (.inl ⟨c, rfl, hwant, rfl, rfl⟩)
  | symbol x =>
    unfold jumpIf at h
    obtain ⟨builder, b0, hget, hnxt⟩ := builds_bind.1 h
    obtain ⟨hbuilder, hb0⟩ := builds_get.1 hget
    rw [hbuilder, hb0] at hnxt
    cases hlast : lastComparison? b.code x with
    | none =>
      simp only [hlast, builds_bind, builds_push, builds_pure] at hnxt
      obtain ⟨-, _, rfl, rfl, rfl⟩ := hnxt
      exact .inr (.inr (.inr ⟨x, rfl, hlast, rfl, rfl⟩))
    | some comparison =>
      obtain ⟨left, relation, right⟩ := comparison
      simp only [hlast, builds_bind, builds_checked, builds_set, builds_push, builds_pure] at hnxt
      obtain ⟨code, _, ⟨hcode, rfl⟩, -, _, rfl, -, _, rfl, rfl, rfl⟩ := hnxt
      exact .inr (.inr (.inl ⟨x, left, relation, right, code, rfl, hlast, hcode, rfl, rfl⟩))

theorem branch_either {left right : Formula} (hwant : decide (conn = .or) = wanted)
    (h : Builds (branch sigs loc wanted target (.logic conn left right)) b j b') :
    ∃ j1 b1, Builds (branch sigs loc wanted target left) b j1 b1 ∧
      ((j1 = .always ∧ j = .always ∧ b' = b1) ∨
      (j1 ≠ .always ∧ ∃ j2, Builds (branch sigs loc wanted target right) b1 j2 b' ∧
        (j = .always → j2 = .always) ∧ (j = .never → j1 = .never ∧ j2 = .never))) := by
  rw [branch, if_pos hwant] at h
  obtain ⟨j1, b1, hl, h⟩ := builds_bind.1 h
  refine ⟨j1, b1, hl, ?_⟩
  cases j1 with
  | always =>
    obtain ⟨rfl, rfl⟩ := builds_pure.1 h
    exact .inl ⟨rfl, rfl, rfl⟩
  | never => exact .inr ⟨by simp, j, h, fun hj => hj, fun hj => ⟨rfl, hj⟩⟩
  | maybe =>
    obtain ⟨j2, b2, hr, h⟩ := builds_bind.1 h
    cases j2 with
    | always =>
      obtain ⟨rfl, rfl⟩ := builds_pure.1 h
      exact .inr ⟨by simp, .always, hr, by simp, by simp⟩
    | never =>
      obtain ⟨rfl, rfl⟩ := builds_pure.1 h
      exact .inr ⟨by simp, .never, hr, by simp, by simp⟩
    | maybe =>
      obtain ⟨rfl, rfl⟩ := builds_pure.1 h
      exact .inr ⟨by simp, .maybe, hr, by simp, by simp⟩

theorem branch_both {left right : Formula} (hwant : decide (conn = .or) ≠ wanted)
    (h : Builds (branch sigs loc wanted target (.logic conn left right)) b j b') :
    b.lastLabel.toNat + 1 < wordValues ∧ ∃ j1 b1 b2,
      Builds (branch sigs loc (!wanted) ⟨b.lastLabel + 1⟩ left) b.addLabel j1 b1 ∧
      b' = b2.emit (.label ⟨b.lastLabel + 1⟩) ∧
      ((j1 = .always ∧ j = .never ∧ b2 = b1) ∨
      (j1 ≠ .always ∧ ∃ j2, Builds (branch sigs loc wanted target right) b1 j2 b2 ∧
        (j = .always → j1 = .never ∧ j2 = .always) ∧ (j = .never → j2 = .never))) := by
  rw [branch, if_neg hwant] at h
  obtain ⟨_, _, hlab, hnxt⟩ := builds_bind.1 h
  obtain ⟨hroom, rfl, rfl⟩ := builds_newLabel.1 hlab
  obtain ⟨j1, b1, hl, hrest⟩ := builds_bind.1 hnxt
  refine ⟨hroom, j1, b1, ?_⟩
  cases j1 with
  | always =>
    simp only [builds_bind, builds_pure, builds_push] at hrest
    obtain ⟨_, _, ⟨rfl, rfl⟩, -, _, rfl, rfl, rfl⟩ := hrest
    exact ⟨_, hl, rfl, .inl ⟨rfl, rfl, rfl⟩⟩
  | never =>
    simp only [builds_bind, builds_pure, builds_push] at hrest
    obtain ⟨j2, b2, hr, -, _, rfl, rfl, rfl⟩ := hrest
    exact ⟨b2, hl, rfl, .inr ⟨by simp, _, hr, fun hj => ⟨rfl, hj⟩, fun hj => hj⟩⟩
  | maybe =>
    obtain ⟨j2, b2, hr, hlast⟩ := builds_bind.1 hrest
    cases j2 with
    | never =>
      simp only [builds_bind, builds_pure, builds_push] at hlast
      obtain ⟨_, _, ⟨rfl, rfl⟩, -, _, rfl, rfl, rfl⟩ := hlast
      exact ⟨_, hl, rfl, .inr ⟨by simp, .never, hr, by simp, by simp⟩⟩
    | always =>
      simp only [builds_bind, builds_pure, builds_push] at hlast
      obtain ⟨_, _, ⟨rfl, rfl⟩, -, _, rfl, rfl, rfl⟩ := hlast
      exact ⟨_, hl, rfl, .inr ⟨by simp, .always, hr, by simp, by simp⟩⟩
    | maybe =>
      simp only [builds_bind, builds_pure, builds_push] at hlast
      obtain ⟨_, _, ⟨rfl, rfl⟩, -, _, rfl, rfl, rfl⟩ := hlast
      exact ⟨_, hl, rfl, .inr ⟨by simp, .maybe, hr, by simp, by simp⟩⟩

/-! ## Comparisons -/

/-- Operations have temporaries as their destinations, and names do not stand for temporaries. -/
structure Tidy (b : Builder) : Prop where
  neat : ∀ i ∈ b.code.body.toList, Neat i
  names : ValidNames b.scopes.find?

theorem Emits.tidy (h : Emits b b') (hb : Tidy b) : Tidy b' :=
  ⟨h.neat hb.neat, h.sameScopes ▸ hb.names⟩

theorem lastComparison?_eq_some (h : lastComparison? code x = some (left, relation, right)) :
    ∃ op, code.body.back? = some (.binary x op left right) ∧ op.relation? = some relation := by
  unfold lastComparison? at h
  split at h
  · rename_i dest op left' right' hback
    split at h
    · rename_i hdest
      obtain ⟨relation', hrelation, heq⟩ := Option.map_eq_some_iff.1 h
      cases heq
      exact ⟨op, by rw [hback, hdest], hrelation⟩
    · cases h
  · cases h

theorem back?_emit (b : Builder) (i : Instruction) : (b.emit i).code.body.back? = some i := by
  simp [Builder.emit]

theorem Computes.comparison (h : Computes b i x b')
    (hlast : lastComparison? b'.code x = some (left, relation, right)) :
    ∃ op, i x = .binary x op left right ∧ op.relation? = some relation := by
  obtain ⟨op, hback, hop⟩ := lastComparison?_eq_some hlast
  rw [h.builder, back?_emit] at hback
  exact ⟨op, Option.some.inj hback, hop⟩

theorem Tidy.lastComparison? (h : Tidy b) {x : Symbol} (hx : x.isTemp = false) {left right : Value}
    {relation : Relation} : lastComparison? b.code x ≠ some (left, relation, right) := by
  intro hlast
  obtain ⟨op, hback, _⟩ := lastComparison?_eq_some hlast
  have hmem := Array.mem_of_back? hback
  have hneat : x.isTemp = true := h.neat _ (Array.mem_toList_iff.2 hmem)
  rw [hx] at hneat
  cases hneat

theorem Computes.takeBack (h : Computes b i x b') :
    b'.code.takeBack x = .ok b.code := by
  obtain ⟨hroom, rfl, rfl⟩ := h
  have hsucc := toNat_succ hroom
  have hne : b.code.temps + 1 ≠ 0 := by
    intro heq
    rw [heq] at hsucc
    cases hsucc
  simp [Code.takeBack, Builder.emit, Builder.addTemp, checkedPred, hne]

/-- The code of an expression up to a comparison at its end, which has an operation and two
operands. -/
inductive Compared (signatures : Signatures) (location : Location) :
    Formula → Builder → BinaryOp → Value → Value → Builder → Prop
  | plus {operand : Formula} {b b' : Builder} {op : BinaryOp} {left right : Value} :
    Compared signatures location operand b op left right b' →
    Compared signatures location (.unary .plus operand) b op left right b'
  | binary {operator : Tree.BinaryOperator} {first second : Formula} {b b₁ b' : Builder}
      {left right : Value} : Builds (eval signatures location first) b left b₁ →
    Builds (eval signatures location second) b₁ right b' →
    Compared signatures location (.binary operator first second) b (operation operator) left right b'
  /-- The left operand of the connective is constant and leaves the right one to decide. -/
  | logic {connective : Tree.Connective} {first second : Formula} {b b₁ b' : Builder} {c : Int32}
      {left : Value} : decide (c ≠ 0) = decide (connective = .and) →
    Builds (eval signatures location first) b (.const c) b₁ →
    Builds (eval signatures location second) b₁ left b' →
    Compared signatures location (.logic connective first second) b .ne left (.const 0) b'

theorem Compared.emits {op : BinaryOp}
    (h : Compared sigs loc formula b op left right b') : Emits b b' := by
  induction h with
  | plus _ ih => exact ih
  | binary hfst hsnd => exact (emits_eval hfst).trans (emits_eval hsnd)
  | logic _ hfst hsnd => exact (emits_eval hfst).trans (emits_eval hsnd)

theorem eval_comparison : ∀ {formula : Formula} {b b' : Builder} {x : Symbol} {left right : Value}
    {relation : Relation}, Builds (eval sigs loc formula) b (.symbol x) b' → Tidy b →
    lastComparison? b'.code x = some (left, relation, right) →
    ∃ b1 op, op.relation? = some relation ∧
      Compared sigs loc formula b op left right b1 ∧
      Computes b1 (.binary · op left right) x b'
  | .literal value, b, b', x, left, right, relation, h, htidy, hlast => by
    rw [eval, builds_pure] at h
    cases h.1
  | .read name indices, b, b', x, left, right, relation, h, htidy, hlast => by
    obtain ⟨r, b1, hrsv, hread⟩ := builds_eval_read.1 h
    obtain ⟨meaning, index, b2, hfind, hle, _, hidx, hpl⟩ := builds_resolveWith.1 hrsv
    have hsym := (htidy.names _ _ hfind).symbol
    have htidy2 := (emits_evalPosition hidx).tidy htidy
    rcases hpl with ⟨_, hname⟩ | ⟨y, factor, offset, b3, _, _, hscl, hoff⟩
    · obtain ⟨rfl, hr⟩ := builds_resolveName.1 hname
      rcases hr with ⟨_, rfl⟩ | ⟨_, _, rfl⟩ | ⟨_, _, _, _, _, rfl⟩
      · obtain ⟨⟨⟩, rfl⟩ := builds_pure.1 hread
        exact absurd hlast (htidy2.lastComparison? hsym)
      · obtain ⟨⟨⟩, rfl⟩ := builds_pure.1 hread
        exact absurd hlast (htidy2.lastComparison? hsym)
      · cases (builds_pure.1 hread).1
    · rcases builds_resolveOffset.1 hoff with ⟨_, z, rfl, hadd⟩ | ⟨_, ⟨_, _, _, _, hconst⟩ | ⟨_, rfl, rfl⟩⟩
      · obtain ⟨rfl, rfl⟩ := builds_pure.1 hread
        rcases builds_applyBinary.1 hadd with ⟨_, _, _, _, _, _, ⟨⟩, _⟩ | ⟨_, dest, ⟨⟩, hcomp⟩
        obtain ⟨op, ⟨⟩, hop⟩ := hcomp.comparison hlast
        cases hop
      · obtain ⟨_, _, rfl, rfl⟩ := builds_constantElement.1 hconst
        cases (builds_pure.1 hread).1
      · rcases builds_readResolved.1 hread with ⟨_, ⟨⟩, _⟩ | ⟨_, ⟨⟩, _⟩ | ⟨⟨⟩, _⟩ |
          ⟨_, _, dest, ⟨⟩, ⟨⟩, hcomp⟩
        obtain ⟨op, ⟨⟩, hop⟩ := hcomp.comparison hlast
  | .call fn args place, b, b', x, left, right, relation, h, htidy, hlast => by
    obtain ⟨dest, ⟨⟩, hcall⟩ := builds_eval_call.1 h
    obtain ⟨signature, values, b1, _, _, _, hemit⟩ := builds_callWith.1 hcall
    rcases builds_emitCall.1 hemit with ⟨_, ⟨⟩, _, hcomp⟩ | ⟨⟨⟩, _⟩
    obtain ⟨op, ⟨⟩, hop⟩ := hcomp.comparison hlast
  | .unary .plus operand, b, b', x, left, right, relation, h, htidy, hlast => by
    obtain ⟨y, b1, hy, hx⟩ := builds_eval_unary.1 h
    obtain ⟨rfl, rfl⟩ := builds_pure.1 hx
    obtain ⟨b2, op, hop, hcpd, hcomp⟩ := eval_comparison hy htidy hlast
    exact ⟨b2, op, hop, .plus hcpd, hcomp⟩
  | .unary .minus operand, b, b', x, left, right, relation, h, htidy, hlast => by
    obtain ⟨y, b1, hy, hx⟩ := builds_eval_unary.1 h
    rcases builds_applyUnary.1 hx with ⟨_, _, ⟨⟩, _⟩ | ⟨_, dest, _, ⟨⟩, hcomp⟩
    obtain ⟨op, ⟨⟩, hop⟩ := hcomp.comparison hlast
  | .unary .not operand, b, b', x, left, right, relation, h, htidy, hlast => by
    obtain ⟨y, b1, hy, hx⟩ := builds_eval_unary.1 h
    rcases builds_applyUnary.1 hx with ⟨_, _, ⟨⟩, _⟩ | ⟨_, dest, _, ⟨⟩, hcomp⟩
    obtain ⟨op, ⟨⟩, hop⟩ := hcomp.comparison hlast
  | .binary operator first second, b, b', x, left, right, relation, h, htidy, hlast => by
    obtain ⟨y, b1, z, b2, hy, hz, hx⟩ := builds_eval_binary.1 h
    rcases builds_applyBinary.1 hx with ⟨_, _, _, _, _, _, ⟨⟩, _⟩ | ⟨_, dest, ⟨⟩, hcomp⟩
    obtain ⟨op, heq, hop⟩ := hcomp.comparison hlast
    cases heq
    exact ⟨b2, _, hop, .binary hy hz, hcomp⟩
  | .logic conn first second, b, b', x, left, right, relation, h, htidy, hlast => by
    obtain ⟨y, b1, hy, hsnd⟩ := builds_eval_logic.1 h
    rcases hsnd with ⟨c, rfl, hdec, z, b2, hz, hx⟩ | ⟨_, _, _, ⟨⟩, _⟩ |
      ⟨l, z, b2, _, _, _, _, _, rfl⟩
    · rcases builds_applyBinary.1 hx with ⟨_, _, _, _, _, _, ⟨⟩, _⟩ | ⟨_, dest, ⟨⟩, hcomp⟩
      obtain ⟨op, heq, hop⟩ := hcomp.comparison hlast
      cases heq
      exact ⟨b2, _, hop, .logic hdec hy hz, hcomp⟩
    · obtain ⟨op, hback, _⟩ := lastComparison?_eq_some hlast
      rw [Builder.join, back?_emit] at hback
      cases hback
  | .malformed fault, b, b', x, left, right, relation, h, htidy, hlast => by
    rw [eval, builds_checked] at h
    cases h.1

theorem Computes.back (h : Computes b i x b')
    (hcode : b'.code.takeBack x = .ok code) : { b' with code := code } = b := by
  rw [h.takeBack] at hcode
  cases hcode
  rw [h.builder]
  rfl

/-! ## Conditions -/

/-- A condition that cannot be split: its value is computed. -/
def IsLeaf (formula : Formula) : Prop :=
  ∀ (signatures : Signatures) (location : Location) (wanted : Bool) (target : Label),
    branch signatures location wanted target formula =
      (do jumpIf (← eval signatures location formula) wanted target)

theorem formula_cases (formula : Formula) :
    (∃ operand, formula = .unary .not operand) ∨
    (∃ conn left right, formula = .logic conn left right) ∨ IsLeaf formula := by
  by_cases hnot : ∃ operand, formula = .unary .not operand
  · exact .inl hnot
  · by_cases hlogic : ∃ conn left right, formula = .logic conn left right
    · exact .inr (.inl hlogic)
    · refine .inr (.inr fun sigs loc wanted target => ?_)
      rw [branch]
      · exact fun operand h => hnot ⟨operand, h⟩
      · exact fun conn left right h => hlogic ⟨conn, left, right, h⟩

theorem leaf_cases (hleaf : IsLeaf formula) (htidy : Tidy b)
    (h : Builds (branch sigs loc wanted target formula) b j b') :
    (∃ c b1, Builds (eval sigs loc formula) b (.const c) b1 ∧
      (decide (c ≠ 0) = wanted ∧ j = .always ∧ b' = b1.emit (.jump target) ∨
        decide (c ≠ 0) ≠ wanted ∧ j = .never ∧ b' = b1)) ∨
    (∃ op left relation right b1, Compared sigs loc formula b op left right b1 ∧
      op.relation? = some relation ∧ j = .maybe ∧
      b' = b1.emit (.branch left (if wanted then relation else relation.negate) right target)) ∨
    (∃ x b1, Builds (eval sigs loc formula) b (.symbol x) b1 ∧ j = .maybe ∧
      b' = b1.emit (.branch (.symbol x) (if wanted then .ne else .eq) (.const 0) target)) := by
  rw [hleaf, builds_bind] at h
  obtain ⟨y, b1, hy, hjump⟩ := h
  rcases jumpIf_cases hjump with ⟨c, rfl, hc⟩ | ⟨c, rfl, hc⟩ |
    ⟨x, left, relation, right, code, rfl, hlast, hcode, hj, rfl⟩ | ⟨x, rfl, _, hj, hb⟩
  · exact .inl ⟨c, b1, hy, .inl hc⟩
  · exact .inl ⟨c, b1, hy, .inr hc⟩
  · obtain ⟨b2, op, hop, hcpd, hcomp⟩ := eval_comparison hy htidy hlast
    refine .inr (.inl ⟨op, left, relation, right, b2, hcpd, hop, hj, ?_⟩)
    rw [hcomp.back hcode]
  · exact .inr (.inr ⟨x, b1, hy, hj, hb⟩)

theorem emits_branch {formula : Formula} {b b' : Builder} {wanted : Bool} {target : Label}
    {j : Jumping} (htidy : Tidy b)
    (h : Builds (branch sigs loc wanted target formula) b j b') : Emits b b' := by
  rcases formula_cases formula with ⟨operand, rfl⟩ | ⟨conn, left, right, rfl⟩ | hleaf
  · rw [branch] at h
    exact emits_branch htidy h
  · by_cases hwant : decide (conn = .or) = wanted
    · obtain ⟨j1, b1, hl, hr⟩ := branch_either hwant h
      have hem := emits_branch htidy hl
      rcases hr with ⟨_, _, rfl⟩ | ⟨_, j2, hr, _⟩
      · exact hem
      · exact hem.trans (emits_branch (hem.tidy htidy) hr)
    · obtain ⟨hroom, j1, b1, b2, hl, rfl, hr⟩ := branch_both hwant h
      have htidy0 := (Emits.addLabel hroom).tidy htidy
      have hem := emits_branch htidy0 hl
      refine Emits.mark hroom ?_
      rcases hr with ⟨_, _, rfl⟩ | ⟨_, j2, hr, _⟩
      · exact hem
      · exact hem.trans (emits_branch (hem.tidy htidy0) hr)
  · rcases leaf_cases hleaf htidy h with ⟨c, b1, heval, ⟨_, _, rfl⟩ | ⟨_, _, rfl⟩⟩ |
      ⟨op, l, relation, r, b1, hcpd, _, _, rfl⟩ | ⟨x, b1, heval, _, rfl⟩
    · exact (emits_eval heval).trans (.emit _ rfl trivial)
    · exact emits_eval heval
    · exact hcpd.emits.trans (.emit _ rfl trivial)
    · exact (emits_eval heval).trans (.emit _ rfl trivial)
termination_by sizeOf formula
decreasing_by all_goals (subst_vars; simp; try omega)

end SysY.Generation

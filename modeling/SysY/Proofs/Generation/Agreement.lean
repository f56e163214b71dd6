import SysY.Proofs.Generation.Connectives

/-!
# Conditions and their values

A condition can be computed as a value, or it can be split into jumps. The two agree: the jumps lead
to their target exactly if the value has the wanted truth value, and on the way they make the same
calls and leave the same things behind.
-/

namespace SysY.Generation

open Eeyore Eeyore.Activation Option
open Structured (decides)
open Tree (Connective Formula)

variable {n k m : Nat} {pairs pairs1 : Pairing} {act : Activation} {s s' t : State}
  {signatures : Signatures} {location : Location} {b b₁ b₂ b3 c c1 c2 : Builder} {x y z : Value}
  {either : Bool} {j1 j2 : Jumping} {conn : Connective}

/-! ## What is known about jumps -/

/-- What is known about the jump of a connective, from what is known about those of its operands. The
left one may jump for the whole connective (`either`), or over the right one. -/
def Jumping.join (either : Bool) : Jumping → Jumping → Jumping
  | .always, _ => if either then .always else .never
  | .never, j => j
  | .maybe, j => if j = (if either then .always else .never) then j else .maybe

theorem Jumping.join_always (h : join either j1 j2 = .always) :
    (j1 ≠ .never → either = true) ∧ (j1 ≠ .always → j2 = .always) := by
  revert h
  cases either <;> cases j1 <;> cases j2 <;> decide

theorem Jumping.join_never (h : join either j1 j2 = .never) :
    (j1 ≠ .never → either = false) ∧ (j1 ≠ .always → j2 = .never) := by
  revert h
  cases either <;> cases j1 <;> cases j2 <;> decide

/-- What the jumps of a condition do, from the value of the condition and the state behind the code
that computes it. -/
structure Jumps (j : Jumping) (wanted : Bool) (target : Label) (pairs : Pairing)
    (r : Int32 × State) (d : Point) : Prop where
  direction : d.direction = if decide (r.1 ≠ 0) = wanted then .goto target else .next
  alike : Alike pairs r.2 d.state
  always : j = .always → decide (r.1 ≠ 0) = wanted
  never : j = .never → decide (r.1 ≠ 0) ≠ wanted

theorem decides_eq_true {a : Int32} :
    decides conn a = true ↔ decide (a ≠ 0) = decide (conn = .or) := by
  cases conn <;> simp [decides]

theorem jumps_connected {wanted : Bool} {skip target : Label} {left whole : Option (Int32 × State)}
    {right : State → Option (Int32 × State)} {outcome : Option Point} {rest : List Instruction}
    (hconn : Connects conn k left whole right)
    (hl : Option.Rel (Jumps j1 (decide (conn = .or)) skip pairs) left outcome)
    (hbel : pairs.Below k m) (hskip : ∀ u, act.exec rest ⟨.goto skip, u⟩ =
      some ⟨if decide (conn = .or) = wanted then .goto target else .next, u⟩)
    (hright : j1 ≠ .always → ∀ s u, Alike pairs s u →
      Option.Rel (Jumps j2 wanted target pairs) (right s) (act.exec rest ⟨.next, u⟩)) :
    Option.Rel (Jumps (.join (decide (decide (conn = .or) = wanted)) j1 j2) wanted target pairs)
      whole (outcome.bind (act.exec rest)) := by
  cases hl with
  | none =>
    rw [hconn.1 rfl]
    exact .none
  | @some r d hjs =>
    obtain ⟨a, s⟩ := r
    obtain ⟨direction, u⟩ := d
    obtain ⟨hdir, halike, halw, hnever⟩ := hjs
    obtain ⟨s1, hs1, hdecided, hundecided⟩ := hconn.2 a s rfl
    have halike1 := hs1.of_outside halike hbel
    dsimp only at hdir halw hnever
    by_cases ha : decide (a ≠ 0) = decide (conn = .or)
    · rw [hdecided (decides_eq_true.2 ha)]
      rw [if_pos ha] at hdir
      subst hdir
      rw [bind_some, hskip]
      have hj1 : j1 ≠ .never := fun hj => hnever hj ha
      refine .some ⟨?_, halike1, fun hj => ?_, fun hj => ?_⟩
      · simp only [ne_zero_truth, ha]
      · simpa only [ne_zero_truth, ha, decide_eq_true_eq] using (Jumping.join_always hj).1 hj1
      · simpa only [ne_zero_truth, ha, decide_eq_false_iff_not] using (Jumping.join_never hj).1 hj1
    · rw [if_neg ha] at hdir
      subst hdir
      have hj1 : j1 ≠ .always := fun hj => ha (halw hj)
      have hfalse : decides conn a = false := by
        rw [← Bool.not_eq_true, decides_eq_true]
        exact ha
      obtain ⟨hnone, hsome⟩ := hundecided hfalse
      have hrel := hright hj1 s1 u halike1
      rw [bind_some]
      generalize act.exec rest ⟨.next, u⟩ = ending at hrel
      cases hr : right s1 with
      | none =>
        rw [hr] at hrel
        cases hrel
        rw [hnone hr]
        exact .none
      | some r =>
        obtain ⟨v, s2⟩ := r
        rw [hr] at hrel
        obtain ⟨s3, hs3, hwhole⟩ := hsome v s2 hr
        rw [hwhole]
        cases hrel with
        | some hjs =>
          refine .some ⟨?_, hs3.of_outside hjs.alike hbel, fun hj => ?_, fun hj => ?_⟩
          · rw [hjs.direction]
            simp only [ne_zero_truth]
          · simpa only [ne_zero_truth] using hjs.always ((Jumping.join_always hj).2 hj1)
          · simpa only [ne_zero_truth] using hjs.never ((Jumping.join_never hj).2 hj1)

/-- The jumps of a condition between two builders agree with its value between two others. -/
structure Agrees (n : Nat) (pairs : Pairing) (wanted : Bool) (target : Label) (b : Builder)
    (x : Value) (b₁ c : Builder) (j : Jumping) (c₁ : Builder) : Prop where
  emits : Emits c c₁
  temps : c₁.code.temps.toNat + b.code.temps.toNat ≤ c.code.temps.toNat + b₁.code.temps.toNat
  static : ∀ v, x = .const v → j = if decide (v ≠ 0) = wanted then .always else .never
  runs : ∀ act, OwnsTemps act n → ∀ s t, Alike pairs s t →
    Option.Rel (Jumps j wanted target pairs) (act.compute (written b b₁) x s)
      (act.exec (written c c₁) ⟨.next, t⟩)

/-! ## Conditions that cannot be split -/

section Leaves

variable {wanted : Bool} {target : Label} {code : List Instruction} {l : Symbol} {op : BinaryOp}
  {relation : Relation}

theorem builds_jumpIf_const (v : Int32) (c : Builder) :
    Builds (jumpIf (.const v) wanted target) c
      (if decide (v ≠ 0) = wanted then .always else .never)
      (if decide (v ≠ 0) = wanted then c.emit (.jump target) else c) := by
  unfold jumpIf
  dsimp only
  split
  · exact builds_bind.2 ⟨(), _, builds_push.2 rfl, builds_pure.2 ⟨rfl, rfl⟩⟩
  · exact builds_pure.2 ⟨rfl, rfl⟩

theorem builds_jumpIf_symbol (hlast : lastComparison? c.code l = none) :
    Builds (jumpIf (.symbol l) wanted target) c .maybe
      (c.emit (.branch (.symbol l) (if wanted then .ne else .eq) (.const 0) target)) := by
  unfold jumpIf
  refine builds_bind.2 ⟨c, c, builds_get.2 ⟨rfl, rfl⟩, ?_⟩
  simp only [hlast]
  exact builds_bind.2 ⟨(), _, builds_push.2 rfl, builds_pure.2 ⟨rfl, rfl⟩⟩

theorem builds_jumpIf_comparison {left right : Value}
    (hcomp : Computes c (.binary · op left right) l c1)
    (hlast : lastComparison? c1.code l = some (left, relation, right)) :
    Builds (jumpIf (.symbol l) wanted target) c1 .maybe
      (c.emit (.branch left (if wanted then relation else relation.negate) right target)) := by
  unfold jumpIf
  refine builds_bind.2 ⟨c1, c1, builds_get.2 ⟨rfl, rfl⟩, ?_⟩
  simp only [hlast, hcomp.takeBack]
  refine builds_bind.2 ⟨c.code, c1, builds_checked.2 ⟨rfl, rfl⟩, ?_⟩
  refine builds_bind.2 ⟨(), _, builds_set.2 rfl, ?_⟩
  rw [hcomp.back hcomp.takeBack]
  exact builds_bind.2 ⟨(), _, builds_push.2 rfl, builds_pure.2 ⟨rfl, rfl⟩⟩

theorem jumps_test (hcode : RunsThrough act code s) :
    Option.Rel (Jumps .maybe wanted target (.upTo k)) (act.compute code y s)
      (act.exec (code ++ [.branch y (if wanted then .ne else .eq) (.const 0) target]) ⟨.next, s⟩) := by
  rw [exec_append, compute]
  cases hexec : act.exec code ⟨.next, s⟩ with
  | none => exact .none
  | some d =>
    obtain ⟨direction, t⟩ := d
    obtain rfl : direction = .next := hcode _ hexec
    rw [bind_some, bind_some, exec_singleton, pass_branch]
    cases act.value t y with
    | none => exact .none
    | some v =>
      refine .some ⟨?_, .refl k t, by simp, by simp⟩
      cases wanted <;> by_cases hv : v = 0 <;> simp [hv, Relation.holds]

theorem jumps_comparison {left right : Value} {dest : UInt32} (hop : op.relation? = some relation)
    (hk : k ≤ dest.toNat) (hloc : act.isLocal (.temp dest) = true)
    (harr : act.array? (.temp dest) = none) (hcode : RunsThrough act code s) :
    Option.Rel (Jumps .maybe wanted target (.upTo k))
      (act.compute (code ++ [.binary (.temp dest) op left right]) (.symbol (.temp dest)) s)
      (act.exec (code ++ [.branch left (if wanted then relation else relation.negate) right target])
        ⟨.next, s⟩) := by
  rw [compute_append hcode, exec_append]
  cases hexec : act.exec code ⟨.next, s⟩ with
  | none => exact .none
  | some d =>
    obtain ⟨direction, t⟩ := d
    obtain rfl : direction = .next := hcode _ hexec
    rw [bind_some, bind_some, exec_singleton, pass_branch, compute, exec_singleton,
      pass_effect rfl, Activation.effect]
    cases act.value t left with
    | none => exact .none
    | some a =>
      cases act.value t right with
      | none => exact .none
      | some e =>
        have hfold := fold_of_relation hop a e
        have hval : act.value (t.set (.temp dest) (truth (relation.holds a e)))
            (.symbol (.temp dest)) = some (truth (relation.holds a e)) := by
          simp only [Activation.value, harr, State.set_self]
        simp only [bind_eq_bind, bind_some, runBinary, hfold,
          assign_local t _ harr hloc, map_some, hval]
        refine .some ⟨?_, alike_set t _ hk, by simp, by simp⟩
        rw [holds_wanted wanted hop hfold]
        simp only [beq_iff_eq]

theorem runs_through_of_append {i : Instruction} (hi : ∀ l, i ≠ .label l)
    (h : RunsThrough act (code ++ [i]) s) : RunsThrough act code s := by
  rintro ⟨direction, t⟩ hd
  rw [RunsThrough, exec_append, hd, bind_some, exec_singleton] at h
  cases direction with
  | next => rfl
  | goto l => exact h _ (pass_goto (hi l))
  | «return» value => exact h _ rfl

theorem Twins.agrees (htw : Twins n pairs pairs1 b b₁ c c1) (hfc : Faces n pairs b b₁ c)
    (hsame : Same pairs1 x (.symbol l)) (hem : Emits c c2)
    (htemps : c2.code.temps.toNat ≤ c1.code.temps.toNat)
    (hruns : ∀ act, OwnsTemps act n → ∀ t, RunsThrough act (written c c1) t →
      Option.Rel (Jumps .maybe wanted target (.upTo c.code.temps.toNat))
        (act.compute (written c c1) (.symbol l) t) (act.exec (written c c2) ⟨.next, t⟩)) :
    Agrees n pairs wanted target b x b₁ c .maybe c2 := by
  refine ⟨hem, ?_, ?_, fun act hact s t hst => ?_⟩
  · have := htw.temps
    omega
  · rintro v rfl
    cases hsame
  · have hgrown := htw.temps
    have hroom := hfc.temps
    have hbel1 : pairs1.Below n n := htw.below.mono hfc.own (by omega)
    refine rel_trans (htw.parallel.compute hbel1 hsame hact hst)
      (hruns act hact t (htw.parallel.runs_through hact hst).2) ?_
    rintro ⟨v, s1⟩ ⟨_, t1⟩ d ⟨rfl, halike⟩ hjs
    have halike' := (halike.mono htw.keeps).to_outside hjs.alike hfc.below
    exact ⟨hjs.direction, halike', nofun, nofun⟩

theorem agrees_const (n : Nat) (pairs : Pairing) (b c : Builder) (v : Int32) :
    Agrees n pairs wanted target b (.const v) b c (if decide (v ≠ 0) = wanted then .always else .never)
      (if decide (v ≠ 0) = wanted then c.emit (.jump target) else c) := by
  by_cases hv : decide (v ≠ 0) = wanted
  · simp only [if_pos hv]
    refine ⟨.emit _ rfl trivial, Nat.le_refl _, ?_, fun act _ s t hst => ?_⟩
    · rintro _ ⟨⟩
      rw [if_pos hv]
    · rw [written_self, compute_const, (Grows.refl c).written_emit, written_self]
      exact .some ⟨(if_pos hv).symm, hst, fun _ => hv, nofun⟩
  · simp only [if_neg hv]
    refine ⟨.refl c, Nat.le_refl _, ?_, fun act _ s t hst => ?_⟩
    · rintro _ ⟨⟩
      rw [if_neg hv]
    · rw [written_self, compute_const, written_self]
      exact .some ⟨(if_neg hv).symm, hst, nofun, fun _ => hv⟩

theorem agrees_leaf {formula : Formula} (hleaf : IsLeaf formula)
    (h : Builds (eval signatures location formula) b x b₁) (htidy : Tidy c)
    (hfc : Faces n pairs b b₁ c) :
    ∃ j c1, Builds (branch signatures location wanted target formula) c j c1 ∧
      c1.lastLabel.toNat + b.lastLabel.toNat ≤ c.lastLabel.toNat + b₁.lastLabel.toNat ∧
      Agrees n pairs wanted target b x b₁ c j c1 := by
  obtain ⟨y, c', pairs', hy, htw, hsame⟩ := mirrors_eval formula h hfc
  have hlabs := htw.labels
  rw [hleaf]
  cases y with
  | const v =>
    obtain rfl := (hsame.const_iff v).2 rfl
    obtain rfl := eval_to_const h
    obtain rfl := eval_to_const hy
    refine ⟨_, _, builds_bind.2 ⟨_, _, hy, builds_jumpIf_const v _⟩, ?_, agrees_const n pairs _ _ v⟩
    split <;> exact Nat.le_refl _
  | symbol l =>
    cases hlast : lastComparison? c'.code l with
    | none =>
      refine ⟨.maybe, _, builds_bind.2 ⟨_, _, hy, builds_jumpIf_symbol hlast⟩, Nat.le_of_eq hlabs, ?_⟩
      refine htw.agrees hfc hsame ((emits_eval hy).trans (.emit _ rfl trivial))
        (Nat.le_refl _) fun act hact t hthrough => ?_
      rw [(emits_eval hy).toGrows.written_emit]
      exact jumps_test hthrough
    | some comparison =>
      obtain ⟨left, relation, right⟩ := comparison
      obtain ⟨c2, op, hop, hcpd, hcomp⟩ := eval_comparison hy htidy hlast
      have hem := hcpd.emits
      have hlast_emits := hcomp.emits rfl
      have hwr := hem.toGrows.written_trans hlast_emits.toGrows
      rw [written_of_computes hcomp] at hwr
      have hgrown : c'.code.temps.toNat = c2.code.temps.toNat + 1 := by
        rw [hcomp.builder]
        exact toNat_succ hcomp.room
      refine ⟨.maybe, _, builds_bind.2 ⟨_, _, hy, builds_jumpIf_comparison hcomp hlast⟩, ?_, ?_⟩
      · exact Nat.le_trans (Nat.add_le_add_right hlast_emits.labels _) (Nat.le_of_eq hlabs)
      refine htw.agrees hfc hsame (hem.trans (.emit _ rfl trivial)) hlast_emits.temps
        fun act hact t hthrough => ?_
      have htemps := htw.temps
      have hroom := hfc.temps
      obtain ⟨hloc, harr⟩ := hact c2.code.temps (by omega)
      rw [hwr] at hthrough ⊢
      rw [hem.toGrows.written_emit, hcomp.symbol]
      exact jumps_comparison hop hem.temps hloc harr (runs_through_of_append (by nofun) hthrough)

end Leaves

/-! ## Negations and connectives -/

section Splitting

variable {wanted : Bool} {skip target : Label} {j j1 j2 : Jumping} {b4 : Builder}
  {conn : Connective} {left right : Formula} {r : Int32 × State} {d : Point}

theorem ne_zero_not (a : Int32) (wanted : Bool) :
    decide (UnaryOp.not.fold a ≠ 0) = wanted ↔ decide (a ≠ 0) = !wanted := by
  rw [UnaryOp.fold, ne_zero_truth]
  by_cases ha : a = 0 <;> cases wanted <;> simp [ha]

theorem Jumps.negate {r' : Int32 × State} (h : Jumps j (!wanted) target pairs r d)
    (hval : r'.1 = UnaryOp.not.fold r.1) (hstate : Alike (.upTo k) r'.2 r.2)
    (hbel : pairs.Below k m) : Jumps j wanted target pairs r' d where
  direction := by simp only [h.direction, hval, ne_zero_not]
  alike := hstate.of_outside h.alike hbel
  always hj := by
    rw [hval, ne_zero_not]
    exact h.always hj
  never hj := by
    rw [hval, Ne, ne_zero_not]
    exact h.never hj

theorem Agrees.negate (h : Agrees n pairs (!wanted) target b y b₂ c j c1)
    (hx : Builds (applyUnary .not y) b₂ x b₁) (hem : Emits b b₂)
    (hown : b₁.code.temps.toNat ≤ n) (hbel : pairs.Below b.code.temps.toNat m)
    (hcode : ∀ act, OwnsTemps act n → ∀ s, RunsThrough act (written b b₂) s) :
    Agrees n pairs wanted target b x b₁ c j c1 := by
  have hlast := emits_applyUnary hx
  refine ⟨h.emits, Nat.le_trans h.temps (Nat.add_le_add_left hlast.temps _), ?_,
    fun act hact s t hst => ?_⟩
  · rintro v rfl
    rcases builds_applyUnary.1 hx with ⟨a, rfl, hv, _⟩ | ⟨_, _, _, ⟨⟩, _⟩
    rw [Value.const.inj hv, h.static a rfl]
    simp only [ne_zero_not]
  · have hmapped := mapped_applyUnary hx hown hem.temps hact (hcode act hact s)
    rw [← hem.toGrows.written_trans hlast.toGrows] at hmapped
    have hruns := h.runs act hact s t hst
    generalize act.exec (written c c1) ⟨.next, t⟩ = ending at hruns
    generalize act.compute (written b b₂) y s = inner at hmapped hruns
    generalize act.compute (written b b₁) x s = whole at hmapped
    cases hmapped with
    | none =>
      cases hruns
      exact .none
    | some hr =>
      cases hruns with
      | some hjs => exact .some (hjs.negate hr.1 hr.2 hbel)

/-- The left operand always jumps, and the right one has no code; or both have. -/
def Continues (signatures : Signatures) (location : Location) (wanted : Bool) (target : Label)
    (right : Formula) (j1 : Jumping) (c1 : Builder) (j2 : Jumping) (c2 : Builder) : Prop :=
  j1 = .always ∧ c2 = c1 ∨
  j1 ≠ .always ∧ Builds (branch signatures location wanted target right) c1 j2 c2

theorem builds_branch_either (hwant : decide (conn = .or) = wanted)
    (hl : Builds (branch signatures location wanted target left) c j1 c1)
    (hr : Continues signatures location wanted target right j1 c1 j2 c2) :
    Builds (branch signatures location wanted target (.logic conn left right)) c
      (.join true j1 j2) c2 := by
  rw [branch, if_pos hwant]
  refine builds_bind.2 ⟨j1, c1, hl, ?_⟩
  rcases hr with ⟨rfl, rfl⟩ | ⟨hj1, hr⟩
  · exact builds_pure.2 ⟨rfl, rfl⟩
  · cases j1 with
    | always => exact absurd rfl hj1
    | never => exact hr
    | maybe =>
      refine builds_bind.2 ⟨j2, c2, hr, ?_⟩
      cases j2 <;> exact builds_pure.2 ⟨rfl, rfl⟩

theorem builds_branch_both (hwant : decide (conn = .or) ≠ wanted)
    (hroom : c.lastLabel.toNat + 1 < wordValues)
    (hl : Builds (branch signatures location (!wanted) ⟨c.lastLabel + 1⟩ left) c.addLabel j1 c1)
    (hr : Continues signatures location wanted target right j1 c1 j2 c2) :
    Builds (branch signatures location wanted target (.logic conn left right)) c
      (.join false j1 j2) (c2.emit (.label ⟨c.lastLabel + 1⟩)) := by
  rw [branch, if_neg hwant]
  refine builds_bind.2 ⟨_, _, builds_newLabel.2 ⟨hroom, rfl, rfl⟩, ?_⟩
  refine builds_bind.2 ⟨j1, c1, hl, ?_⟩
  rcases hr with ⟨rfl, rfl⟩ | ⟨hj1, hr⟩
  · simp only [builds_bind, builds_pure, builds_push]
    exact ⟨_, _, ⟨rfl, rfl⟩, (), _, rfl, rfl, rfl⟩
  · cases j1 with
    | always => exact absurd rfl hj1
    | never =>
      simp only [builds_bind, builds_pure, builds_push]
      exact ⟨_, _, hr, (), _, rfl, rfl, rfl⟩
    | maybe =>
      refine builds_bind.2 ⟨j2, c2, hr, ?_⟩
      cases j2 <;> simp only [builds_bind, builds_pure, builds_push] <;>
        exact ⟨_, _, ⟨rfl, rfl⟩, (), _, rfl, rfl, rfl⟩

theorem Operands.join_static (h : Operands n conn b x b₁ y b₂ b3 z b4)
    (hl : Agrees n pairs (decide (conn = .or)) skip b y b₂ c j1 c1)
    (hr : j1 ≠ .always → Agrees n pairs wanted target b3 z b4 c1 j2 c2) {v : Int32}
    (hx : x = .const v) :
    Jumping.join (decide (decide (conn = .or) = wanted)) j1 j2 =
      if decide (v ≠ 0) = wanted then .always else .never := by
  obtain ⟨a, hy, htrue, hfalse⟩ := h.static v hx
  have hj1 := hl.static a hy
  by_cases ha : decide (a ≠ 0) = decide (conn = .or)
  · rw [if_pos ha] at hj1
    rw [htrue (decides_eq_true.2 ha), hj1, ne_zero_truth, ha]
    simp only [Jumping.join, decide_eq_true_eq]
  · rw [if_neg ha] at hj1
    have hdcd : decides conn a = false := by
      rw [← Bool.not_eq_true, decides_eq_true]
      exact ha
    obtain ⟨d, hz, rfl⟩ := hfalse hdcd
    rw [hj1, ne_zero_truth]
    exact (hr (by simp [hj1])).static d hz

theorem Operands.grown (h : Operands n conn b x b₁ y b₂ b3 z b4)
    (hl : Agrees n pairs (decide (conn = .or)) skip b y b₂ c j1 c1)
    (hstill : j1 = .always → c2 = c1)
    (hr : j1 ≠ .always → Agrees n pairs wanted target b3 z b4 c1 j2 c2) :
    Emits c1 c2 ∧
      c2.code.temps.toNat + b.code.temps.toNat ≤ c.code.temps.toNat + b₁.code.temps.toNat := by
  have hleft_temps := hl.temps
  by_cases hj1 : j1 = .always
  · obtain rfl := hstill hj1
    have := h.rest.temps
    exact ⟨.refl _, by omega⟩
  · have := (hr hj1).temps
    have := h.between.temps
    have := h.temps
    exact ⟨(hr hj1).emits, by omega⟩

theorem Operands.agrees_either (h : Operands n conn b x b₁ y b₂ b3 z b4)
    (hwant : decide (conn = .or) = wanted) (htgt : target.id.toNat ≤ c.lastLabel.toNat)
    (hbel : pairs.Below b.code.temps.toNat m)
    (hl : Agrees n pairs (decide (conn = .or)) target b y b₂ c j1 c1)
    (hstill : j1 = .always → c2 = c1)
    (hr : j1 ≠ .always → Agrees n pairs wanted target b3 z b4 c1 j2 c2) :
    Agrees n pairs wanted target b x b₁ c (.join true j1 j2) c2 := by
  obtain ⟨hem, htemps⟩ := h.grown hl hstill hr
  have htrue : decide (decide (conn = .or) = wanted) = true := decide_eq_true hwant
  refine ⟨hl.emits.trans hem, htemps, fun v hx => ?_, fun act hact s t hst => ?_⟩
  · rw [← htrue]
    exact h.join_static hl hr hx
  · rw [hl.emits.toGrows.written_trans hem.toGrows, exec_append, ← htrue]
    refine jumps_connected (h.connected act hact s) (hl.runs act hact s t hst) hbel ?_
      fun hj1 => (hr hj1).runs act hact
    intro u
    rw [if_pos hwant]
    exact exec_goto (label_not_written hem.toGrows (Nat.le_trans htgt hl.emits.labels))

theorem Jumps.pass_label (h : Jumps j wanted target pairs r d)
    (hne : target ≠ skip) : act.pass d (.label skip) = some d := by
  obtain ⟨direction, t⟩ := d
  obtain rfl : direction = _ := h.direction
  split
  · refine pass_goto fun heq => hne ?_
    cases heq
    rfl
  · rfl

theorem Operands.agrees_both (h : Operands n conn b x b₁ y b₂ b3 z b4)
    (hwant : decide (conn = .or) ≠ wanted) (hroom : c.lastLabel.toNat + 1 < wordValues)
    (htgt : target.id.toNat ≤ c.lastLabel.toNat) (hbel : pairs.Below b.code.temps.toNat m)
    (hl : Agrees n pairs (decide (conn = .or)) ⟨c.lastLabel + 1⟩ b y b₂ c.addLabel j1 c1)
    (hstill : j1 = .always → c2 = c1)
    (hr : j1 ≠ .always → Agrees n pairs wanted target b3 z b4 c1 j2 c2) :
    Agrees n pairs wanted target b x b₁ c (.join false j1 j2) (c2.emit (.label ⟨c.lastLabel + 1⟩)) := by
  obtain ⟨hem, htemps⟩ := h.grown hl hstill hr
  have hfalse : decide (decide (conn = .or) = wanted) = false := decide_eq_false hwant
  have hskip : .label ⟨c.lastLabel + 1⟩ ∉ written c1 c2 :=
    label_not_written hem.toGrows hl.emits.labels
  have hne : target ≠ ⟨c.lastLabel + 1⟩ := by
    rintro rfl
    rw [toNat_succ hroom] at htgt
    omega
  have hwr : written c (c2.emit (.label ⟨c.lastLabel + 1⟩)) =
      written c.addLabel c1 ++ (written c1 c2 ++ [.label ⟨c.lastLabel + 1⟩]) := by
    rw [← List.append_assoc, ← hl.emits.toGrows.written_trans hem.toGrows]
    exact (hl.emits.trans hem).toGrows.written_emit _
  refine ⟨.mark hroom (hl.emits.trans hem), htemps, fun v hx => ?_, fun act hact s t hst => ?_⟩
  · rw [← hfalse]
    exact h.join_static hl hr hx
  · rw [hwr, exec_append, ← hfalse]
    refine jumps_connected (h.connected act hact s) (hl.runs act hact s t hst) hbel ?_ ?_
    · intro u
      rw [exec_append, exec_goto hskip, bind_some, exec_singleton, pass_goto_label,
        if_neg hwant]
    · intro hj1 s1 u hu
      have hruns := (hr hj1).runs act hact s1 u hu
      rw [exec_append]
      generalize act.exec (written c1 c2) ⟨.next, u⟩ = ending at hruns
      generalize act.compute (written b3 b4) z s1 = outcome at hruns
      cases hruns with
      | none => exact .none
      | some hjs =>
        rw [bind_some, exec_singleton, hjs.pass_label hne]
        exact .some hjs

end Splitting

/-! ## Conditions -/

/-- The number of labels that a condition may need for its jumps. -/
def splits : Formula → Nat
  | .unary .not operand => splits operand
  | .logic _ left right => splits left + splits right + 1
  | _ => 0

/-- The builder `c` has room for the jumps of a condition whose value is computed from `b` to `b₁`. -/
structure Ready (n : Nat) (pairs : Pairing) (b b₁ c : Builder) (target : Label) (k : Nat) :
    Prop extends Faces n pairs b b₁ c where
  tidy : Tidy c
  splits : c.lastLabel.toNat + b₁.lastLabel.toNat + k < wordValues + b.lastLabel.toNat
  target : target.id.toNat ≤ c.lastLabel.toNat

section Ready

variable {wanted : Bool} {skip target : Label} {j1 j2 : Jumping} {b4 c0 : Builder} {k1 k2 : Nat}
  {conn : Connective} {left right : Formula}

theorem Ready.part (h : Ready n pairs b b₁ c target k) (hrest : Emits b₂ b₁) (hle : k1 ≤ k) :
    Ready n pairs b b₂ c target k1 := by
  have := h.splits
  have := hrest.labels
  exact ⟨h.first hrest, h.tidy, by omega, h.target⟩

theorem Ready.over (h : Ready n pairs b b₁ c target k) (hfst : Emits b b₂) (hrest : Emits b₂ b₁)
    (hlt : k1 < k) :
    c.lastLabel.toNat + 1 < wordValues ∧ Ready n pairs b b₂ c.addLabel ⟨c.lastLabel + 1⟩ k1 := by
  obtain ⟨hbnd, hnm, hsc, hbel, hown, htemps, _⟩ := h.first hrest
  have := h.splits
  have := hrest.labels
  have := hfst.labels
  have hroom : c.lastLabel.toNat + 1 < wordValues := by omega
  have hlast : c.addLabel.lastLabel.toNat = c.lastLabel.toNat + 1 := toNat_succ hroom
  exact ⟨hroom, ⟨hbnd, hnm, hsc, hbel, hown, htemps, by omega⟩,
    (Emits.addLabel hroom).tidy h.tidy, by omega, Nat.le_refl _⟩

theorem Operands.ready (h : Operands n conn b x b₁ y b₂ b3 z b4)
    (hrdy : Ready n pairs b b₁ c target (k1 + k2 + 1)) (hfst : Emits b b₂)
    (hem : Emits c c0) (htemps0 : c0.code.temps.toNat ≤ c.code.temps.toNat)
    (hlabs0 : c0.lastLabel.toNat ≤ c.lastLabel.toNat + 1)
    (hl : Agrees n pairs (decide (conn = .or)) skip b y b₂ c0 j1 c1)
    (hlabs1 : c1.lastLabel.toNat + b.lastLabel.toNat ≤
      c0.lastLabel.toNat + b₂.lastLabel.toNat + k1) :
    Ready n pairs b3 b4 c1 target k2 := by
  obtain ⟨⟨hbnd, hnm, hsc, hbel, hown, htemps, _⟩, htidy, hlabs, htgt⟩ := hrdy
  have hem1 := hem.trans hl.emits
  have hsc3 : b3.scopes = b.scopes := h.between.sameScopes.trans hfst.sameScopes
  have htemps1 := hl.temps
  have hgrown := h.between.temps
  have hfirst_temps := hfst.temps
  have hgrown_labels := h.between.labels
  have htemps4 := h.temps
  have hlabs4 := h.labels
  refine ⟨⟨hbnd, hsc3 ▸ hnm, ?_, hbel.mono (by omega) hem1.temps, by omega, by omega,
    by omega⟩, hem1.tidy htidy, by omega, Nat.le_trans htgt hem1.labels⟩
  rw [hem1.sameScopes, hsc, hsc3]

theorem Operands.follow (h : Operands n conn b x b₁ y b₂ b3 z b4)
    (hz : (∃ a, y = .const a ∧ decides conn a = true) ∨
      Builds (eval signatures location right) b3 z b4)
    (hl : Agrees n pairs (decide (conn = .or)) skip b y b₂ c0 j1 c1)
    (hlabs1 : c1.lastLabel.toNat + b.lastLabel.toNat ≤ c0.lastLabel.toNat + b₂.lastLabel.toNat + k1)
    (hr : Builds (eval signatures location right) b3 z b4 →
      ∃ j2 c2, Builds (branch signatures location wanted target right) c1 j2 c2 ∧
        c2.lastLabel.toNat + b3.lastLabel.toNat ≤ c1.lastLabel.toNat + b4.lastLabel.toNat + k2 ∧
        Agrees n pairs wanted target b3 z b4 c1 j2 c2) :
    ∃ j2 c2, Continues signatures location wanted target right j1 c1 j2 c2 ∧
      c2.lastLabel.toNat + b.lastLabel.toNat ≤ c0.lastLabel.toNat + b₁.lastLabel.toNat + (k1 + k2) ∧
      (j1 = .always → c2 = c1) ∧
      (j1 ≠ .always → Agrees n pairs wanted target b3 z b4 c1 j2 c2) := by
  have hrest := h.rest.labels
  by_cases hj1 : j1 = .always
  · exact ⟨.maybe, c1, .inl ⟨hj1, rfl⟩, by omega, fun _ => rfl, fun hne => absurd hj1 hne⟩
  · have hz : Builds (eval signatures location right) b3 z b4 := by
      rcases hz with ⟨a, hy, ha⟩ | hz
      · rw [hl.static a hy, if_pos (decides_eq_true.1 ha)] at hj1
        exact absurd rfl hj1
      · exact hz
    obtain ⟨j2, c2, hb, hlabs2, hagr⟩ := hr hz
    have hbtw := h.between.labels
    have hlabs4 := h.labels
    exact ⟨j2, c2, .inr ⟨hj1, hb⟩, by omega, fun heq => absurd heq hj1, fun _ => hagr⟩

end Ready

theorem branch_agrees (wanted : Bool) (target : Label) {formula : Formula} {b b₁ c : Builder}
    {x : Value} (h : Builds (eval signatures location formula) b x b₁)
    (hrdy : Ready n pairs b b₁ c target (splits formula)) :
    ∃ j c1, Builds (branch signatures location wanted target formula) c j c1 ∧
      c1.lastLabel.toNat + b.lastLabel.toNat ≤
        c.lastLabel.toNat + b₁.lastLabel.toNat + splits formula ∧
      Agrees n pairs wanted target b x b₁ c j c1 := by
  rcases formula_cases formula with ⟨operand, rfl⟩ | ⟨conn, left, right, rfl⟩ | hleaf
  · obtain ⟨y, b₂, hy, hx⟩ := builds_eval_unary.1 h
    have hlast : Emits b₂ b₁ := emits_applyUnary hx
    have hrdy2 := hrdy.part hlast (Nat.le_refl _)
    rw [splits] at hrdy2 ⊢
    obtain ⟨j, c1, hb, hlabs, hagr⟩ := branch_agrees (!wanted) target hy hrdy2
    rw [branch]
    refine ⟨j, c1, hb, ?_, hagr.negate hx (emits_eval hy) hrdy.own hrdy.below ?_⟩
    · have := hlast.labels
      omega
    · exact fun act hact => eval_runs_through hrdy.bound hy hrdy.names hrdy2.own hact
  · obtain ⟨y, b₂, b3, z, b4, hy, hz, hops⟩ := logic_cases hrdy.bound h hrdy.names hrdy.own
    have hfst := emits_eval hy
    rw [splits] at hrdy ⊢
    by_cases hwant : decide (conn = .or) = wanted
    · have hrdy1 : Ready n pairs b b₂ c target (splits left) := hrdy.part hops.rest (by omega)
      obtain ⟨j1, c1, hb1, hlabs1, hl⟩ := branch_agrees (decide (conn = .or)) target hy hrdy1
      have hrdy2 := hops.ready hrdy hfst (.refl c) (Nat.le_refl _) (Nat.le_succ _) hl hlabs1
      obtain ⟨j2, c2, hfol, hlabs2, hstill, hr⟩ := hops.follow hz hl hlabs1
        fun hz => branch_agrees wanted target hz hrdy2
      rw [hwant] at hb1
      exact ⟨_, c2, builds_branch_either hwant hb1 hfol, by omega,
        hops.agrees_either hwant hrdy.target hrdy.below hl hstill hr⟩
    · have hlt : splits left < splits left + splits right + 1 := by omega
      obtain ⟨hroom, hrdy1⟩ := hrdy.over hfst hops.rest hlt
      have hlast : c.addLabel.lastLabel.toNat = c.lastLabel.toNat + 1 := toNat_succ hroom
      obtain ⟨j1, c1, hb1, hlabs1, hl⟩ :=
        branch_agrees (decide (conn = .or)) ⟨c.lastLabel + 1⟩ hy hrdy1
      have hrdy2 := hops.ready hrdy hfst (.addLabel hroom) (Nat.le_refl _) (Nat.le_of_eq hlast)
        hl hlabs1
      obtain ⟨j2, c2, hfol, hlabs2, hstill, hr⟩ := hops.follow hz hl hlabs1
        fun hz => branch_agrees wanted target hz hrdy2
      have hnot : decide (conn = .or) = !wanted := by
        revert hwant
        cases decide (conn = .or) <;> cases wanted <;> decide
      rw [hnot] at hb1
      refine ⟨_, _, builds_branch_both hwant hroom hb1 hfol, ?_,
        hops.agrees_both hwant hroom hrdy.target hrdy.below hl hstill hr⟩
      rw [hlast] at hlabs2
      exact Nat.le_trans hlabs2 (by omega)
  · obtain ⟨j, c1, hb, hlabs, hagr⟩ := agrees_leaf hleaf h hrdy.tidy hrdy.toFaces
    exact ⟨j, c1, hb, Nat.le_trans hlabs (Nat.le_add_right _ _), hagr⟩
termination_by sizeOf formula
decreasing_by all_goals (subst_vars; simp; try omega)

/-! ## Runs -/

section Runs

variable {n : Nat} {body : Vector Instruction n} {q : Nat} {code : List Instruction} {v : Int32}

theorem comes_of_compute (hbody : SetOnce body) (hhost : Hosts body q code)
    (hcode : RunsThrough act code s) (h : act.compute code x s = some (v, t)) :
    Comes act body (s.at q) (t.at (q + code.length)) ∧ act.value t x = some v := by
  obtain ⟨⟨direction, s1⟩, hexec, hmap⟩ := Option.bind_eq_some_iff.1 h
  obtain rfl : direction = .next := hcode _ hexec
  obtain ⟨_, hval, ⟨⟩⟩ := Option.map_eq_some_iff.1 hmap
  exact ⟨comes_to_end hbody hhost hexec, hval⟩

theorem sticks_of_compute (hbody : SetOnce body) (hhost : Hosts body q code)
    (hcode : RunsThrough act code s) (h : act.compute code x s = none) :
    Sticks act body (s.at q) ∨
      ∃ s1, Comes act body (s.at q) (s1.at (q + code.length)) ∧ act.value s1 x = none := by
  cases hexec : act.exec code ⟨.next, s⟩ with
  | none => exact .inl (sticks_of_exec hbody hhost hexec rfl)
  | some d =>
    obtain ⟨direction, s1⟩ := d
    obtain rfl : direction = .next := hcode _ hexec
    rw [compute, hexec] at h
    exact .inr ⟨s1, comes_to_end hbody hhost hexec, Option.map_eq_none_iff.1 h⟩

theorem Jumps.comes {j : Jumping} {wanted : Bool} {target : Label} {d : Point} {p : Fin n}
    (h : Jumps j wanted target pairs (v, s') d) (hbody : SetOnce body) (hhost : Hosts body q code)
    (hexec : act.exec code ⟨.next, s⟩ = some d) (hp : Flow.labelPosition? body target = some p) :
    Comes act body (s.at q)
      (d.state.at (if decide (v ≠ 0) = wanted then p.val else q + code.length)) := by
  obtain ⟨direction, t⟩ := d
  obtain rfl : direction = _ := h.direction
  split
  · rename_i hv
    rw [if_pos hv] at hexec
    exact comes_to_label hbody hhost hexec hp
  · rename_i hv
    rw [if_neg hv] at hexec
    exact comes_to_end hbody hhost hexec

end Runs

/-- Runs from one state that go through the code of a value, in one body, and through the code of jumps,
in another one. They both get stuck; or the value is there, the jumps lead to the goal exactly if it
has the wanted truth value, and the runs have shown the same events and have left the same things
behind, apart from temporaries that are not among the first `k`. A jump that is known to be made is
made, and one that is known not to be made is not. -/
def RunsAgree (act : Activation) (k : Nat) (wanted : Bool) (j : Jumping) {m n : Nat}
    (body : Vector Instruction m) (q stop : Nat) (x : Value)
    (body' : Vector Instruction n) (q' stop' goal : Nat) (s : State) : Prop :=
  ((Sticks act body (s.at q) ∨
      ∃ s1, Comes act body (s.at q) (s1.at stop) ∧ act.value s1 x = none) ∧
    Sticks act body' (s.at q')) ∨
  ∃ v s1 s2, Comes act body (s.at q) (s1.at stop) ∧ act.value s1 x = some v ∧
    Comes act body' (s.at q') (s2.at (if decide (v ≠ 0) = wanted then goal else stop')) ∧
    Alike (.upTo k) s1 s2 ∧
    (j = .always → decide (v ≠ 0) = wanted) ∧ (j = .never → decide (v ≠ 0) ≠ wanted)

/-- A condition that has a value can be split into jumps to a label, and wherever the code of the value
and that of the jumps stand, runs through them agree. -/
theorem jumps_agree_with_value {formula : Formula} (htidy : Tidy b)
    (heval : Builds (eval signatures location formula) b x b₁)
    (hlabels : b₁.lastLabel.toNat + splits formula < wordValues) (wanted : Bool) (target : Label)
    (htarget : target.id.toNat ≤ b.lastLabel.toNat) :
    ∃ j b₂, Builds (branch signatures location wanted target formula) b j b₂ ∧
      ∀ (act : Activation) {m n : Nat} (body : Vector Instruction m) (body' : Vector Instruction n)
        (q q' : Nat) (p : Fin n) (s : State), OwnsTemps act b₁.code.temps.toNat →
        (setLabels body.toList).Nodup → Hosts body q (written b b₁) →
        (setLabels body'.toList).Nodup → Hosts body' q' (written b b₂) →
        Flow.labelPosition? body' target = some p →
        RunsAgree act b.code.temps.toNat wanted j body q (q + (written b b₁).length) x
          body' q' (q' + (written b b₂).length) p.val s := by
  have hn : b₁.code.temps.toNat < wordValues := b₁.code.temps.toNat_lt
  have hready : Ready b₁.code.temps.toNat (.upTo b.code.temps.toNat) b b₁ b target (splits formula) :=
    ⟨⟨hn, htidy.names, rfl, Pairing.upTo_below _, Nat.le_refl _, by omega, by omega⟩, htidy, by omega,
      htarget⟩
  obtain ⟨j, b₂, hbranch, _, hagrees⟩ := branch_agrees wanted target heval hready
  refine ⟨j, b₂, hbranch, fun act m n body body' q q' p s hact hset hhosts hset' hhosts' hp => ?_⟩
  have honce : SetOnce body := get_label_unique hset
  have honce' : SetOnce body' := get_label_unique hset'
  have hcode : RunsThrough act (written b b₁) s :=
    eval_runs_through hn heval htidy.names (Nat.le_refl _) hact s
  have hruns := hagrees.runs act hact s s (.refl _ s)
  generalize hvalue : act.compute (written b b₁) x s = outcome at hruns
  generalize hexec : act.exec (written b b₂) ⟨.next, s⟩ = ending at hruns
  cases hruns with
  | none =>
    exact .inl ⟨sticks_of_compute honce hhosts hcode hvalue, sticks_of_exec honce' hhosts' hexec rfl⟩
  | @some r d hjumps =>
    obtain ⟨v, s₁⟩ := r
    obtain ⟨hcomes, hx⟩ := comes_of_compute honce hhosts hcode hvalue
    exact .inr ⟨v, s₁, d.state, hcomes, hx, hjumps.comes honce' hhosts' hexec hp, hjumps.alike,
      hjumps.always, hjumps.never⟩

/-- The builder behind `int a;` and a label. -/
def declared : Builder :=
  { Builder.empty with
    scopes := ⟨[], [("a", ⟨.var 0, [], none⟩)]⟩
    lastLabel := 1 }

/-- `(a || !f(1)) && a < 3`. -/
def nested (place : Location) : Formula :=
  .logic .and
    (.logic .or (.read ⟨"a", place⟩ .nil)
      (.unary .not (.call ⟨"f", place⟩ (.cons (.literal 1) place .nil) place)))
    (.binary .less (.read ⟨"a", place⟩ .nil) (.literal 3))

def nestedValue : Builder :=
  { declared with
    lastLabel := 3
    code := { declared.code with
      temps := 5
      decls := #[⟨.temp 0, none⟩, ⟨.temp 1, none⟩, ⟨.temp 2, none⟩, ⟨.temp 3, none⟩, ⟨.temp 4, none⟩]
      body := #[
        .binary (.temp 0) .ne (.symbol (.var 0)) (.const 0),
        .branch (.symbol (.temp 0)) .ne (.const 0) ⟨2⟩,
        .call "f" [.const 1] (some (.temp 1)),
        .unary (.temp 2) .not (.symbol (.temp 1)),
        .binary (.temp 0) .ne (.symbol (.temp 2)) (.const 0),
        .label ⟨2⟩,
        .binary (.temp 3) .ne (.symbol (.temp 0)) (.const 0),
        .branch (.symbol (.temp 3)) .eq (.const 0) ⟨3⟩,
        .binary (.temp 4) .lt (.symbol (.var 0)) (.const 3),
        .binary (.temp 3) .ne (.symbol (.temp 4)) (.const 0),
        .label ⟨3⟩] } }

def nestedJumps : Builder :=
  { declared with
    lastLabel := 3
    code := { declared.code with
      temps := 1
      decls := #[⟨.temp 0, none⟩]
      body := #[
        .branch (.symbol (.var 0)) .ne (.const 0) ⟨3⟩,
        .call "f" [.const 1] (some (.temp 0)),
        .branch (.symbol (.temp 0)) .ne (.const 0) ⟨2⟩,
        .label ⟨3⟩,
        .branch (.symbol (.var 0)) .lt (.const 3) ⟨1⟩,
        .label ⟨2⟩] } }

theorem declared_tidy : Tidy declared := by
  refine ⟨by simp [declared, Builder.empty, Code.empty], fun name meaning h => ?_⟩
  simp only [declared, Scopes.find?, List.nil_append, List.findSome?_cons, List.findSome?_nil,
    List.lookup_cons, List.lookup_nil] at h
  cases hname : name == "a" with
  | false => simp [hname] at h
  | true =>
    simp only [hname, Option.some.injEq] at h
    subst h
    exact ⟨rfl, fun _ => rfl, fun _ => by decide⟩

/-- A function that calls functions with the result 5, which change nothing. -/
def caller : Activation where
  isLocal := Symbol.isTemp
  array? _ := none
  objects := []
  byZero _ _ := none
  reply _ := ⟨5, fun _ => some 0, fun _ => 0⟩
  keeps _ _ := true

/-- The value of the condition is returned. -/
def valueBody : Array Instruction :=
  nestedValue.code.body.push (.return (some (.symbol (.temp 3))))

/-- The jumps decide between two returns. -/
def jumpBody : Array Instruction :=
  nestedJumps.code.body ++ #[.return (some (.const 0)), .label ⟨1⟩, .return (some (.const 1))]

theorem nested_runs_agree :
    Tidy declared ∧ nestedValue.lastLabel.toNat + splits (nested .unknown) < wordValues ∧
    Builds (eval [("f", ⟨.int, 1⟩)] .unknown (nested .unknown)) declared (.symbol (.temp 3))
      nestedValue ∧
    Builds (branch [("f", ⟨.int, 1⟩)] .unknown true ⟨1⟩ (nested .unknown)) declared .maybe
      nestedJumps ∧
    RunsAgree caller 0 true .maybe valueBody.toVector 0 11 (.symbol (.temp 3)) jumpBody.toVector 0 6 7
      (.start (fun _ => some 0) fun _ => 0) := by
  have hlabels : nestedValue.lastLabel.toNat + splits (nested .unknown) < wordValues := by decide
  have hvalue : Builds (eval [("f", ⟨.int, 1⟩)] .unknown (nested .unknown)) declared
      (.symbol (.temp 3)) nestedValue := by rfl
  have hjumps : Builds (branch [("f", ⟨.int, 1⟩)] .unknown true ⟨1⟩ (nested .unknown)) declared .maybe
      nestedJumps := by rfl
  obtain ⟨j, b₂, hbranch, hruns⟩ :=
    jumps_agree_with_value declared_tidy hvalue hlabels true ⟨1⟩ (by decide)
  obtain ⟨rfl, rfl⟩ := Prod.mk.inj (Except.ok.inj (hjumps.symm.trans hbranch))
  exact ⟨declared_tidy, hlabels, hvalue, hjumps, hruns caller _ _ 0 0 ⟨7, by decide⟩ _
    (fun _ _ => ⟨rfl, rfl⟩) (by decide) (by decide) (by decide) (by decide) (by decide)⟩

end SysY.Generation

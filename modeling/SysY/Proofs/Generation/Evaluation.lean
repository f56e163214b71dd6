import SysY.Proofs.Generation.Stage

/-!
# The code of expressions computes their values

Wherever an expression has a value, its code runs to its end and the resulting operand stands for
that value. The proof goes by recursion on expressions; operands that were computed earlier keep their
values, since later code writes only new temporaries.
-/

namespace SysY.Generation

open Eeyore Eeyore.Activation Structured Activation List
open Tree (Formula Formulas)

variable {z : Value} {c factor index : Int32} {loc : Location} {indices vs : List Int32}
  {store : Store} {r : Resolved} {fn : String} {args : List Value}

namespace Stage

variable {stage : Stage} {hidden : Option Region} {stale : UInt32 → Prop} {b b1 b2 b' : Builder}
  {m m1 m2 m' : Moment} {s s1 s2 s' : State}

/-! ## Operations -/

variable {x y offset : Value} {a v : Int32} {meaning : Meaning}

theorem advances_applyUnary {op : UnaryOp} (hb : Builds (applyUnary op y) b x b')
    (hcov : stage.Covers b') (hat : stage.At stale b m.store s) (hy : stage.Denotes b m s y a) :
    ∃ s', stage.Advances hidden stale b b' m m s s' ∧ stage.Denotes b' m s' x (op.fold a) := by
  rcases builds_applyUnary.1 hb with ⟨c, rfl, rfl, rfl⟩ | ⟨z, dest, rfl, rfl, hcomp⟩
  · cases hy.value
    exact ⟨s, .refl hat, .const _ _ _ _⟩
  · refine advances_compute hcomp hcov hat rfl ?_ hat.toShows (fun _ _ => rfl) (.refl m)
    simp only [effect, hy.value]
    rfl

theorem advances_applyOperator {op : Tree.UnaryOperator}
    (hb : Builds (applyOperator op y) b x b') (hcov : stage.Covers b')
    (hat : stage.At stale b m.store s) (hy : stage.Denotes b m s y a) :
    ∃ s', stage.Advances hidden stale b b' m m s s' ∧
      stage.Denotes b' m s' x (unaryValue op a) := by
  cases op with
  | plus =>
    obtain ⟨rfl, rfl⟩ := builds_pure.1 hb
    exact ⟨s, .refl hat, hy⟩
  | minus => exact advances_applyUnary hb hcov hat hy
  | not =>
    have hfold : unaryValue .not a = UnaryOp.not.fold a := by
      simp [unaryValue, UnaryOp.fold, BEq.beq]
    rw [hfold]
    exact advances_applyUnary hb hcov hat hy

theorem advances_applyBinary {op : BinaryOp} (hb : Builds (applyBinary op y z loc) b x b')
    (hcov : stage.Covers b') (hat : stage.At stale b m.store s) (hy : stage.Denotes b m s y a)
    (hz : stage.Denotes b m s z c) (hv : op.fold a c = some v) :
    ∃ s', stage.Advances hidden stale b b' m m s s' ∧ stage.Denotes b' m s' x v := by
  rcases builds_applyBinary.1 hb with ⟨a', c', w, rfl, rfl, hw, rfl, rfl⟩ | ⟨_, dest, rfl, hcomp⟩
  · cases hy.value
    cases hz.value
    cases hw.symm.trans hv
    exact ⟨s, .refl hat, .const _ _ _ _⟩
  · exact advances_compute hcomp hcov hat rfl (effect_binary hy.value hz.value hv) hat.toShows
      (fun _ _ => rfl) (.refl m)

theorem advances_scale (hb : Builds (scale y factor loc) b x b')
    (hcov : stage.Covers b') (hat : stage.At stale b m.store s) (hy : stage.Denotes b m s y a) :
    ∃ s', stage.Advances hidden stale b b' m m s s' ∧ stage.Denotes b' m s' x (a * factor) := by
  rcases builds_scale.1 hb with ⟨rfl, rfl, rfl⟩ | ⟨_, hb⟩
  · rw [Int32.mul_one]
    exact ⟨s, .refl hat, hy⟩
  · exact advances_applyBinary hb hcov hat hy (.const _ _ _ _) rfl

/-! ## Places -/

/-- Where the variables and parameters that names stand for are. -/
structure Places (stage : Stage) (meaning : Meaning) : Prop where
  parameter : meaning.symbol.kind = .parameter → stage.site.own meaning.symbol = true
  array : meaning.symbol.kind = .variable → stage.act.array? meaning.symbol =
    if meaning.dimensions = [] then none
    else some ⟨stage.site.world.place meaning.symbol, 4 * (elements meaning.dimensions).toNat⟩

/-- All names stand for something that has its place. -/
def Names (stage : Stage) (env : Environment) : Prop :=
  ∀ name meaning, env name = some meaning → meaning.Valid ∧ stage.Places meaning

theorem Names.valid {env : Environment} (h : stage.Names env) : ValidNames env :=
  fun name meaning hmean => (h name meaning hmean).1

theorem kind_cases (h : meaning.Valid) :
    meaning.symbol.kind = .variable ∨ meaning.symbol.kind = .parameter := by
  have := h.symbol
  cases hkind : meaning.symbol.kind <;> simp_all [Symbol.isTemp]

theorem Places.array?_eq_none (h : stage.Places meaning) (hvld : meaning.Valid)
    (hdims : meaning.dimensions = []) : stage.act.array? meaning.symbol = none := by
  rcases kind_cases hvld with hkind | hkind
  · rw [h.array hkind, if_pos hdims]
  · exact stage.parameters _ hkind

theorem value_base {a : UInt32} (hvld : meaning.Valid) (hpls : stage.Places meaning)
    (hdims : meaning.dimensions ≠ []) (hs : Shows stale m.store s)
    (ha : stage.site.base m.store meaning = some a) :
    stage.act.value s (.symbol meaning.symbol) = some a.toInt32 := by
  unfold Site.base at ha
  rcases kind_cases hvld with hkind | hkind
  · rw [hkind, if_neg (by decide)] at ha
    simp only [value, hpls.array hkind, if_neg hdims, ← Option.some.inj ha]
  · rw [if_pos hkind] at ha
    obtain ⟨w, hw, rfl⟩ := Option.map_eq_some_iff.1 ha
    simp only [value, stage.parameters _ hkind, hs.scalars _ hvld.symbol]
    exact hw

theorem denotes_base {a : UInt32} (b : Builder) (hvld : meaning.Valid)
    (hpls : stage.Places meaning) (hdims : meaning.dimensions ≠ []) (hs : Shows stale m.store s)
    (ha : stage.site.base m.store meaning = some a) :
    stage.Denotes b m s (.symbol meaning.symbol) a.toInt32 := by
  refine ⟨value_base hvld hpls hdims hs ha, fun i hi => ?_, ?_⟩
  · have := hvld.symbol
    rw [Value.symbol.inj hi] at this
    cases this
  · rintro y ⟨⟩ _ hnone hown
    rcases kind_cases hvld with hkind | hkind
    · rw [hpls.array hkind, if_neg hdims] at hnone
      cases hnone
    · rw [hpls.parameter hkind] at hown
      cases hown

theorem toInt32_add_ofInt (a : UInt32) (n : Int) :
    (a + UInt32.ofInt n).toInt32 = a.toInt32 + Int32.ofInt n := by
  rw [← toUInt32_ofInt]
  rfl

theorem admits_of_inBounds {a : UInt32} (hvld : meaning.Valid) (hpls : stage.Places meaning)
    (hdims : meaning.dimensions ≠ []) (ha : stage.site.address store meaning indices = some a)
    (hbnds : stage.site.inBounds meaning indices a = true) :
    stage.act.admits meaning.symbol a = true := by
  unfold admits
  rcases kind_cases hvld with hkind | hkind
  · rw [hpls.array hkind, if_neg hdims]
    simp only [Site.inBounds, hkind, reduceCtorEq, if_false, Bool.and_eq_true,
      decide_eq_true_eq] at hbnds
    simp only [Site.address, Site.base, hkind, reduceCtorEq, if_false, Option.map_some,
      Option.some.injEq] at ha
    have hsm := hvld.small hkind
    unfold maxElements at hsm
    subst ha
    simp only [Region.holds, decide_eq_true_eq, UInt32.toNat_sub, UInt32.toNat_add]
    have hoff : (UInt32.ofInt (4 * elementIndex meaning.dimensions indices)).toNat =
        (4 * elementIndex meaning.dimensions indices).toNat := by
      rw [UInt32.ofInt, UInt32.toNat_ofNat']
      omega
    have := (stage.site.world.place meaning.symbol).toNat_lt
    omega
  · rw [stage.parameters _ hkind]
    simp only [Site.inBounds, hkind, if_true, any_eq_true] at hbnds ⊢
    obtain ⟨region, hrgn, hholds⟩ := hbnds
    exact ⟨region, stage.others region hrgn, hholds⟩

theorem address_of_inBounds {a : UInt32} (hvld : meaning.Valid)
    (hpls : stage.Places meaning) (hdims : meaning.dimensions ≠ []) (hs : Shows stale m.store s)
    (ha : stage.site.address m.store meaning indices = some a)
    (hbnds : stage.site.inBounds meaning indices a = true) (hoff : stage.act.value s offset =
      some (.ofInt (4 * elementIndex meaning.dimensions indices))) :
    stage.act.address s meaning.symbol offset = some a := by
  obtain ⟨start, hstart, heq⟩ := Option.map_eq_some_iff.1 ha
  refine address_eq_some.2 ⟨start.toInt32, _, value_base hvld hpls hdims hs hstart, hoff,
    admits_of_inBounds hvld hpls hdims ha hbnds, ?_⟩
  rw [← heq, UInt32.toUInt32_toInt32, toUInt32_ofInt]

theorem advances_readName (hvld : meaning.Valid) (hpls : stage.Places meaning)
    (hrsv : Builds (resolveName meaning) b r b1) (hread : Builds (readResolved r) b1 x b')
    (hat : stage.At stale b m.store s) (hv : stage.site.read hidden meaning [] m = some (v, m')) :
    ∃ s', stage.Advances hidden stale b b' m m' s s' ∧ stage.Denotes b' m' s' x v := by
  obtain ⟨rfl, hr⟩ := builds_resolveName.1 hrsv
  rcases hr with ⟨hdims, rfl⟩ | ⟨hdims, hvals, rfl⟩ | ⟨hdims, values, value, hvals, hval, rfl⟩
  · obtain ⟨rfl, rfl⟩ := builds_pure.1 hread
    have hlen := length_pos_of_ne_nil hdims
    rcases Site.read_cases hv with ⟨_, rfl, a, ha, rfl⟩ | ⟨h, _⟩ | ⟨h, _⟩ | ⟨_, h, _⟩
    · obtain ⟨start, hstart, rfl⟩ := Option.map_eq_some_iff.1 ha
      have hz : start + UInt32.ofInt (4 * elementIndex meaning.dimensions []) = start := by
        cases meaning.dimensions <;> exact UInt32.add_zero start
      rw [hz]
      exact ⟨s, .refl hat, denotes_base _ hvld hpls hdims hat.toShows hstart⟩
    · exact absurd h hdims
    · exact absurd h hdims
    · exact absurd hlen h
  · obtain ⟨rfl, rfl⟩ := builds_pure.1 hread
    have hnil : ¬ ([] : List Int32).length < meaning.dimensions.length := by simp [hdims]
    rcases Site.read_cases hv with ⟨h, _⟩ | ⟨_, _, _, h, _⟩ | ⟨_, _, hsca, hsto, hreads⟩ | ⟨h, _⟩
    · exact absurd h hnil
    · rw [hvals] at h
      cases h
    · refine ⟨s, ⟨.refl, ?_, fun _ _ => rfl, Site.read_keeps hv⟩, ?_, fun i hi => ?_, ?_⟩
      · rw [hsto]
        exact hat
      · simp only [value, hpls.array?_eq_none hvld hdims, hat.scalars _ hvld.symbol]
        exact hsca
      · have := hvld.symbol
        rw [Value.symbol.inj hi] at this
        cases this
      · rintro y ⟨⟩ _ _ hown
        rw [hreads, hown]
        exact mem_cons_self
    · exact absurd hdims h
  · obtain ⟨rfl, rfl⟩ := builds_pure.1 hread
    have hnil : ¬ ([] : List Int32).length < meaning.dimensions.length := by simp [hdims]
    rcases Site.read_cases hv with ⟨h, _⟩ | ⟨_, rfl, vs, hvs, hv⟩ | ⟨_, h, _⟩ | ⟨h, _⟩
    · exact absurd h hnil
    · rw [hvals] at hvs
      cases hvs
      cases hval.symm.trans hv
      exact ⟨s, .refl hat, .const _ _ _ _⟩
    · rw [hvals] at h
      cases h
    · exact absurd hdims h

theorem advances_offset {dims : List Int32} (hle : (index :: indices).length ≤ dims.length)
    (hfac : stride dims (index :: indices).length = .ok factor)
    (hscl : Builds (scale x factor loc) b offset b') (hcov : stage.Covers b')
    (hat : stage.At stale b m.store s)
    (hx : stage.Denotes b m s x (.ofInt (position index.toInt (dims.drop 1) indices))) :
    ∃ s', stage.Advances hidden stale b b' m m s s' ∧
      stage.Denotes b' m s' offset (.ofInt (4 * elementIndex dims (index :: indices))) := by
  rw [← ofInt_position_mul_stride hle hfac]
  exact advances_scale hscl hcov hat hx

theorem advances_readOffset {name : Tree.Name}
    (hstale : ∀ a, stale a → hidden.any (·.contains a) = true) (hvld : meaning.Valid)
    (hpls : stage.Places meaning) (hle : (index :: indices).length ≤ meaning.dimensions.length)
    (hrsv : Builds (resolveOffset name meaning (index :: indices).length offset) b r b1)
    (hread : Builds (readResolved r) b1 x b') (hcov : stage.Covers b')
    (hat : stage.At stale b m.store s) (hoff : stage.Denotes b m s offset
      (.ofInt (4 * elementIndex meaning.dimensions (index :: indices))))
    (hv : stage.site.read hidden meaning (index :: indices) m = some (v, m')) :
    ∃ s', stage.Advances hidden stale b b' m m' s s' ∧ stage.Denotes b' m' s' x v := by
  have hdims : meaning.dimensions ≠ [] := by
    intro h
    rw [h] at hle
    cases hle
  rcases builds_resolveOffset.1 hrsv with ⟨hlt, y, rfl, hadd⟩ |
    ⟨hlt, ⟨c, values, rfl, hvals, hconst⟩ | ⟨_, rfl, rfl⟩⟩
  · obtain ⟨rfl, rfl⟩ := builds_pure.1 hread
    rcases Site.read_cases hv with ⟨_, rfl, a, ha, rfl⟩ | ⟨h, _⟩ | ⟨h, _⟩ | ⟨_, h, _⟩
    · obtain ⟨start, hstart, rfl⟩ := Option.map_eq_some_iff.1 ha
      refine advances_applyBinary hadd hcov hat
        (denotes_base _ hvld hpls hdims hat.toShows hstart) hoff ?_
      rw [toInt32_add_ofInt]
      rfl
    · exact absurd h hdims
    · exact absurd h hdims
    · exact absurd hlt h
  all_goals
    obtain ⟨rfl, hload⟩ : m' = m ∧ stage.site.load hidden m.store meaning (index :: indices) = some v := by
      rcases Site.read_cases hv with ⟨h, _⟩ | ⟨h, _⟩ | ⟨h, _⟩ | ⟨_, _, rfl, hload⟩
      · exact absurd h hlt
      · exact absurd h hdims
      · exact absurd h hdims
      · exact ⟨rfl, hload⟩
    obtain ⟨a, ha, hbnds, hhid, hword, hcst⟩ := Site.load_eq_some.1 hload
  · -- the element is known without a look at memory
    have hkind := hvld.constant (by simp [hvals])
    simp only [Site.inBounds, hkind, reduceCtorEq, if_false, Bool.and_eq_true,
      decide_eq_true_eq] at hbnds
    have hsm := hvld.small hkind
    cases hoff.value
    obtain ⟨w, hw, rfl, rfl⟩ := (constantElement_at hbnds.1 (by omega)).1 hconst
    obtain ⟨rfl, rfl⟩ := builds_pure.1 hread
    cases hw.symm.trans (hcst values hvals)
    exact ⟨s, .refl hat, .const _ _ _ _⟩
  · rcases builds_readResolved.1 hread with ⟨_, ⟨⟩, _⟩ | ⟨_, ⟨⟩, _⟩ | ⟨⟨⟩, _⟩ |
      ⟨_, _, dest, ⟨⟩, rfl, hcomp⟩
    refine advances_compute hcomp hcov hat rfl ?_ hat.toShows (fun _ _ => rfl) (.refl _)
    rw [hword, ← hat.toShows.word hstale hhid]
    simp only [effect, address_of_inBounds hvld hpls hdims hat.toShows ha hbnds hoff.value]
    rfl

/-! ## Calls -/

theorem shows_afterCall {args : List Int32} (hs : Shows stale store s) :
    Shows stale (stage.site.afterCall store fn args)
      (stage.act.afterCall s fn args) where
  scalars x hx := by
    simp only [afterCall, Site.afterCall, stage.own x hx, stage.reply, hs.count,
      hs.scalars x hx]
  temps x hx := by simp only [Site.afterCall, stage.own_temps x hx, if_true, hs.temps x hx]
  memory a ha := by
    simp only [afterCall, Site.afterCall, stage.keeps, stage.reply, hs.count,
      hs.memory a ha]
  count := by simp [afterCall, Site.afterCall, hs.count]
  calls := by simp [afterCall, Site.afterCall, callsOf, ← hs.calls]

theorem mapM_passedArguments (fn : String) (loc : Location) (h : List.Forall₂ (stage.Denotes b m s) args vs) :
    (passedArguments fn args loc).mapM (stage.act.value s) =
      some (if isTiming fn then vs ++ [Int32.ofNat loc.start.line] else vs) := by
  have hvals : List.Forall₂ (fun x v => stage.act.value s x = some v) args vs :=
    h.imp fun _ _ hx => hx.value
  rw [mapM_eq_some, passedArguments]
  split
  · exact rel_append hvals (.cons rfl .nil)
  · exact hvals

theorem advances_emitCall {returns : Tree.ReturnType} {x : Option Symbol}
    (hb : Builds (emitCall fn returns args loc) b x b')
    (hcov : stage.Covers b') (hat : stage.At stale b m.store s)
    (harguments : List.Forall₂ (stage.Denotes b m s) args vs)
    (hv : stage.site.call hidden fn vs loc m = some (v, m')) :
    ∃ s', stage.Advances hidden stale b b' m m' s s' ∧
      ∀ dest, x = some dest → stage.Denotes b' m' s' (.symbol dest) v := by
  have hkps := Site.call_keeps hv
  have hcov' := hcov.mono (emits_emitCall hb).toGrows
  obtain ⟨hval, hm', _⟩ := Site.call_eq_some.1 hv
  have hargs := mapM_passedArguments fn loc harguments
  generalize (if isTiming fn then vs ++ [Int32.ofNat loc.start.line] else vs) = ws
    at hm' hargs
  have hshows : Shows stale m'.store (stage.act.afterCall s fn ws) := by
    rw [hm']
    exact shows_afterCall hat.toShows
  have htemps : ∀ j : UInt32, j.toNat < b.code.temps.toNat →
      (stage.act.afterCall s fn ws).scalars (.temp j) = s.scalars (.temp j) :=
    fun j hj => if_pos (hcov'.temps j hj)
  rcases builds_emitCall.1 hb with ⟨dest, rfl, _, hcomp⟩ | ⟨rfl, _, rfl⟩
  · have heff : stage.act.effect s
        (.call fn (passedArguments fn args loc) (some dest)) =
        stage.act.assign (stage.act.afterCall s fn ws) dest v := by
      simp only [effect, hargs, Option.bind_eq_bind, Option.bind_some, stage.reply, hat.count, hval]
    obtain ⟨s', hadv, hden⟩ := advances_compute hcomp hcov hat rfl heff hshows htemps hkps
    refine ⟨s', hadv, ?_⟩
    rintro _ ⟨⟩
    exact hden
  · have heff : stage.act.effect s
        (.call fn (passedArguments fn args loc) none) =
        some (stage.act.afterCall s fn ws) := by
      simp only [effect, hargs, Option.bind_eq_bind, Option.bind_some, Option.pure_def]
    refine ⟨_, ⟨comes_next hcov hat.position heff rfl, ⟨hshows.at _, rfl⟩, htemps, hkps⟩, ?_⟩
    rintro _ ⟨⟩

/-! ## Connectives -/

theorem comes_truth {i : UInt32} (hcov : stage.Covers (b.emit (truthInstruction (.temp i) x)))
    (hi : i.toNat < b.code.temps.toNat) (hat : stage.At stale b store s)
    (hx : stage.act.value s x = some a) :
    ∃ s', Comes stage.act stage.body s s' ∧
      stage.At stale (b.emit (truthInstruction (.temp i) x)) store s' ∧
      s'.scalars (.temp i) = some (truth (a ≠ 0)) ∧
      ∀ j, j ≠ i → s'.scalars (.temp j) = s.scalars (.temp j) := by
  have hasg := assign_local s (truth (a ≠ 0)) (stage.temps (.temp i) rfl) (hcov.temps i hi)
  have hcom : Comes stage.act stage.body s ((s.set (.temp i) (truth (a ≠ 0))).at
      (stage.base + (b.emit (truthInstruction (.temp i) x)).code.body.size)) := by
    cases x with
    | const c =>
      cases hx
      exact comes_next hcov hat.position hasg rfl
    | symbol y =>
      exact comes_next hcov hat.position ((effect_binary hx rfl (fold_ne_zero a)).trans hasg) rfl
  refine ⟨_, hcom, ⟨(hat.toShows.set_temp i _).at _, rfl⟩, s.set_self _ _, fun j hj => ?_⟩
  refine s.set_ne _ ?_
  rintro ⟨⟩
  exact hj rfl

theorem advances_connect {conn : Tree.Connective} {l : Symbol}
    (htemp : b.code.temps.toNat + 1 < wordValues) (hgr : Grows (b.connect conn l) b1)
    (hcov : stage.Covers (b.join b1 z)) (hat : stage.At stale b m.store s)
    (hl : stage.Denotes b m s (.symbol l) a)
    (hr : (decides conn a = true ∧ v = truth (a ≠ 0) ∧ m' = m) ∨
      (decides conn a = false ∧ v = truth (c ≠ 0) ∧
        stage.Evaluates hidden stale (b.connect conn l) b1 z m c m')) :
    ∃ s', stage.Advances hidden stale b (b.join b1 z) m m' s s' ∧
      stage.Denotes (b.join b1 z) m' s' (.symbol (.temp b.code.temps)) v := by
  have htemps : (b.connect conn l).code.temps.toNat = b.code.temps.toNat + 1 := toNat_succ htemp
  have hle := hgr.temps
  have hlt : b.code.temps.toNat < b1.code.temps.toNat := by omega
  have hcov0 := hcov.of_emit.of_emit.mono hgr
  have hne : ∀ i : UInt32, i.toNat < b.code.temps.toNat → i ≠ b.code.temps := by
    rintro i hi rfl
    exact Nat.lt_irrefl _ hi
  have hstart : stage.At stale b.addTemp.addLabel m.store s := ⟨hat.toShows, hat.position⟩
  obtain ⟨s1, hcom1, hat1, hself1, hoth1⟩ := comes_truth hcov0.of_emit
    (Nat.lt_of_lt_of_eq (Nat.lt_succ_self _) htemps.symm) hstart hl.value
  have hval : stage.act.value s1 (.symbol (.temp b.code.temps)) = some (truth (a ≠ 0)) :=
    (denotes_temp m hlt hself1).value
  have hholds := holds_skipRelation conn a
  rcases hr with ⟨hdcd, rfl, rfl⟩ | ⟨hdcd, rfl, heval⟩
  · -- the jump leads to the end
    have hjump := comes_branch_taken hcov0 hcov hat1.position hval rfl (hholds.trans hdcd)
    exact ⟨_, ⟨(hcom1.trans hjump).trans (comes_label hcov rfl), ⟨(hat1.toShows.at _).at _, rfl⟩,
      fun i hi => hoth1 i (hne i hi), .refl _⟩, denotes_temp _ hlt hself1⟩
  · -- the right operand gives the result
    have hskip := comes_branch_skipped hcov0 hat1.position hval rfl (hholds.trans hdcd)
    obtain ⟨s2, hadv, hz⟩ := heval _ ⟨hat1.toShows.at _, rfl⟩
    obtain ⟨s3, hcom3, hat3, hself3, hoth3⟩ := comes_truth hcov.of_emit hlt hadv.arrives hz.value
    refine ⟨_, ⟨(hcom1.trans hskip).trans (hadv.comes.trans (hcom3.trans
      (comes_label hcov hat3.position))), ⟨hat3.toShows.at _, rfl⟩, fun i hi => ?_,
      hadv.keeps⟩, denotes_temp _ hlt hself3⟩
    exact (hoth3 i (hne i hi)).trans ((hadv.temps i (by omega)).trans (hoth1 i (hne i hi)))

/-! ## Whole expressions -/

/-- A value stands for the position that indices select in an array, if there are any. -/
def Selects (stage : Stage) (b : Builder) (m : Moment) (s : State) (dimensions : List Int32) :
    List Int32 → Option Value → Prop
  | [], x => x = none
  | index :: indices, x => ∃ y, x = some y ∧
    stage.Denotes b m s y (.ofInt (position index.toInt (dimensions.drop 1) indices))

theorem length_of_values {site : Site} {env : Environment} {formulas : Formulas} {m m' : Moment}
    {vs : List Int32} (h : site.values env hidden formulas m = some (vs, m')) :
    vs.length = formulas.length := by
  cases formulas with
  | nil =>
    rw [Site.values] at h
    cases h
    rfl
  | cons formula place rest =>
    rw [Site.values] at h
    obtain ⟨⟨v, m1⟩, hv, h⟩ := Option.bind_eq_some_iff.1 h
    obtain ⟨⟨ws, m2⟩, hws, h⟩ := Option.bind_eq_some_iff.1 h
    cases h
    rw [length_cons, length_of_values hws, Formulas.length]

variable {env : Environment} {sigs : Signatures}

mutual

theorem evaluates_eval {loc : Location}
    (hstale : ∀ a, stale a → hidden.any (·.contains a) = true) (hnm : stage.Names env)
    {formula : Formula} {b b' : Builder} {x : Value} {m m' : Moment} {v : Int32}
    (henv : b.scopes.find? = env) (hb : Builds (eval sigs loc formula) b x b')
    (hcov : stage.Covers b') (hv : stage.site.value env hidden formula m = some (v, m')) :
    stage.Evaluates hidden stale b b' x m v m' := by
  cases formula with
  | literal value =>
    intro s hat
    rw [eval, builds_pure] at hb
    obtain ⟨rfl, rfl⟩ := hb
    rw [Site.value] at hv
    cases hv
    exact ⟨s, .refl hat, .const _ _ _ _⟩
  | read name indices =>
    intro s hat
    obtain ⟨r, b1, hrsv, hread⟩ := builds_eval_read.1 hb
    obtain ⟨meaning, index, b2, hfind, hle, _, hidx, hpl⟩ := builds_resolveWith.1 hrsv
    rw [henv] at hfind
    obtain ⟨hvld, hpls⟩ := hnm _ _ hfind
    rw [Site.value] at hv
    obtain ⟨meaning', hmean, hv⟩ := Option.bind_eq_some_iff.1 hv
    obtain ⟨⟨vs, m1⟩, hvs, hv⟩ := Option.bind_eq_some_iff.1 hv
    cases hmean.symm.trans hfind
    have hgr := (emits_evalPosition hidx).toGrows
    have hcov1 := hcov.mono (emits_readResolved hread).toGrows
    have hlen := length_of_values hvs
    rcases hpl with ⟨rfl, hname⟩ | ⟨y, factor, offset, b3, rfl, hfac, hscl, hoff⟩
    · obtain ⟨rfl, _⟩ := builds_resolveName.1 hname
      obtain ⟨s1, hadv1, hsels⟩ := advances_evalPosition hstale hnm hle henv hidx hcov1 hvs hat
      cases vs with
      | nil =>
        obtain ⟨s2, hadv2, hres⟩ := advances_readName hvld hpls hname hread hadv1.arrives hv
        exact ⟨s2, hadv1.trans hadv2 hgr, hres⟩
      | cons index indices =>
        obtain ⟨_, ⟨⟩, _⟩ := hsels
    · have hcov3 := hcov1.mono (emits_resolveOffset hoff).toGrows
      have hcov2 := hcov3.mono (emits_scale hscl).toGrows
      obtain ⟨s1, hadv1, hsels⟩ := advances_evalPosition hstale hnm hle henv hidx hcov2 hvs hat
      cases vs with
      | nil => cases hsels
      | cons index indices =>
        obtain ⟨_, ⟨⟩, hy⟩ := hsels
        rw [← hlen] at hle hfac hoff
        obtain ⟨s2, hadv2, hden⟩ := advances_offset hle hfac hscl hcov3 hadv1.arrives hy
        obtain ⟨s3, hadv3, hres⟩ := advances_readOffset hstale hvld hpls hle hoff hread
          hcov hadv2.arrives hden hv
        exact ⟨s3, hadv1.trans (hadv2.trans hadv3 (emits_scale hscl).toGrows) hgr, hres⟩
  | call fn args place =>
    intro s hat
    obtain ⟨dest, rfl, hcall⟩ := builds_eval_call.1 hb
    obtain ⟨signature, values, b1, _, _, hvals, hemit⟩ := builds_callWith.1 hcall
    rw [Site.value] at hv
    obtain ⟨⟨vs, m1⟩, hvs, hv⟩ := Option.bind_eq_some_iff.1 hv
    have hcov1 := hcov.mono (emits_emitCall hemit).toGrows
    obtain ⟨s1, hadv1, hden⟩ := advances_evalAll hstale hnm henv hvals hcov1 hvs hat
    obtain ⟨s2, hadv2, hdest⟩ := advances_emitCall hemit hcov hadv1.arrives hden hv
    exact ⟨s2, hadv1.trans hadv2 (emits_evalAll hvals).toGrows, hdest dest rfl⟩
  | unary op operand =>
    intro s hat
    obtain ⟨y, b1, hy, hx⟩ := builds_eval_unary.1 hb
    rw [Site.value] at hv
    obtain ⟨⟨a, m1⟩, ha, hv⟩ := Option.bind_eq_some_iff.1 hv
    cases hv
    have hcov1 := hcov.mono (emits_applyOperator hx).toGrows
    obtain ⟨s1, hadv1, hden⟩ := evaluates_eval hstale hnm henv hy hcov1 ha s hat
    obtain ⟨s2, hadv2, hres⟩ := advances_applyOperator hx hcov hadv1.arrives hden
    exact ⟨s2, hadv1.trans hadv2 (emits_eval hy).toGrows, hres⟩
  | binary op left right =>
    intro s hat
    obtain ⟨y, b1, z, b2, hy, hz, hx⟩ := builds_eval_binary.1 hb
    rw [Site.value] at hv
    obtain ⟨⟨a, m1⟩, ha, hv⟩ := Option.bind_eq_some_iff.1 hv
    obtain ⟨⟨c, m2⟩, hc, hv⟩ := Option.bind_eq_some_iff.1 hv
    obtain ⟨w, hw, hv⟩ := Option.bind_eq_some_iff.1 hv
    cases hv
    have hcov2 := hcov.mono (emits_applyBinary hx).toGrows
    have hcov1 := hcov2.mono (emits_eval hz).toGrows
    have henv1 := (emits_eval hy).find?_eq henv
    obtain ⟨s1, hadv1, hden1⟩ := evaluates_eval hstale hnm henv hy hcov1 ha s hat
    obtain ⟨s2, hadv2, hden2⟩ := evaluates_eval hstale hnm henv1 hz hcov2 hc s1 hadv1.arrives
    obtain ⟨s3, hadv3, hres⟩ := advances_applyBinary hx hcov hadv2.arrives
      (hden1.persist hadv1.arrives.toShows hadv2 (emits_eval hz).toGrows) hden2
      ((fold_operation op a c).trans hw)
    exact ⟨s3, hadv1.trans (hadv2.trans hadv3 (emits_eval hz).toGrows)
      (emits_eval hy).toGrows, hres⟩
  | logic conn left right =>
    intro s hat
    obtain ⟨y, b1, hy, hr⟩ := builds_eval_logic.1 hb
    rw [Site.value] at hv
    obtain ⟨⟨a, m1⟩, ha, hv⟩ := Option.bind_eq_some_iff.1 hv
    have henv1 := (emits_eval hy).find?_eq henv
    have hgr1 := (emits_eval hy).toGrows
    rcases hr with ⟨c, rfl, hdec, z, b2, hz, hx⟩ | ⟨c, rfl, hdec, rfl, rfl⟩ |
      ⟨l, z, b2, rfl, htemp, hlab, rfl, hz, rfl⟩
    · -- the left operand is a constant and does not decide
      have hcov2 := hcov.mono (emits_applyBinary hx).toGrows
      have hcov1 := hcov2.mono (emits_eval hz).toGrows
      obtain ⟨s1, hadv1, hl⟩ := evaluates_eval hstale hnm henv hy hcov1 ha s hat
      cases hl.value
      dsimp only at hv
      rw [if_neg (Bool.eq_false_iff.1 (decides_eq_false.2 hdec))] at hv
      obtain ⟨⟨c', m2⟩, hc, hv⟩ := Option.bind_eq_some_iff.1 hv
      cases hv
      obtain ⟨s2, hadv2, hden⟩ := evaluates_eval hstale hnm henv1 hz hcov2 hc s1 hadv1.arrives
      obtain ⟨s3, hadv3, hres⟩ := advances_applyBinary hx hcov hadv2.arrives hden
        (.const _ _ _ _) (fold_ne_zero c')
      exact ⟨s3, hadv1.trans (hadv2.trans hadv3 (emits_eval hz).toGrows) hgr1, hres⟩
    · -- the left operand is a constant and decides
      obtain ⟨s1, hadv1, hl⟩ := evaluates_eval hstale hnm henv hy hcov ha s hat
      cases hl.value
      dsimp only at hv
      rw [if_pos (by rw [← Bool.not_eq_false, decides_eq_false]; exact hdec)] at hv
      cases hv
      exact ⟨s1, hadv1, .const _ _ _ _⟩
    · have hgr2 := (emits_eval hz).toGrows
      have hcov2 := hcov.of_emit.of_emit
      have hcov1 := hcov.mono (emits_connect htemp hlab (emits_eval hz)).toGrows
      obtain ⟨s1, hadv1, hl⟩ := evaluates_eval hstale hnm henv hy hcov1 ha s hat
      dsimp only at hv
      by_cases hdcd : decides conn a = true
      · rw [if_pos hdcd] at hv
        cases hv
        obtain ⟨s2, hadv2, hres⟩ := advances_connect (c := 0) htemp hgr2 hcov
          hadv1.arrives hl (.inl ⟨hdcd, rfl, rfl⟩)
        exact ⟨s2, hadv1.trans hadv2 hgr1, hres⟩
      · rw [if_neg hdcd] at hv
        obtain ⟨⟨c, m2⟩, hc, hv⟩ := Option.bind_eq_some_iff.1 hv
        cases hv
        have henv2 : (b1.connect conn l).scopes.find? = env := henv1
        have heval := evaluates_eval hstale hnm henv2 hz hcov2 hc
        obtain ⟨s2, hadv2, hres⟩ := advances_connect htemp hgr2 hcov hadv1.arrives
          hl (.inr ⟨Bool.eq_false_iff.2 hdcd, rfl, heval⟩)
        exact ⟨s2, hadv1.trans hadv2 hgr1, hres⟩
  | malformed fault =>
    rw [Site.value] at hv
    cases hv

theorem advances_evalAll (hstale : ∀ a, stale a → hidden.any (·.contains a) = true)
    (hnm : stage.Names env) {formulas : Formulas} {b b' : Builder} {xs : List Value}
    {m m' : Moment} {vs : List Int32} {s : State} (henv : b.scopes.find? = env)
    (hb : Builds (evalAll sigs formulas) b xs b') (hcov : stage.Covers b')
    (hvs : stage.site.values env hidden formulas m = some (vs, m'))
    (hat : stage.At stale b m.store s) :
    ∃ s', stage.Advances hidden stale b b' m m' s s' ∧ List.Forall₂ (stage.Denotes b' m' s') xs vs
      := by
  cases formulas with
  | nil =>
    rw [evalAll, builds_pure] at hb
    obtain ⟨rfl, rfl⟩ := hb
    rw [Site.values] at hvs
    cases hvs
    exact ⟨s, .refl hat, .nil⟩
  | cons formula place rest =>
    obtain ⟨y, b1, ys, hy, hys, rfl⟩ := builds_evalAll_cons.1 hb
    rw [Site.values] at hvs
    obtain ⟨⟨v, m1⟩, hv, hvs⟩ := Option.bind_eq_some_iff.1 hvs
    obtain ⟨⟨ws, m2⟩, hws, hvs⟩ := Option.bind_eq_some_iff.1 hvs
    cases hvs
    have henv1 := (emits_eval hy).find?_eq henv
    have hcov1 := hcov.mono (emits_evalAll hys).toGrows
    obtain ⟨s1, hadv1, hden⟩ := evaluates_eval hstale hnm henv hy hcov1 hv s hat
    obtain ⟨s2, hadv2, hrest⟩ := advances_evalAll hstale hnm henv1 hys hcov hws hadv1.arrives
    exact ⟨s2, hadv1.trans hadv2 (emits_eval hy).toGrows,
      .cons (hden.persist hadv1.arrives.toShows hadv2 (emits_evalAll hys).toGrows) hrest⟩

theorem advances_evalPosition {loc : Location}
    (hstale : ∀ a, stale a → hidden.any (·.contains a) = true) (hnm : stage.Names env)
    {dims : List Int32} {formulas : Formulas} {b b' : Builder} {index : Option Value}
    {m m' : Moment} {vs : List Int32} {s : State} (hle : formulas.length ≤ dims.length)
    (henv : b.scopes.find? = env)
    (hb : Builds (evalPosition sigs loc dims formulas) b index b')
    (hcov : stage.Covers b') (hvs : stage.site.values env hidden formulas m = some (vs, m'))
    (hat : stage.At stale b m.store s) :
    ∃ s', stage.Advances hidden stale b b' m m' s s' ∧ stage.Selects b' m' s' dims vs index
      := by
  cases formulas with
  | nil =>
    rw [evalPosition, builds_pure] at hb
    obtain ⟨rfl, rfl⟩ := hb
    rw [Site.values] at hvs
    cases hvs
    exact ⟨s, .refl hat, rfl⟩
  | cons formula place rest =>
    obtain ⟨y, b1, z, hy, hz, rfl⟩ := builds_evalPosition_cons.1 hb
    rw [Site.values] at hvs
    obtain ⟨⟨v, m1⟩, hv, hvs⟩ := Option.bind_eq_some_iff.1 hvs
    obtain ⟨⟨ws, m2⟩, hws, hvs⟩ := Option.bind_eq_some_iff.1 hvs
    cases hvs
    have henv1 := (emits_eval hy).find?_eq henv
    have hcov1 := hcov.mono (emits_addIndices hz).toGrows
    have hle1 : rest.length ≤ (dims.drop 1).length := by
      rw [Formulas.length] at hle
      rw [length_drop]
      omega
    obtain ⟨s1, hadv1, hden⟩ := evaluates_eval hstale hnm henv hy hcov1 hv s hat
    rw [← Int32.ofInt_toInt v] at hden
    obtain ⟨s2, hadv2, hpos⟩ :=
      advances_addIndices hstale hnm hle1 henv1 hz hcov hws hadv1.arrives hden
    exact ⟨s2, hadv1.trans hadv2 (emits_eval hy).toGrows, z, rfl, hpos⟩

theorem advances_addIndices {loc : Location}
    (hstale : ∀ a, stale a → hidden.any (·.contains a) = true)
    (hnm : stage.Names env) : ∀ {formulas : Formulas} {dims : List Int32}
      {b b' : Builder} {x y : Value} {m m' : Moment} {p : Int} {vs : List Int32} {s : State},
    formulas.length ≤ dims.length → b.scopes.find? = env →
    Builds (addIndices sigs loc dims y formulas) b x b' → stage.Covers b' →
    stage.site.values env hidden formulas m = some (vs, m') → stage.At stale b m.store s →
    stage.Denotes b m s y (.ofInt p) →
    ∃ s', stage.Advances hidden stale b b' m m' s s' ∧
      stage.Denotes b' m' s' x (.ofInt (position p dims vs))
  | .nil, dims, b, b', x, y, m, m', p, vs, s, hle, henv, hb, hcov, hvs, hat, hy => by
    rw [addIndices, builds_pure] at hb
    obtain ⟨rfl, rfl⟩ := hb
    rw [Site.values] at hvs
    cases hvs
    have hpos : position p dims [] = p := by cases dims <;> rfl
    rw [hpos]
    exact ⟨s, .refl hat, hy⟩
  | .cons formula place rest, [], b, b', x, y, m, m', p, vs, s, hle, henv, hb, hcov, hvs, hat,
      hy => by cases hle
  | .cons formula place rest, dimension :: dims, b, b', x, y, m, m', p, vs, s, hle, henv, hb,
      hcov, hvs, hat, hy => by
    obtain ⟨scaled, b1, z, b2, sum, b3, hscd, hz, hsum, hrest⟩ := builds_addIndices_cons.1 hb
    rw [Site.values] at hvs
    obtain ⟨⟨v, m1⟩, hv, hvs⟩ := Option.bind_eq_some_iff.1 hvs
    obtain ⟨⟨ws, m2⟩, hws, hvs⟩ := Option.bind_eq_some_iff.1 hvs
    cases hvs
    have hgr1 := (emits_scale hscd).toGrows
    have hgr2 := (emits_eval hz).toGrows
    have hgr3 := (emits_applyBinary hsum).toGrows
    have hcov3 := hcov.mono (emits_addIndices hrest).toGrows
    have hcov2 := hcov3.mono hgr3
    have hcov1 := hcov2.mono hgr2
    have henv1 := (emits_scale hscd).find?_eq henv
    have henv3 := ((emits_eval hz).trans (emits_applyBinary hsum)).find?_eq henv1
    obtain ⟨s1, hadv1, hden1⟩ := advances_scale hscd hcov1 hat hy
    obtain ⟨s2, hadv2, hden2⟩ := evaluates_eval hstale hnm henv1 hz hcov2 hv s1 hadv1.arrives
    obtain ⟨s3, hadv3, hden3⟩ := advances_applyBinary hsum hcov3 hadv2.arrives
      (hden1.persist hadv1.arrives.toShows hadv2 hgr2) hden2 rfl
    rw [← ofInt_toInt_mul, ← ofInt_toInt_add] at hden3
    obtain ⟨s4, hadv4, hden4⟩ := advances_addIndices hstale hnm
      (Nat.le_of_succ_le_succ hle) henv3 hrest hcov hws hadv3.arrives hden3
    exact ⟨s4, hadv1.trans (hadv2.trans (hadv3.trans hadv4 hgr3) hgr2) hgr1, hden4⟩

end

end Stage

end SysY.Generation

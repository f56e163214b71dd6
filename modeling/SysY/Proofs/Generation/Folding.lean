import SysY.Proofs.Generation.Constants

/-!
# Constant folding

A constant expression is evaluated by the generator as it would be by hand: with numbers, whose
results are then wrapped to words, and without looking at operands that `&&` and `||` skip. This
second evaluation is `reference`. Where it has a value, so has the generator, and where it divides by
zero, the program is rejected for that reason. An operand that is a constant has left no trace in the
code, whatever expression it comes from.
-/

namespace SysY.Generation

open Eeyore SysY.Tree List
open Structured (Environment elements elementIndex constant? constants? decides unaryValue
  binaryValue)

/-! ## Evaluation by numbers -/

/-- The number that an operator in front of a number gives. -/
def exactUnary : UnaryOperator → Int → Int
  | .plus, a => a
  | .minus, a => -a
  | .not, a => if a = 0 then 1 else 0

/-- The number that an operator between numbers gives; a division by zero gives none. Division goes
toward zero. -/
def exactBinary : BinaryOperator → Int → Int → Option Int
  | .add, a, b => some (a + b)
  | .sub, a, b => some (a - b)
  | .mul, a, b => some (a * b)
  | .div, a, b => if b = 0 then none else some (a.tdiv b)
  | .rem, a, b => if b = 0 then none else some (a.tmod b)
  | .less, a, b => some (if a < b then 1 else 0)
  | .greater, a, b => some (if a > b then 1 else 0)
  | .lessOrEqual, a, b => some (if a ≤ b then 1 else 0)
  | .greaterOrEqual, a, b => some (if a ≥ b then 1 else 0)
  | .equal, a, b => some (if a = b then 1 else 0)
  | .notEqual, a, b => some (if a = b then 0 else 1)
  | .and, a, b => some (if a = 0 ∨ b = 0 then 0 else 1)
  | .or, a, b => some (if a = 0 ∧ b = 0 then 0 else 1)

/-- Why an expression has no constant value. -/
inductive Obstacle
  | divisionByZero
  | notConstant
deriving DecidableEq

def constantAt (dimensions : List Int32) (values : Array Int32) (indices : List Int32) :
    Except Obstacle Int32 :=
  let k := elementIndex dimensions indices
  if 0 ≤ k ∧ k < elements dimensions then
    match values[k.toNat]? with
    | some value => .ok value
    | none => .error .notConstant
  else .error .notConstant

mutual

/-- The value of a constant expression, in words of two's complement. -/
def reference (env : Environment) : Formula → Except Obstacle Int32
  | .literal value => .ok value
  | .read name indices =>
    match env name.value with
    | some ⟨_, dimensions, some values⟩ =>
      if indices.length = dimensions.length then do
        constantAt dimensions values (← references env indices)
      else .error .notConstant
    | _ => .error .notConstant
  | .call .. => .error .notConstant
  | .unary operator operand => do
    let a ← reference env operand
    return .ofInt (exactUnary operator a.toInt)
  | .binary operator left right => do
    let a ← reference env left
    let b ← reference env right
    match exactBinary operator a.toInt b.toInt with
    | some v => return .ofInt v
    | none => .error .divisionByZero
  | .logic connective left right => do
    let a ← reference env left
    if decides connective a then return truth (a ≠ 0)
    else return truth ((← reference env right) ≠ 0)
  | .malformed _ => .error .notConstant

def references (env : Environment) : Formulas → Except Obstacle (List Int32)
  | .nil => .ok []
  | .cons formula _ rest => do
    let value ← reference env formula
    return value :: (← references env rest)

end

mutual

/-- Literals, constants and in-range elements of constant arrays, and what operators make of them.
The right operand of a connective may be anything if the left one decides. -/
inductive Constant (env : Environment) : Formula → Prop
  | literal (value : Int32) : Constant env (.literal value)
  | element {name : Name} {indices : Formulas} {meaning : Meaning} {values : Array Int32} :
    env name.value = some meaning → meaning.values = some values →
    indices.length = meaning.dimensions.length → Constants env indices →
    (∀ cs, references env indices = .ok cs →
      0 ≤ elementIndex meaning.dimensions cs ∧
      elementIndex meaning.dimensions cs < elements meaning.dimensions ∧
      (elementIndex meaning.dimensions cs).toNat < values.size) →
    Constant env (.read name indices)
  | unary (operator : UnaryOperator) {operand : Formula} :
    Constant env operand → Constant env (.unary operator operand)
  | binary (operator : BinaryOperator) {left right : Formula} :
    Constant env left → Constant env right → Constant env (.binary operator left right)
  | logic (connective : Connective) {left right : Formula} : Constant env left →
    (∀ a, reference env left = .ok a → decides connective a = false → Constant env right) →
    Constant env (.logic connective left right)

inductive Constants (env : Environment) : Formulas → Prop
  | nil : Constants env .nil
  | cons {formula : Formula} {place : Location} {rest : Formulas} :
    Constant env formula → Constants env rest → Constants env (.cons formula place rest)

end

/-! ## Words and numbers -/

theorem toInt_eq_zero {a : Int32} : a.toInt = 0 ↔ a = 0 := by
  rw [← Int32.toInt_inj, Int32.toInt_zero]

theorem ofInt_ite {p : Prop} [Decidable p] : Int32.ofInt (if p then 1 else 0) = truth p := by
  by_cases h : p <;> simp [h, truth]

theorem ofInt_ite_not {p : Prop} [Decidable p] : Int32.ofInt (if p then 0 else 1) = truth ¬ p := by
  by_cases h : p <;> simp [h, truth]

theorem ofInt_exactUnary (op : UnaryOperator) (a : Int32) :
    Int32.ofInt (exactUnary op a.toInt) = unaryValue op a := by
  cases op with
  | plus => exact Int32.ofInt_toInt a
  | minus => rw [exactUnary, Int32.ofInt_neg, Int32.ofInt_toInt, unaryValue]
  | not => simp [exactUnary, unaryValue, ofInt_ite, toInt_eq_zero]

theorem ofInt_toInt_tdiv (a b : Int32) : Int32.ofInt (a.toInt.tdiv b.toInt) = a / b := by
  rw [← Int32.toInt_inj, Int32.toInt_div, Int32.toInt_ofInt]

theorem ofInt_toInt_tmod (a b : Int32) : Int32.ofInt (a.toInt.tmod b.toInt) = a % b := by
  rw [← Int32.toInt_mod, Int32.ofInt_toInt]

theorem map_ofInt_exactBinary (op : BinaryOperator) (a b : Int32) :
    (exactBinary op a.toInt b.toInt).map Int32.ofInt = binaryValue op a b := by
  cases op <;>
    simp [exactBinary, binaryValue, ofInt_ite, ofInt_ite_not, ofInt_toInt_tdiv, ofInt_toInt_tmod,
      apply_ite (Option.map Int32.ofInt), toInt_eq_zero, Int32.lt_iff_toInt_lt,
      Int32.le_iff_toInt_le, Int32.toInt_inj]

/-! ## Steps that fold -/

section Folds

variable {α β γ δ : Type} {b : Builder} {f : β → α} {g : δ → γ} {next : α → Build γ}

/-- The outcome of an evaluation is that of a step, which leaves the builder as it is. About what is
not constant this says nothing. -/
def Folds (f : β → α) (step : Build α) (b : Builder) : Except Obstacle β → Prop
  | .ok v => Builds step b (f v) b
  | .error .divisionByZero => ∃ place, step.run b = .error (.semantic ⟨.divisionByZero, place⟩)
  | .error .notConstant => True

theorem Folds.bind {step : Build α} {outcome : Except Obstacle β} {after : β → Except Obstacle δ}
    (h : Folds f step b outcome) (hnxt : ∀ v, outcome = .ok v → Folds g (next (f v)) b (after v)) :
    Folds g (step >>= next) b (outcome >>= after) := by
  cases outcome with
  | ok v =>
    have hrun : (step >>= next).run b = (next (f v)).run b := by
      rw [StateT.run_bind, show step.run b = .ok (f v, b) from h]
      rfl
    have hafter := hnxt v rfl
    show Folds g (step >>= next) b (after v)
    cases hout : after v with
    | ok w =>
      rw [hout] at hafter
      exact hrun.trans hafter
    | error obstacle =>
      rw [hout] at hafter
      cases obstacle with
      | divisionByZero =>
        obtain ⟨place, hafter⟩ := hafter
        exact ⟨place, hrun.trans hafter⟩
      | notConstant => trivial
  | error obstacle =>
    cases obstacle with
    | divisionByZero =>
      obtain ⟨place, h⟩ := h
      exact ⟨place, by rw [StateT.run_bind, h]; rfl⟩
    | notConstant => trivial

theorem Folds.behind {step : Build α} {a : α} {outcome : Except Obstacle δ} (h : Builds step b a b)
    (hnxt : Folds g (next a) b outcome) : Folds g (step >>= next) b outcome := by
  have hstep : Folds (fun _ : Unit => a) step b (.ok ()) := h
  exact hstep.bind fun _ _ => hnxt

theorem Folds.before {step : Build α} {outcome : Except Obstacle β} {g : β → γ}
    (h : Folds f step b outcome) (hnxt : ∀ v, Builds (next (f v)) b (g v) b) :
    Folds g (step >>= next) b outcome := by
  have hpure : Folds g (step >>= next) b (outcome >>= pure) := h.bind fun v _ => hnxt v
  rwa [bind_pure] at hpure

theorem Folds.map {step : Build α} {outcome : Except Obstacle β} {k : β → δ} {g : δ → α}
    (h : Folds (fun v => g (k v)) step b outcome) :
    Folds g step b (outcome >>= fun v => pure (k v)) := by
  have hpure : Folds g (step >>= pure) b (outcome >>= fun v => pure (k v)) :=
    h.bind fun v _ => builds_pure.2 ⟨rfl, rfl⟩
  rwa [bind_pure] at hpure

end Folds

theorem folds_applyBinary (op : BinaryOperator) (a c : Int32) (loc : Location)
    (b : Builder) :
    Folds Value.const (applyBinary (operation op) (.const a) (.const c) loc) b
      (match exactBinary op a.toInt c.toInt with
        | some v => pure (.ofInt v)
        | none => .error .divisionByZero) := by
  have hfold := (fold_operation op a c).trans (map_ofInt_exactBinary op a c).symm
  cases hexact : exactBinary op a.toInt c.toInt with
  | none =>
    rw [hexact] at hfold
    exact ⟨loc, by simp only [applyBinary, hfold]; rfl⟩
  | some v =>
    rw [hexact] at hfold
    exact builds_applyBinary.2 (.inl ⟨a, c, _, rfl, rfl, hfold, rfl, rfl⟩)

theorem builds_scale_const (a factor : Int32) (loc : Location) (b : Builder) :
    Builds (scale (.const a) factor loc) b (.const (a * factor)) b := by
  by_cases hone : factor = 1
  · exact builds_scale.2 (.inl ⟨hone, by rw [hone, Int32.mul_one], rfl⟩)
  · exact builds_scale.2 (.inr ⟨hone, builds_applyBinary.2 (.inl ⟨a, factor, _, rfl, rfl, rfl, rfl, rfl⟩)⟩)

theorem builds_applyOperator_const (op : UnaryOperator) (a : Int32) (b : Builder) :
    Builds (applyOperator op (.const a)) b (.const (unaryValue op a)) b := by
  cases op with
  | plus => exact builds_pure.2 ⟨rfl, rfl⟩
  | minus => exact builds_pure.2 ⟨rfl, rfl⟩
  | not => exact builds_pure.2 ⟨by simp [unaryValue, UnaryOp.fold, BEq.beq], rfl⟩

theorem stride_all (dims : List Int32) :
    stride dims dims.length = .ok wordSize := by
  rw [stride, drop_length]
  rfl

theorem length_of_references {env : Environment} : ∀ {formulas : Formulas} {cs : List Int32},
    references env formulas = .ok cs → cs.length = formulas.length
  | .nil, cs, h => by
    rw [references] at h
    cases h
    rfl
  | .cons formula place rest, cs, h => by
    rw [references] at h
    obtain ⟨c, hc, h⟩ := bind_eq_ok.1 h
    obtain ⟨ds, hds, h⟩ := bind_eq_ok.1 h
    cases h
    rw [length_cons, length_of_references hds, Formulas.length]

/-- The position that constant indices select. -/
def constantPosition (dimensions : List Int32) : List Int32 → Option Value
  | [] => none
  | index :: indices => some (.const (.ofInt (position index.toInt (dimensions.drop 1) indices)))

theorem constantAt_cases (dims : List Int32) (values : Array Int32) (cs : List Int32) :
    constantAt dims values cs = .error .notConstant ∨
      ∃ v, constantAt dims values cs = .ok v ∧ 0 ≤ elementIndex dims cs ∧
        elementIndex dims cs < elements dims ∧
        values[(elementIndex dims cs).toNat]? = some v := by
  unfold constantAt
  dsimp only
  split
  · rename_i hbnds
    cases values[(elementIndex dims cs).toNat]? <;> simp [hbnds]
  · exact .inl rfl

variable {meaning : Meaning} {name : Name}

theorem folds_resolveConstant {values : Array Int32} {cs : List Int32} {b : Builder}
    (hvld : meaning.Valid) (hvals : meaning.values = some values)
    (hlen : cs.length = meaning.dimensions.length) :
    Folds Resolved.constant (match constantPosition meaning.dimensions cs with
      | none => resolveName meaning
      | some index => do
        let factor ← checked (stride meaning.dimensions meaning.dimensions.length)
        resolveOffset name meaning meaning.dimensions.length (← scale index factor name.location))
      b (constantAt meaning.dimensions values cs) := by
  rcases constantAt_cases meaning.dimensions values cs with hat | ⟨v, hat, hpos, hlt, hv⟩
  · rw [hat]
    trivial
  rw [hat]
  cases cs with
  | nil =>
    have hdims : meaning.dimensions = [] := List.length_eq_zero_iff.1 hlen.symm
    rw [hdims] at hv
    exact builds_resolveName.2 ⟨rfl, .inr (.inr ⟨hdims, values, v, hvals, hv, rfl⟩)⟩
  | cons c cs =>
    have hsm := hvld.small (hvld.constant (by simp [hvals]))
    refine builds_bind.2 ⟨wordSize, b, builds_checked.2 ⟨stride_all _, rfl⟩, ?_⟩
    refine builds_bind.2 ⟨_, b, builds_scale_const _ _ _ _, ?_⟩
    rw [ofInt_position_mul_stride (by omega) (by rw [hlen, stride_all])]
    refine builds_resolveOffset.2 (.inr ⟨by omega, .inl ⟨_, values, rfl, hvals, ?_⟩⟩)
    exact (constantElement_at hpos (by omega)).2 ⟨v, hv, rfl, rfl⟩

/-! ## Expressions that fold -/

mutual

theorem folds_eval {sigs : Signatures} {loc : Location} {b : Builder}
    (hvld : ValidNames b.scopes.find?) : ∀ formula : Formula,
    Folds Value.const (eval sigs loc formula) b (reference b.scopes.find? formula)
  | .literal value => by
    rw [eval, reference]
    exact builds_pure.2 ⟨rfl, rfl⟩
  | .read name indices => by
    rw [eval, reference]
    split
    · rename_i symbol dims values hmean
      split
      · rename_i hlen
        refine Folds.before (f := Resolved.constant) ?_ fun v => builds_pure.2 ⟨rfl, rfl⟩
        refine Folds.behind (builds_lookupName.2 ⟨hmean, rfl⟩) ?_
        refine Folds.behind (a := ()) (builds_checkAccess.2 ⟨hlen.le, by simp, rfl⟩) ?_
        refine (folds_evalPosition hvld dims indices hlen.le).bind fun cs hcs => ?_
        rw [hlen]
        exact folds_resolveConstant (hvld _ _ hmean) rfl ((length_of_references hcs).trans hlen)
      · trivial
    · trivial
  | .call fn args place => by
    rw [reference]
    trivial
  | .unary op operand => by
    rw [eval, reference]
    refine (folds_eval hvld operand).bind fun a _ => ?_
    rw [ofInt_exactUnary]
    exact builds_applyOperator_const op a b
  | .binary op left right => by
    rw [eval, reference]
    refine (folds_eval hvld left).bind fun a _ => ?_
    exact (folds_eval hvld right).bind fun c _ => folds_applyBinary op a c loc b
  | .logic conn left right => by
    rw [eval, reference]
    refine (folds_eval hvld left).bind fun a _ => ?_
    cases hdcd : decides conn a with
    | true =>
      have hne : decide (a ≠ 0) ≠ decide (conn = .and) :=
        fun heq => by simp [decides_eq_false.2 heq] at hdcd
      simp only [hne, if_false, if_true]
      exact builds_pure.2 ⟨rfl, rfl⟩
    | false =>
      simp only [decides_eq_false.1 hdcd, if_true, Bool.false_eq_true, if_false]
      refine (folds_eval hvld right).bind fun c _ => ?_
      exact builds_applyBinary.2 (.inl ⟨c, 0, _, rfl, rfl, fold_ne_zero c, rfl, rfl⟩)
  | .malformed fault => by
    rw [reference]
    trivial

theorem folds_evalPosition {sigs : Signatures} {loc : Location} {b : Builder}
    (hvld : ValidNames b.scopes.find?) (dims : List Int32) : ∀ formulas : Formulas,
    formulas.length ≤ dims.length →
    Folds (constantPosition dims) (evalPosition sigs loc dims formulas) b
      (references b.scopes.find? formulas)
  | .nil, _ => by
    rw [evalPosition, references]
    exact builds_pure.2 ⟨rfl, rfl⟩
  | .cons formula place rest, hlen => by
    rw [evalPosition, references]
    refine (folds_eval hvld formula).bind fun c _ => ?_
    rw [Formulas.length] at hlen
    refine (folds_addIndices hvld rest (Int32.ofInt_toInt c).symm ?_).bind fun cs _ =>
      builds_pure.2 ⟨rfl, rfl⟩
    rw [length_drop]
    omega

theorem folds_addIndices {sigs : Signatures} {loc : Location} {b : Builder}
    (hvld : ValidNames b.scopes.find?) : ∀ (formulas : Formulas) {dims : List Int32}
    {a : Int32} {p : Int}, a = .ofInt p → formulas.length ≤ dims.length →
    Folds (fun cs => .const (.ofInt (position p dims cs)))
      (addIndices sigs loc dims (.const a) formulas) b
      (references b.scopes.find? formulas)
  | .nil, dims, a, p, ha, _ => by
    rw [addIndices, references]
    refine builds_pure.2 ⟨?_, rfl⟩
    show Value.const (.ofInt (position p dims [])) = .const a
    rw [ha, position.eq_def]
    cases dims <;> rfl
  | .cons formula place rest, [], a, p, ha, hlen => by
    rw [Formulas.length] at hlen
    cases hlen
  | .cons formula place rest, dimension :: dims, a, p, ha, hlen => by
    rw [addIndices, references]
    refine Folds.behind (builds_scale_const _ _ _ _) ?_
    refine (folds_eval hvld formula).bind fun c _ => ?_
    refine Folds.behind (builds_applyBinary.2 (.inl ⟨_, _, _, rfl, rfl, rfl, rfl, rfl⟩)) ?_
    refine Folds.map ?_
    refine folds_addIndices hvld rest ?_ ?_
    · rw [ofInt_toInt_add, ofInt_toInt_mul, ha]
    · rw [Formulas.length] at hlen
      exact Nat.le_of_succ_le_succ hlen

end

/-! ## Expressions without a state -/

mutual

theorem reference_eq_of_constant? {env : Environment} {formula : Formula} {c : Int32}
    (h : constant? env formula = some c) : reference env formula = .ok c := by
  cases formula with
  | literal value =>
    rw [constant?] at h
    rw [reference, Option.some.inj h]
  | read name indices =>
    rw [constant?] at h
    obtain ⟨⟨symbol, dims, constant⟩, hmean, h⟩ := Option.bind_eq_some_iff.1 h
    obtain ⟨values, hvals, h⟩ := Option.bind_eq_some_iff.1 h
    obtain ⟨cs, hcs, h⟩ := Option.bind_eq_some_iff.1 h
    obtain rfl : constant = some values := hvals
    obtain ⟨⟨hlen, hpos, hlt⟩, h⟩ := Option.ite_none_right_eq_some.1 h
    have hids := references_eq_of_constants? hcs
    simp only [reference, hmean]
    rw [if_pos ((length_of_references hids).symm.trans hlen), hids]
    show constantAt dims values cs = .ok c
    simp only [constantAt, hpos, hlt, and_self, if_true, h]
  | call fn args place =>
    rw [constant?] at h
    cases h
  | unary op operand =>
    rw [constant?] at h
    obtain ⟨a, ha, rfl⟩ := Option.map_eq_some_iff.1 h
    rw [reference, reference_eq_of_constant? ha, ← ofInt_exactUnary]
    rfl
  | binary op left right =>
    rw [constant?] at h
    obtain ⟨a, ha, h⟩ := Option.bind_eq_some_iff.1 h
    obtain ⟨d, hd, h⟩ := Option.bind_eq_some_iff.1 h
    rw [← map_ofInt_exactBinary] at h
    obtain ⟨v, hv, rfl⟩ := Option.map_eq_some_iff.1 h
    rw [reference, reference_eq_of_constant? ha, reference_eq_of_constant? hd]
    simp only [bind, Except.bind, hv]
    rfl
  | logic conn left right =>
    rw [constant?] at h
    obtain ⟨a, ha, h⟩ := Option.bind_eq_some_iff.1 h
    rw [reference, reference_eq_of_constant? ha]
    simp only [bind, Except.bind]
    split at h
    · rename_i hdcd
      rw [if_pos hdcd, ← Option.some.inj h]
      rfl
    · rename_i hdcd
      obtain ⟨d, hd, rfl⟩ := Option.map_eq_some_iff.1 h
      rw [if_neg hdcd, reference_eq_of_constant? hd]
      rfl
  | malformed fault =>
    rw [constant?] at h
    cases h

theorem references_eq_of_constants? {env : Environment} {formulas : Formulas} {cs : List Int32}
    (h : constants? env formulas = some cs) : references env formulas = .ok cs := by
  cases formulas with
  | nil =>
    rw [constants?] at h
    rw [references, Option.some.inj h]
  | cons formula place rest =>
    rw [constants?] at h
    obtain ⟨c, hc, h⟩ := Option.bind_eq_some_iff.1 h
    obtain ⟨ds, hds, h⟩ := Option.bind_eq_some_iff.1 h
    cases h
    rw [references, reference_eq_of_constant? hc, references_eq_of_constants? hds]
    rfl

end

variable {loc : Location} {x : Value}

theorem eval_of_constant {sigs : Signatures} {env : Environment} (hvld : ValidNames env)
    {formula : Formula} {b b' : Builder} {c : Int32} (henv : b.scopes.find? = env)
    (hc : constant? env formula = some c) (h : Builds (eval sigs loc formula) b x b') :
    x = .const c ∧ b' = b := by
  subst henv
  have hfolds : Folds Value.const (eval sigs loc formula) b _ := folds_eval hvld formula
  rw [reference_eq_of_constant? hc] at hfolds
  exact Prod.mk.inj (Except.ok.inj (h.symm.trans hfolds))

/-! ## Expressions of constants -/

theorem bind_ne_notConstant {α β : Type} {outcome : Except Obstacle α}
    {after : α → Except Obstacle β} (h : outcome ≠ .error .notConstant)
    (hafter : ∀ v, outcome = .ok v → after v ≠ .error .notConstant) :
    (outcome >>= after) ≠ .error .notConstant := by
  cases outcome with
  | ok v => exact hafter v rfl
  | error obstacle => exact fun heq => h (congrArg Except.error (Except.error.inj heq))

mutual

theorem reference_of_constant {env : Environment} : ∀ {formula : Formula}, Constant env formula →
    reference env formula ≠ .error .notConstant
  | _, .literal value => by simp [reference]
  | _, @Constant.element _ name indices ⟨symbol, dims, constant⟩ values hname hvals hlen
      hids hrange => by
    obtain rfl : constant = some values := hvals
    simp only [reference, hname]
    rw [if_pos hlen]
    refine bind_ne_notConstant (references_of_constants hids) fun cs hcs => ?_
    obtain ⟨hpos, hlt, hsz⟩ := hrange cs hcs
    simp [constantAt, hpos, hlt, hsz]
  | _, .unary op hop => by
    rw [reference]
    exact bind_ne_notConstant (reference_of_constant hop) fun a _ => by simp [pure, Except.pure]
  | _, .binary op hl hr => by
    rw [reference]
    refine bind_ne_notConstant (reference_of_constant hl) fun a _ => ?_
    refine bind_ne_notConstant (reference_of_constant hr) fun c _ => ?_
    split <;> simp [pure, Except.pure]
  | _, .logic conn hl hr => by
    rw [reference]
    refine bind_ne_notConstant (reference_of_constant hl) fun a ha => ?_
    split
    · simp [pure, Except.pure]
    · rename_i hdcd
      refine bind_ne_notConstant (reference_of_constant (hr a ha (Bool.eq_false_iff.2 hdcd)))
        fun c _ => by simp [pure, Except.pure]

theorem references_of_constants {env : Environment} : ∀ {formulas : Formulas},
    Constants env formulas → references env formulas ≠ .error .notConstant
  | _, .nil => by simp [references]
  | _, .cons hform hrest => by
    rw [references]
    refine bind_ne_notConstant (reference_of_constant hform) fun c _ => ?_
    exact bind_ne_notConstant (references_of_constants hrest) fun cs _ => by simp [pure, Except.pure]

end

/-! ## Constants leave no trace -/

section Traceless

variable {b b' : Builder} {v : Int32}

theorem applyBinary_to_const {op : BinaryOp} {y : Value}
    (h : Builds (applyBinary op x y loc) b (.const v) b') :
    (∃ a, x = .const a) ∧ (∃ c, y = .const c) ∧ b' = b := by
  rcases builds_applyBinary.1 h with ⟨a, c, _, hx, hy, _, _, hb⟩ | ⟨_, _, ⟨⟩, _⟩
  exact ⟨⟨a, hx⟩, ⟨c, hy⟩, hb⟩

theorem scale_to_const {factor : Int32} (h : Builds (scale x factor loc) b (.const v) b') :
    (∃ a, x = .const a) ∧ b' = b := by
  rcases builds_scale.1 h with ⟨_, hx, hb⟩ | ⟨_, h⟩
  · exact ⟨⟨v, hx.symm⟩, hb⟩
  · obtain ⟨hx, _, hb⟩ := applyBinary_to_const h
    exact ⟨hx, hb⟩

theorem applyOperator_to_const {operator : UnaryOperator}
    (h : Builds (applyOperator operator x) b (.const v) b') : (∃ a, x = .const a) ∧ b' = b := by
  have hunary : ∀ {op}, Builds (applyUnary op x) b (.const v) b' → (∃ a, x = .const a) ∧ b' = b := by
    intro op h
    rcases builds_applyUnary.1 h with ⟨a, hx, _, hb⟩ | ⟨_, _, _, ⟨⟩, _⟩
    exact ⟨⟨a, hx⟩, hb⟩
  cases operator with
  | plus =>
    obtain ⟨hx, hb⟩ := builds_pure.1 h
    exact ⟨⟨v, hx.symm⟩, hb⟩
  | minus => exact hunary h
  | not => exact hunary h

theorem resolveOffset_to_const {n : Nat} {offset : Value} {r : Resolved} {b1 : Builder}
    (h : Builds (resolveOffset name meaning n offset) b r b1)
    (hread : Builds (readResolved r) b1 (.const v) b') : (∃ a, offset = .const a) ∧ b' = b := by
  rcases builds_resolveOffset.1 h with ⟨_, x, rfl, haddr⟩ |
    ⟨_, ⟨c, values, hoff, _, helt⟩ | ⟨_, rfl, rfl⟩⟩
  · obtain ⟨rfl, _⟩ := builds_pure.1 hread
    obtain ⟨⟨_, ⟨⟩⟩, _⟩ := applyBinary_to_const haddr
  · obtain ⟨_, _, rfl, rfl⟩ := builds_constantElement.1 helt
    exact ⟨⟨c, hoff⟩, (builds_pure.1 hread).2⟩
  · rcases builds_readResolved.1 hread with ⟨_, ⟨⟩, _⟩ | ⟨_, ⟨⟩, _⟩ | ⟨⟨⟩, _⟩ | ⟨_, _, _, _, ⟨⟩, _⟩

end Traceless

mutual

theorem eval_to_const {sigs : Signatures} {loc : Location} :
    ∀ {formula : Formula} {b b' : Builder} {v : Int32},
    Builds (eval sigs loc formula) b (.const v) b' → b' = b
  | .literal value, b, b', v, h => by
    rw [eval] at h
    exact (builds_pure.1 h).2
  | .read name indices, b, b', v, h => by
    obtain ⟨r, b1, hrsv, hread⟩ := builds_eval_read.1 h
    obtain ⟨meaning, index, b2, _, _, _, hidx, hpl⟩ := builds_resolveWith.1 hrsv
    rcases hpl with ⟨rfl, hpl⟩ | ⟨x, factor, offset, b3, rfl, _, hscl, hpl⟩
    · cases indices with
      | cons formula place rest =>
        obtain ⟨_, _, _, _, _, ⟨⟩⟩ := builds_evalPosition_cons.1 hidx
      | nil =>
        rw [evalPosition] at hidx
        obtain ⟨_, rfl⟩ := builds_pure.1 hidx
        obtain ⟨rfl, ⟨_, rfl⟩ | ⟨_, _, rfl⟩ | ⟨_, _, _, _, _, rfl⟩⟩ := builds_resolveName.1 hpl
          <;> exact (builds_pure.1 hread).2
    · obtain ⟨⟨_, rfl⟩, rfl⟩ := resolveOffset_to_const hpl hread
      obtain ⟨⟨_, rfl⟩, rfl⟩ := scale_to_const hscl
      exact evalPosition_to_const hidx
  | .call fn args place, b, b', v, h => by
    obtain ⟨_, ⟨⟩, _⟩ := builds_eval_call.1 h
  | .unary op operand, b, b', v, h => by
    obtain ⟨y, b1, hy, hx⟩ := builds_eval_unary.1 h
    obtain ⟨⟨_, rfl⟩, rfl⟩ := applyOperator_to_const hx
    exact eval_to_const hy
  | .binary op left right, b, b', v, h => by
    obtain ⟨y, b1, z, b2, hy, hz, hx⟩ := builds_eval_binary.1 h
    obtain ⟨⟨_, rfl⟩, ⟨_, rfl⟩, rfl⟩ := applyBinary_to_const hx
    exact (eval_to_const hz).trans (eval_to_const hy)
  | .logic conn left right, b, b', v, h => by
    obtain ⟨y, b1, hy, ⟨_, rfl, _, z, b2, hz, hx⟩ | ⟨_, rfl, _, _, rfl⟩ | ⟨_, _, _, _, _, _, ⟨⟩, _⟩⟩ :=
      builds_eval_logic.1 h
    · obtain ⟨⟨_, rfl⟩, _, rfl⟩ := applyBinary_to_const hx
      exact (eval_to_const hz).trans (eval_to_const hy)
    · exact eval_to_const hy
  | .malformed fault, b, b', v, h => by
    rw [eval] at h
    cases (builds_checked.1 h).1

theorem evalPosition_to_const {sigs : Signatures} {loc : Location}
    {dims : List Int32} : ∀ {formulas : Formulas} {b b' : Builder} {v : Int32},
    Builds (evalPosition sigs loc dims formulas) b (some (.const v)) b' → b' = b
  | .nil, b, b', v, h => by
    rw [evalPosition] at h
    exact (builds_pure.1 h).2
  | .cons formula place rest, b, b', v, h => by
    obtain ⟨y, b1, _, hy, hz, ⟨⟩⟩ := builds_evalPosition_cons.1 h
    obtain ⟨⟨_, rfl⟩, rfl⟩ := addIndices_to_const hz
    exact eval_to_const hy

theorem addIndices_to_const {sigs : Signatures} {loc : Location} :
    ∀ {formulas : Formulas} {dims : List Int32} {x : Value} {b b' : Builder} {v : Int32},
    Builds (addIndices sigs loc dims x formulas) b (.const v) b' →
    (∃ a, x = .const a) ∧ b' = b
  | .nil, dims, x, b, b', v, h => by
    rw [addIndices] at h
    obtain ⟨hx, hb⟩ := builds_pure.1 h
    exact ⟨⟨v, hx.symm⟩, hb⟩
  | .cons formula place rest, [], x, b, b', v, h => by
    rw [addIndices] at h
    obtain ⟨hx, hb⟩ := builds_pure.1 h
    exact ⟨⟨v, hx.symm⟩, hb⟩
  | .cons formula place rest, dimension :: dims, x, b, b', v, h => by
    obtain ⟨scaled, b1, y, b2, sum, b3, hscd, hy, hsum, hrest⟩ := builds_addIndices_cons.1 h
    obtain ⟨⟨_, rfl⟩, rfl⟩ := addIndices_to_const hrest
    obtain ⟨⟨_, rfl⟩, ⟨_, rfl⟩, rfl⟩ := applyBinary_to_const hsum
    obtain rfl := eval_to_const hy
    exact scale_to_const hscd

end

theorem Folds.outcome_iff {α β : Type} {f : β → α} {step : Build α} {b : Builder}
    {outcome : Except Obstacle β} (h : Folds f step b outcome) (hf : f.Injective)
    (hnot : outcome ≠ .error .notConstant) :
    (∀ v, (∃ b', Builds step b (f v) b') ↔ outcome = .ok v) ∧
      ((∃ place, step.run b = .error (.semantic ⟨.divisionByZero, place⟩)) ↔
        outcome = .error .divisionByZero) := by
  cases outcome with
  | ok w =>
    have hrun : step.run b = .ok (f w, b) := h
    refine ⟨fun v => ⟨?_, ?_⟩, ⟨?_, nofun⟩⟩
    · rintro ⟨b', hv⟩
      rw [Builds, hrun] at hv
      have hval : f w = f v := congrArg Prod.fst (Except.ok.inj hv)
      rw [hf hval]
    · rintro ⟨⟩
      exact ⟨b, h⟩
    · rintro ⟨place, hpl⟩
      rw [hrun] at hpl
      cases hpl
  | error obstacle =>
    cases obstacle with
    | notConstant => exact absurd rfl hnot
    | divisionByZero =>
      obtain ⟨place, hpl⟩ := h
      refine ⟨fun v => ⟨?_, nofun⟩, fun _ => rfl, fun _ => ⟨place, hpl⟩⟩
      rintro ⟨b', hv⟩
      rw [Builds, hpl] at hv
      cases hv

/-- A constant expression becomes the constant that is its value, and it is rejected for a division
by zero if its evaluation meets one. No expression that becomes a constant leaves anything behind. -/
theorem folding_exact (signatures : Signatures) (location : Location) (formula : Formula)
    (b : Builder) :
    (ValidNames b.scopes.find? → Constant b.scopes.find? formula →
      (∀ v, (∃ b', Builds (eval signatures location formula) b (.const v) b') ↔
        reference b.scopes.find? formula = .ok v) ∧
      ((∃ place, (eval signatures location formula).run b =
          .error (.semantic ⟨.divisionByZero, place⟩)) ↔
        reference b.scopes.find? formula = .error .divisionByZero)) ∧
    ∀ v b', Builds (eval signatures location formula) b (.const v) b' → b' = b := by
  refine ⟨fun hvalid hconstant => ?_, fun v b' h => eval_to_const h⟩
  exact (folds_eval hvalid formula).outcome_iff (fun _ _ => Value.const.inj)
    (reference_of_constant hconstant)

/-- The builder behind `const int table[2][2] = {{7, 8}, {-2147483648, 9}};`. -/
def tabled : Builder :=
  { Builder.empty with
    scopes := ⟨[], [("table", ⟨.var 0, [2, 2], some #[7, 8, -2147483648, 9]⟩)]⟩ }

/-- `table[1 || f()][0] / -1`. -/
def tableFormula (place : Location) : Formula :=
  .binary .div
    (.read ⟨"table", place⟩ (.cons (.logic .or (.literal 1) (.call ⟨"f", place⟩ .nil place)) place
      (.cons (.literal 0) place .nil)))
    (.unary .minus (.literal 1))

theorem tabled_valid : ValidNames tabled.scopes.find? := by
  intro name meaning h
  simp only [tabled, Scopes.find?, nil_append, findSome?_cons, findSome?_nil,
    lookup_cons, lookup_nil] at h
  cases hname : name == "table" with
  | false => simp [hname] at h
  | true =>
    simp only [hname, Option.some.injEq] at h
    subst h
    exact ⟨rfl, fun _ => rfl, fun _ => by decide⟩

theorem tableFormula_constant (place : Location) :
    Constant tabled.scopes.find? (tableFormula place) := by
  refine .binary _ (.element rfl rfl rfl (.cons (.logic _ (.literal 1) ?_)
    (.cons (.literal 0) .nil)) ?_) (.unary _ (.literal 1))
  · rintro a ⟨⟩ hdcd
    cases hdcd
  · rintro cs ⟨⟩
    decide

/-- The least word divided by minus one, with a call that is never looked at, is the word itself and
leaves no code. -/
theorem least_word_folds :
    ValidNames tabled.scopes.find? ∧ Constant tabled.scopes.find? (tableFormula .unknown) ∧
      ∃ b', Builds (eval [] .unknown (tableFormula .unknown)) tabled (.const (-2147483648)) b' ∧
        b' = tabled := by
  have hconstant := tableFormula_constant .unknown
  have hexact := folding_exact [] .unknown (tableFormula .unknown) tabled
  obtain ⟨b', h⟩ := ((hexact.1 tabled_valid hconstant).1 (-2147483648)).2 rfl
  exact ⟨tabled_valid, hconstant, b', h, hexact.2 _ _ h⟩

end SysY.Generation

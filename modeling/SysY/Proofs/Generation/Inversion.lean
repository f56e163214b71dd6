import SysY.Proofs.Generation.Builds

/-!
# Inversion

What each step on an expression writes if it succeeds, one lemma for each function. Later proofs use
these lemmas and never open the functions.
-/

namespace SysY.Generation

open Eeyore SysY.Tree

variable {α β : Type} {b b1 b2 b' : Builder} {x : Value} {name : Name} {meaning : Meaning}
  {r : Resolved} {left right formula : Formula} {value : Value} {u : Unit} {fn : Name}
  {indices : Nat} {write : Bool} {place : Location} {dims : List Int32}

/-! ## New temporaries -/

/-- The next temporary is computed by an instruction. -/
structure Computes (b : Builder) (i : Symbol → Instruction) (x : Symbol) (b' : Builder) :
    Prop where
  room : b.code.temps.toNat + 1 < wordValues
  symbol : x = .temp b.code.temps
  builder : b' = b.addTemp.emit (i x)

theorem builds_compute {i : Symbol → Instruction} {f : Symbol → α} {y : α} :
    Builds (do let dest ← newTemp; push (i dest); return f dest) b y b' ↔
      ∃ x, Computes b i x b' ∧ y = f x := by
  simp only [builds_bind, builds_newTemp, builds_push, builds_pure]
  constructor
  · rintro ⟨x, _, ⟨hroom, hx, rfl⟩, _, _, rfl, rfl, rfl⟩
    exact ⟨x, ⟨hroom, hx, rfl⟩, rfl⟩
  · rintro ⟨x, ⟨hroom, hx, rfl⟩, rfl⟩
    exact ⟨x, _, ⟨hroom, hx, rfl⟩, ⟨⟩, _, rfl, rfl, rfl⟩

/-! ## Operations -/

theorem builds_applyUnary {op : UnaryOp} {operand : Value} :
    Builds (applyUnary op operand) b x b' ↔
      (∃ c, operand = .const c ∧ x = .const (op.fold c) ∧ b' = b) ∨
      (∃ y dest, operand = .symbol y ∧ x = .symbol dest ∧
        Computes b (.unary · op operand) dest b') := by
  cases operand with
  | const c =>
    rw [applyUnary, builds_pure]
    simp
  | symbol y =>
    rw [applyUnary, builds_compute]
    simp [and_comm]

theorem builds_applyBinary {op : BinaryOp} {left right : Value} {loc : Location} :
    Builds (applyBinary op left right loc) b x b' ↔
      (∃ a c v, left = .const a ∧ right = .const c ∧ op.fold a c = some v ∧ x = .const v ∧ b' = b) ∨
      ((∀ a c, ¬ (left = .const a ∧ right = .const c)) ∧
        ∃ dest, x = .symbol dest ∧ Computes b (.binary · op left right) dest b') := by
  have hcpt : ∀ {left right : Value}, (∀ a c, ¬ (left = .const a ∧ right = .const c)) →
      (Builds (do let dest ← newTemp; push (.binary dest op left right); return .symbol dest) b x b' ↔
      (∃ a c v, left = .const a ∧ right = .const c ∧ op.fold a c = some v ∧ x = .const v ∧ b' = b) ∨
      ((∀ a c, ¬ (left = .const a ∧ right = .const c)) ∧
        ∃ dest, x = .symbol dest ∧ Computes b (.binary · op left right) dest b')) := by
    intro left right hconst
    rw [builds_compute (f := Value.symbol)]
    constructor
    · rintro ⟨dest, h, rfl⟩
      exact .inr ⟨hconst, dest, rfl, h⟩
    · rintro (⟨a, c, _, rfl, rfl, _⟩ | ⟨_, dest, rfl, h⟩)
      · exact absurd ⟨rfl, rfl⟩ (hconst a c)
      · exact ⟨dest, h, rfl⟩
  cases left with
  | symbol y => exact hcpt (by simp)
  | const a =>
    cases right with
    | symbol z => exact hcpt (by simp)
    | const c =>
      rw [applyBinary]
      cases hfold : op.fold a c with
      | none => simp [hfold]
      | some v => simp [hfold]

theorem builds_scale {factor : Int32} {loc : Location} :
    Builds (scale value factor loc) b x b' ↔
      (factor = 1 ∧ x = value ∧ b' = b) ∨
      (factor ≠ 1 ∧ Builds (applyBinary .mul value (.const factor) loc) b x b') := by
  unfold scale
  split
  · rename_i h
    simp [h]
  · rename_i h
    simp [h]

/-- The instruction that gives a symbol a truth value. -/
def truthInstruction (dest : Symbol) : Value → Instruction
  | .const c => .copy dest (.const (truth (c ≠ 0)))
  | .symbol x => .binary dest .ne (.symbol x) (.const 0)

theorem builds_truthInto {dest : Symbol} :
    Builds (truthInto dest value) b u b' ↔ b' = b.emit (truthInstruction dest value) := by
  cases value <;> exact builds_push

/-! ## Calls -/

/-- The arguments that a call passes. -/
def passedArguments (function : String) (arguments : List Value) (location : Location) :
    List Value :=
  if isTiming function then arguments ++ [.const (Int32.ofNat location.start.line)] else arguments

theorem builds_emitCall {fn : String} {returns : ReturnType} {args : List Value}
    {loc : Location} {x : Option Symbol} :
    Builds (emitCall fn returns args loc) b x b' ↔
      (∃ dest, x = some dest ∧ returns = .int ∧ Computes b
        (fun dest => .call fn (passedArguments fn args loc) (some dest))
        dest b') ∨
      (x = none ∧ returns = .void ∧
        b' = b.emit (.call fn (passedArguments fn args loc) none)) := by
  cases returns with
  | int => exact (builds_compute (f := some)).trans (by simp [and_comm, passedArguments])
  | void => simp [emitCall, passedArguments]

theorem builds_callWith {sigs : Signatures} {count : Nat}
    {loc : Location} {args : Build (List Value)} {x : Option Symbol} :
    Builds (callWith sigs fn count loc args) b x b' ↔
      ∃ signature values b1, sigs.lookup fn.value = some signature ∧
        count = signature.arity ∧ Builds args b values b1 ∧
        Builds (emitCall fn.value signature.returns values loc) b1 x b' := by
  cases hlook : sigs.lookup fn.value with
  | none => simp [callWith, hlook]
  | some signature => by_cases harity : count = signature.arity <;> simp [callWith, hlook, harity]

/-! ## Places -/

theorem builds_checkAccess : Builds (checkAccess name meaning indices write) b u b' ↔
      indices ≤ meaning.dimensions.length ∧
        (write = true → meaning.values = none ∧ indices = meaning.dimensions.length) ∧ b' = b := by
  unfold checkAccess
  split
  · rename_i h
    simp only [not_builds_reject, false_iff]
    omega
  · split
    · rename_i h
      simp only [Bool.and_eq_true] at h
      simp only [not_builds_reject, false_iff]
      rintro ⟨_, hw, _⟩
      simp [(hw h.1).1] at h
    · split
      · rename_i h
        simp only [Bool.and_eq_true, decide_eq_true_eq] at h
        simp only [not_builds_reject, false_iff]
        rintro ⟨_, hw, _⟩
        have := (hw h.1).2
        omega
      · rename_i hlen hconst hw
        simp only [Bool.and_eq_true, decide_eq_true_eq, not_and, Option.isSome_iff_ne_none, ne_eq,
          Decidable.not_not] at hlen hconst hw
        rw [builds_pure]
        constructor
        · rintro ⟨-, rfl⟩
          refine ⟨by omega, fun h => ⟨hconst h, ?_⟩, rfl⟩
          have := hw h
          omega
        · rintro ⟨_, _, rfl⟩
          exact ⟨rfl, rfl⟩

theorem builds_constantElement {values : Array Int32}
    {offset : Int32} : Builds (constantElement name values offset) b r b' ↔
      ∃ value, (if offset / wordSize < 0 then none
        else values[(offset / wordSize).toNatClampNeg]?) = some value ∧
        r = .constant value ∧ b' = b := by
  unfold constantElement
  dsimp only
  split
  · rename_i value h
    simp [h]
  · rename_i h
    simp [h]

theorem builds_resolveName :
    Builds (resolveName meaning) b r b' ↔ b' = b ∧
      (meaning.dimensions ≠ [] ∧ r = .pointer (.symbol meaning.symbol) ∨
        meaning.dimensions = [] ∧ meaning.values = none ∧ r = .scalar meaning.symbol ∨
        meaning.dimensions = [] ∧ ∃ values value, meaning.values = some values ∧
          values[0]? = some value ∧ r = .constant value) := by
  unfold resolveName
  cases hdims : meaning.dimensions with
  | cons dimension dims => simp [and_comm]
  | nil =>
    cases hvals : meaning.values with
    | none => simp [and_comm]
    | some values =>
      cases hval : values[0]? with
      | none => simp [hval]
      | some value => simp [hval, and_comm]

theorem builds_resolveOffset
    {offset : Value} : Builds (resolveOffset name meaning indices offset) b r b' ↔
      (indices < meaning.dimensions.length ∧ ∃ x, r = .pointer x ∧
        Builds (applyBinary .add (.symbol meaning.symbol) offset name.location) b x b') ∨
      (¬ indices < meaning.dimensions.length ∧
        ((∃ c values, offset = .const c ∧ meaning.values = some values ∧
          Builds (constantElement name values c) b r b') ∨
        ((∀ c values, ¬ (offset = .const c ∧ meaning.values = some values)) ∧
          r = .element meaning.symbol offset ∧ b' = b))) := by
  unfold resolveOffset
  split
  · rename_i h
    simp [h]
  · rename_i h
    simp only [h, false_and, not_false_eq_true, true_and, false_or]
    cases offset with
    | symbol y => simp
    | const c =>
      cases hvals : meaning.values with
      | none => simp
      | some values => simp

theorem builds_resolveWith {position : List Int32 → Build (Option Value)} :
    Builds (resolveWith name indices write position) b r b' ↔
      ∃ meaning index b1, b.scopes.find? name.value = some meaning ∧
        indices ≤ meaning.dimensions.length ∧
        (write = true → meaning.values = none ∧ indices = meaning.dimensions.length) ∧
        Builds (position meaning.dimensions) b index b1 ∧
        (index = none ∧ Builds (resolveName meaning) b1 r b' ∨
          ∃ x factor offset b2, index = some x ∧ stride meaning.dimensions indices = .ok factor ∧
            Builds (scale x factor name.location) b1 offset b2 ∧
            Builds (resolveOffset name meaning indices offset) b2 r b') := by
  simp only [resolveWith, builds_bind, builds_lookupName, builds_checkAccess]
  constructor
  · rintro ⟨meaning, _, ⟨hfind, rfl⟩, -, _, ⟨hle, hw, rfl⟩, index, b1, hidx, h⟩
    refine ⟨meaning, index, b1, hfind, hle, hw, hidx, ?_⟩
    cases index <;> simp_all [and_assoc]
  · rintro ⟨meaning, index, b1, hfind, hle, hw, hidx, h⟩
    refine ⟨meaning, b, ⟨hfind, rfl⟩, ⟨⟩, b, ⟨hle, hw, rfl⟩, index, b1, hidx, ?_⟩
    cases index <;> simp_all [and_assoc]

theorem builds_readResolved :
    Builds (readResolved r) b x b' ↔
      (∃ c, r = .constant c ∧ x = .const c ∧ b' = b) ∨
      (∃ y, r = .scalar y ∧ x = .symbol y ∧ b' = b) ∨
      (r = .pointer x ∧ b' = b) ∨
      (∃ array index dest, r = .element array index ∧ x = .symbol dest ∧
        Computes b (.load · array index) dest b') := by
  cases r with
  | constant c => simp [readResolved]
  | scalar y => simp [readResolved]
  | pointer y => simp [readResolved, eq_comm]
  | element array index =>
    rw [readResolved, builds_compute (f := Value.symbol)]
    simp [and_comm]

/-! ## Values -/

section Values

variable {sigs : Signatures} {loc : Location} {x : Value} {rest : Formulas}

theorem builds_eval_read {indices : Formulas} :
    Builds (eval sigs loc (.read name indices)) b x b' ↔
      ∃ r b1, Builds (resolve sigs name indices false) b r b1 ∧
        Builds (readResolved r) b1 x b' := by
  rw [eval, builds_bind]
  rfl

theorem builds_eval_call {args : Formulas} :
    Builds (eval sigs loc (.call fn args place)) b x b' ↔
      ∃ dest, x = .symbol dest ∧ Builds (call sigs fn args place) b (some dest) b' := by
  rw [eval, builds_bind]
  constructor
  · rintro ⟨output, b1, hcall, h⟩
    cases output <;> simp_all [call]
  · rintro ⟨dest, rfl, hcall⟩
    exact ⟨some dest, b', hcall, by simp⟩

theorem builds_eval_unary {op : UnaryOperator} {operand : Formula} :
    Builds (eval sigs loc (.unary op operand)) b x b' ↔
      ∃ y b1, Builds (eval sigs loc operand) b y b1 ∧
        Builds (applyOperator op y) b1 x b' := by
  rw [eval, builds_bind]

theorem builds_eval_binary {op : BinaryOperator} :
    Builds (eval sigs loc (.binary op left right)) b x b' ↔
      ∃ y b1 z b2, Builds (eval sigs loc left) b y b1 ∧
        Builds (eval sigs loc right) b1 z b2 ∧
        Builds (applyBinary (operation op) y z loc) b2 x b' := by
  simp [eval]

/-- The relation that skips the right operand of a connective. -/
def skipRelation (connective : Connective) : Relation := if connective = .and then .eq else .ne

/-- The builder in front of the right operand of a connective: the truth value of the left one is
computed, and the right one is skipped if it is not needed. -/
def Builder.connect (b : Builder) (connective : Connective) (left : Symbol) : Builder :=
  (b.addTemp.addLabel.emit (truthInstruction (.temp b.code.temps) (.symbol left))).emit
    (.branch (.symbol (.temp b.code.temps)) (skipRelation connective) (.const 0) ⟨b.lastLabel + 1⟩)

/-- The builder behind a connective, from that behind its right operand. -/
def Builder.join (b1 b2 : Builder) (right : Value) : Builder :=
  (b2.emit (truthInstruction (.temp b1.code.temps) right)).emit (.label ⟨b1.lastLabel + 1⟩)

theorem builds_eval_logic {conn : Connective} :
    Builds (eval sigs loc (.logic conn left right)) b x b' ↔
      ∃ y b1, Builds (eval sigs loc left) b y b1 ∧
        ((∃ c, y = .const c ∧ decide (c ≠ 0) = decide (conn = .and) ∧
          ∃ z b2, Builds (eval sigs loc right) b1 z b2 ∧
            Builds (applyBinary .ne z (.const 0) loc) b2 x b') ∨
        (∃ c, y = .const c ∧ decide (c ≠ 0) ≠ decide (conn = .and) ∧
          x = .const (truth (c ≠ 0)) ∧ b' = b1) ∨
        (∃ l z b2, y = .symbol l ∧ b1.code.temps.toNat + 1 < wordValues ∧
          b1.lastLabel.toNat + 1 < wordValues ∧ x = .symbol (.temp b1.code.temps) ∧
          Builds (eval sigs loc right) (b1.connect conn l) z b2 ∧
          b' = b1.join b2 z)) := by
  rw [eval, builds_bind]
  refine exists_congr fun y => exists_congr fun b1 => and_congr_right fun hy => ?_
  cases y with
  | const c =>
    dsimp only
    split
    · rename_i hdec
      simp only [builds_bind]
      grind
    · rename_i hdec
      simp only [builds_pure]
      grind
  | symbol l =>
    simp only [builds_bind, builds_newTemp, builds_newLabel, builds_truthInto, builds_push,
      builds_pure, reduceCtorEq, false_and, exists_false, false_or]
    constructor
    · rintro ⟨_, _, ⟨htemp, rfl, rfl⟩, _, _, ⟨hlab, rfl, rfl⟩, -, _, rfl, -, _, rfl, z, b2, hz, -, _,
        rfl, -, _, rfl, rfl, rfl⟩
      exact ⟨l, z, b2, rfl, htemp, hlab, rfl, hz, rfl⟩
    · rintro ⟨_, z, b2, ⟨⟩, htemp, hlab, rfl, hz, rfl⟩
      exact ⟨_, _, ⟨htemp, rfl, rfl⟩, _, _, ⟨hlab, rfl, rfl⟩, ⟨⟩, _, rfl, ⟨⟩, _, rfl, z, b2, hz, ⟨⟩, _,
        rfl, ⟨⟩, _, rfl, rfl, rfl⟩

theorem builds_evalAll_cons {values : List Value} :
    Builds (evalAll sigs (.cons formula place rest)) b values b' ↔
      ∃ y b1 ys, Builds (eval sigs place formula) b y b1 ∧
        Builds (evalAll sigs rest) b1 ys b' ∧ values = y :: ys := by
  simp [evalAll, and_comm]

theorem builds_evalPosition_cons {index : Option Value} :
    Builds (evalPosition sigs loc dims (.cons formula place rest)) b index b' ↔
      ∃ y b1 z, Builds (eval sigs place formula) b y b1 ∧
        Builds (addIndices sigs loc (dims.drop 1) y rest) b1 z b' ∧
        index = some z := by
  simp [evalPosition, and_comm]

theorem builds_addIndices_cons {dimension : Int32} {position : Value} :
    Builds (addIndices sigs loc (dimension :: dims) position
      (.cons formula place rest)) b x b' ↔
      ∃ scaled b1 y b2 sum b3, Builds (scale position dimension loc) b scaled b1 ∧
        Builds (eval sigs place formula) b1 y b2 ∧
        Builds (applyBinary .add scaled y loc) b2 sum b3 ∧
        Builds (addIndices sigs loc dims sum rest) b3 x b' := by
  simp [addIndices]

end Values

end SysY.Generation

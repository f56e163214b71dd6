import SysY.Proofs.Eeyore.Semantics
import SysY.Proofs.Flow.Edges

/-!
# What steps do

Steps follow the edges of the flow graph. An instruction leaves alone every scalar that it does not
define, unless it is a call and the scalar is global, and only stores and calls touch memory. Two
bodies whose steps agree on all states that a run comes to have the same runs.
-/

namespace SysY.Eeyore

open Flow Option

namespace Instruction

/-- The symbol that an array access goes through. -/
def base? : Instruction → Option Symbol
  | .store array .. | .load _ array _ => some array
  | _ => none

def isStore : Instruction → Bool
  | .store .. => true
  | _ => false

end Instruction

/-! ## Exchanged operands -/

theorem fold_swapped {op swapped : BinaryOp} (h : op.swapped? = some swapped) (a b : Int32) :
    (op.fold a b).isSome ∧ swapped.fold b a = op.fold a b := by
  cases op <;> cases h <;>
    simp [BinaryOp.fold, Relation.holds, Int32.add_comm, Int32.mul_comm, Bool.and_comm, Bool.or_comm,
      bne_comm, Bool.beq_comm]

theorem runBinary_swapped {byZero : BinaryOp → Int32 → Option Int32} {op swapped : BinaryOp}
    (h : op.swapped? = some swapped) (a b : Int32) :
    runBinary byZero swapped b a = runBinary byZero op a b := by
  obtain ⟨hsome, hfold⟩ := fold_swapped h a b
  obtain ⟨c, hc⟩ := Option.isSome_iff_exists.1 hsome
  rw [runBinary, runBinary, hfold, hc]

namespace Activation

variable {act : Activation} {n : Nat} {body : Vector Instruction n} {s : State}
  {instr : Instruction} {direction : Direction} {x : Symbol}

/-! ## Assignments and effects -/

theorem assign_eq_some {s' : State} {v : Int32} :
    act.assign s x v = some s' ↔ act.array? x = none ∧ s' = { s with
      scalars := fun y => if y = x then some v else s.scalars y
      events := if act.isLocal x then s.events else s.events ++ [.assign x v] } := by
  unfold assign
  cases act.array? x with
  | none => simp only [Option.some.injEq, true_and, eq_comm]
  | some region => simp

theorem address_eq_some {base : Symbol} {index : Value} {a : UInt32} :
    act.address s base index = some a ↔ ∃ start offset, act.value s (.symbol base) = some start ∧
      act.value s index = some offset ∧ act.admits base a = true ∧
      a = start.toUInt32 + offset.toUInt32 := by
  unfold address
  constructor
  · intro h
    obtain ⟨start, hstart, h⟩ := Option.bind_eq_some_iff.1 h
    obtain ⟨offset, hoff, h⟩ := Option.bind_eq_some_iff.1 h
    by_cases hadm : act.admits base (start.toUInt32 + offset.toUInt32) = true
    · simp only [hadm, if_true, Option.some.injEq] at h
      subst h
      exact ⟨start, offset, hstart, hoff, hadm, rfl⟩
    · simp [hadm] at h
  · rintro ⟨start, offset, hstart, hoff, hadm, rfl⟩
    simp [hstart, hoff, hadm]

theorem effect_cases {s' : State} (h : act.effect s instr = some s') :
    (∃ x v s1, instr.definition = some x ∧ act.assign s1 x v = some s' ∧
      (s1 = s ∧ instr.isCall = false ∧ instr.isStore = false ∨
        instr.isCall = true ∧ ∃ fn args, s1 = act.afterCall s fn args)) ∨
    (instr.definition = none ∧
      (s' = s ∧ instr.isCall = false ∧ instr.isStore = false ∨
        (instr.isCall = true ∧ ∃ fn args, s' = act.afterCall s fn args) ∨
        ∃ array index value a v, instr = .store array index value ∧
          act.address s array index = some a ∧ act.value s value = some v ∧
          s' = { s with memory := s.memory.write a v, events := s.events ++ [.store a v] })) := by
  cases instr with
  | unary dest op operand =>
    obtain ⟨v, _, hasg⟩ := Option.bind_eq_some_iff.1 h
    exact .inl ⟨dest, _, s, rfl, hasg, .inl ⟨rfl, rfl, rfl⟩⟩
  | binary dest op left right =>
    obtain ⟨a, _, h⟩ := Option.bind_eq_some_iff.1 h
    obtain ⟨b, _, h⟩ := Option.bind_eq_some_iff.1 h
    obtain ⟨v, _, hasg⟩ := Option.bind_eq_some_iff.1 h
    exact .inl ⟨dest, _, s, rfl, hasg, .inl ⟨rfl, rfl, rfl⟩⟩
  | copy dest value =>
    obtain ⟨v, _, hasg⟩ := Option.bind_eq_some_iff.1 h
    exact .inl ⟨dest, _, s, rfl, hasg, .inl ⟨rfl, rfl, rfl⟩⟩
  | load dest array index =>
    obtain ⟨a, _, hasg⟩ := Option.bind_eq_some_iff.1 h
    exact .inl ⟨dest, _, s, rfl, hasg, .inl ⟨rfl, rfl, rfl⟩⟩
  | store array index value =>
    obtain ⟨a, ha, h⟩ := Option.bind_eq_some_iff.1 h
    obtain ⟨v, hv, h⟩ := Option.bind_eq_some_iff.1 h
    exact .inr ⟨rfl, .inr (.inr ⟨array, index, value, a, v, rfl, ha, hv, (Option.some.inj h).symm⟩)⟩
  | call fn args output =>
    obtain ⟨vs, _, h⟩ := Option.bind_eq_some_iff.1 h
    cases output with
    | none => exact .inr ⟨rfl, .inr (.inl ⟨rfl, fn, vs, (Option.some.inj h).symm⟩)⟩
    | some dest => exact .inl ⟨dest, _, _, rfl, h, .inr ⟨rfl, fn, vs, rfl⟩⟩
  | branch left relation right target =>
    exact .inr ⟨rfl, .inl ⟨(Option.some.inj h).symm, rfl, rfl⟩⟩
  | jump target => exact .inr ⟨rfl, .inl ⟨(Option.some.inj h).symm, rfl, rfl⟩⟩
  | label l => exact .inr ⟨rfl, .inl ⟨(Option.some.inj h).symm, rfl, rfl⟩⟩
  | «return» value => exact .inr ⟨rfl, .inl ⟨(Option.some.inj h).symm, rfl, rfl⟩⟩

theorem position_of_effect {s' : State} (h : act.effect s instr = some s') :
    s'.position = s.position := by
  rcases effect_cases h with ⟨x, v, s1, _, hasg, hs1⟩ | ⟨_, hs'⟩
  · obtain ⟨_, rfl⟩ := assign_eq_some.1 hasg
    rcases hs1 with ⟨rfl, _⟩ | ⟨_, f, args, rfl⟩ <;> rfl
  · rcases hs' with ⟨rfl, _⟩ | ⟨_, f, args, rfl⟩ | ⟨_, _, _, a, v, _, _, _, rfl⟩ <;> rfl

theorem scalars_of_effect {s' : State} (h : act.effect s instr = some s')
    (hdef : instr.definition ≠ some x) (hcall : instr.isCall = true → act.isLocal x = true) :
    s'.scalars x = s.scalars x := by
  have hafter : ∀ fn arguments, instr.isCall = true →
      (act.afterCall s fn arguments).scalars x = s.scalars x := fun fn arguments hc => by
    simp [afterCall, hcall hc]
  rcases effect_cases h with ⟨y, v, s1, hy, hasg, hs1⟩ | ⟨_, hs'⟩
  · obtain ⟨_, rfl⟩ := assign_eq_some.1 hasg
    have hne : x ≠ y := fun hxy => hdef (hxy ▸ hy)
    rcases hs1 with ⟨rfl, _⟩ | ⟨hc, f, args, rfl⟩
    · simp [hne]
    · simpa [hne] using hafter f args hc
  · rcases hs' with ⟨rfl, _⟩ | ⟨hc, f, args, rfl⟩ | ⟨_, _, _, a, v, _, _, _, rfl⟩
    · rfl
    · exact hafter f args hc
    · rfl

theorem value_congr {s' : State} {v : Value}
    (h : ∀ x, v.symbol? = some x → s'.scalars x = s.scalars x) :
    act.value s' v = act.value s v := by
  cases v with
  | const c => rfl
  | symbol x => simp only [value, h x rfl]

theorem direction_cases (h : act.direction s instr = some direction) :
    (∃ left relation right target a b, instr = .branch left relation right target ∧
      act.value s left = some a ∧ act.value s right = some b ∧
      direction = if relation.holds a b then .goto target else .next) ∨
    (∃ target, instr = .jump target ∧ direction = .goto target) ∨
    (∃ value result, instr = .return value ∧ direction = .return result) ∨
    (instr.target? = none ∧ (∀ value, instr ≠ .return value) ∧ direction = .next) := by
  cases instr with
  | branch left relation right target =>
    obtain ⟨a, ha, h⟩ := Option.bind_eq_some_iff.1 h
    obtain ⟨b, hb, h⟩ := Option.bind_eq_some_iff.1 h
    exact .inl ⟨left, relation, right, target, a, b, rfl, ha, hb, (Option.some.inj h).symm⟩
  | jump target => exact .inr (.inl ⟨target, rfl, (Option.some.inj h).symm⟩)
  | «return» value =>
    cases value with
    | none => exact .inr (.inr (.inl ⟨none, none, rfl, (Option.some.inj h).symm⟩))
    | some value =>
      obtain ⟨v, -, h⟩ := Option.bind_eq_some_iff.1 h
      exact .inr (.inr (.inl ⟨some value, some v, rfl, (Option.some.inj h).symm⟩))
  | _ => exact .inr (.inr (.inr ⟨rfl, by simp, (Option.some.inj h).symm⟩))

theorem target?_of_direction {label : Label} (h : act.direction s instr = some (.goto label)) :
    instr.target? = some label := by
  rcases direction_cases h with ⟨l, r, r', t, a, b, rfl, -, -, heq⟩ | ⟨t, rfl, heq⟩ |
    ⟨v, r, -, heq⟩ | ⟨-, -, heq⟩
  · split at heq
    · cases heq
      rfl
    · cases heq
  · cases heq
    rfl
  · cases heq
  · cases heq

/-! ## Steps follow edges -/

theorem follow_running {s' : State} (h : follow body s direction = ⟨.running, s'⟩) :
    ∃ q, s' = { s with position := q } ∧ (direction = .next ∧ q = s.position + 1 ∨
      ∃ label p, direction = .goto label ∧ labelPosition? body label = some p ∧ q = p.val) := by
  cases direction with
  | next =>
    simp only [follow, Outcome.mk.injEq, true_and] at h
    exact ⟨_, h.symm, .inl ⟨rfl, rfl⟩⟩
  | goto label =>
    unfold follow at h
    cases hp : labelPosition? body label with
    | none => simp [hp] at h
    | some p =>
      simp only [hp, Outcome.mk.injEq, true_and] at h
      exact ⟨_, h.symm, .inr ⟨label, p, rfl, hp, rfl⟩⟩
  | «return» value => simp [follow] at h

theorem mem_targets_of_direction {p q : Fin n} (h : act.direction s (body.get p) = some direction)
    (hq : direction = .next ∧ q.val = p.val + 1 ∨
      ∃ label, direction = .goto label ∧ labelPosition? body label = some q) :
    q ∈ targets body p := by
  rw [mem_targets]
  rcases hq with ⟨rfl, hnxt⟩ | ⟨label, rfl, hlab⟩
  · refine .inr ⟨fun l hl => ?_, hnxt⟩
    simp [hl, Activation.direction] at h
  · exact .inl ⟨label, target?_of_direction h, hlab⟩

theorem step_eq {outcome : Outcome} (h : act.step body s = outcome) (hstk : outcome.status ≠ .stuck) :
    ∃ p : Fin n, s.position = p.val ∧ ∃ s1 direction, act.effect s (body.get p) = some s1 ∧
      act.direction s (body.get p) = some direction ∧ follow body s1 direction = outcome := by
  unfold step at h
  split at h
  · rename_i hp
    unfold execute at h
    split at h
    · rename_i s1 direction heff hdir
      exact ⟨⟨s.position, hp⟩, rfl, s1, direction, heff, hdir, h⟩
    · subst h
      exact absurd rfl hstk
  · subst h
    exact absurd rfl hstk

theorem step_running {s' : State} (h : act.step body s = ⟨.running, s'⟩) :
    ∃ (p : Fin n) (s1 : State), s.position = p.val ∧ act.effect s (body.get p) = some s1 ∧
      s' = { s1 with position := s'.position } ∧
      ∀ q : Fin n, s'.position = q.val → q ∈ targets body p := by
  obtain ⟨p, hp, s1, direction, heff, hdir, hfol⟩ := step_eq h (by simp)
  obtain ⟨q, rfl, hq⟩ := follow_running hfol
  refine ⟨p, s1, hp, heff, rfl, fun r hr => mem_targets_of_direction hdir ?_⟩
  rcases hq with ⟨hnxt, rfl⟩ | ⟨label, t, hgoto, hlab, rfl⟩
  · refine .inl ⟨hnxt, ?_⟩
    rw [← hr, ← hp, position_of_effect heff]
  · obtain rfl : t = r := Fin.ext hr
    exact .inr ⟨label, hgoto, hlab⟩

/-! ## Runs -/

/-- The states that a run comes to. -/
inductive Comes (act : Activation) (body : Vector Instruction n) (s : State) : State → Prop
  | refl : Comes act body s s
  | tail {t u : State} : Comes act body s t → act.step body t = ⟨.running, u⟩ → Comes act body s u

theorem Comes.head {t u : State} (h : act.step body s = ⟨.running, t⟩) (htu : Comes act body t u) :
    Comes act body s u := by
  induction htu with
  | refl => exact .tail .refl h
  | tail _ hstep ih => exact .tail ih hstep

theorem run_congr {m : Nat} {body' : Vector Instruction m}
    (h : ∀ t, Comes act body s t → act.step body' t = act.step body t) (steps : Nat) :
    act.run body' steps s = act.run body steps s := by
  induction steps generalizing s with
  | zero => rfl
  | succ steps ih =>
    rw [run, run, h s .refl]
    cases hstep : act.step body s with
    | mk status t =>
      cases status with
      | running => exact ih fun u hu => h u (.head hstep hu)
      | returned value => rfl
      | stuck => rfl

end Activation

/-! ## Positions -/

def State.at (s : State) (position : Nat) : State := { s with position := position }

/-- An outcome without the number of its position. -/
def Outcome.unplaced (outcome : Outcome) : Outcome := ⟨outcome.status, outcome.state.at 0⟩

theorem Activation.effect_at (act : Activation) (s : State) (i : Nat) (instr : Instruction) :
    act.effect (s.at i) instr = (act.effect s instr).map (·.at i) := by
  have hasg : ∀ (s : State) x v, act.assign (s.at i) x v = (act.assign s x v).map (·.at i) := by
    intro s x v
    unfold assign
    cases act.array? x <;> rfl
  have hval : ∀ v, act.value (s.at i) v = act.value s v := fun v => rfl
  have haddr : ∀ array index, act.address (s.at i) array index = act.address s array index :=
    fun array index => rfl
  cases instr with
  | unary dest op operand => simp [effect, hval, hasg, Option.map_bind, Function.comp_def]
  | binary dest op left right => simp [effect, hval, hasg, Option.map_bind, Function.comp_def]
  | copy dest value => simp [effect, hval, hasg, Option.map_bind, Function.comp_def]
  | store array index value =>
    simp only [effect, hval, haddr, bind_eq_bind, Option.map_bind, Function.comp_def,
      pure_def, map_some]
    rfl
  | load dest array index =>
    simp only [effect, haddr, hasg, bind_eq_bind, Option.map_bind, Function.comp_def]
    rfl
  | call fn args output =>
    have hmapM : args.mapM (act.value (s.at i)) = args.mapM (act.value s) := rfl
    cases output with
    | none =>
      simp only [effect, hmapM, bind_eq_bind, Option.map_bind, Function.comp_def,
        pure_def, map_some]
      rfl
    | some dest =>
      have hcall : ∀ vs, act.afterCall (s.at i) fn vs = (act.afterCall s fn vs).at i :=
        fun vs => rfl
      simp only [effect, hmapM, hcall, hasg, bind_eq_bind, Option.map_bind,
        Function.comp_def]
      rfl
  | branch left relation right target => rfl
  | jump target => rfl
  | label l => rfl
  | «return» value => rfl

end SysY.Eeyore

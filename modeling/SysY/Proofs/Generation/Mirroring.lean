import SysY.Proofs.Eeyore.Pieces
import SysY.Proofs.Generation.Lawful

/-!
# Code that is written twice

An expression can be written at two places, with other temporaries and other labels. If it is accepted
at the first place, it is accepted at the second one as well, as long as the counters have room, and
the two pieces of code do the same: they make the same calls, leave the same variables and memory
behind, compute the same value and get stuck on the same states. What is paired up between the places
are the temporaries that hold the values in between.
-/

namespace SysY.Generation

open Eeyore Eeyore.Activation SysY.Tree List Option
open Structured (Environment decides)

/-! ## Pairs of temporaries -/

/-- Which temporaries of two places hold the same values. -/
abbrev Pairing := UInt32 → UInt32 → Prop

namespace Pairing

def add (pairs : Pairing) (i j : UInt32) : Pairing := fun i' j' => pairs i' j' ∨ i' = i ∧ j' = j

/-- All pairs have numbers below two bounds. -/
def Below (pairs : Pairing) (m n : Nat) : Prop := ∀ i j, pairs i j → i.toNat < m ∧ j.toNat < n

theorem Below.mono {pairs : Pairing} {m m' n n' : Nat} (h : pairs.Below m n) (hm : m ≤ m')
    (hn : n ≤ n') : pairs.Below m' n' := fun i j hij =>
  ⟨Nat.lt_of_lt_of_le (h i j hij).1 hm, Nat.lt_of_lt_of_le (h i j hij).2 hn⟩

theorem Below.add {pairs : Pairing} {p q : UInt32} (h : pairs.Below p.toNat q.toNat) :
    (pairs.add p q).Below (p.toNat + 1) (q.toNat + 1) := by
  rintro i j (hij | ⟨rfl, rfl⟩)
  · exact h.mono (Nat.le_succ _) (Nat.le_succ _) i j hij
  · exact ⟨Nat.lt_succ_self _, Nat.lt_succ_self _⟩

end Pairing

/-- The temporaries below a bound are scalars of the function itself. -/
def OwnsTemps (act : Activation) (n : Nat) : Prop :=
  ∀ i : UInt32, i.toNat < n → act.isLocal (.temp i) = true ∧ act.array? (.temp i) = none

/-- Two states that differ in temporaries that are not paired up, and in their positions. -/
structure Alike (pairs : Pairing) (s t : State) : Prop where
  names : ∀ x, x.isTemp = false → s.scalars x = t.scalars x
  temps : ∀ i j, pairs i j → s.scalars (.temp i) = t.scalars (.temp j)
  memory : s.memory = t.memory
  calls : s.calls = t.calls
  events : s.events = t.events

/-- Operands that have the same value in states that are alike. -/
inductive Same (pairs : Pairing) : Value → Value → Prop
  | const (c : Int32) : Same pairs (.const c) (.const c)
  | temp {i j : UInt32} : pairs i j → Same pairs (.symbol (.temp i)) (.symbol (.temp j))
  | name {x : Symbol} : x.isTemp = false → Same pairs (.symbol x) (.symbol x)

variable {pairs pairs1 pairs2 : Pairing} {n : Nat} {act : Activation} {s t : State} {x y z' : Value}
  {right : List Instruction} {i : Instruction}

theorem Same.mono (h : Same pairs x y) (hle : ∀ i j, pairs i j → pairs1 i j) : Same pairs1 x y := by
  cases h with
  | const c => exact .const c
  | temp hij => exact .temp (hle _ _ hij)
  | name hx => exact .name hx

theorem Alike.mono (h : Alike pairs1 s t) (hle : ∀ i j, pairs i j → pairs1 i j) : Alike pairs s t :=
  ⟨h.names, fun i j hij => h.temps i j (hle i j hij), h.memory, h.calls, h.events⟩

theorem Alike.value (h : Alike pairs s t) (hact : OwnsTemps act n) (hbel : pairs.Below n n)
    (hxy : Same pairs x y) : act.value s x = act.value t y := by
  cases hxy with
  | const c => rfl
  | temp hij =>
    obtain ⟨hi, hj⟩ := hbel _ _ hij
    simp only [Activation.value, (hact _ hi).2, (hact _ hj).2, h.temps _ _ hij]
  | name hx => simp only [Activation.value, h.names _ hx]

theorem Alike.values (h : Alike pairs s t) (hact : OwnsTemps act n) (hbel : pairs.Below n n)
    {xs ys : List Value} (hxy : List.Forall₂ (Same pairs) xs ys) :
    xs.mapM (act.value s) = ys.mapM (act.value t) := by
  induction hxy with
  | nil => rfl
  | cons hx _ ih => rw [mapM_cons, mapM_cons, h.value hact hbel hx, ih]

variable {j : UInt32}

theorem Alike.set (h : Alike pairs s t) {i : UInt32} (hbel : pairs.Below i.toNat j.toNat)
    (v : Int32) : Alike (pairs.add i j) (s.set (.temp i) v) (t.set (.temp j) v) where
  names x hx := by
    have hne : ∀ k, x ≠ .temp k := by
      rintro k rfl
      cases hx
    rw [State.set_ne s v (hne i), State.set_ne t v (hne j)]
    exact h.names x hx
  temps i' j' hij := by
    rcases hij with hij | ⟨rfl, rfl⟩
    · have hi' : Symbol.temp i' ≠ .temp i := by
        rintro ⟨⟩
        exact Nat.lt_irrefl _ (hbel i j' hij).1
      have hj' : Symbol.temp j' ≠ .temp j := by
        rintro ⟨⟩
        exact Nat.lt_irrefl _ (hbel i' j hij).2
      rw [State.set_ne s v hi', State.set_ne t v hj']
      exact h.temps i' j' hij
    · rw [State.set_self, State.set_self]
  memory := h.memory
  calls := h.calls
  events := h.events

theorem Alike.afterCall (h : Alike pairs s t) (hact : OwnsTemps act n) (hbel : pairs.Below n n)
    (fn : String) (args : List Int32) :
    Alike pairs (act.afterCall s fn args) (act.afterCall t fn args) where
  names x hx := by simp only [Activation.afterCall, h.names x hx, h.calls]
  temps i j hij := by
    obtain ⟨hi, hj⟩ := hbel i j hij
    simp only [Activation.afterCall, (hact i hi).1, (hact j hj).1, if_true, h.temps i j hij]
  memory := by simp only [Activation.afterCall, h.memory, h.calls]
  calls := by simp only [Activation.afterCall, h.calls]
  events := by simp only [Activation.afterCall, h.events]

/-! ## Instructions -/

/-- Two instructions that compute the same value into any destinations. -/
structure Likewise (n : Nat) (pairs : Pairing) (i i' : Symbol → Instruction) : Prop where
  next : ∀ (act : Activation) s dest, act.direction s (i dest) = some .next ∧
    act.direction s (i' dest) = some .next
  effect : ∀ act, OwnsTemps act n → ∀ s t, Alike pairs s t → ∀ dest dest',
    (act.effect s (i dest) = none ∧ act.effect t (i' dest') = none) ∨
    ∃ v s₁ t₁, Alike pairs s₁ t₁ ∧ act.effect s (i dest) = act.assign s₁ dest v ∧
      act.effect t (i' dest') = act.assign t₁ dest' v

theorem likewise_unary (op : UnaryOp) (h : Same pairs x y) (hbel : pairs.Below n n) :
    Likewise n pairs (.unary · op x) (.unary · op y) where
  next _ _ _ := ⟨rfl, rfl⟩
  effect act hact s t hst dest dest' := by
    simp only [Activation.effect, hst.value hact hbel h]
    cases act.value t y with
    | none => exact .inl ⟨rfl, rfl⟩
    | some a => exact .inr ⟨_, s, t, hst, rfl, rfl⟩

theorem likewise_binary (op : BinaryOp) {x' y' : Value} (h : Same pairs x y)
    (h' : Same pairs x' y') (hbel : pairs.Below n n) :
    Likewise n pairs (.binary · op x x') (.binary · op y y') where
  next _ _ _ := ⟨rfl, rfl⟩
  effect act hact s t hst dest dest' := by
    simp only [Activation.effect, hst.value hact hbel h, hst.value hact hbel h']
    cases act.value t y with
    | none => exact .inl ⟨rfl, rfl⟩
    | some a =>
      cases act.value t y' with
      | none => exact .inl ⟨rfl, rfl⟩
      | some c =>
        simp only [bind_eq_bind, bind_some]
        cases runBinary act.byZero op a c with
        | none => exact .inl ⟨rfl, rfl⟩
        | some v => exact .inr ⟨v, s, t, hst, rfl, rfl⟩

theorem likewise_load {array : Symbol} (harr : array.isTemp = false) (h : Same pairs x y)
    (hbel : pairs.Below n n) : Likewise n pairs (.load · array x) (.load · array y) where
  next _ _ _ := ⟨rfl, rfl⟩
  effect act hact s t hst dest dest' := by
    have haddr : act.address s array x = act.address t array y := by
      simp only [Activation.address, hst.value hact hbel h, hst.value hact hbel (.name harr)]
    simp only [Activation.effect, haddr, hst.memory]
    cases act.address t array y with
    | none => exact .inl ⟨rfl, rfl⟩
    | some a => exact .inr ⟨_, s, t, hst, rfl, rfl⟩

theorem likewise_call (fn : String) {xs ys : List Value}
    (h : List.Forall₂ (Same pairs) xs ys) (hbel : pairs.Below n n) :
    Likewise n pairs (fun dest => .call fn xs (some dest))
      (fun dest => .call fn ys (some dest)) where
  next _ _ _ := ⟨rfl, rfl⟩
  effect act hact s t hst dest dest' := by
    simp only [Activation.effect, hst.values hact hbel h, hst.calls]
    cases ys.mapM (act.value t) with
    | none => exact .inl ⟨rfl, rfl⟩
    | some vs => exact .inr ⟨_, _, _, hst.afterCall hact hbel fn vs, rfl, rfl⟩

/-! ## Pieces of code -/

/-- Code that leads nowhere but to its end. -/
def RunsThrough (act : Activation) (code : List Instruction) (s : State) : Prop :=
  ∀ c, act.exec code ⟨.next, s⟩ = some c → c.direction = .next

/-- Two pieces of code do the same: they get stuck on the same states, and otherwise they run to
their ends, in states that are alike. -/
def Parallel (n : Nat) (pairs pairs' : Pairing) (code code' : List Instruction) : Prop :=
  ∀ act, OwnsTemps act n → ∀ s t, Alike pairs s t →
    Option.Rel (fun c d => c.direction = .next ∧ d.direction = .next ∧ Alike pairs' c.state d.state)
      (act.exec code ⟨.next, s⟩) (act.exec code' ⟨.next, t⟩)

theorem Parallel.nil (n : Nat) (pairs : Pairing) : Parallel n pairs pairs [] [] :=
  fun _ _ _ _ h => .some ⟨rfl, rfl, h⟩

theorem Parallel.append {first first' second second' : List Instruction}
    (h : Parallel n pairs pairs1 first first') (h' : Parallel n pairs1 pairs2 second second') :
    Parallel n pairs pairs2 (first ++ second) (first' ++ second') := by
  intro act hact s t hst
  rw [exec_append, exec_append]
  refine rel_bind (h act hact s t hst) ?_
  rintro ⟨_, s1⟩ ⟨_, t1⟩ _ _ ⟨rfl, rfl, hst1⟩
  exact h' act hact s1 t1 hst1

theorem Parallel.runs_through {code code' : List Instruction}
    (h : Parallel n pairs pairs1 code code') (hact : OwnsTemps act n) (hst : Alike pairs s t) :
    RunsThrough act code s ∧ RunsThrough act code' t := by
  unfold RunsThrough
  have hrel := h act hact s t hst
  generalize act.exec code ⟨.next, s⟩ = x at hrel
  generalize act.exec code' ⟨.next, t⟩ = y at hrel
  cases hrel with
  | none => exact ⟨nofun, nofun⟩
  | some hcd =>
    refine ⟨?_, ?_⟩
    · rintro c ⟨⟩
      exact hcd.1
    · rintro d ⟨⟩
      exact hcd.2.1

theorem Parallel.compute {code code' : List Instruction} (h : Parallel n pairs pairs1 code code')
    (hbel : pairs1.Below n n) (hxy : Same pairs1 x y) (hact : OwnsTemps act n)
    (hst : Alike pairs s t) :
    Option.Rel (fun r r' => r.1 = r'.1 ∧ Alike pairs1 r.2 r'.2) (act.compute code x s)
      (act.compute code' y t) := by
  refine rel_bind (h act hact s t hst) fun c d _ _ hcd => ?_
  obtain ⟨_, _, halike⟩ := hcd
  rw [halike.value hact hbel hxy]
  cases act.value d.state y with
  | none => exact .none
  | some v => exact .some ⟨rfl, halike⟩

theorem Likewise.parallel {i i' : Symbol → Instruction} (h : Likewise n pairs i i') {p q : UInt32}
    (hp : p.toNat < n) (hq : q.toNat < n) (hbel : pairs.Below p.toNat q.toNat) :
    Parallel n pairs (pairs.add p q) [i (.temp p)] [i' (.temp q)] := by
  intro act hact s t hst
  rw [exec_singleton, exec_singleton, pass_effect (h.next act s _).1, pass_effect (h.next act t _).2]
  rcases h.effect act hact s t hst (.temp p) (.temp q) with ⟨hs, ht⟩ | ⟨v, s1, t1, hst1, hs, ht⟩
  · rw [hs, ht]
    exact .none
  · rw [hs, ht, assign_local s1 v (hact p hp).2 (hact p hp).1,
      assign_local t1 v (hact q hq).2 (hact q hq).1]
    exact .some ⟨rfl, rfl, hst1.set hbel v⟩

/-! ## Places -/

variable {α β : Type} {b b1 b2 c c1 c2 : Builder} {conn : Connective} {l l' : Symbol}
  {done : Label} {z : Value}

/-- An instruction that changes nothing but temporaries from a number on, unless it is a call. -/
structure Mild (m : Nat) (i : Instruction) : Prop where
  defines : ∀ x, i.definition = some x → ∃ j, x = .temp j ∧ m ≤ j.toNat
  stores : i.isStore = false

theorem Mild.mono {m m' : Nat} (h : Mild m i) (hle : m' ≤ m) : Mild m' i := by
  refine ⟨fun x hx => ?_, h.stores⟩
  obtain ⟨j, hj, hm⟩ := h.defines x hx
  exact ⟨j, hj, Nat.le_trans hle hm⟩

theorem mild_of_definition {m : Nat} (h : i.definition = some (.temp j)) (hm : m ≤ j.toNat) :
    Mild m i where
  defines x hx := ⟨j, Option.some.inj (hx.symm.trans h), hm⟩
  stores := by cases i <;> first | rfl | cases h

/-- The code between two builders is written a second time between two others. -/
structure Twins (n : Nat) (pairs pairs' : Pairing) (b b₁ c c₁ : Builder) : Prop where
  emits : Emits b b₁
  mild : ∀ i ∈ written b b₁, Mild b.code.temps.toNat i
  emits' : Emits c c₁
  temps : c₁.code.temps.toNat + b.code.temps.toNat = c.code.temps.toNat + b₁.code.temps.toNat
  labels : c₁.lastLabel.toNat + b.lastLabel.toNat = c.lastLabel.toNat + b₁.lastLabel.toNat
  keeps : ∀ i j, pairs i j → pairs' i j
  below : pairs'.Below b₁.code.temps.toNat c₁.code.temps.toNat
  parallel : Parallel n pairs pairs' (written b b₁) (written c c₁)

/-- The code between two builders can be written behind another one: the names are the same, the
pairs exist, and the counters have room. -/
structure Faces (n : Nat) (pairs : Pairing) (b b₁ c : Builder) : Prop where
  bound : n < wordValues
  names : ValidNames b.scopes.find?
  scopes : c.scopes = b.scopes
  below : pairs.Below b.code.temps.toNat c.code.temps.toNat
  own : b₁.code.temps.toNat ≤ n
  temps : c.code.temps.toNat + b₁.code.temps.toNat ≤ n + b.code.temps.toNat
  labels : c.lastLabel.toNat + b₁.lastLabel.toNat < wordValues + b.lastLabel.toNat

theorem Twins.refl (n : Nat) (hbel : pairs.Below b.code.temps.toNat c.code.temps.toNat) :
    Twins n pairs pairs b b c c where
  emits := .refl b
  mild := by simp [written_self]
  emits' := .refl c
  temps := rfl
  labels := rfl
  keeps _ _ h := h
  below := hbel
  parallel := by
    rw [written_self, written_self]
    exact .nil n pairs

theorem Twins.trans (h : Twins n pairs pairs1 b b1 c c1) (h' : Twins n pairs1 pairs2 b1 b2 c1 c2) :
    Twins n pairs pairs2 b b2 c c2 where
  emits := h.emits.trans h'.emits
  mild := by
    rw [h.emits.toGrows.written_trans h'.emits.toGrows]
    exact List.forall_mem_append.2 ⟨h.mild, fun i hi => (h'.mild i hi).mono h.emits.temps⟩
  emits' := h.emits'.trans h'.emits'
  temps := by
    have := h.temps
    have := h'.temps
    omega
  labels := by
    have := h.labels
    have := h'.labels
    omega
  keeps i j hij := h'.keeps i j (h.keeps i j hij)
  below := h'.below
  parallel := by
    rw [h.emits.toGrows.written_trans h'.emits.toGrows,
      h.emits'.toGrows.written_trans h'.emits'.toGrows]
    exact h.parallel.append h'.parallel

theorem Faces.first (h : Faces n pairs b b2 c) (hem : Emits b1 b2) : Faces n pairs b b1 c := by
  obtain ⟨hbnd, hnm, hsc, hbel, _, _, _⟩ := h
  have := hem.temps
  have := hem.labels
  exact ⟨hbnd, hnm, hsc, hbel, by omega, by omega, by omega⟩

theorem Faces.second (h : Faces n pairs b b2 c) (htw : Twins n pairs pairs1 b b1 c c1) :
    Faces n pairs1 b1 b2 c1 := by
  obtain ⟨hbnd, hnm, hsc, _, hown, _, _⟩ := h
  have := htw.temps
  have := htw.labels
  have hsc1 : c1.scopes = b1.scopes := by
    rw [htw.emits.sameScopes, htw.emits'.sameScopes, hsc]
  exact ⟨hbnd, htw.emits.sameScopes ▸ hnm, hsc1, htw.below, hown, by omega, by omega⟩

theorem Faces.within (h : Faces n pairs b b1 c) (hem : Emits b b1) : pairs.Below n n := by
  obtain ⟨_, _, _, hbel, hown, htemps, _⟩ := h
  have := hem.temps
  exact hbel.mono (by omega) (by omega)

/-! ## Steps -/

/-- A step that succeeds at one place can be taken at another one, where it does the same and has a
related result. -/
def Mirrors (n : Nat) (pairs : Pairing) (R : Pairing → α → β → Prop) (step : Build α)
    (step' : Build β) : Prop :=
  ∀ ⦃b a b1 c⦄, Builds step b a b1 → Faces n pairs b b1 c →
    ∃ a' c1 pairs', Builds step' c a' c1 ∧ Twins n pairs pairs' b b1 c c1 ∧ R pairs' a a'

section Steps

variable {γ δ : Type} {Q : Pairing → α → β → Prop} {R : Pairing → γ → δ → Prop}
  {step : Build α} {step' : Build β} {next : α → Build γ} {next' : β → Build δ}

theorem emits_bind (hstep : ∀ {b a b'}, Builds step b a b' → Emits b b')
    (hnxt : ∀ {a b z b'}, Builds (next a) b z b' → Emits b b') {z : γ}
    (h : Builds (step >>= next) b z b1) : Emits b b1 := by
  obtain ⟨a, b2, hfst, hrest⟩ := builds_bind.1 h
  exact (hstep hfst).trans (hnxt hrest)

theorem emits_pure {a z : α} (h : Builds (pure a) b z b1) : Emits b b1 := by
  obtain ⟨_, rfl⟩ := builds_pure.1 h
  exact .refl _

theorem mirrors_pure {a : α} {a' : β} (h : Q pairs a a') : Mirrors n pairs Q (pure a) (pure a') := by
  intro b _ _ c hstep hfc
  obtain ⟨rfl, rfl⟩ := builds_pure.1 hstep
  exact ⟨a', c, pairs, builds_pure.2 ⟨rfl, rfl⟩, .refl n hfc.below, h⟩

theorem mirrors_of_not (h : ∀ b a b', ¬ Builds step b a b') : Mirrors n pairs Q step step' :=
  fun b a b1 _ hstep => absurd hstep (h b a b1)

theorem Mirrors.bind (h : Mirrors n pairs Q step step')
    (hem : ∀ {a b z b'}, Builds (next a) b z b' → Emits b b')
    (hnxt : ∀ {pairs' a a'}, (∀ i j, pairs i j → pairs' i j) → Q pairs' a a' →
      Mirrors n pairs' R (next a) (next' a')) :
    Mirrors n pairs R (step >>= next) (step' >>= next') := by
  intro b z b1 c hsteps hfc
  obtain ⟨a, b2, hstep, hrest⟩ := builds_bind.1 hsteps
  obtain ⟨a', c2, pairs2, hstep', htw, hQ⟩ := h hstep (hfc.first (hem hrest))
  obtain ⟨z', c1, pairs1, hrest', htw', hR⟩ := hnxt htw.keeps hQ hrest (hfc.second htw)
  exact ⟨z', c1, pairs1, builds_bind.2 ⟨a', c2, hstep', hrest'⟩, htw.trans htw', hR⟩

end Steps

theorem mirrors_compute {i i' : Symbol → Instruction} (hi : ∀ x, (i x).definition = some x)
    (hi' : ∀ x, (i' x).definition = some x) (hlik : pairs.Below n n → Likewise n pairs i i') :
    Mirrors n pairs Same (do let dest ← newTemp; push (i dest); return .symbol dest)
      (do let dest ← newTemp; push (i' dest); return .symbol dest) := by
  intro b a b1 c hstep hfc
  obtain ⟨_, hcomp, rfl⟩ := builds_compute.1 hstep
  have hlik := hlik (hfc.within (hcomp.emits (hi _)))
  obtain ⟨hroom, rfl, rfl⟩ := id hcomp
  obtain ⟨hbnd, _, _, hbel, hown, htemps, hlabs⟩ := hfc
  have hb : (b.addTemp.emit (i (.temp b.code.temps))).code.temps.toNat = b.code.temps.toNat + 1 :=
    toNat_succ hroom
  have hroom' : c.code.temps.toNat + 1 < wordValues := by omega
  have hc : (c.addTemp.emit (i' (.temp c.code.temps))).code.temps.toNat = c.code.temps.toNat + 1 :=
    toNat_succ hroom'
  have hcomp' : Computes c i' (.temp c.code.temps) _ := ⟨hroom', rfl, rfl⟩
  refine ⟨_, _, pairs.add b.code.temps c.code.temps, builds_compute.2 ⟨_, hcomp', rfl⟩, ?_,
    .temp (.inr ⟨rfl, rfl⟩)⟩
  exact {
    emits := hcomp.emits (hi _)
    mild := by
      rw [written_of_computes hcomp]
      exact List.forall_mem_singleton.2 (mild_of_definition (hi _) (Nat.le_refl _))
    emits' := hcomp'.emits (hi' _)
    temps := by omega
    labels := rfl
    keeps := fun _ _ => .inl
    below := hbel.add.mono (by omega) (by omega)
    parallel := by
      rw [written_of_computes hcomp, written_of_computes hcomp']
      exact hlik.parallel (by omega) (by omega) hbel }

/-! ## Operations -/

section Operations

variable {loc : Location}

theorem mirrors_applyUnary (op : UnaryOp) (hxy : Same pairs x y) :
    Mirrors n pairs Same (applyUnary op x) (applyUnary op y) := by
  have hlik := likewise_unary (n := n) op hxy
  cases hxy with
  | const c => exact mirrors_pure (.const _)
  | temp _ => exact mirrors_compute (fun _ => rfl) (fun _ => rfl) hlik
  | name _ => exact mirrors_compute (fun _ => rfl) (fun _ => rfl) hlik

theorem mirrors_applyOperator (op : UnaryOperator) (hxy : Same pairs x y) :
    Mirrors n pairs Same (applyOperator op x) (applyOperator op y) := by
  cases op with
  | plus => exact mirrors_pure hxy
  | minus => exact mirrors_applyUnary .neg hxy
  | not => exact mirrors_applyUnary .not hxy

theorem Same.const_iff (h : Same pairs x y) (a : Int32) : x = .const a ↔ y = .const a := by
  cases h <;> simp

theorem mirrors_applyBinary (op : BinaryOp) {x' y' : Value} (hxy : Same pairs x y)
    (hxy' : Same pairs x' y') :
    Mirrors n pairs Same (applyBinary op x x' loc) (applyBinary op y y' loc) := by
  have hcpt := mirrors_compute (fun _ => rfl) (fun _ => rfl) (likewise_binary (n := n) op hxy hxy')
  cases hxy with
  | const a =>
    cases hxy' with
    | const d =>
      rw [applyBinary]
      cases op.fold a d with
      | none => exact mirrors_of_not fun _ _ _ => not_builds_reject
      | some v => exact mirrors_pure (.const v)
    | temp _ => exact hcpt
    | name _ => exact hcpt
  | temp _ => exact hcpt
  | name _ => exact hcpt

theorem mirrors_scale (factor : Int32) (hxy : Same pairs x y) :
    Mirrors n pairs Same (scale x factor loc) (scale y factor loc) := by
  unfold scale
  split
  · exact mirrors_pure hxy
  · exact mirrors_applyBinary .mul hxy (.const factor)

end Operations

/-! ## Places of names -/

/-- Places that are the same. -/
inductive SamePlace (pairs : Pairing) : Resolved → Resolved → Prop
  | constant (v : Int32) : SamePlace pairs (.constant v) (.constant v)
  | scalar {x : Symbol} : x.isTemp = false → SamePlace pairs (.scalar x) (.scalar x)
  | pointer {x y : Value} : Same pairs x y → SamePlace pairs (.pointer x) (.pointer y)
  | element {array : Symbol} {x y : Value} : array.isTemp = false → Same pairs x y →
    SamePlace pairs (.element array x) (.element array y)

section Names

variable {name : Name} {meaning : Meaning} {indices : Nat}

theorem mirrors_resolveName (hvld : meaning.Valid) :
    Mirrors n pairs SamePlace (resolveName meaning) (resolveName meaning) := by
  unfold resolveName
  split
  · exact mirrors_pure (.pointer (.name hvld.symbol))
  · split
    · exact mirrors_pure (.scalar hvld.symbol)
    · split
      · exact mirrors_pure (.constant _)
      · exact mirrors_of_not fun _ _ _ h => nomatch (builds_checked.1 h).1

theorem mirrors_constantElement (values : Array Int32) (offset : Int32) :
    Mirrors n pairs SamePlace (constantElement name values offset)
      (constantElement name values offset) := by
  unfold constantElement
  dsimp only
  split
  · exact mirrors_pure (.constant _)
  · exact mirrors_of_not fun _ _ _ => not_builds_reject

theorem mirrors_resolveOffset (hvld : meaning.Valid) (hxy : Same pairs x y) :
    Mirrors n pairs SamePlace (resolveOffset name meaning indices x)
      (resolveOffset name meaning indices y) := by
  unfold resolveOffset
  split
  · exact (mirrors_applyBinary .add (.name hvld.symbol) hxy).bind emits_pure
      fun _ hsum => mirrors_pure (.pointer hsum)
  · have helt := mirrors_pure (n := n) (SamePlace.element hvld.symbol hxy)
    cases hxy with
    | const a =>
      cases meaning.values with
      | none => exact helt
      | some values => exact mirrors_constantElement values a
    | temp _ => exact helt
    | name _ => exact helt

theorem mirrors_readResolved {r r' : Resolved} (hr : SamePlace pairs r r') :
    Mirrors n pairs Same (readResolved r) (readResolved r') := by
  cases hr with
  | constant v => exact mirrors_pure (.const v)
  | scalar hx => exact mirrors_pure (.name hx)
  | pointer hxy => exact mirrors_pure hxy
  | element harr hxy =>
    exact mirrors_compute (fun _ => rfl) (fun _ => rfl) (likewise_load harr hxy)

theorem mirrors_resolveWith {write : Bool} {position : List Int32 → Build (Option Value)}
    (h : ∀ dims, Mirrors n pairs (fun pairs => Option.Rel (Same pairs)) (position dims)
      (position dims)) :
    Mirrors n pairs SamePlace (resolveWith name indices write position)
      (resolveWith name indices write position) := by
  intro b r b1 c hrsv hfc
  obtain ⟨meaning, index, b2, hfind, hle, hw, hidx, hpld⟩ := builds_resolveWith.1 hrsv
  have hvld : meaning.Valid := hfc.names _ _ hfind
  have hfind' : c.scopes.find? name.value = some meaning := hfc.scopes ▸ hfind
  rcases hpld with ⟨rfl, hname⟩ | ⟨x, factor, offset, b3, rfl, hfac, hscl, hoff⟩
  · have hem : Emits b2 b1 := (builds_resolveName.1 hname).1 ▸ .refl b2
    obtain ⟨_, c2, pairs2, hidx', htw, ⟨⟩⟩ := h _ hidx (hfc.first hem)
    obtain ⟨r', c1, pairs1, hname', htw', hpl⟩ := mirrors_resolveName hvld hname (hfc.second htw)
    exact ⟨r', c1, pairs1, builds_resolveWith.2 ⟨meaning, _, c2, hfind', hle, hw, hidx',
      .inl ⟨rfl, hname'⟩⟩, htw.trans htw', hpl⟩
  · have hrest : Builds (scale x factor name.location >>= resolveOffset name meaning indices) b2 r b1 :=
      builds_bind.2 ⟨offset, b3, hscl, hoff⟩
    obtain ⟨_, c2, pairs2, hidx', htw, hsame⟩ :=
      h _ hidx (hfc.first (emits_bind emits_scale emits_resolveOffset hrest))
    cases hsame with
    | some hxy =>
      obtain ⟨r', c1, pairs1, hrest', htw', hpl⟩ := (mirrors_scale factor hxy).bind
        emits_resolveOffset (fun _ => mirrors_resolveOffset hvld) hrest (hfc.second htw)
      obtain ⟨offset', c3, hscl', hoff'⟩ := builds_bind.1 hrest'
      exact ⟨r', c1, pairs1, builds_resolveWith.2 ⟨meaning, _, c2, hfind', hle, hw, hidx',
        .inr ⟨_, factor, offset', c3, rfl, hfac, hscl', hoff'⟩⟩, htw.trans htw', hpl⟩

end Names

/-! ## Connectives -/

theorem effect_truthInstruction (act : Activation) (s : State) (dest : Symbol) (x : Value) :
    act.effect s (truthInstruction dest x) =
      (act.value s x).bind fun v => act.assign s dest (truth (v ≠ 0)) := by
  cases x with
  | const c => rfl
  | symbol l =>
    simp only [truthInstruction, Activation.effect]
    cases act.value s (.symbol l) with
    | none => rfl
    | some v =>
      have hrun : runBinary act.byZero .ne v 0 = some (truth (v ≠ 0)) := by
        rw [runBinary, fold_ne_zero]
      simp only [bind_eq_bind, bind_some, Activation.value, hrun]

theorem pass_truthInstruction {dest : Symbol} (hloc : act.isLocal dest = true)
    (harr : act.array? dest = none) (s : State) (x : Value) :
    act.pass ⟨.next, s⟩ (truthInstruction dest x) =
      (act.value s x).map fun v => ⟨.next, s.set dest (truth (v ≠ 0))⟩ := by
  have hdir : act.direction s (truthInstruction dest x) = some .next := by cases x <;> rfl
  rw [pass_effect hdir, effect_truthInstruction]
  cases act.value s x with
  | none => rfl
  | some v => simp only [bind_some, assign_local s _ harr hloc, map_some]

/-- The code of a connective behind its left operand: the right one stands between a jump and its
target. -/
def connection (connective : Connective) (l result : Symbol) (done : Label)
    (right : List Instruction) (z : Value) : List Instruction :=
  [truthInstruction result (.symbol l),
    .branch (.symbol result) (skipRelation connective) (.const 0) done] ++ right ++
  [truthInstruction result z, .label done]

theorem mild_connection (h : ∀ i ∈ right, Mild j.toNat i) :
    ∀ i ∈ connection conn l (.temp j) done right z, Mild j.toNat i := by
  have htruth : ∀ z, Mild j.toNat (truthInstruction (.temp j) z) := fun z =>
    mild_of_definition (by cases z <;> rfl) (Nat.le_refl _)
  have hbr : Mild j.toNat (.branch (.symbol (.temp j)) (skipRelation conn) (.const 0) done) :=
    ⟨nofun, rfl⟩
  simp only [connection, forall_mem_append, forall_mem_cons]
  exact ⟨⟨⟨htruth _, hbr, forall_mem_nil _⟩, h⟩, htruth z, ⟨nofun, rfl⟩, forall_mem_nil _⟩

theorem written_join (hgr : Grows (b.connect conn l) b1) :
    written b (b.join b1 z) = connection conn l (.temp b.code.temps) ⟨b.lastLabel + 1⟩
      (written (b.connect conn l) b1) z := by
  refine written_eq ?_
  rw [Builder.join, toList_emit, toList_emit, hgr.append_written, Builder.connect, toList_emit,
    toList_emit, connection]
  simp only [append_assoc, cons_append, nil_append]
  rfl

theorem exec_connection {result : Symbol} (hloc : act.isLocal result = true)
    (harr : act.array? result = none) (hdone : .label done ∉ right)
    (hr : ∀ a : Int32, RunsThrough act right (s.set result (truth (a ≠ 0)))) :
    act.exec (connection conn l result done right z) ⟨.next, s⟩ =
      (act.value s (.symbol l)).bind fun a =>
        if decides conn a then some ⟨.next, s.set result (truth (a ≠ 0))⟩
        else (act.compute right z (s.set result (truth (a ≠ 0)))).map fun r =>
          ⟨.next, r.2.set result (truth (r.1 ≠ 0))⟩ := by
  rw [connection, exec_append, exec_append, exec_cons, pass_truthInstruction hloc harr]
  cases act.value s (.symbol l) with
  | none => rfl
  | some a =>
    have hres : act.value (s.set result (truth (a ≠ 0))) (.symbol result) =
        some (truth (a ≠ 0)) := by
      simp only [Activation.value, harr, State.set_self]
    simp only [map_some, bind_some, exec_singleton]
    rw [pass_branch, hres, bind_some, Activation.value, map_some, holds_skipRelation]
    cases decides conn a with
    | true =>
      have hskip : ∀ t, act.exec [truthInstruction result z, .label done] ⟨.goto done, t⟩ =
          some ⟨.next, t⟩ := by
        intro t
        have hne : truthInstruction result z ≠ .label done := by cases z <;> simp [truthInstruction]
        rw [exec_cons, pass_goto hne]
        exact exec_singleton.trans pass_goto_label
      simp only [if_true, bind_some, exec_goto hdone]
      exact hskip _
    | false =>
      simp only [Bool.false_eq_true, if_false, bind_some, Activation.compute]
      cases hexec : act.exec right ⟨.next, s.set result (truth (a ≠ 0))⟩ with
      | none => rfl
      | some c =>
        obtain ⟨direction, t⟩ := c
        obtain rfl : direction = .next := hr a _ hexec
        simp only [bind_some]
        rw [exec_cons, pass_truthInstruction hloc harr]
        cases act.value t z with
        | none => rfl
        | some v => rfl

theorem parallel_connection {p q : UInt32} {done' : Label} {right' : List Instruction}
    (hp : p.toNat < n) (hq : q.toNat < n) (hbel : pairs.Below p.toNat q.toNat)
    (hl : Same pairs (.symbol l) (.symbol l')) (hdone : .label done ∉ right)
    (hdone' : .label done' ∉ right') (hright : Parallel n (pairs.add p q) pairs1 right right')
    (hkps : ∀ i j, pairs.add p q i j → pairs1 i j) (hbel1 : pairs1.Below n n)
    (hz : Same pairs1 z z') :
    Parallel n pairs (pairs.add p q) (connection conn l (.temp p) done right z)
      (connection conn l' (.temp q) done' right' z') := by
  intro act hact s t hst
  obtain ⟨hloc, harr⟩ := hact p hp
  obtain ⟨hloc', harr'⟩ := hact q hq
  have hn : pairs.Below n n := hbel.mono (Nat.le_of_lt hp) (Nat.le_of_lt hq)
  have hval := hst.value hact hn hl
  rw [exec_connection hloc harr hdone, exec_connection hloc' harr' hdone', hval]
  · cases act.value t (.symbol l') with
    | none => exact .none
    | some a =>
      simp only [bind_some]
      split
      · exact .some ⟨rfl, rfl, hst.set hbel _⟩
      · refine rel_map (hright.compute hbel1 hz hact (hst.set hbel _)) fun r r' hr => ?_
        obtain ⟨hv, halike⟩ := hr
        have hsame : Alike pairs r.2 r'.2 := halike.mono fun i j hij => hkps i j (.inl hij)
        rw [hv]
        exact ⟨rfl, rfl, hsame.set hbel _⟩
  · exact fun a => (hright.runs_through hact (hst.set hbel (truth (a ≠ 0)))).2
  · exact fun a => (hright.runs_through hact (hst.set hbel (truth (a ≠ 0)))).1

theorem label_not_written (h : Grows b b1) {l : Label} (hl : l.id.toNat ≤ b.lastLabel.toNat) :
    .label l ∉ written b b1 := by
  intro hmem
  have hset : l ∈ setLabels (written b b1) := List.mem_filterMap.2 ⟨_, hmem, rfl⟩
  have := (h.fresh.range l hset).1
  omega

theorem Faces.connect (htemp : b.code.temps.toNat + 1 < wordValues)
    (hlab : b.lastLabel.toNat + 1 < wordValues) (h : Faces n pairs b (b.join b1 z) c)
    (hem : Emits (b.connect conn l) b1) :
    c.code.temps.toNat + 1 < wordValues ∧ c.lastLabel.toNat + 1 < wordValues ∧
      Faces n (pairs.add b.code.temps c.code.temps) (b.connect conn l) b1
        (c.connect conn l') := by
  have hbt : (b.connect conn l).code.temps.toNat = b.code.temps.toNat + 1 := toNat_succ htemp
  have hbl : (b.connect conn l).lastLabel.toNat = b.lastLabel.toNat + 1 := toNat_succ hlab
  have hgr := hem.temps
  have hgr' := hem.labels
  obtain ⟨hbnd, hnm, hsc, hbel, hown, htemps, hlabs⟩ := h
  have hown : b1.code.temps.toNat ≤ n := hown
  have htemps : c.code.temps.toNat + b1.code.temps.toNat ≤ n + b.code.temps.toNat := htemps
  have hlabs : c.lastLabel.toNat + b1.lastLabel.toNat < wordValues + b.lastLabel.toNat := hlabs
  have htemp' : c.code.temps.toNat + 1 < wordValues := by omega
  have hlab' : c.lastLabel.toNat + 1 < wordValues := by omega
  have hct : (c.connect conn l').code.temps.toNat = c.code.temps.toNat + 1 := toNat_succ htemp'
  have hcl : (c.connect conn l').lastLabel.toNat = c.lastLabel.toNat + 1 := toNat_succ hlab'
  refine ⟨htemp', hlab', hbnd, hnm, hsc, ?_, hown, by omega, by omega⟩
  rw [hbt, hct]
  exact hbel.add

theorem twins_join (htemp : b.code.temps.toNat + 1 < wordValues)
    (hlab : b.lastLabel.toNat + 1 < wordValues) (htemp' : c.code.temps.toNat + 1 < wordValues)
    (hlab' : c.lastLabel.toNat + 1 < wordValues) (hl : Same pairs (.symbol l) (.symbol l'))
    (h : Twins n (pairs.add b.code.temps c.code.temps) pairs1 (b.connect conn l) b1
      (c.connect conn l') c1) (hz : Same pairs1 z z') (hfc : Faces n pairs b (b.join b1 z) c) :
    Twins n pairs (pairs.add b.code.temps c.code.temps) b (b.join b1 z) c (c.join c1 z') := by
  have hbt : (b.connect conn l).code.temps.toNat = b.code.temps.toNat + 1 := toNat_succ htemp
  have hct : (c.connect conn l').code.temps.toNat = c.code.temps.toNat + 1 := toNat_succ htemp'
  have hbl : (b.connect conn l).lastLabel.toNat = b.lastLabel.toNat + 1 := toNat_succ hlab
  have hcl : (c.connect conn l').lastLabel.toNat = c.lastLabel.toNat + 1 := toNat_succ hlab'
  have htemps := h.temps
  have hlabs := h.labels
  have hgr := h.emits.temps
  have hgr' := h.emits'.temps
  have hbel := hfc.below
  have hown : b1.code.temps.toNat ≤ n := hfc.own
  have hfit : c.code.temps.toNat + b1.code.temps.toNat ≤ n + b.code.temps.toNat := hfc.temps
  exact {
    emits := emits_connect htemp hlab h.emits
    mild := by
      rw [written_join h.emits.toGrows]
      exact mild_connection fun i hi => (h.mild i hi).mono (by omega)
    emits' := emits_connect htemp' hlab' h.emits'
    temps := by
      show c1.code.temps.toNat + _ = _ + b1.code.temps.toNat
      omega
    labels := by
      show c1.lastLabel.toNat + _ = _ + b1.lastLabel.toNat
      omega
    keeps := fun _ _ => .inl
    below := hbel.add.mono (hbt ▸ hgr) (hct ▸ hgr')
    parallel := by
      rw [written_join h.emits.toGrows, written_join h.emits'.toGrows]
      refine parallel_connection (by omega) (by omega) hbel hl ?_ ?_ h.parallel h.keeps ?_ hz
      · exact label_not_written h.emits.toGrows (Nat.le_refl _)
      · exact label_not_written h.emits'.toGrows (Nat.le_refl _)
      · exact h.below.mono hown (by omega) }

/-! ## Expressions -/

mutual

theorem mirrors_eval {sigs : Signatures} {loc : Location} : ∀ (formula : Formula)
    {pairs : Pairing},
    Mirrors n pairs Same (eval sigs loc formula) (eval sigs loc formula)
  | .literal value, pairs => by
    rw [eval]
    exact mirrors_pure (.const value)
  | .read name indices, pairs => by
    rw [eval]
    refine (mirrors_resolveWith fun dims => mirrors_evalPosition indices).bind
      emits_readResolved fun _ => mirrors_readResolved
  | .call fn args place, pairs => by
    intro b x b1 c h hfc
    obtain ⟨dest, rfl, hcall⟩ := builds_eval_call.1 h
    obtain ⟨signature, values, b2, hlook, hcnt, hargs, hemit⟩ := builds_callWith.1 hcall
    rcases builds_emitCall.1 hemit with ⟨_, ⟨⟩, hret, hcomp⟩ | ⟨⟨⟩, _⟩
    obtain ⟨values', c2, pairs2, hargs', htw, hsame⟩ :=
      mirrors_evalAll args hargs (hfc.first (hcomp.emits rfl))
    have hpsd : List.Forall₂ (Same pairs2) (passedArguments fn.value values place)
        (passedArguments fn.value values' place) := by
      unfold passedArguments
      split
      · exact rel_append hsame (.cons (.const _) .nil)
      · exact hsame
    obtain ⟨_, c1, pairs1, hcall', htw', hsame'⟩ := mirrors_compute (fun _ => rfl) (fun _ => rfl)
      (likewise_call fn.value hpsd) (builds_compute.2 ⟨dest, hcomp, rfl⟩)
      (hfc.second htw)
    obtain ⟨dest', hcomp', rfl⟩ := builds_compute.1 hcall'
    refine ⟨_, c1, pairs1, builds_eval_call.2 ⟨dest', rfl, builds_callWith.2 ?_⟩,
      htw.trans htw', hsame'⟩
    exact ⟨signature, values', c2, hlook, hcnt, hargs',
      builds_emitCall.2 (.inl ⟨dest', rfl, hret, hcomp'⟩)⟩
  | .unary op operand, pairs => by
    rw [eval]
    exact (mirrors_eval operand).bind emits_applyOperator fun _ => mirrors_applyOperator op
  | .binary op left right, pairs => by
    rw [eval]
    refine (mirrors_eval left).bind (emits_bind emits_eval emits_applyBinary) fun _ hy => ?_
    exact (mirrors_eval right).bind emits_applyBinary fun hkps hz =>
      mirrors_applyBinary _ (hy.mono hkps) hz
  | .logic conn left right, pairs => by
    intro b x b1 c h hfc
    obtain ⟨y, b2, hy, hr⟩ := builds_eval_logic.1 h
    rcases hr with ⟨a, rfl, ha, z, b3, hz, hx⟩ | ⟨a, rfl, ha, rfl, rfl⟩ |
      ⟨l, z, b3, rfl, htemp, hlab, rfl, hz, rfl⟩
    · -- the left operand is a constant that leaves the right one to decide
      have hrest : Builds (eval sigs loc right >>= fun z =>
        applyBinary .ne z (.const 0) loc) b2 x b1 := builds_bind.2 ⟨z, b3, hz, hx⟩
      obtain ⟨y', c2, pairs2, hy', htw2, hysame⟩ :=
        mirrors_eval left hy (hfc.first (emits_bind emits_eval emits_applyBinary hrest))
      obtain rfl := (hysame.const_iff a).1 rfl
      obtain ⟨x', c1, pairs1, hrest', htw1, hxsame⟩ := (mirrors_eval right).bind emits_applyBinary
        (fun _ hzsame => mirrors_applyBinary .ne hzsame (.const 0)) hrest (hfc.second htw2)
      obtain ⟨z', c3, hz', hx'⟩ := builds_bind.1 hrest'
      exact ⟨x', c1, pairs1, builds_eval_logic.2 ⟨_, c2, hy', .inl ⟨a, rfl, ha, z', c3, hz', hx'⟩⟩,
        htw2.trans htw1, hxsame⟩
    · -- the left operand is a constant that decides
      obtain ⟨y', c2, pairs2, hy', htw2, hysame⟩ := mirrors_eval left hy hfc
      obtain rfl := (hysame.const_iff a).1 rfl
      exact ⟨_, c2, pairs2, builds_eval_logic.2 ⟨_, c2, hy', .inr (.inl ⟨a, rfl, ha, rfl, rfl⟩)⟩,
        htw2, .const _⟩
    · have hjoin : Emits b2 (b2.join b3 z) := emits_connect htemp hlab (emits_eval hz)
      obtain ⟨y', c2, pairs2, hy', htw2, hysame⟩ := mirrors_eval left hy (hfc.first hjoin)
      obtain ⟨l', rfl⟩ : ∃ l', y' = .symbol l' := by cases hysame <;> exact ⟨_, rfl⟩
      have hfc2 := hfc.second htw2
      obtain ⟨htemp', hlab', hfc3⟩ := hfc2.connect htemp hlab (emits_eval hz)
      obtain ⟨z', c3, pairs3, hz', htw3, hzsame⟩ := mirrors_eval right hz hfc3
      have htw := twins_join htemp hlab htemp' hlab' hysame htw3 hzsame hfc2
      refine ⟨_, c2.join c3 z', _, builds_eval_logic.2 ⟨_, c2, hy', .inr (.inr ?_)⟩,
        htw2.trans htw, .temp (.inr ⟨rfl, rfl⟩)⟩
      exact ⟨l', z', c3, rfl, htemp', hlab', rfl, hz', rfl⟩
  | .malformed fault, pairs => by
    rw [eval]
    exact mirrors_of_not fun _ _ _ h => nomatch (builds_checked.1 h).1

theorem mirrors_evalAll {sigs : Signatures} : ∀ (formulas : Formulas) {pairs : Pairing},
    Mirrors n pairs (fun pairs => List.Forall₂ (Same pairs)) (evalAll sigs formulas)
      (evalAll sigs formulas)
  | .nil, pairs => by
    rw [evalAll]
    exact mirrors_pure .nil
  | .cons formula place rest, pairs => by
    rw [evalAll]
    refine (mirrors_eval formula).bind (emits_bind emits_evalAll emits_pure) fun _ hy => ?_
    exact (mirrors_evalAll rest).bind emits_pure fun hkps hys =>
      mirrors_pure (.cons (hy.mono hkps) hys)

theorem mirrors_evalPosition {sigs : Signatures} {loc : Location}
    {dims : List Int32} : ∀ (formulas : Formulas) {pairs : Pairing},
    Mirrors n pairs (fun pairs => Option.Rel (Same pairs))
      (evalPosition sigs loc dims formulas)
      (evalPosition sigs loc dims formulas)
  | .nil, pairs => by
    rw [evalPosition]
    exact mirrors_pure .none
  | .cons formula place rest, pairs => by
    rw [evalPosition]
    refine (mirrors_eval formula).bind (emits_bind emits_addIndices emits_pure) fun _ hy => ?_
    exact (mirrors_addIndices rest hy).bind emits_pure fun _ hz => mirrors_pure (.some hz)

theorem mirrors_addIndices {sigs : Signatures} {loc : Location} :
    ∀ (formulas : Formulas) {dims : List Int32} {pairs : Pairing} {x y : Value},
    Same pairs x y → Mirrors n pairs Same (addIndices sigs loc dims x formulas)
      (addIndices sigs loc dims y formulas)
  | .nil, dims, pairs, x, y, hxy => by
    rw [addIndices, addIndices]
    exact mirrors_pure hxy
  | .cons formula place rest, [], pairs, x, y, hxy => by
    rw [addIndices, addIndices]
    exact mirrors_pure hxy
  | .cons formula place rest, dimension :: dims, pairs, x, y, hxy => by
    rw [addIndices, addIndices]
    have hadd : ∀ {x y b z b'}, Builds (applyBinary .add x y loc >>= fun position =>
        addIndices sigs loc dims position rest) b z b' → Emits b b' :=
      emits_bind emits_applyBinary emits_addIndices
    refine (mirrors_scale dimension hxy).bind (emits_bind emits_eval hadd) fun _ hscd => ?_
    refine (mirrors_eval formula).bind hadd fun hkps hidx => ?_
    exact (mirrors_applyBinary .add (hscd.mono hkps) hidx).bind emits_addIndices
      fun _ hsum => mirrors_addIndices rest hsum

end

end SysY.Generation

import SysY.Proofs.Generation.Connectives

/-!
# What the code of expressions leaves alone

Between its calls the code of an expression changes nothing but temporaries that it has taken itself.
So an operand goes on having its value if it is a constant, an address, a temporary or a variable of
the function. Expressions that are evaluated one after the other have their words one after the other,
whatever code for their use stands in between.
-/

namespace SysY.Generation

open Eeyore Eeyore.Activation Option
open Tree (Formula)

variable {m m' : Nat} {act : Activation} {s s' t u : State} {sigs : Signatures}
  {loc : Location} {b b' : Builder} {x y z : Value} {d : Point} {α : Type} {step : Build α}
  {R : Pairing → α → α → Prop} {a : α} {formula : Formula} {v : Int32}
  {between : Builder → State → State → Prop} {list : List (Option (Formula × Location))}
  {outcome : Option (List (Int32 × State) × State)}

/-- A run that changes no variable of the function and none of the first `m` temporaries, and no byte
that all calls leave alone. -/
structure Leaves (act : Activation) (m : Nat) (s s' : State) : Prop where
  scalars : ∀ x, act.isLocal x = true → (∀ i, x = .temp i → i.toNat < m) →
    s'.scalars x = s.scalars x
  memory : ∀ a, (∀ k, act.keeps k a = true) → s'.memory a = s.memory a

namespace Leaves

theorem refl (act : Activation) (m : Nat) (s : State) : Leaves act m s s :=
  ⟨fun _ _ _ => rfl, fun _ _ => rfl⟩

theorem trans (h : Leaves act m s t) (h' : Leaves act m' t u) (hle : m ≤ m') : Leaves act m s u where
  scalars x hx htemp :=
    (h'.scalars x hx fun i hi => Nat.lt_of_lt_of_le (htemp i hi) hle).trans (h.scalars x hx htemp)
  memory a ha := (h'.memory a ha).trans (h.memory a ha)

end Leaves

theorem Alike.leaves (h : Alike (.upTo m) t s) : Leaves act m s t where
  scalars x _ htemp := by
    by_cases hx : x.isTemp = true
    · obtain ⟨i, rfl⟩ : ∃ i, x = .temp i := by
        obtain ⟨kind, i⟩ := x
        cases kind <;> first | exact ⟨i, rfl⟩ | cases hx
      exact h.temps i i ⟨rfl, htemp i rfl⟩
    · exact h.names x (by simpa using hx)
  memory a _ := congrFun h.memory a

theorem leaves_of_effect {i : Instruction} (h : Mild m i) (heff : act.effect s i = some s') :
    Leaves act m s s' where
  scalars x hx htemp := by
    refine scalars_of_effect heff (fun hdef => ?_) fun _ => hx
    obtain ⟨j, hj, hm⟩ := h.defines x hdef
    exact absurd (htemp j hj) (Nat.not_lt.2 hm)
  memory a ha := by
    rcases effect_cases heff with ⟨y, v, s1, -, hasg, hs1⟩ | ⟨-, hs'⟩
    · obtain ⟨-, rfl⟩ := assign_eq_some.1 hasg
      rcases hs1 with ⟨rfl, -⟩ | ⟨-, f, args, rfl⟩
      · rfl
      · simp [afterCall, ha]
    · rcases hs' with ⟨rfl, -⟩ | ⟨-, f, args, rfl⟩ | ⟨_, _, _, _, _, rfl, _⟩
      · rfl
      · simp [afterCall, ha]
      · cases h.stores

theorem leaves_of_exec {code : List Instruction} {d' : Point} (h : ∀ i ∈ code, Mild m i)
    (hexec : act.exec code d = some d') : Leaves act m d.state d'.state := by
  induction code generalizing d with
  | nil =>
    cases hexec
    exact .refl _ _ _
  | cons i code ih =>
    obtain ⟨hi, hcode⟩ := List.forall_mem_cons.1 h
    rw [exec_cons] at hexec
    obtain ⟨d1, hpass, hexec⟩ := Option.bind_eq_some_iff.1 hexec
    refine Leaves.trans ?_ (ih hcode hexec) (Nat.le_refl m)
    unfold Activation.pass at hpass
    split at hpass
    · obtain ⟨s1, heff, hpass⟩ := Option.bind_eq_some_iff.1 hpass
      obtain ⟨_, -, ⟨⟩⟩ := Option.bind_eq_some_iff.1 hpass
      exact leaves_of_effect hi heff
    · cases hpass
      split <;> exact .refl _ _ _
    · cases hpass
      exact .refl _ _ _

/-! ## Operands -/

/-- An operand that no call changes, and no temporary from `m` on. -/
def Fixed (act : Activation) (m : Nat) (x : Value) : Prop :=
  ∀ y, x.symbol? = some y → act.array? y = none →
    act.isLocal y = true ∧ ∀ i, y = .temp i → i.toNat < m

theorem Fixed.value (h : Fixed act m x) (hlvs : Leaves act m s s') :
    act.value s' x = act.value s x := by
  cases x with
  | const c => rfl
  | symbol y =>
    simp only [Activation.value]
    cases harr : act.array? y with
    | some region => rfl
    | none =>
      obtain ⟨hloc, htemp⟩ := h y rfl harr
      exact hlvs.scalars y hloc htemp

/-! ## Expressions -/

/-- The code of an expression, by itself. -/
structure Quiet (act : Activation) (b b' : Builder) : Prop where
  mild : ∀ i ∈ written b b', Mild b.code.temps.toNat i
  through : ∀ s, RunsThrough act (written b b') s

theorem Mirrors.again (h : ∀ n pairs, Mirrors n pairs R step step) (hb : Builds step b a b')
    (hvld : ValidNames b.scopes.find?) :
    ∃ a' c pairs, Twins b'.code.temps.toNat (.upTo b.code.temps.toNat) pairs b b' b c ∧
      R pairs a a' := by
  have hn : b'.code.temps.toNat < wordValues := b'.code.temps.toNat_lt
  have hlab : b'.lastLabel.toNat < wordValues := b'.lastLabel.toNat_lt
  obtain ⟨a', c, pairs, _, htw, hsame⟩ :=
    h _ _ hb ⟨hn, hvld, rfl, Pairing.upTo_below _, Nat.le_refl _, by omega, by omega⟩
  exact ⟨a', c, pairs, htw, hsame⟩

theorem Mirrors.quiet (h : ∀ n pairs, Mirrors n pairs R step step) (hb : Builds step b a b')
    (hvld : ValidNames b.scopes.find?) (hact : OwnsTemps act b'.code.temps.toNat) :
    Quiet act b b' := by
  obtain ⟨_, _, _, htw, _⟩ := Mirrors.again h hb hvld
  exact ⟨htw.mild, fun s => (htw.parallel.runs_through hact (.refl _ s)).1⟩

theorem quiet_eval (h : Builds (eval sigs loc formula) b x b')
    (hvld : ValidNames b.scopes.find?) (hact : OwnsTemps act b'.code.temps.toNat) :
    Quiet act b b' :=
  Mirrors.quiet (fun _ _ => mirrors_eval formula) h hvld hact

theorem below_eval (h : Builds (eval sigs loc formula) b x b')
    (hvld : ValidNames b.scopes.find?) :
    ∀ i, x = .symbol (.temp i) → i.toNat < b'.code.temps.toNat := by
  obtain ⟨_, _, _, htw, hsame⟩ := Mirrors.again (fun _ _ => mirrors_eval formula) h hvld
  rintro i rfl
  cases hsame with
  | temp hpair => exact (htw.below _ _ hpair).1
  | name hname => cases hname

theorem leaves_of_compute
    (h : Builds (eval sigs loc formula) b x b') (hvld : ValidNames b.scopes.find?)
    (hword : act.compute (written b b') x s = some (v, t)) : Leaves act b.code.temps.toNat s t := by
  obtain ⟨_, _, _, htw, _⟩ := Mirrors.again (fun _ _ => mirrors_eval formula) h hvld
  obtain ⟨d, hexec, hmap⟩ := Option.bind_eq_some_iff.1 hword
  obtain ⟨_, -, ⟨⟩⟩ := Option.map_eq_some_iff.1 hmap
  exact leaves_of_exec htw.mild hexec

theorem Quiet.leaves (h : Quiet act b b') (hexec : act.exec (written b b') ⟨.next, s⟩ = some d) :
    d.direction = .next ∧ Leaves act b.code.temps.toNat s d.state :=
  ⟨h.through s d hexec, leaves_of_exec h.mild hexec⟩

/-! ## Operations -/

/-- The code between two builders computes a word into an operand, if there is one, and changes nothing
but new temporaries. -/
def Results (act : Activation) (b b' : Builder) (x : Value) (s : State) (word : Option Int32) : Prop :=
  Option.Rel (fun v d => d.direction = .next ∧ Alike (.upTo b.code.temps.toNat) d.state s ∧
    act.value d.state x = some v) word (act.exec (written b b') ⟨.next, s⟩)

theorem Results.stuck (h : Results act b b' x s none) : act.exec (written b b') ⟨.next, s⟩ = none := by
  unfold Results at h
  generalize act.exec (written b b') ⟨.next, s⟩ = outcome at h ⊢
  cases h
  rfl

theorem Results.found (h : Results act b b' x s (some v)) :
    ∃ t, act.exec (written b b') ⟨.next, s⟩ = some ⟨.next, t⟩ ∧
      Alike (.upTo b.code.temps.toNat) t s ∧ act.value t x = some v := by
  unfold Results at h
  generalize act.exec (written b b') ⟨.next, s⟩ = outcome at h ⊢
  cases h with
  | @some _ d hd =>
    obtain ⟨direction, t⟩ := d
    obtain ⟨rfl, halike, hv⟩ := hd
    exact ⟨t, rfl, halike, hv⟩

/-- The expressions of a list are evaluated one after the other, each one by code of its own, which
changes nothing but new temporaries and what its calls change; `between` is what may happen in between.
A gap in the list stands for zero. The outcome has the words, each with the state in which it is found,
and the state at the end. There is none if an expression has no word. -/
inductive Evaluated (act : Activation) (signatures : Signatures)
    (between : Builder → State → State → Prop) :
    Builder → State → List (Option (Formula × Location)) → Option (List (Int32 × State) × State) → Prop
  | done {b : Builder} {s t : State} (h : between b s t) :
    Evaluated act signatures between b s [] (some ([], t))
  | gap {b : Builder} {s : State} {rest outcome}
    (hrest : Evaluated act signatures between b s rest outcome) :
    Evaluated act signatures between b s (none :: rest) (outcome.map fun r => ((0, s) :: r.1, r.2))
  | found {b c c₁ : Builder} {s t u : State} {x : Value} {formula place v rest outcome}
    (h : between b s t) (hemits : Emits b c) (heval : Builds (eval signatures place formula) c x c₁)
    (hword : act.compute (written c c₁) x t = some (v, u)) (hleaves : Leaves act c.code.temps.toNat t u)
    (hrest : Evaluated act signatures between c₁ u rest outcome) :
    Evaluated act signatures between b s (some (formula, place) :: rest)
      (outcome.map fun r => ((v, u) :: r.1, r.2))
  | lost {b c c₁ : Builder} {s t : State} {x : Value} {formula place rest} (h : between b s t)
    (hemits : Emits b c) (heval : Builds (eval signatures place formula) c x c₁)
    (hword : act.compute (written c c₁) x t = none) :
    Evaluated act signatures between b s (some (formula, place) :: rest) none

theorem Evaluated.length (h : Evaluated act sigs between b s list outcome) :
    ∀ r, outcome = some r → r.1.length = list.length := by
  induction h with
  | done _ =>
    rintro _ ⟨⟩
    rfl
  | gap _ ih | found _ _ _ _ _ _ ih =>
    intro r hr
    obtain ⟨r', hr', rfl⟩ := Option.map_eq_some_iff.1 hr
    exact congrArg (· + 1) (ih r' hr')
  | lost => nofun

theorem Evaluated.literal {place : Location}
    (h : Evaluated act sigs between b s (some (.literal v, place) :: list) outcome) :
    ∃ c u rest, Evaluated act sigs between c u list rest ∧
      outcome = rest.map fun r => ((v, u) :: r.1, r.2) := by
  cases h with
  | found _ _ heval hword _ hrest =>
    rw [eval] at heval
    obtain ⟨rfl, rfl⟩ := builds_pure.1 heval
    rw [written_self] at hword
    cases hword
    exact ⟨_, _, _, hrest, rfl⟩
  | lost _ _ heval hword =>
    rw [eval] at heval
    obtain ⟨rfl, rfl⟩ := builds_pure.1 heval
    rw [written_self] at hword
    cases hword

end SysY.Generation

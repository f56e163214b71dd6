import Mathlib.Algebra.GroupWithZero.Nat
import SysY.Proofs.Generation.Growth

/-!
# What code costs

A step pays for the labels, variables and temporaries that it takes, and it has no fault as long as
the counters have room for them. The price is counted in quarters of a token: a temporary costs four,
a label or a variable one. Every kind of tree has a price, which follows the steps that write its
code.

`Meets` says all there is to know about a step: what it leads to, what it costs, and that it has no
fault.
-/

namespace SysY.Tree

mutual

/-- The price of a formula. A malformed one has no code; it costs more than there is. -/
def Formula.price : Formula → Nat
  | .literal _ => 0
  | .read _ indices => indices.price
  | .call _ arguments _ => arguments.price + 4
  | .unary _ operand => operand.price + 4
  | .binary _ left right => left.price + (right.price + 4)
  | .logic _ left right => left.price + (4 + (1 + right.price))
  | .malformed _ => wordValues

/-- The price of indices: each one is added to what the ones before it select. -/
def Formulas.price : Formulas → Nat
  | .nil => 0
  | .cons formula _ rest => 4 + (formula.price + (4 + rest.price))

end

def Expr.price (e : Expr) : Nat := e.formula.price

/-- The expressions of an initializer, in order. -/
def Initializer.exprs : Initializer → List Expr
  | .expr value => [value]
  | .list items _ => items.flatMap Initializer.exprs

/-- The price of an initializer. In front of each element, and behind the last one, there can be a loop
that writes zeros. -/
def Initializer.price (i : Initializer) : Nat := (i.exprs.map (·.price + 5)).sum + 5

def Definition.price (d : Definition) : Nat :=
  (d.dimensions.map Expr.price).sum + (1 + d.initializer.elim 0 Initializer.price)

def Declaration.price (d : Declaration) : Nat := (d.definitions.map Definition.price).sum

mutual

def Statement.price : Statement → Nat
  | .assign target _ value => (Formulas.ofExprs target.indices).price + value.price
  | .expr value => value.price
  | .empty | .break _ | .continue _ => 0
  | .block body => body.price
  | .ifThen condition yes => 1 + (condition.price + yes.price)
  | .ifElse condition yes no => 1 + (condition.price + (yes.price + (1 + no.price)))
  | .while condition body => 1 + (1 + (condition.price + body.price))
  | .return value _ => value.elim 0 Expr.price

def Block.price : Block → Nat
  | .nil => 0
  | .declaration declaration rest => declaration.price + rest.price
  | .statement statement rest => statement.price + rest.price

end

def Parameter.price (p : Parameter) : Nat :=
  p.dimensions.elim 0 fun exprs => (exprs.map Expr.price).sum

def Function.price (f : Function) : Nat := (f.parameters.map Parameter.price).sum + f.body.price

end SysY.Tree

namespace SysY.Generation

open Eeyore SysY.Tree

variable {α β : Type} {b b1 b' : Builder} {m n : Nat} {step : Build α} {next : α → Build β}
  {mid : α → Builder → Prop} {post : β → Builder → Prop}

/-! ## Counters -/

/-- The counters have room for what a price pays. -/
structure Room (n : Nat) (b : Builder) : Prop where
  labels : b.lastLabel.toNat + n < wordValues
  temps : 4 * b.code.temps.toNat + n < 4 * wordValues
  vars : b.nextVar.toNat + n < wordValues

/-- Each counter goes up by what a price pays at most. -/
structure Takes (n : Nat) (b b' : Builder) : Prop where
  labels : b'.lastLabel.toNat ≤ b.lastLabel.toNat + n
  temps : 4 * b'.code.temps.toNat ≤ 4 * b.code.temps.toNat + n
  vars : b'.nextVar.toNat ≤ b.nextVar.toNat + n

theorem Takes.refl (n : Nat) (b : Builder) : Takes n b b :=
  ⟨Nat.le_add_right _ _, Nat.le_add_right _ _, Nat.le_add_right _ _⟩

theorem Takes.trans (h : Takes m b b1) (h' : Takes n b1 b') : Takes (m + n) b b' := by
  obtain ⟨_, _, _⟩ := h
  obtain ⟨_, _, _⟩ := h'
  exact ⟨by omega, by omega, by omega⟩

theorem Takes.mono (h : Takes m b b') (hle : m ≤ n) : Takes n b b' := by
  obtain ⟨_, _, _⟩ := h
  exact ⟨by omega, by omega, by omega⟩

theorem Room.mono (h : Room n b) (hle : m ≤ n) : Room m b := by
  obtain ⟨_, _, _⟩ := h
  exact ⟨by omega, by omega, by omega⟩

theorem Room.takes (h : Room (m + n) b) (ht : Takes m b b') : Room n b' := by
  obtain ⟨_, _, _⟩ := h
  obtain ⟨_, _, _⟩ := ht
  exact ⟨by omega, by omega, by omega⟩

/-! ## Steps -/

/-- A step from a builder on: what it leads to, a price that pays for it, and no fault as long as there
is room. -/
structure Meets (n : Nat) (step : Build α) (b : Builder) (post : α → Builder → Prop) : Prop where
  post : ∀ a b', Builds step b a b' → post a b'
  takes : ∀ a b', Builds step b a b' → Takes n b b'
  safe : Room n b → ∀ fault, step.run b ≠ .error (.fault fault)

namespace Meets

theorem imp {post : α → Builder → Prop} (h : Meets m step b mid)
    (hpost : ∀ a b', mid a b' → post a b') : Meets m step b post :=
  ⟨fun a b' hb => hpost a b' (h.post a b' hb), h.takes, h.safe⟩

theorem builds (h : Meets m step b mid) :
    Meets m step b fun a b' => Builds step b a b' ∧ mid a b' :=
  ⟨fun a b' hb => ⟨hb, h.post a b' hb⟩, h.takes, h.safe⟩

theorem mono (h : Meets m step b mid) (hle : m ≤ n) : Meets n step b mid :=
  ⟨h.post, fun a b' hb => (h.takes a b' hb).mono hle, fun hroom => h.safe (hroom.mono hle)⟩

theorem bind (h : Meets m step b mid) (hnxt : ∀ a b', mid a b' → Meets n (next a) b' post) :
    Meets (m + n) (step >>= next) b post := by
  refine ⟨fun y b' hb => ?_, fun y b' hb => ?_, fun hroom fault hflt => ?_⟩
  · obtain ⟨a, b1, hfst, hrest⟩ := builds_bind.1 hb
    exact (hnxt a b1 (h.post a b1 hfst)).post y b' hrest
  · obtain ⟨a, b1, hfst, hrest⟩ := builds_bind.1 hb
    exact (h.takes a b1 hfst).trans ((hnxt a b1 (h.post a b1 hfst)).takes y b' hrest)
  · have hrun : (step >>= next).run b = step.run b >>= fun p => (next p.1).run p.2 := rfl
    rw [hrun] at hflt
    cases hstep : step.run b with
    | error rejection =>
      rw [hstep] at hflt
      cases hflt
      exact h.safe (hroom.mono (Nat.le_add_right m n)) fault hstep
    | ok p =>
      rw [hstep] at hflt
      have hnext := hnxt p.1 p.2 (h.post p.1 p.2 hstep)
      exact hnext.safe (hroom.takes (h.takes p.1 p.2 hstep)) fault hflt

theorem after (h : Meets 0 step b mid) (hnxt : ∀ a b', mid a b' → Meets n (next a) b' post) :
    Meets n (step >>= next) b post :=
  (h.bind hnxt).mono (Nat.le_of_eq (Nat.zero_add n))

theorem free {a : α} (h : Builds step b a b) (hnxt : Meets n (next a) b post) :
    Meets n (step >>= next) b post := by
  have hrun : (step >>= next).run b = (next a).run b := by
    show (step.run b >>= fun p => (next p.1).run p.2) = _
    rw [show step.run b = .ok (a, b) from h]
    rfl
  exact ⟨fun y b' hb => hnxt.post y b' (hrun.symm.trans hb),
    fun y b' hb => hnxt.takes y b' (hrun.symm.trans hb), hrun ▸ hnxt.safe⟩

theorem andThen (h : Meets n step b mid) (hnxt : ∀ a b', mid a b' → Meets 0 (next a) b' post) :
    Meets n (step >>= next) b post :=
  h.bind hnxt

end Meets

variable {post : α → Builder → Prop}

theorem meets_of_builds {a : α} (h : Builds step b a b') (htakes : Takes n b b') (hpost : post a b') :
    Meets n step b post := by
  refine ⟨fun c c' hb => ?_, fun c c' hb => ?_, fun _ fault hflt => ?_⟩
  · cases h.symm.trans hb
    exact hpost
  · cases h.symm.trans hb
    exact htakes
  · cases h.symm.trans hflt

theorem meets_pure {a : α} (h : post a b) : Meets n (pure a) b post :=
  meets_of_builds (builds_pure.2 ⟨rfl, rfl⟩) (.refl n b) h

theorem meets_reject {error : SemanticError} {loc : Location} :
    Meets n (reject error loc : Build α) b post :=
  ⟨fun _ _ hb => absurd hb not_builds_reject, fun _ _ hb => absurd hb not_builds_reject, nofun⟩

theorem meets_push {i : Instruction} : Meets 0 (push i) b fun _ b' => b' = b.emit i :=
  meets_of_builds (a := ()) (builds_push.2 rfl) ⟨Nat.le_refl _, Nat.le_refl _, Nat.le_refl _⟩ rfl

theorem meets_lift {x : Except Rejection α} (h : ∀ fault, x ≠ .error (.fault fault)) :
    Meets 0 (liftM x) b fun a b' => x = .ok a ∧ b' = b := by
  refine ⟨fun a b' hb => builds_lift.1 hb, fun a b' hb => ?_, fun _ fault hflt => ?_⟩
  · obtain ⟨_, rfl⟩ := builds_lift.1 hb
    exact .refl 0 _
  · cases x with
    | ok a => cases hflt
    | error rejection =>
      cases hflt
      exact h fault rfl

theorem meets_newLabel : Meets 1 newLabel b fun l b' =>
    b.lastLabel.toNat + 1 < wordValues ∧ l = ⟨b.lastLabel + 1⟩ ∧ b' = b.addLabel := by
  refine ⟨fun l b' hb => builds_newLabel.1 hb, fun l b' hb => ?_, fun hroom fault hflt => ?_⟩
  · obtain ⟨hlt, _, rfl⟩ := builds_newLabel.1 hb
    exact ⟨Nat.le_of_eq (toNat_succ hlt), Nat.le_succ _, Nat.le_succ _⟩
  · cases (builds_newLabel.2 ⟨hroom.labels, rfl, rfl⟩).symm.trans hflt

theorem meets_newTemp : Meets 4 newTemp b fun x b' =>
    b.code.temps.toNat + 1 < wordValues ∧ x = .temp b.code.temps ∧ b' = b.addTemp := by
  refine ⟨fun l b' hb => builds_newTemp.1 hb, fun l b' hb => ?_, fun hroom fault hflt => ?_⟩
  · obtain ⟨hlt, _, rfl⟩ := builds_newTemp.1 hb
    have hsucc : b.addTemp.code.temps.toNat = b.code.temps.toNat + 1 := toNat_succ hlt
    exact ⟨Nat.le_add_right _ _, by omega, Nat.le_add_right _ _⟩
  · have hlt : b.code.temps.toNat + 1 < wordValues := by
      have := hroom.temps
      omega
    cases (builds_newTemp.2 ⟨hlt, rfl, rfl⟩).symm.trans hflt

theorem meets_newVar {size : Option UInt32} : Meets 1 (newVar size) b fun x b' =>
    b.nextVar.toNat + 1 < wordValues ∧ x = .var b.nextVar ∧ b' = b.addVar size := by
  refine ⟨fun l b' hb => builds_newVar.1 hb, fun l b' hb => ?_, fun hroom fault hflt => ?_⟩
  · obtain ⟨hlt, _, rfl⟩ := builds_newVar.1 hb
    exact ⟨Nat.le_succ _, Nat.le_succ _, Nat.le_of_eq (toNat_succ hlt)⟩
  · cases (builds_newVar.2 ⟨hroom.vars, rfl, rfl⟩).symm.trans hflt

/-! ## Scopes -/

theorem meets_setScopes {scopes : Scopes} :
    Meets 0 (set { b with scopes := scopes }) b fun _ b' => b' = { b with scopes := scopes } :=
  meets_of_builds (a := ()) (builds_set.2 rfl) ⟨Nat.le_refl _, Nat.le_refl _, Nat.le_refl _⟩ rfl

theorem meets_lookupName {name : Name} : Meets 0 (lookupName name) b fun meaning b' =>
    b.scopes.find? name.value = some meaning ∧ b' = b := by
  refine .free (builds_get.2 ⟨rfl, rfl⟩) ?_
  refine (meets_lift fun fault hflt => ?_).imp fun meaning b' h => ?_
  · unfold Scopes.lookup at hflt
    split at hflt <;> cases hflt
  · refine ⟨?_, h.2⟩
    have hlook := h.1
    unfold Scopes.lookup at hlook
    split at hlook <;> cases hlook
    assumption

theorem meets_defineName {name : Name} {meaning : Meaning} :
    Meets 0 (defineName name meaning) b fun _ b' =>
      b' = { b with scopes := b.scopes.add name.value meaning } := by
  refine .free (builds_get.2 ⟨rfl, rfl⟩) ?_
  refine (meets_lift fun fault hflt => ?_).after ?_
  · unfold Scopes.define at hflt
    split at hflt <;> cases hflt
  · rintro scopes _ ⟨hdefine, rfl⟩
    unfold Scopes.define at hdefine
    split at hdefine <;> cases hdefine
    exact meets_setScopes

theorem meets_enterScope :
    Meets 0 enterScope b fun _ b' => b' = { b with scopes := b.scopes.enter } :=
  meets_of_builds (a := ()) (builds_enterScope.2 rfl) ⟨Nat.le_refl _, Nat.le_refl _, Nat.le_refl _⟩
    rfl

theorem meets_leaveScope (scopes : Scopes) (h : b.scopes.leave = .ok scopes) :
    Meets 0 leaveScope b fun _ b' => b' = { b with scopes := scopes } := by
  refine .free (builds_get.2 ⟨rfl, rfl⟩) ?_
  exact .free (builds_checked.2 ⟨h, rfl⟩) meets_setScopes

end SysY.Generation

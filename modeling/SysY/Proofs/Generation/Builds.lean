import SysY.Generation.Statement
import SysY.Proofs.Bind

/-!
# Steps of the construction

What a step of the construction does when it succeeds: `Builds` takes sequences of steps apart and
says what each of the basic ones does to the builder.
-/

namespace SysY.Generation

open Eeyore

variable {α β : Type} {b b' : Builder} {a : α} {u : Unit} {x : Symbol} {name : Tree.Name}
  {meaning : Meaning} {first : Build α}

/-- A step that succeeds. -/
def Builds (step : Build α) (b : Builder) (a : α) (b' : Builder) : Prop := step.run b = .ok (a, b')

namespace Builder

def emit (b : Builder) (i : Instruction) : Builder :=
  { b with code := { b.code with body := b.code.body.push i } }

def addTemp (b : Builder) : Builder :=
  { b with code := { b.code with
    decls := b.code.decls.push ⟨.temp b.code.temps, none⟩, temps := b.code.temps + 1 } }

def addVar (b : Builder) (size : Option UInt32) : Builder :=
  { b with nextVar := b.nextVar + 1, code := { b.code with
    decls := b.code.decls.push ⟨.var b.nextVar, size⟩ } }

def addLabel (b : Builder) : Builder := { b with lastLabel := b.lastLabel + 1 }

end Builder

/-! ## Sequences -/

@[simp] theorem exists_unit {P : Unit → Prop} : (∃ u, P u) ↔ P () :=
  ⟨fun ⟨_, h⟩ => h, fun h => ⟨(), h⟩⟩

@[simp] theorem builds_pure {a' : α} : Builds (pure a) b a' b' ↔ a' = a ∧ b' = b := by
  show Except.ok (a, b) = .ok (a', b') ↔ _
  simp [eq_comm]

@[simp] theorem builds_bind {next : α → Build β} {y : β} :
    Builds (first >>= next) b y b' ↔ ∃ a b1, Builds first b a b1 ∧ Builds (next a) b1 y b' := by
  show (first.run b >>= fun p => (next p.1).run p.2) = .ok (y, b') ↔ _
  rw [bind_eq_ok]
  constructor
  · rintro ⟨⟨a, b1⟩, h, h'⟩
    exact ⟨a, b1, h, h'⟩
  · rintro ⟨a, b1, h, h'⟩
    exact ⟨(a, b1), h, h'⟩

@[simp] theorem builds_map {f : α → β} {y : β} :
    Builds (f <$> first) b y b' ↔ ∃ a, y = f a ∧ Builds first b a b' := by
  simp [← bind_pure_comp, and_comm]

@[simp] theorem builds_get {a : Builder} : Builds get b a b' ↔ a = b ∧ b' = b := by
  show Except.ok (b, b) = .ok (a, b') ↔ _
  simp [eq_comm]

@[simp] theorem builds_set {c : Builder} : Builds (set c) b u b' ↔ b' = c := by
  show Except.ok ((), c) = .ok (u, b') ↔ _
  simp [eq_comm]

theorem builds_modify {f : Builder → Builder} :
    Builds (modify f) b u b' ↔ b' = f b := by
  show Except.ok ((), f b) = .ok (u, b') ↔ _
  simp [eq_comm]

@[simp] theorem builds_checked {x : Except Fault α} :
    Builds (checked x) b a b' ↔ x = .ok a ∧ b' = b := by
  cases x with
  | ok c =>
    rw [checked, builds_pure]
    simp [eq_comm]
  | error e =>
    show Except.error _ = .ok (a, b') ↔ _
    simp

@[simp] theorem not_builds_reject {error : SemanticError} {loc : Location} :
    ¬ Builds (reject error loc) b a b' := by
  intro h
  cases h

@[simp] theorem builds_lift {x : Except Rejection α} :
    Builds (liftM x) b a b' ↔ x = .ok a ∧ b' = b := by
  cases x with
  | ok c =>
    show Except.ok (c, b) = .ok (a, b') ↔ _
    simp [eq_comm]
  | error e =>
    show Except.error _ = .ok (a, b') ↔ _
    simp

/-! ## Basic steps -/

theorem checkedSucc_eq_ok {n m : UInt32} :
    checkedSucc n = .ok m ↔ n.toNat + 1 < wordValues ∧ m = n + 1 := by
  unfold checkedSucc
  split
  · rename_i h
    simp [h, eq_comm]
  · rename_i h
    simp [h]

@[simp] theorem builds_newLabel {label : Label} : Builds newLabel b label b' ↔
    b.lastLabel.toNat + 1 < wordValues ∧ label = ⟨b.lastLabel + 1⟩ ∧ b' = b.addLabel := by
  simp [newLabel, checkedSucc_eq_ok, and_assoc, Builder.addLabel]

@[simp] theorem builds_newTemp : Builds newTemp b x b' ↔
    b.code.temps.toNat + 1 < wordValues ∧ x = .temp b.code.temps ∧ b' = b.addTemp := by
  simp [newTemp, checkedSucc_eq_ok, and_assoc, Builder.addTemp]

@[simp] theorem builds_newVar {size : Option UInt32} : Builds (newVar size) b x b' ↔
    b.nextVar.toNat + 1 < wordValues ∧ x = .var b.nextVar ∧ b' = b.addVar size := by
  simp [newVar, checkedSucc_eq_ok, and_assoc, Builder.addVar]

@[simp] theorem builds_push {i : Instruction} : Builds (push i) b u b' ↔ b' = b.emit i :=
  builds_modify

theorem builds_enterScope :
    Builds enterScope b u b' ↔ b' = { b with scopes := b.scopes.enter } := builds_modify

theorem builds_leaveScope : Builds leaveScope b u b' ↔
    ∃ scopes, b.scopes.leave = .ok scopes ∧ b' = { b with scopes := scopes } := by
  simp [leaveScope, and_assoc]

theorem builds_defineName :
    Builds (defineName name meaning) b u b' ↔
      b.scopes.current.lookup name.value = none ∧
        b' = { b with scopes := b.scopes.add name.value meaning } := by
  cases h : b.scopes.current.lookup name.value with
  | none => simp [defineName, Scopes.define, h, and_assoc, @eq_comm Scopes]
  | some other => simp [defineName, Scopes.define, h, and_assoc]

@[simp] theorem builds_lookupName :
    Builds (lookupName name) b meaning b' ↔ b.scopes.find? name.value = some meaning ∧ b' = b := by
  cases h : b.scopes.find? name.value with
  | none => simp [lookupName, Scopes.lookup, h, and_assoc]
  | some other => simp [lookupName, Scopes.lookup, h, and_assoc]

end SysY.Generation

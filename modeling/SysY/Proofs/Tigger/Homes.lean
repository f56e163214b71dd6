import SysY.Proofs.Allocation.Frame
import SysY.Proofs.Allocation.Palette
import SysY.Proofs.Eeyore.Steps
import SysY.Proofs.Tigger.ParallelMove
import SysY.Tigger.Lowering

/-!
# Where values are

While register code runs, every value that three-address code may still read is at the home of its
symbol: `Matches` says so of a state of each side. Memory serves three purposes that never overlap:
it holds the arrays, the global scalars, and what the function itself keeps in its frame. So a write
to one of these spots leaves all others alone.
-/

namespace SysY.Tigger

open Eeyore (Activation Decl)
open SysY.Flow Allocation

variable {n k : Nat} {slot : Fin k} {changed : List Register}

/-! ## Preparations -/

/-- What the stages before have found out about a function. -/
structure Prepared (ctx : Context n k) (registers : Vector (Option Register) k)
    (place : Object k → Option UInt32) : Prop where
  graph : ctx.graph = .ofSuccessors (targets ctx.body)
  slots : ctx.slots = .ofDecls ctx.slots.decls
  distinct : Slots.Distinct ctx.slots.decls
  liveness : ctx.liveness = .ofBody ctx.graph ctx.body ctx.slots
  free : ConflictFree ctx.slots (.ofLiveness ctx.liveness) registers
  layout : Layout ctx.slots registers (ctx.body.any (·.isCall)) ctx.frame place

namespace Context

/-- The symbol of a slot. -/
def symbol (ctx : Context n k) (slot : Fin k) : Symbol := (ctx.slots.decls.get slot).symbol

/-- A slot that is live into a position; past the end, none is. -/
def Live (ctx : Context n k) (p : Nat) (slot : Fin k) : Prop :=
  ∃ h : p < n, slot ∈ ctx.liveness.liveIn.get ⟨p, h⟩

end Context

namespace Prepared

variable {ctx : Context n k} {regs : Vector (Option Register) k}
  {place : Object k → Option UInt32} (hp : Prepared ctx regs place) {x : Symbol} {p : Fin n}
  {r : Register}
include hp

theorem find?_iff :
    ctx.slots.find? x = some slot ↔ ctx.symbol slot = x := by
  rw [hp.slots]
  exact Slots.find?_eq_some_iff hp.distinct

theorem live_of_use (hx : x ∈ (ctx.body.get p).uses)
    (hslot : ctx.slots.find? x = some slot) (harr : ctx.slots.isArray slot = false) :
    ctx.Live p slot := by
  refine ⟨p.isLt, ?_⟩
  rw [hp.liveness]
  exact Liveness.mem_liveIn_of_use hx hslot harr

theorem live_of_target {q : Fin n} (hlive : ctx.Live q slot)
    (hq : q ∈ targets ctx.body p) (hdef : (ctx.body.get p).definition ≠ some (ctx.symbol slot)) :
    ctx.Live p slot := by
  obtain ⟨hlt, hlive⟩ := hlive
  refine ⟨p.isLt, ?_⟩
  rw [hp.liveness, hp.graph] at hlive ⊢
  exact Liveness.mem_liveIn_of_target hlive hq hdef

theorem live_of_next (hlive : ctx.Live (p + 1) slot) (hjump : ∀ l, ctx.body.get p ≠ .jump l)
    (hdef : (ctx.body.get p).definition ≠ some (ctx.symbol slot)) : ctx.Live p slot :=
  hp.live_of_target (q := ⟨p + 1, hlive.1⟩) hlive (mem_targets.2 (.inr ⟨hjump, rfl⟩)) hdef

theorem isArray_of_live {p : Nat} (hlive : ctx.Live p slot) :
    ctx.slots.isArray slot = false := by
  obtain ⟨_, hlive⟩ := hlive
  rw [hp.liveness] at hlive
  exact Liveness.isArray_of_mem_liveIn hlive

theorem live_next_of_not_dead (hslot : ctx.slots.find? x = some slot)
    (hdead : ctx.isDeadAfter p x = false)
    (htgt : (ctx.body.get p).target? = none) : ctx.Live (p + 1) slot := by
  simp only [Context.isDeadAfter, hslot, Bool.not_eq_false'] at hdead
  rw [hp.graph, Liveness.isLiveOut_iff] at hdead
  obtain ⟨q, hq, hlive⟩ := hdead
  rcases mem_targets.1 hq with ⟨label, hlab, -⟩ | ⟨-, hq⟩
  · rw [htgt] at hlab
    cases hlab
  · exact ⟨hq ▸ q.isLt, by simpa [← hq] using hlive⟩

theorem home_cases (harr : ctx.slots.isArray slot = false) :
    (∃ r, regs.get slot = some r ∧ ctx.frame.homes.get slot = some (.register r)) ∨
      ∃ a, place (.slot slot) = some a ∧ ctx.frame.homes.get slot = some (.stack a) := by
  rcases hp.layout.home slot with ⟨h, -⟩ | ⟨-, h⟩ | ⟨-, -, h⟩
  · rw [harr] at h
    cases h
  · exact .inl h
  · exact .inr h

theorem register_of_home
    (h : ctx.frame.homes.get slot = some (.register r)) : regs.get slot = some r := by
  rcases hp.layout.home slot with ⟨-, a, -, h'⟩ | ⟨-, r', hr, h'⟩ | ⟨-, -, a, -, h'⟩
  · cases h.symm.trans h'
  · cases h.symm.trans h'
    exact hr
  · cases h.symm.trans h'

theorem allocatable_of_home
    (h : ctx.frame.homes.get slot = some (.register r)) : r ≠ .zero ∧ r ≠ .t0 ∧ r ≠ .t1 := by
  have := hp.free.allocatable slot r (hp.register_of_home h)
  simpa [Register.isAllocatable, and_assoc] using this

theorem register_ne {p : Nat} {a b : Fin k} (ha : ctx.Live p a) (hb : ctx.Live p b) (hne : a ≠ b)
    (hhome : ctx.frame.homes.get a = some (.register r)) :
    ctx.frame.homes.get b ≠ some (.register r) := by
  intro hhome'
  obtain ⟨h, ha⟩ := ha
  obtain ⟨_, hb⟩ := hb
  refine hp.free.different a b r ?_ (hp.register_of_home hhome) (hp.register_of_home hhome')
  exact Interference.mem_neighbors.2 ⟨hne.symm, ⟨p, h⟩, ha, hb⟩

end Prepared

/-! ## Spots -/

/-- What has a word of memory of its own. -/
inductive Spot (k : Nat)
  /-- An object of the frame. -/
  | object (o : Object k)
  /-- A global scalar. -/
  | global (x : Symbol)

/-- The word of a spot. Arrays are no spots. -/
inductive Spot.At (globals : List Decl) (ctx : Context n k) (place : Object k → Option UInt32)
    (setting : Setting) : Spot k → UInt32 → Prop
  | register {r : Register} {a : UInt32} :
    place (.register r) = some a → At globals ctx place setting (.object (.register r)) (setting.slot a)
  | slot {s : Fin k} {a : UInt32} :
    place (.slot s) = some a → ctx.slots.isArray s = false →
      At globals ctx place setting (.object (.slot s)) (setting.slot a)
  | global {x : Symbol} :
    ctx.slots.find? x = none → ⟨x, none⟩ ∈ globals →
      At globals ctx place setting (.global x) (setting.place ⟨x.id⟩)

/-- How what a function of three-address code finds is laid out in the memory that its register code
finds. -/
structure Grounds (globals : List Decl) (ctx : Context n k) (place : Object k → Option UInt32)
    (act : Activation) (setting : Setting) : Prop where
  isLocal : ∀ x, act.isLocal x = (ctx.slots.find? x).isSome
  scalar : ∀ x slot, ctx.slots.find? x = some slot → ctx.slots.isArray slot = false →
    act.array? x = none
  array : ∀ x slot a, ctx.slots.find? x = some slot → ctx.slots.isArray slot = true →
    place (.slot slot) = some a → ∃ bytes, act.array? x = some ⟨setting.slot a, bytes⟩
  globalArray : ∀ x, ctx.slots.find? x = none → ctx.arrays.contains x = true →
    ∃ bytes, act.array? x = some ⟨setting.place ⟨x.id⟩, bytes⟩
  globalScalar : ∀ x, ctx.slots.find? x = none → ctx.arrays.contains x = false → act.array? x = none
  object : ∀ x region, act.array? x = some region → region ∈ act.objects
  byZero : act.byZero = setting.byZero
  reply : ∀ i, act.reply i = {
    value := (setting.reply i).registers .a0
    globals := fun x => some ((setting.reply i).memory.word (setting.place ⟨x.id⟩))
    memory := (setting.reply i).memory }
  leaves : ∀ i b, act.keeps i b = false
  /-- Different spots have no byte in common. -/
  spots : ∀ p q a b, p ≠ q → Spot.At globals ctx place setting p a →
    Spot.At globals ctx place setting q b → Apart a b
  /-- No spot lies in an array. -/
  objects : ∀ region ∈ act.objects, ∀ p a, Spot.At globals ctx place setting p a →
    region.Disjoint ⟨a, 4⟩
  /-- A callee leaves alone what the function keeps in its frame, and nothing else. -/
  keeps : ∀ o a, Spot.At globals ctx place setting (.object o) a →
    ∀ j : UInt32, j.toNat < 4 → setting.keeps (a + j) = true
  changes : ∀ x a, Spot.At globals ctx place setting (.global x) a →
    ∀ j : UInt32, j.toNat < 4 → setting.keeps (a + j) = false
  changesObjects : ∀ region ∈ act.objects, ∀ b, region.contains b = true → setting.keeps b = false
  admits : ∀ x a, Spot.At globals ctx place setting (.global x) a → setting.admits a = true
  admitsObjects : ∀ region ∈ act.objects, ∀ a, region.holds a = true → setting.admits a = true

/-! ## Matching states -/

/-- How an event of three-address code shows in register code. A call finds its arguments in the
first registers, and a write to a global scalar is a write to its word. -/
inductive Event.Matches (place : Global → UInt32) : Eeyore.Event → Event → Prop
  | call (function : String) {arguments registers : List Int32} :
    arguments <+: registers → Matches place (.call function arguments) (.call function registers)
  | store (a : UInt32) (v : Int32) : Matches place (.store a v) (.store a v)
  | assign (x : Symbol) (v : Int32) : Matches place (.assign x v) (.store (place ⟨x.id⟩) v)

/-- A home with a value. Some registers may still have to be restored from the frame. -/
def Holds (setting : Setting) (restore : List (Register × UInt32)) (t : State) (v : Int32) :
    Home → Prop
  | .register r =>
    match restore.lookup r with
    | some a => t.memory.word (setting.slot a) = v
    | none => t.value r = v
  | .stack a => t.memory.word (setting.slot a) = v
  | .array _ => False

section

variable (globals : List Decl) (ctx : Context n k) (place : Object k → Option UInt32)
  (act : Activation) (setting : Setting)

/-- The homes of the slots that are live into a position hold their values, up to that of one
symbol. -/
def HomesHold (restore : List (Register × UInt32)) (p : Nat) (but : Option Symbol)
    (s : Eeyore.State) (t : State) : Prop :=
  ∀ slot home v, ctx.Live p slot → but ≠ some (ctx.symbol slot) →
    ctx.frame.homes.get slot = some home → s.scalars (ctx.symbol slot) = some v →
    Holds setting restore t v home

/-- What does not depend on the position: arrays, global scalars, what is preserved for the caller,
and the events. -/
structure Kept (entry : Register → Int32) (s : Eeyore.State) (t : State) : Prop where
  memory : ∀ region ∈ act.objects, ∀ b, region.contains b = true → t.memory b = s.memory b
  globals : ∀ x a, Spot.At globals ctx place setting (.global x) a →
    s.scalars x = some (t.memory.word a)
  saved : ∀ r a, (r, a) ∈ ctx.frame.saved → t.memory.word (setting.slot a) = entry r
  unsaved : ∀ r, r.isSaved = true → (∀ a, (r, a) ∉ ctx.frame.saved) → t.value r = entry r
  calls : t.calls = s.calls
  events : List.Forall₂ (Event.Matches setting.place) s.events t.events

/-- A state of three-address code in front of a position, and a state of register code. -/
structure Matches (restore : List (Register × UInt32)) (p : Nat) (entry : Register → Int32)
    (s : Eeyore.State) (t : State) : Prop where
  homes : HomesHold ctx setting restore p none s t
  kept : Kept globals ctx place act setting entry s t

end

section

variable {globals : List Decl} {ctx : Context n k} {regs : Vector (Option Register) k}
  {place : Object k → Option UInt32} {act : Activation} {setting : Setting}
  {restore : List (Register × UInt32)} {entry : Register → Int32} {s s' : Eeyore.State}
  {t t' : State} {p : Nat} {but : Option Symbol} {a b : UInt32} {σ : Spot k} {region : Region}

/-! ## Changing one thing -/

theorem Holds.congr {v : Int32} {home : Home} (h : Holds setting restore t v home)
    (hval : ∀ r, home = .register r → restore.lookup r = none → t'.value r = t.value r)
    (hword : ∀ a, (home = .stack a ∨ ∃ r, home = .register r ∧ restore.lookup r = some a) →
      t'.memory.word (setting.slot a) = t.memory.word (setting.slot a)) :
    Holds setting restore t' v home := by
  cases home with
  | register r =>
    unfold Holds at h ⊢
    cases hlook : restore.lookup r with
    | none =>
      simp only [hlook] at h ⊢
      rw [hval r rfl hlook, h]
    | some a =>
      simp only [hlook] at h ⊢
      rw [hword a (.inr ⟨r, rfl, hlook⟩), h]
  | stack a => exact (hword a (.inl rfl)).trans h
  | array a => exact h

/-- Registers that are restored from where the frame preserves them around calls. -/
def Restorable (place : Object k → Option UInt32) (restore : List (Register × UInt32)) : Prop :=
  ∀ r a, (r, a) ∈ restore → r.isVolatile = true ∧ place (.register r) = some a

theorem mem_of_lookup {r : Register} (h : restore.lookup r = some a) :
    (r, a) ∈ restore := by
  obtain ⟨before, after, rfl, -⟩ := List.lookup_eq_some_iff.1 h
  simp

theorem HomesHold.congr (globals : List Decl) (hp : Prepared ctx regs place) (hrst : Restorable place restore)
    (h : HomesHold ctx setting restore p but s t)
    (hscalars : ∀ slot, but ≠ some (ctx.symbol slot) →
      s'.scalars (ctx.symbol slot) = s.scalars (ctx.symbol slot))
    (hval : ∀ slot r, ctx.Live p slot → but ≠ some (ctx.symbol slot) →
      ctx.frame.homes.get slot = some (.register r) → t'.value r = t.value r)
    (hword : ∀ o a, Spot.At globals ctx place setting (.object o) a →
      (∀ slot, o = .slot slot → but ≠ some (ctx.symbol slot)) →
      (∀ r, o = .register r → ∃ b, (r, b) ∈ restore) → t'.memory.word a = t.memory.word a) :
    HomesHold ctx setting restore p but s' t' := by
  intro slot home v hlive hbut hhome hv
  rw [hscalars slot hbut] at hv
  refine (h slot home v hlive hbut hhome hv).congr (fun r hr _ => ?_) fun a ha => ?_
  · subst hr
    exact hval slot r hlive hbut hhome
  · rcases ha with rfl | ⟨r, -, hlook⟩
    · obtain ⟨hpl, harr⟩ := hp.layout.place_of_stack hhome
      refine hword _ _ (.slot hpl harr) (fun other hoth => ?_) fun r hr => by cases hr
      cases hoth
      exact hbut
    · have hmem := mem_of_lookup hlook
      refine hword _ _ (.register (hrst r a hmem).2) (fun other hoth => by cases hoth)
        fun x hx => ?_
      cases hx
      exact ⟨a, hmem⟩

theorem HomesHold.only (hp : Prepared ctx regs place) (hrst : Restorable place restore)
    (h : HomesHold ctx setting restore p but s t) (honly : Only changed t t')
    (hreg : ∀ slot r, ctx.Live p slot → but ≠ some (ctx.symbol slot) →
      ctx.frame.homes.get slot = some (.register r) → r ∉ changed) :
    HomesHold ctx setting restore p but s t' :=
  h.congr [] hp hrst (fun _ _ => rfl)
    (fun slot r hlive hbut hhome => honly.value r (hreg slot r hlive hbut hhome))
    fun _ _ _ _ _ => by rw [honly.memory]

theorem Kept.only (h : Kept globals ctx place act setting entry s t) (honly : Only changed t t')
    (hsav : ∀ r ∈ changed, r.isSaved = true → ∃ a, (r, a) ∈ ctx.frame.saved) :
    Kept globals ctx place act setting entry s t' where
  memory := by rw [honly.memory]; exact h.memory
  globals := by rw [honly.memory]; exact h.globals
  saved := by rw [honly.memory]; exact h.saved
  unsaved r hr hnot := by
    refine (honly.value r fun hmem => ?_).trans (h.unsaved r hr hnot)
    obtain ⟨a, ha⟩ := hsav r hmem hr
    exact hnot a ha
  calls := honly.calls.trans h.calls
  events := by rw [honly.events]; exact h.events

theorem Matches.scratch (hp : Prepared ctx regs place) (hrst : Restorable place restore)
    (h : Matches globals ctx place act setting restore p entry s t) (honly : Only [.t0, .t1] t t') :
    Matches globals ctx place act setting restore p entry s t' := by
  refine ⟨h.homes.only hp hrst honly fun slot r _ _ hhome hmem => ?_,
    h.kept.only honly fun r hmem hsav => ?_⟩
  · obtain ⟨-, ht0, ht1⟩ := hp.allocatable_of_home hhome
    simp [ht0, ht1] at hmem
  · simp only [List.mem_cons, List.not_mem_nil, or_false] at hmem
    rcases hmem with rfl | rfl <;> cases hsav

theorem word_write_spot (hg : Grounds globals ctx place act setting) {τ : Spot k}
    (hσ : Spot.At globals ctx place setting σ a) (hτ : Spot.At globals ctx place setting τ b)
    (hne : σ ≠ τ) (v : Int32) : (t.write a v).memory.word b = t.memory.word b :=
  Memory.word_write_of_apart _ _ (hg.spots σ τ a b hne hσ hτ)

theorem byte_write_spot (hg : Grounds globals ctx place act setting)
    (hσ : Spot.At globals ctx place setting σ a) (hrgn : region ∈ act.objects)
    (hb : region.contains b = true) (v : Int32) : (t.write a v).memory b = t.memory b := by
  refine Memory.write_outside _ _ _ (Nat.le_of_not_lt fun hlt => ?_)
  exact hg.objects region hrgn σ a hσ b ⟨hb, by simpa [Region.contains] using hlt⟩

theorem word_write_element (hg : Grounds globals ctx place act setting)
    (hrgn : region ∈ act.objects) (hholds : region.holds a = true)
    (hσ : Spot.At globals ctx place setting σ b) (v : Int32) :
    (t.write a v).memory.word b = t.memory.word b :=
  Memory.word_write_of_apart _ _
    ((hg.objects region hrgn σ b hσ).apart hholds (by simp [Region.holds]))

theorem Matches.write_element (hp : Prepared ctx regs place)
    (hg : Grounds globals ctx place act setting) (hrst : Restorable place restore)
    (h : Matches globals ctx place act setting restore p entry s t) (hrgn : region ∈ act.objects)
    (hholds : region.holds a = true) (v : Int32) :
    Matches globals ctx place act setting restore p entry
      { s with memory := s.memory.write a v, events := s.events ++ [.store a v] }
      { t.write a v with events := t.events ++ [.store a v] } where
  homes := h.homes.congr globals hp hrst (fun _ _ => rfl) (fun _ _ _ _ _ => rfl)
    fun _ _ ho _ _ => word_write_element hg hrgn hholds ho v
  kept := {
    memory := fun other hoth b hb => by
      show t.memory.write a v b = s.memory.write a v b
      unfold Memory.write
      split
      · rfl
      · exact h.kept.memory other hoth b hb
    globals := fun x b hx =>
      (h.kept.globals x b hx).trans (congrArg some (word_write_element hg hrgn hholds hx v).symm)
    saved := fun r b hr =>
      (word_write_element hg hrgn hholds (.register (hp.layout.saved r b hr).2) v).trans
        (h.kept.saved r b hr)
    unsaved := h.kept.unsaved
    calls := h.kept.calls
    events := List.rel_append h.kept.events (.cons (.store a v) .nil) }

theorem Kept.write_object (hp : Prepared ctx regs place)
    (hg : Grounds globals ctx place act setting) (h : Kept globals ctx place act setting entry s t)
    {o : Object k} (ho : Spot.At globals ctx place setting (.object o) a)
    (hsav : ∀ r, o = .register r → r.isSaved = false) (v : Int32) :
    Kept globals ctx place act setting entry s (t.write a v) where
  memory region hrgn b hb := (byte_write_spot hg ho hrgn hb v).trans (h.memory region hrgn b hb)
  globals x b hx := by
    rw [word_write_spot hg ho hx (by simp) v]
    exact h.globals x b hx
  saved r b hr := by
    obtain ⟨hrsaved, hpl⟩ := hp.layout.saved r b hr
    rw [word_write_spot hg ho (.register hpl) ?_ v]
    · exact h.saved r b hr
    · rintro heq
      cases heq
      rw [hsav r rfl] at hrsaved
      cases hrsaved
  unsaved := h.unsaved
  calls := h.calls
  events := h.events

end

end SysY.Tigger

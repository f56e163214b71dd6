import SysY.Proofs.Eeyore.Runs
import SysY.Proofs.Generation.Constants
import SysY.Proofs.Generation.Emission
import SysY.Proofs.Structured.Keeps

/-!
# Running generated code

A stage is where generated code runs: the body of a function that contains the code, together with
the site of the source function. The state of the code shows the store of the source: variables and
memory agree, except for bytes that are stale because the code writes them later, and the calls are
the same. Temporaries hold values in between.
-/

namespace SysY.Eeyore

def callsOf (events : List Event) : List (String × List Int32) :=
  events.filterMap fun
    | .call function arguments => some (function, arguments)
    | _ => none

end SysY.Eeyore

namespace SysY.Generation

open Eeyore Eeyore.Activation Flow Structured
open Tree (Formula Formulas)

/-! ## Stages -/

/-- A state shows a store, except for the stale bytes. -/
structure Shows (stale : UInt32 → Prop) (store : Store) (s : State) : Prop where
  scalars : ∀ x, x.isTemp = false → s.scalars x = store.scalars x
  temps : ∀ x, x.isTemp = true → store.scalars x = none
  memory : ∀ a, ¬ stale a → s.memory a = store.memory a
  count : s.calls = store.calls.length
  calls : callsOf s.events = store.calls

/-- Where generated code runs. -/
structure Stage where
  n : Nat
  body : Vector Instruction n
  /-- Where the code of the builder begins. -/
  base : Nat
  act : Activation
  site : Site
  unique : ∀ p q l, body.get p = .label l → body.get q = .label l → p = q
  own : ∀ x, x.isTemp = false → act.isLocal x = site.own x
  own_temps : ∀ x, x.isTemp = true → site.own x = true
  temps : ∀ x, x.isTemp = true → act.array? x = none
  parameters : ∀ x, x.kind = .parameter → act.array? x = none
  reply : act.reply = site.world.reply
  keeps : act.keeps = site.world.keeps
  others : ∀ r ∈ site.world.others, r ∈ act.objects

variable {stale : UInt32 → Prop} {s : State} {store : Store} {a c : Int32} {left right : Value}
  {relation : Relation}

theorem Shows.at (h : Shows stale store s) (p : Nat) : Shows stale store (s.at p) :=
  ⟨h.scalars, h.temps, h.memory, h.count, h.calls⟩

theorem Shows.set_temp (h : Shows stale store s) (i : UInt32)
    (v : Int32) : Shows stale store (s.set (.temp i) v) where
  scalars x hx := by
    rw [← h.scalars x hx]
    refine if_neg ?_
    rintro rfl
    cases hx
  temps := h.temps
  memory := h.memory
  count := h.count
  calls := h.calls

theorem Shows.word {hidden : Option Region} {a : UInt32} (hs : Shows stale store s)
    (hstale : ∀ a, stale a → hidden.any (·.contains a) = true)
    (ha : hidden.any (·.touches a) = false) : s.memory.word a = store.memory.word a := by
  refine Memory.word_congr fun k hk => hs.memory _ fun h => ?_
  obtain ⟨region, rfl, hcon⟩ := (Option.any_eq_true _ _).1 (hstale _ h)
  rw [Region.contains_of_touches ha hk] at hcon
  cases hcon

namespace Stage

variable (stage : Stage)

/-- The code of a builder is part of the body, and what it declares is known. -/
structure Covers (b : Builder) : Prop where
  code : ∀ i instruction, b.code.body.toList[i]? = some instruction →
    ∃ p : Fin stage.n, p.val = stage.base + i ∧ stage.body.get p = instruction
  temps : ∀ i : UInt32, i.toNat < b.code.temps.toNat → stage.act.isLocal (.temp i) = true
  parameters : ∀ d ∈ b.code.decls.toList, d.symbol.kind = .parameter →
    stage.act.isLocal d.symbol = true
  decls : ∀ d ∈ b.code.decls.toList, stage.act.array? d.symbol =
    d.size.map fun size => ⟨stage.site.world.place d.symbol, 4 * size.toNat⟩

/-- A run has come to the end of the code of a builder. -/
structure At (stale : UInt32 → Prop) (b : Builder) (store : Store) (s : State) : Prop
    extends Shows stale store s where
  position : s.position = stage.base + b.code.body.size

/-- A run of the code between two builders, from a moment of an expression to a later one. -/
structure Advances (hidden : Option Region) (stale : UInt32 → Prop) (b b' : Builder)
    (m m' : Moment) (s s' : State) : Prop where
  comes : Comes stage.act stage.body s s'
  arrives : stage.At stale b' m'.store s'
  temps : ∀ i : UInt32, i.toNat < b.code.temps.toNat → s'.scalars (.temp i) = s.scalars (.temp i)
  keeps : Keeps stage.site hidden m m'

/-- A value stands for a word, and goes on doing so: it is a constant, a temporary that is in use, an
address, a variable that no call changes or one that the expression has read. -/
structure Denotes (b : Builder) (m : Moment) (s : State) (x : Value) (v : Int32) : Prop where
  value : stage.act.value s x = some v
  temp : ∀ i, x = .symbol (.temp i) → i.toNat < b.code.temps.toNat
  read : ∀ y, x = .symbol y → y.isTemp = false → stage.act.array? y = none →
    stage.site.own y = false → y ∈ m.reads

/-- The code between two builders computes a word into a value. -/
def Evaluates (hidden : Option Region) (stale : UInt32 → Prop) (b b' : Builder) (x : Value)
    (m : Moment) (v : Int32) (m' : Moment) : Prop :=
  ∀ s, stage.At stale b m.store s →
    ∃ s', stage.Advances hidden stale b b' m m' s s' ∧ stage.Denotes b' m' s' x v

variable {stage} {hidden : Option Region} {stale : UInt32 → Prop} {b b1 b2 b' : Builder}
  {m m1 m2 m' : Moment} {s s1 s2 s' : State} {i : Instruction} {l : Label} {v : Int32}

/-! ## Code -/

theorem Covers.mono (h : stage.Covers b') (hgr : Grows b b') : stage.Covers b := by
  obtain ⟨code, hbody, _⟩ := hgr.body
  refine ⟨fun i instr hi => h.code i instr ?_, fun i hi => h.temps i ?_,
    fun d hd => h.parameters d (hgr.mem_decls hd), fun d hd => h.decls d (hgr.mem_decls hd)⟩
  · have hlt : i < b.code.body.toList.length := by
      by_contra hge
      rw [List.getElem?_eq_none (by omega)] at hi
      cases hi
    rw [hbody, List.getElem?_append_left hlt, hi]
  · have := hgr.temps
    omega

theorem Covers.of_emit (h : stage.Covers (b.emit i)) : stage.Covers b := by
  refine ⟨fun j instr hj => h.code j instr ?_, h.temps, h.parameters, h.decls⟩
  have hlt : j < b.code.body.toList.length := by
    by_contra hge
    rw [List.getElem?_eq_none (by omega)] at hj
    cases hj
  rw [toList_emit, List.getElem?_append_left hlt, hj]

theorem Covers.get (h : stage.Covers (b.emit i)) :
    ∃ p : Fin stage.n, p.val = stage.base + b.code.body.size ∧ stage.body.get p = i := by
  apply h.code
  rw [toList_emit, ← Array.length_toList, List.getElem?_append_right (Nat.le_refl _), Nat.sub_self]
  rfl

theorem Covers.labelPosition (h : stage.Covers (b.emit (.label l))) :
    ∃ p : Fin stage.n, p.val = stage.base + b.code.body.size ∧
      labelPosition? stage.body l = some p := by
  obtain ⟨p, hp, hget⟩ := h.get
  refine ⟨p, hp, labelPosition?_eq_some.2 ⟨hget, fun q hq hget' => ?_⟩⟩
  rw [stage.unique p q l hget hget'] at hq
  exact absurd hq (Fin.lt_irrefl q)

@[simp] theorem size_emit (b : Builder) (i : Instruction) :
    (b.emit i).code.body.size = b.code.body.size + 1 := by
  simp [Builder.emit]

/-! ## Steps -/

theorem comes_next (hcov : stage.Covers (b.emit i))
    (hs : s.position = stage.base + b.code.body.size) (heff : stage.act.effect s i = some s1)
    (hdir : stage.act.direction s i = some .next) :
    Comes stage.act stage.body s (s1.at (stage.base + (b.emit i).code.body.size)) := by
  obtain ⟨p, hp, rfl⟩ := hcov.get
  refine .tail .refl ((step_of_get (hs.trans hp.symm) heff hdir).trans ?_)
  rw [follow, position_of_effect heff, hs, size_emit]
  rfl

theorem comes_goto (hcov : stage.Covers (b.emit i)) (hlab : stage.Covers (b'.emit (.label l)))
    (hs : s.position = stage.base + b.code.body.size) (heff : stage.act.effect s i = some s1)
    (hdir : stage.act.direction s i = some (.goto l)) :
    Comes stage.act stage.body s (s1.at (stage.base + b'.code.body.size)) := by
  obtain ⟨p, hp, rfl⟩ := hcov.get
  obtain ⟨q, hq, hl⟩ := hlab.labelPosition
  refine .tail .refl ((step_of_get (hs.trans hp.symm) heff hdir).trans ?_)
  rw [follow, hl, ← hq]
  rfl

theorem comes_label (hcov : stage.Covers (b.emit (.label l)))
    (hs : s.position = stage.base + b.code.body.size) :
    Comes stage.act stage.body s (s.at (stage.base + (b.emit (.label l)).code.body.size)) :=
  comes_next hcov hs rfl rfl

theorem comes_branch_taken (hcov : stage.Covers (b.emit (.branch left relation right l)))
    (hlab : stage.Covers (b'.emit (.label l))) (hs : s.position = stage.base + b.code.body.size)
    (hl : stage.act.value s left = some a) (hr : stage.act.value s right = some c)
    (hholds : relation.holds a c = true) :
    Comes stage.act stage.body s (s.at (stage.base + b'.code.body.size)) :=
  comes_goto hcov hlab hs rfl ((direction_branch hl hr).trans (by rw [if_pos hholds]))

theorem comes_branch_skipped (hcov : stage.Covers (b.emit (.branch left relation right l)))
    (hs : s.position = stage.base + b.code.body.size) (hl : stage.act.value s left = some a)
    (hr : stage.act.value s right = some c) (hholds : relation.holds a c = false) :
    Comes stage.act stage.body s
      (s.at (stage.base + (b.emit (.branch left relation right l)).code.body.size)) :=
  comes_next hcov hs rfl ((direction_branch hl hr).trans (by rw [if_neg (by simp [hholds])]))

/-! ## Progress -/

theorem Advances.refl (h : stage.At stale b m.store s) : stage.Advances hidden stale b b m m s s :=
  ⟨.refl, h, fun _ _ => rfl, .refl m⟩

theorem Advances.trans (h1 : stage.Advances hidden stale b b1 m m1 s s1)
    (h2 : stage.Advances hidden stale b1 b2 m1 m2 s1 s2) (hgr : Grows b b1) :
    stage.Advances hidden stale b b2 m m2 s s2 := by
  refine ⟨h1.comes.trans h2.comes, h2.arrives, fun i hi => ?_, h1.keeps.trans h2.keeps⟩
  have := hgr.temps
  rw [h2.temps i (by omega), h1.temps i hi]

theorem Denotes.const (b : Builder) (m : Moment) (s : State) (c : Int32) :
    stage.Denotes b m s (.const c) c := ⟨rfl, by simp, by simp⟩

theorem denotes_temp {i : UInt32} (m : Moment) (hi : i.toNat < b.code.temps.toNat)
    (hv : s.scalars (.temp i) = some v) : stage.Denotes b m s (.symbol (.temp i)) v := by
  refine ⟨?_, ?_, ?_⟩
  · simpa only [Activation.value, stage.temps (.temp i) rfl] using hv
  · rintro j ⟨⟩
    exact hi
  · rintro y ⟨⟩ hy
    cases hy

theorem Denotes.persist {x : Value} (h : stage.Denotes b m s x v) (hs : Shows stale m.store s)
    (hadv : stage.Advances hidden stale b b' m m' s s')
    (hgr : Grows b b') : stage.Denotes b' m' s' x v := by
  refine ⟨?_, fun i hi => ?_, fun y hy htemp harr hown =>
    hadv.keeps.reads y (h.read y hy htemp harr hown)⟩
  · rw [← h.value]
    cases x with
    | const c => rfl
    | symbol y =>
      simp only [Activation.value]
      cases harr : stage.act.array? y with
      | some region => rfl
      | none =>
        dsimp only
        by_cases htemp : y.isTemp = true
        · have hy : y = .temp y.id := by
            obtain ⟨kind, id⟩ := y
            cases kind <;> first | rfl | cases htemp
          rw [hy]
          exact hadv.temps _ (h.temp y.id (congrArg _ hy))
        · rw [Bool.not_eq_true] at htemp
          rw [hadv.arrives.scalars y htemp, hs.scalars y htemp]
          by_cases hown : stage.site.own y = true
          · exact hadv.keeps.own y hown
          · rw [Bool.not_eq_true] at hown
            exact hadv.keeps.fixed y (h.read y rfl htemp harr hown)
  · have := h.temp i hi
    have := hgr.temps
    omega

theorem advances_compute {i : Symbol → Instruction} {dest : Symbol}
    (hcomp : Computes b i dest b') (hcov : stage.Covers b')
    (hat : stage.At stale b m.store s) (hdir : stage.act.direction s (i dest) = some .next)
    (heff : stage.act.effect s (i dest) = stage.act.assign s1 dest v)
    (hs1 : Shows stale m'.store s1) (htemps : ∀ j : UInt32, j.toNat < b.code.temps.toNat →
      s1.scalars (.temp j) = s.scalars (.temp j)) (hkps : Keeps stage.site hidden m m') :
    ∃ s', stage.Advances hidden stale b b' m m' s s' ∧
      stage.Denotes b' m' s' (.symbol dest) v := by
  obtain ⟨hroom, rfl, rfl⟩ := hcomp
  have htemp : (b.addTemp.emit (i (.temp b.code.temps))).code.temps.toNat =
      b.code.temps.toNat + 1 := toNat_succ hroom
  have hloc := hcov.temps b.code.temps (by omega)
  have harr := stage.temps (.temp b.code.temps) rfl
  have hasg := assign_local s1 v harr hloc
  refine ⟨_, ⟨comes_next hcov hat.position (heff.trans hasg) hdir,
    ⟨(hs1.set_temp _ v).at _, rfl⟩, fun j hj => ?_, hkps⟩, denotes_temp _ ?_ (s1.set_self _ v)⟩
  · rw [← htemps j hj]
    refine State.set_ne s1 v ?_
    rintro ⟨⟩
    exact Nat.lt_irrefl _ hj
  · omega

end Stage

end SysY.Generation

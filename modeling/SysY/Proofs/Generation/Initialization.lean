import SysY.Proofs.Generation.Clearing
import SysY.Proofs.Generation.Distribution
import SysY.Proofs.Generation.Jumps
import SysY.Proofs.Generation.Naming

/-!
# Running initializers

The elements of a local array are evaluated in order, but zeros are only written where a run of them
ends. Until then the bytes of the run are stale: the source has them zero already. No initializer can
tell, since the array is hidden while its elements are evaluated.
-/

namespace SysY.Generation

open Eeyore Eeyore.Activation Structured List
open Tree (Expr Definition Declaration Initializer)

/-! ## What a state shows -/

variable {stale stale' : UInt32 → Prop} {s : State}

theorem Shows.weaken {store : Store} (h : Shows stale store s)
    (hsub : ∀ a, stale a → stale' a) : Shows stale' store s :=
  ⟨h.scalars, h.temps, fun a ha => h.memory a fun hstale => ha (hsub a hstale), h.count, h.calls⟩

theorem Shows.spares {store : Store} {memory : Memory} {b : Builder} {s' : State}
    (h : Shows stale store s) (hspr : Stage.Spares b s s')
    (hmemo : ∀ a, ¬ stale' a → s'.memory a = memory a) :
    Shows stale' { store with memory := memory } s' where
  scalars x hx := (hspr.scalars x hx).trans (h.scalars x hx)
  temps := h.temps
  memory := hmemo
  count := hspr.count.trans h.count
  calls := hspr.calls.trans h.calls

/-! ## Zeros that are not written yet -/

/-- The bytes of a run of zeros. -/
def pending (array : Region) (run : ZeroRun) (a : UInt32) : Prop :=
  (Region.words array.start run.start run.length).contains a = true

theorem not_pending {array : Region} {run : ZeroRun} {a : UInt32} (h : run.length = 0) :
    ¬ pending array run a := by
  simp [pending, Region.words, Region.contains, h]

theorem pending_extend {array : Region} {run : ZeroRun} {position count : Nat} {a : UInt32}
    (hadjacent : run.length ≠ 0 → run.start + run.length = position)
    (hsm : 4 * (position + count) < 4294967296) :
    pending array (run.extend position count) a ↔
      pending array run a ∨ (Region.words array.start position count).contains a = true := by
  unfold ZeroRun.extend
  split
  · rename_i hlen
    exact ⟨.inr, fun h => h.resolve_left (not_pending hlen)⟩
  · rename_i hlen
    have hend := hadjacent hlen
    simp only [pending]
    rw [Region.contains_words (by omega), Region.contains_words (by omega),
      Region.contains_words (by omega)]
    omega

theorem adjacent_extend {run : ZeroRun} {position count : Nat}
    (hadjacent : run.length ≠ 0 → run.start + run.length = position) :
    (run.extend position count).start + (run.extend position count).length = position + count := by
  unfold ZeroRun.extend
  split
  · rfl
  · rename_i hlen
    have hend := hadjacent hlen
    dsimp only
    omega

namespace Stage

variable {stage : Stage} {outer : List Decl} {env : Environment} {sigs : Signatures}
  {b b1 b2 b' : Builder} {store store1 store' : Store} {s s1 s' : State} {array : Region}
  {run : ZeroRun} {k : Nat} {memory memory' : Memory} {x : Value} {isConstant : Bool}
  {stale : UInt32 → Prop} {v : Int32} {dims : List Int32} {meaning : Meaning}

/-- In the middle of an initialization: memory is as intended but for zeros that are not written yet, and
these end at the element that comes next. -/
structure Held (array : Region) (run : ZeroRun) (k : Nat) (goal : Memory) (s : State) : Prop where
  memory : ∀ a, ¬ pending array run a → s.memory a = goal a
  zero : ∀ a, pending array run a → goal a = 0
  adjacent : run.length ≠ 0 → run.start + run.length = k
  before : run.start + run.length ≤ k
  inside : 4 * k ≤ array.bytes

/-- In the middle of an initialization, with all that a state shows. -/
structure Filling (stage : Stage) (array : Region) (run : ZeroRun) (k : Nat) (b : Builder)
    (store : Store) (s : State) : Prop extends stage.At (pending array run) b store s,
    Held array run k store.memory s

namespace Held

theorem contains (h : Held array run k memory s) (hsm : array.bytes < 2147483648) {a : UInt32}
    (ha : pending array run a) : array.contains a = true := by
  have hbef := h.before
  have hins := h.inside
  have hrange := (Region.contains_words (by omega)).1 ha
  simp only [Region.contains, decide_eq_true_eq]
  omega

theorem skip {target : Target} {progress : Progress} {count : Nat}
    (h : Held array progress.zeros progress.position memory s)
    (hzd : Zeroed array.start progress.position count memory memory')
    (hglob : target.isGlobal = true → progress.zeros.length = 0 ∧
      ∀ a, (Region.words array.start progress.position count).contains a = true → memory a = 0)
    (hins : 4 * (progress.position + count) ≤ array.bytes) (hsm : array.bytes < 2147483648) :
    Held array (progress.skip target count).zeros (progress.position + count) memory' s := by
  unfold Progress.skip
  split
  · rename_i htgt
    obtain ⟨hnone, hz⟩ := hglob htgt
    have hsame : ∀ a, memory' a = memory a := fun a => by
      rw [hzd a]
      split
      · rename_i ha
        exact (hz a ha).symm
      · rfl
    have hbef := h.before
    exact ⟨fun a ha => (h.memory a ha).trans (hsame a).symm, fun a ha => absurd ha (not_pending hnone),
      fun hne => absurd hnone hne, by omega, hins⟩
  · have hpend := fun a => @pending_extend array _ _ count a h.adjacent (by omega)
    have hend := @adjacent_extend _ _ count h.adjacent
    refine ⟨fun a ha => ?_, fun a ha => ?_, fun _ => hend, Nat.le_of_eq hend, hins⟩
    · rw [hpend, not_or] at ha
      rw [h.memory a ha.1, hzd a, if_neg ha.2]
    · rw [hzd a]
      split
      · rfl
      · rename_i hout
        exact h.zero a (((hpend a).1 ha).resolve_right hout)

theorem settle {symbol : Symbol} {u : Unit} (h : Held array run k memory s)
    (hb : Builds (clear symbol run) b u b') (hcov : stage.Covers b')
    (harr : stage.act.array? symbol = some array) (hsm : array.bytes < 2147483648)
    (hs : s.position = stage.base + b.code.body.size) :
    ∃ s', stage.Clears array.start run.start run.length b b' s s' ∧ ∀ a, s'.memory a = memory a := by
  have hbef := h.before
  have hins := h.inside
  obtain ⟨s', hclrs⟩ := clears_clear hb hcov (fun _ => harr) (by omega) hsm hs
  refine ⟨s', hclrs, fun a => ?_⟩
  rw [hclrs.zeroed a]
  split
  · rename_i hpend
    exact (h.zero a hpend).symm
  · rename_i hpend
    exact h.memory a hpend

end Held

/-! ## Elements -/

theorem Spares.value {act : Activation} (h : Spares b s s')
    (hx : ∀ i, x = .symbol (.temp i) → i.toNat < b.code.temps.toNat) :
    act.value s' x = act.value s x := by
  refine value_congr fun y hy => ?_
  cases x with
  | const c => cases hy
  | symbol z =>
    cases hy
    by_cases htemp : y.isTemp = true
    · have hy : y = .temp y.id := by
        obtain ⟨kind, id⟩ := y
        cases kind <;> first | rfl | cases htemp
      rw [hy]
      exact h.temps _ (hx y.id (congrArg _ hy))
    · exact h.scalars y (by simpa using htemp)

theorem comes_element {expr : Expr} {hidden : Option Region}
    (hstale : ∀ a, stale a → hidden.any (·.contains a) = true) (hnm : stage.Names env)
    (henv : b.scopes.find? = env) (hb : Builds (evalExpr sigs expr) b x b')
    (hcov : stage.Covers b')
    (hv : stage.site.element isConstant env hidden (some expr) store = some (v, store'))
    (hat : stage.At stale b store s) :
    ∃ m s', Comes stage.act stage.body s s' ∧ stage.At stale b' store' s' ∧
      stage.Denotes b' m s' x v ∧
      ∀ a, hidden.any (·.contains a) = true → store'.memory a = store.memory a := by
  unfold Site.element at hv
  dsimp only at hv
  cases isConstant with
  | true =>
    obtain ⟨c, hc, heq⟩ := Option.map_eq_some_iff.1 hv
    cases heq
    obtain ⟨rfl, rfl⟩ := eval_of_constant hnm.valid henv hc hb
    exact ⟨⟨store, []⟩, s, .refl, hat, .const _ _ _ _, fun _ _ => rfl⟩
  | false =>
    obtain ⟨⟨w, m⟩, hw, heq⟩ := Option.map_eq_some_iff.1 hv
    cases heq
    obtain ⟨s', hadv, hden⟩ := evaluates_eval hstale hnm henv hb hcov hw s hat
    exact ⟨m, s', hadv.comes, hadv.arrives, hden, hadv.keeps.hidden⟩

theorem fill_append (site : Site) (constant : Bool) (env : Environment) (array : Region) (k : Nat)
    (first second : List (Option Expr)) (store : Store) :
    site.fill constant env array k (first ++ second) store =
      (site.fill constant env array k first store).bind
        (site.fill constant env array (k + first.length) second) := by
  induction first generalizing k store with
  | nil => rfl
  | cons initial first ih =>
    simp only [cons_append, Site.fill, Option.bind_eq_bind, length_cons]
    cases site.element constant env (some array) initial store with
    | none => rfl
    | some result =>
      have hsum : k + (first.length + 1) = k + 1 + first.length := by omega
      rw [hsum]
      exact ih (k + 1) _

theorem fill_replicate {site : Site} {constant : Bool} {count : Nat}
    (hsm : 4 * (k + count) < 4294967296)
    (h : site.fill constant env array k (List.replicate count none) store = some store') :
    ∃ memory, store' = { store with memory := memory } ∧
      Zeroed array.start k count store.memory memory := by
  induction count generalizing k store with
  | zero =>
    cases h
    exact ⟨_, rfl, .none _ _ _⟩
  | succ count ih =>
    obtain ⟨memory, hsto, hzd⟩ := ih (by omega) h
    refine ⟨memory, hsto, ?_⟩
    rw [Nat.add_comm count 1]
    exact (Zeroed.word array.start k store.memory).trans hzd (by omega)

section Arrays

variable {target : Target} {progress p : Progress}

theorem held_element {x : Value} {v : Int32} (htgt : target.isArray = true)
    (harr : stage.act.array? target.symbol = some array) (hsm : array.bytes < 2147483648)
    (hins : 4 * (progress.position + 1) ≤ array.bytes)
    (hb : Builds (initializeElement target progress x) b p b') (hcov : stage.Covers b')
    (hx : ∀ i, x = .symbol (.temp i) → i.toNat < b.code.temps.toNat)
    (hv : stage.act.value s x = some v) (hs : s.position = stage.base + b.code.body.size)
    (hglob : target.isGlobal = true → progress.zeros.length = 0 ∧
      ∀ a, (Region.words array.start progress.position 1).contains a = true → memory a = 0)
    (h : Held array progress.zeros progress.position memory s) :
    ∃ s', Comes stage.act stage.body s s' ∧ s'.position = stage.base + b'.code.body.size ∧
      Spares b s s' ∧ Held array p.zeros (progress.position + 1)
        (memory.write (array.start + UInt32.ofNat (4 * progress.position)) v) s' := by
  rcases initializeElement_cases hb with ⟨_, hsca, _⟩ | ⟨_, ⟨rfl, _, rfl, rfl⟩ |
    ⟨_, rfl, b1, hclr, ⟨_, hw⟩ | ⟨hsca, _⟩⟩⟩
  · cases htgt.symm.trans hsca
  · cases hv
    exact ⟨s, .refl, hs, .refl _ _, h.skip (.word _ _ _) hglob hins hsm⟩
  · have hcov1 := hcov.mono (emits_writeElement hw).toGrows
    obtain ⟨s1, hclrs, hmemo1⟩ := h.settle hclr hcov1 harr hsm hs
    obtain ⟨s2, hcom2, hpos2, hspr2, hmemo2⟩ := comes_writeElement hw hcov
      harr hins (by omega) hclrs.arrives ((hclrs.toSpares.value hx).trans hv)
    refine ⟨s2, hclrs.comes.trans hcom2, hpos2,
      hclrs.toSpares.trans hspr2 (emits_clear hclr).temps, fun a _ => ?_,
      fun a ha => absurd ha (not_pending rfl), fun hne => absurd rfl hne, Nat.zero_le _, hins⟩
    rw [hmemo2]
    unfold Memory.write
    split
    · rfl
    · exact hmemo1 a
  · cases htgt.symm.trans hsca

theorem filling_cell {cell : Cell} (hloc : target.isGlobal = false) (htgt : target.isArray = true)
    (harr : stage.act.array? target.symbol = some array) (hsm : array.bytes < 2147483648)
    (hins : 4 * (progress.position + cell.expand.length) ≤ array.bytes) (hnm : stage.Names env)
    (henv : b.scopes.find? = env)
    (hb : Builds (initializeCell sigs target progress cell) b p b') (hcov : stage.Covers b')
    (hfill : stage.site.fill target.isConstant env array progress.position cell.expand store =
      some store') (h : stage.Filling array progress.zeros progress.position b store s) :
    p.position = progress.position + cell.expand.length ∧ ∃ s', Comes stage.act stage.body s s' ∧
      stage.Filling array p.zeros p.position b' store' s' := by
  cases cell with
  | value expr =>
    obtain ⟨x, b1, p1, hx, helt, hpos, hzeros, -⟩ := initializeCell_value hb
    refine ⟨hpos, ?_⟩
    obtain ⟨⟨v, store1⟩, hv, hfill⟩ := Option.bind_eq_some_iff.1 hfill
    cases hfill
    have hstale : ∀ a, pending array progress.zeros a →
        (some array).any (·.contains a) = true := fun a ha => h.toHeld.contains hsm ha
    have hcov1 := hcov.mono (emits_initializeElement helt).toGrows
    obtain ⟨m, s1, hcom1, hat1, hden, hkps⟩ := comes_element hstale hnm henv hx hcov1 hv h.toAt
    have hfil1 : stage.Filling array progress.zeros progress.position b1 store1 s1 :=
      ⟨hat1, fun a ha => (hkps a (hstale a ha)).trans (h.zero a ha), h.adjacent, h.before, h.inside⟩
    obtain ⟨s2, hcom2, hpos2, hspr2, hheld2⟩ := held_element htgt harr hsm hins
      helt hcov hden.temp hden.value hat1.position (by simp [hloc]) hfil1.toHeld
    rw [hpos, hzeros]
    exact ⟨s2, hcom1.trans hcom2, ⟨hat1.toShows.spares hspr2 hheld2.memory, hpos2⟩,
      hheld2.zero, hheld2.adjacent, hheld2.before, hheld2.inside⟩
  | blank count =>
    have hlen : (Cell.blank count).expand.length = count := length_replicate
    rw [hlen] at hins ⊢
    obtain ⟨rfl, hpos, hzeros, _⟩ := initializeCell_blank hb
    refine ⟨hpos, s, .refl, ?_⟩
    rw [hpos, hzeros]
    by_cases hcnt : count = 0
    · subst hcnt
      cases hfill
      rw [if_pos rfl]
      exact h
    · obtain ⟨memory, rfl, hzd⟩ := fill_replicate (by omega) hfill
      have hheld := @Held.skip s array _ _ target _ _ h.toHeld hzd (by simp [hloc]) hins hsm
      rw [if_neg hcnt]
      exact ⟨⟨h.toShows.spares (.refl b' s) hheld.memory, h.position⟩, hheld.zero, hheld.adjacent,
        hheld.before, hheld.inside⟩

theorem filling_cells {cells : List Cell} (hloc : target.isGlobal = false)
    (htgt : target.isArray = true) (harr : stage.act.array? target.symbol = some array)
    (hsm : array.bytes < 2147483648)
    (hins : 4 * (progress.position + (cells.flatMap Cell.expand).length) ≤ array.bytes)
    (hnm : stage.Names env) (henv : b.scopes.find? = env)
    (hb : Builds (cells.foldlM (initializeCell sigs target) progress) b p b')
    (hcov : stage.Covers b') (hfill : stage.site.fill target.isConstant env array progress.position
      (cells.flatMap Cell.expand) store = some store')
    (h : stage.Filling array progress.zeros progress.position b store s) :
    ∃ s', Comes stage.act stage.body s s' ∧
      stage.Filling array p.zeros p.position b' store' s' := by
  induction cells generalizing b progress store s with
  | nil =>
    obtain ⟨rfl, rfl⟩ := builds_foldlM_nil.1 hb
    cases hfill
    exact ⟨s, .refl, h⟩
  | cons cell cells ih =>
    obtain ⟨p1, b1, hcell, hrest⟩ := builds_foldlM_cons.1 hb
    rw [flatMap_cons, fill_append] at hfill
    obtain ⟨store1, hfst, hsnd⟩ := Option.bind_eq_some_iff.1 hfill
    rw [flatMap_cons, length_append] at hins
    obtain ⟨hpos, s1, hcom1, hfil1⟩ := filling_cell hloc htgt harr hsm
      (by omega) hnm henv hcell (hcov.mono (emits_initializeCells hrest).toGrows) hfst h
    have henv1 := (emits_initializeCell hcell).find?_eq henv
    rw [← hpos] at hsnd
    obtain ⟨s2, hcom2, hfil2⟩ := ih (by omega) henv1 hrest hsnd hfil1
    exact ⟨s2, hcom1.trans hcom2, hfil2⟩

end Arrays

/-! ## Scalars -/

theorem shows_assign {x : Symbol} (v : Int32) (h : Shows stale store s) (hx : x.isTemp = false)
    (harr : stage.act.array? x = none) :
    ∃ s', stage.act.assign s x v = some s' ∧ Shows stale (store.assign x v) s' := by
  refine ⟨_, assign_eq_some.2 ⟨harr, rfl⟩, fun y hy => ?_, fun y hy => ?_, h.memory, h.count, ?_⟩
  · simp only [Store.assign, h.scalars y hy]
  · have hne : y ≠ x := by
      rintro rfl
      rw [hx] at hy
      cases hy
    simp only [Store.assign, if_neg hne, h.temps y hy]
  · show callsOf (if stage.act.isLocal x then s.events else s.events ++ [.assign x v]) = _
    split
    · exact h.calls
    · rw [callsOf, filterMap_append]
      exact (append_nil _).trans h.calls

theorem comes_copy {x : Symbol} {y : Value} (hcov : stage.Covers (b.emit (.copy x y)))
    (hx : x.isTemp = false) (harr : stage.act.array? x = none) (hat : stage.At stale b store s)
    (hv : stage.act.value s y = some v) :
    ∃ s', Comes stage.act stage.body s s' ∧
      stage.At stale (b.emit (.copy x y)) (store.assign x v) s' := by
  obtain ⟨s1, hasg, hshows⟩ := shows_assign v hat.toShows hx harr
  have heff : stage.act.effect s (.copy x y) = some s1 := by
    simpa only [effect, hv, Option.bind_eq_bind, Option.bind_some] using hasg
  exact ⟨_, comes_next hcov hat.position heff rfl, hshows.at _, rfl⟩

theorem initialElements_eq_some {init : Initializer} {initial : List (Option Expr)}
    (h : initialElements dims init = some initial) :
    ∃ cells, distribute (lengths dims) init = .ok cells ∧
      initial = cells.flatMap Cell.expand := by
  unfold initialElements at h
  split at h
  · rename_i cells hcel
    exact ⟨cells, hcel, (Option.some.inj h).symm⟩
  · cases h

theorem comes_scalar {init : Initializer} {values : Option (Array Int32)}
    (hdims : meaning.dimensions = []) (hsym : meaning.symbol.isTemp = false)
    (harr : stage.act.array? meaning.symbol = none)
    (hb : Builds (writeInitializer sigs ⟨meaning.symbol, false, isConstant, false⟩ []
      init) b values b') (hcov : stage.Covers b') (hnm : stage.Names env)
    (henv : b.scopes.find? = env)
    (hset : stage.site.setUp isConstant env meaning init store = some store')
    (hat : stage.At clean b store s) :
    ∃ s', Comes stage.act stage.body s s' ∧ stage.At clean b' store' s' := by
  obtain ⟨expr, x, b1, p, hcel, hx, helt, _⟩ := writeInitializer_scalar rfl hb
  unfold Site.setUp at hset
  obtain ⟨initial, hinit, hset⟩ := Option.bind_eq_some_iff.1 hset
  obtain ⟨cells', hcel', rfl⟩ := initialElements_eq_some hinit
  rw [hdims] at hcel' hset
  cases hcel'.symm.trans hcel
  obtain ⟨⟨v, store1⟩, hv, hset⟩ := Option.bind_eq_some_iff.1 hset
  obtain ⟨m, s1, hcom, hat1, hden, _⟩ := comes_element clean_hidden hnm henv hx
    (hcov.mono (emits_initializeElement helt).toGrows) hv hat
  rcases initializeElement_cases helt with ⟨hcst, _, rfl, rfl⟩ |
    ⟨hvar, ⟨_, harr', _⟩ | ⟨_, rfl, b2, hclr, ⟨harr', _⟩ | ⟨_, rfl⟩⟩⟩
  · obtain rfl : isConstant = true := hcst
    cases hset
    exact ⟨s1, hcom, hat1⟩
  · exact harr'.elim nofun nofun
  · cases harr'
  · obtain rfl := builds_clear_none hclr rfl
    obtain rfl : isConstant = false := by simpa using hvar
    cases hset
    obtain ⟨s2, hcom2, hat2⟩ := comes_copy hcov hsym harr hat1 hden.value
    exact ⟨s2, hcom.trans hcom2, hat2⟩

/-! ## Definitions -/

theorem comes_array {target : Target} {init : Initializer} {values : Option (Array Int32)}
    {initial : List (Option Expr)} (hloc : target.isGlobal = false)
    (htgt : target.isArray = true) (harr : stage.act.array? target.symbol = some array)
    (hbyt : array.bytes = 4 * extent (lengths dims)) (hsm : array.bytes < 2147483648)
    (hb : Builds (writeInitializer sigs target (lengths dims) init) b values b')
    (hcov : stage.Covers b') (hnm : stage.Names env) (henv : b.scopes.find? = env)
    (hinit : initialElements dims init = some initial)
    (hfill : stage.site.fill target.isConstant env array 0 initial store = some store')
    (hat : stage.At clean b store s) :
    ∃ s', Comes stage.act stage.body s s' ∧ stage.At clean b' store' s' := by
  obtain ⟨cells, progress, b1, hcel, hprg, hclr, _⟩ := builds_writeInitializer hb
  obtain ⟨cells', hcel', rfl⟩ := initialElements_eq_some hinit
  cases hcel'.symm.trans hcel
  have hlen : (cells.flatMap Cell.expand).length = extent (lengths dims) :=
    (distributed_distribute hcel).length
  have hstart : stage.Filling array .none 0 b store s :=
    ⟨⟨hat.toShows.weaken nofun, hat.position⟩, fun a ha => absurd ha (not_pending rfl),
      fun hne => absurd rfl hne, Nat.le_refl _, Nat.zero_le _⟩
  obtain ⟨s1, hcom1, hfil⟩ := filling_cells hloc htgt harr hsm
    (by dsimp only; omega) hnm henv hprg (hcov.mono (emits_clear hclr).toGrows) hfill hstart
  obtain ⟨s2, hclrs, hmemo⟩ := hfil.toHeld.settle hclr hcov harr hsm hfil.position
  exact ⟨s2, hcom1.trans hclrs.comes, hfil.toShows.spares hclrs.toSpares fun a _ => hmemo a,
    hclrs.arrives⟩

theorem comes_define {definition : Definition}
    (h : Defined sigs isConstant false definition meaning b b2 b') (hcov : stage.Covers b')
    (hnm : stage.Names env) (henv : b.scopes.find? = env)
    (hset : stage.site.prepare isConstant env meaning definition.initializer store = some store')
    (hat : stage.At clean b store s) :
    ∃ s', Comes stage.act stage.body s s' ∧ stage.At clean b' store' s' := by
  obtain rfl := h.named
  have hcov2 : stage.Covers b2 := ⟨hcov.code, hcov.temps, hcov.parameters, hcov.decls⟩
  have hstart : stage.At clean (b.addVar (sizeOf? meaning.dimensions)) store s :=
    ⟨hat.toShows, hat.position⟩
  have hcnt := elements_eq_extent h.positive
  have hexn := h.small
  have hrgn : stage.act.array? meaning.symbol = if meaning.dimensions = [] then none
      else some ⟨stage.site.world.place meaning.symbol, 4 * (elements meaning.dimensions).toNat⟩ := by
    rw [← map_sizeOf? _ h.positive (hcnt ▸ Int.ofNat_le.2 hexn), h.symbol]
    refine hcov2.decls ⟨.var b.nextVar, sizeOf? meaning.dimensions⟩ (h.emits.mem_decls ?_)
    rw [decls_addVar]
    exact mem_append_right _ (List.mem_singleton.2 rfl)
  rcases h.initialized with ⟨init, values, hini, hw⟩ | ⟨hnone, rfl⟩
  swap
  · rw [hnone] at hset
    cases hset
    exact ⟨s, .refl, hstart.toShows, hstart.position⟩
  rw [hini, Site.prepare] at hset
  suffices hend : ∃ s', Comes stage.act stage.body s s' ∧ stage.At clean b2 store' s' by
    obtain ⟨s', hcom, hat'⟩ := hend
    exact ⟨s', hcom, hat'.toShows, hat'.position⟩
  by_cases hdims : meaning.dimensions = []
  · rw [if_pos hdims] at hrgn
    rw [hdims] at hw hstart
    exact comes_scalar hdims (h.symbol ▸ rfl) hrgn hw hcov2 hnm henv hset hstart
  · rw [if_neg hdims] at hrgn
    unfold Site.setUp at hset
    obtain ⟨initial, hinit, hset⟩ := Option.bind_eq_some_iff.1 hset
    rw [if_neg (by simpa using hdims)] at hset
    unfold maxElements at hexn
    exact comes_array rfl (by simpa using hdims) hrgn (by simp [hcnt]) (by simp [hcnt]; omega)
      hw hcov2 hnm henv hinit hset hstart

theorem comes_declare {decl : Declaration} {env' : Environment} {u : Unit}
    (hb : Builds (declare sigs false decl) b u b') (hord : Orderly outer b)
    (hkno : stage.Knows outer) (hcov : stage.Covers b') (henv : b.scopes.find? = env)
    (hdclr : stage.site.declare decl.constant env b.nextVar.toNat decl.definitions
      store = some (env', store')) (hat : stage.At clean b store s) :
    b'.scopes.find? = env' ∧
      ∃ s', Comes stage.act stage.body s s' ∧ stage.At clean b' store' s' := by
  obtain ⟨isConstant, definitions⟩ := decl
  unfold declare at hb
  dsimp only at hb hdclr
  induction definitions generalizing b env store s with
  | nil =>
    rw [builds_forM_nil] at hb
    cases hdclr
    subst hb
    exact ⟨henv, s, .refl, hat⟩
  | cons definition definitions ih =>
    obtain ⟨b1, hfst, hrest⟩ := builds_forM_cons.1 hb
    obtain ⟨meaning, hmean, hdclr⟩ := Option.bind_eq_some_iff.1 hdclr
    obtain ⟨store1, hset, hdclr⟩ := Option.bind_eq_some_iff.1 hdclr
    obtain ⟨b2, hdfd⟩ := defined_of_meaning hord.standing henv hmean hfst
    obtain ⟨hlays1, hord1, _, hvars1⟩ := (meets_define hord).post _ _ hfst
    have hdcl : Builds (Generation.declare sigs false ⟨isConstant, definitions⟩) b1 () b' :=
      hrest
    have hcov1 := hcov.mono ((meets_declare hord1).post _ _ hdcl).lays.toGrows
    have hnm := henv ▸ hkno.names (hcov1.mono hlays1.toGrows) hord.standing
    obtain ⟨s1, hcom1, hat1⟩ := comes_define hdfd hcov1 hnm henv hset hat
    rw [← hvars1] at hdclr
    obtain ⟨henv', s2, hcom2, hat2⟩ := ih hord1 (hdfd.find? henv) hat1 hrest hdclr
    exact ⟨henv', s2, hcom1.trans hcom2, hat2⟩

end Stage

end SysY.Generation

import Mathlib.Data.Fintype.EquivFin
import Mathlib.Data.List.Nodup
import Mathlib.Data.List.Perm.Basic
import Mathlib.Data.List.Perm.Subperm
import SysY.Proofs.Tigger.Semantics
import SysY.Tigger.ParallelMove

/-!
# Parallel moves in sequence

Run one after the other, the copies of a parallel move give every destination the old value of its
source, and touch nothing else but the scratch register. The scratch register is free whenever a
cycle has to be opened: if every destination that is left is still read, then there are as many
sources as destinations, and no source is left to be the scratch register.
-/

namespace SysY

open List

variable {r scratch : Register}

instance : Fintype Register := ⟨Register.all.toFinset, fun r => List.mem_toFinset.2 r.mem_all⟩

namespace Tigger

/-! ## States that differ in registers -/

/-- A state that differs from another one in some registers only. -/
structure Only (changed : List Register) (s s' : State) : Prop where
  memory : s'.memory = s.memory
  calls : s'.calls = s.calls
  events : s'.events = s.events
  value : ∀ r, r ∉ changed → s'.value r = s.value r

namespace Only

variable {changed : List Register} {s s' s'' : State}

theorem refl (changed : List Register) (s : State) : Only changed s s :=
  ⟨rfl, rfl, rfl, fun _ _ => rfl⟩

theorem trans (h : Only changed s s') (h' : Only changed s' s'') : Only changed s s'' :=
  ⟨h'.memory.trans h.memory, h'.calls.trans h.calls, h'.events.trans h.events,
    fun r hr => (h'.value r hr).trans (h.value r hr)⟩

theorem mono {more : List Register} (h : Only changed s s') (hsub : changed ⊆ more) :
    Only more s s' :=
  ⟨h.memory, h.calls, h.events, fun r hr => h.value r fun hmem => hr (hsub hmem)⟩

theorem set (s : State) (v : Int32) (hr : r ∈ changed) :
    Only changed s (s.set r v) :=
  ⟨rfl, rfl, rfl, fun _ hx => s.value_set_of_ne v fun heq => hx (heq ▸ hr)⟩

end Only

namespace Move

/-! ## Well-formed moves -/

def dests (moves : List Move) : List Register := moves.map (·.dest)

variable {moves : List Move}

theorem defect?_eq_none (hnd : (dests moves).Nodup)
    (hscr : ∀ move ∈ moves, move.dest ≠ scratch ∧ move.source ≠ scratch) :
    defect? scratch moves = none := by
  induction moves with
  | nil => rfl
  | cons move moves ih =>
    obtain ⟨hnot, hnd⟩ := List.nodup_cons.1 hnd
    obtain ⟨hmove, hmoves⟩ := List.forall_mem_cons.1 hscr
    have hany : moves.any (·.dest = move.dest) = false := by
      rw [any_eq_false]
      intro other hoth heq
      exact hnot (List.mem_map.2 ⟨other, hoth, of_decide_eq_true heq⟩)
    simp only [defect?, hmove.1, hmove.2, or_self, if_false, hany, Bool.false_eq_true]
    exact ih hnd hmoves

theorem source_ne_of_blocked (hnd : (dests moves).Nodup)
    (hdest : ∀ move ∈ moves, move.dest ≠ scratch)
    (hblocked : moves.find? (isReady moves) = none) : ∀ move ∈ moves, move.source ≠ scratch := by
  have hread : dests moves ⊆ moves.map (·.source) := by
    intro r hr
    obtain ⟨move, hmove, rfl⟩ := List.mem_map.1 hr
    have := List.find?_eq_none.1 hblocked move hmove
    simp only [isReady, List.all_eq_true, decide_eq_true_eq, not_forall, not_not] at this
    obtain ⟨other, hoth, heq⟩ := this
    exact List.mem_map.2 ⟨other, hoth, heq⟩
  have hperm : (dests moves).Perm (moves.map (·.source)) :=
    (subperm_of_subset hnd hread).perm_of_length_le (by simp [dests])
  intro move hmove heq
  have hmem : scratch ∈ dests moves := hperm.mem_iff.2 (List.mem_map.2 ⟨move, hmove, heq⟩)
  obtain ⟨other, hoth, hoth'⟩ := List.mem_map.1 hmem
  exact hdest other hoth hoth'

theorem dests_redirect (blocked scratch : Register) (moves : List Move) :
    dests (moves.map (redirect blocked scratch)) = dests moves := by
  simp only [dests, map_map]
  refine map_congr_left fun move _ => ?_
  simp only [Function.comp_apply, redirect]
  split <;> rfl

/-! ## Register files -/

variable {α : Type} {move : Move}

/-- What a copy does to the contents of registers. -/
def apply (file : Register → α) (move : Move) : Register → α :=
  fun r => if r = move.dest then file move.source else file r

/-- What copies do, one after the other. -/
def run (file : Register → α) (moves : List Move) : Register → α := moves.foldl apply file

@[simp] theorem apply_dest (file : Register → α) (move : Move) :
    apply file move move.dest = file move.source := if_pos rfl

theorem apply_of_ne (file : Register → α) (h : r ≠ move.dest) :
    apply file move r = file r := if_neg h

@[simp] theorem run_cons (file : Register → α) (move : Move) (moves : List Move) :
    run file (move :: moves) = run (apply file move) moves := rfl

theorem perm_dests_erase (hmove : move ∈ moves) :
    (dests moves).Perm (move.dest :: dests (moves.erase move)) :=
  (perm_cons_erase hmove).map _

theorem run_sequence (moves : List Move) (hnd : (dests moves).Nodup)
    (hdest : ∀ move ∈ moves, move.dest ≠ scratch) (file : Register → α) :
    (∀ move ∈ moves, run file (sequence scratch moves) move.dest = file move.source) ∧
      ∀ r, r ∉ scratch :: dests moves → run file (sequence scratch moves) r = file r := by
  fun_induction sequence scratch moves generalizing file with
  | case1 => exact ⟨by simp, fun _ _ => rfl⟩
  | case2 first rest move hfind ih =>
    -- A copy whose destination nobody else reads goes first.
    have hmem : move ∈ first :: rest := mem_of_find?_eq_some hfind
    have hunread : ∀ other ∈ first :: rest, other.source ≠ move.dest := by
      simpa [isReady] using find?_some hfind
    have hperm := perm_dests_erase hmem
    obtain ⟨hnot, hnd'⟩ := List.nodup_cons.1 (hperm.nodup_iff.1 hnd)
    obtain ⟨hvals, hoths⟩ := ih hnd'
      (fun other hoth => hdest other (mem_of_mem_erase hoth)) (apply file move)
    rw [run_cons]
    refine ⟨fun other hoth => ?_, fun r hr => ?_⟩
    · by_cases heq : other = move
      · rw [heq, hoths move.dest, apply_dest]
        exact fun hmem' => (List.mem_cons.1 hmem').elim (hdest move hmem) hnot
      · rw [hvals other ((mem_erase_of_ne heq).2 hoth), apply_of_ne _ (hunread other hoth)]
    · have hr' : r ∉ move.dest :: dests ((first :: rest).erase move) := fun hmem' =>
        hr (mem_cons_of_mem _ (hperm.mem_iff.2 hmem'))
      rw [hoths r (not_mem_cons_of_ne_of_not_mem (ne_of_not_mem_cons hr)
        (not_mem_of_not_mem_cons hr')), apply_of_ne _ (ne_of_not_mem_cons hr')]
  | case3 first rest hfind ih =>
    simp only [map_subtype, unattach_attach] at ih ⊢
    -- All copies wait for each other: the first destination is put aside.
    have hsrc := source_ne_of_blocked hnd hdest hfind
    obtain ⟨hnot, hnd'⟩ := List.nodup_cons.1 hnd
    obtain ⟨hfst, hrest⟩ := List.forall_mem_cons.1 hdest
    let aside := apply file ⟨scratch, first.dest⟩
    have haside : ∀ r, r ≠ scratch → aside r = file r := fun r hr => apply_of_ne _ hr
    have hredirect : ∀ move ∈ rest,
        (redirect first.dest scratch move).dest = move.dest ∧
          apply aside first (redirect first.dest scratch move).source = file move.source := by
      intro move hmove
      unfold redirect
      split
      · rename_i heq
        rw [heq, apply_of_ne _ hfst.symm]
        exact ⟨rfl, apply_dest _ _⟩
      · rename_i hne
        rw [apply_of_ne _ hne, haside _ (hsrc move (mem_cons_of_mem _ hmove))]
        exact ⟨rfl, rfl⟩
    obtain ⟨hvals, hoths⟩ := ih (by rwa [dests_redirect])
      (List.forall_mem_map.2 fun move hmove => (hredirect move hmove).1 ▸ hrest move hmove)
      (apply aside first)
    rw [dests_redirect] at hoths
    rw [run_cons, run_cons]
    refine ⟨List.forall_mem_cons.2 ⟨?_, fun move hmove => ?_⟩, fun r hr => ?_⟩
    · rw [hoths first.dest fun hmem => (List.mem_cons.1 hmem).elim hfst hnot, apply_dest,
        haside _ (hsrc first mem_cons_self)]
    · have := hvals _ (List.mem_map.2 ⟨move, hmove, rfl⟩)
      rwa [(hredirect move hmove).1, (hredirect move hmove).2] at this
    · have hscr : r ≠ scratch := ne_of_not_mem_cons hr
      have hr' : r ∉ first.dest :: dests rest := not_mem_of_not_mem_cons hr
      rw [hoths r (not_mem_cons_of_ne_of_not_mem hscr
        (not_mem_of_not_mem_cons hr')), apply_of_ne _ (ne_of_not_mem_cons hr'),
        haside r hscr]

theorem dests_sequence_subset (scratch : Register) (moves : List Move) :
    dests (sequence scratch moves) ⊆ scratch :: dests moves := by
  fun_induction sequence scratch moves with
  | case1 => exact nil_subset _
  | case2 first rest move hfind ih =>
    intro r hr
    rw [mem_cons, (perm_dests_erase (mem_of_find?_eq_some hfind)).mem_iff]
    rcases List.mem_cons.1 hr with rfl | hr
    · exact .inr mem_cons_self
    · exact (List.mem_cons.1 (ih hr)).imp_right (mem_cons_of_mem _)
  | case3 first rest hfind ih =>
    simp only [map_subtype, unattach_attach, dests_redirect] at ih ⊢
    refine List.cons_subset.2 ⟨mem_cons_self, List.cons_subset.2 ⟨?_, fun r hr => ?_⟩⟩
    · exact mem_cons_of_mem _ mem_cons_self
    · exact (List.mem_cons.1 (ih hr)).elim (· ▸ mem_cons_self) fun hr =>
        mem_cons_of_mem _ (mem_cons_of_mem _ hr)

theorem exec_instructions (setting : Setting) (moves : List Move) (hz : .zero ∉ dests moves)
    (s : State) :
    ∃ s', setting.machine.exec (moves.map instruction) s = some s' ∧
      s'.value = run s.value moves ∧ Only (dests moves) s s' := by
  induction moves generalizing s with
  | nil => exact ⟨s, rfl, rfl, .refl _ s⟩
  | cons move moves ih =>
    have hne : Register.zero ≠ move.dest := ne_of_not_mem_cons hz
    have hval : (s.set move.dest (s.value move.source)).value = apply s.value move := by
      funext r
      by_cases hr : r = move.dest
      · rw [hr, apply_dest, State.value_set_self _ _ hne.symm]
      · rw [apply_of_ne _ hr, State.value_set_of_ne _ _ hr]
    obtain ⟨s', hexec, hrun, honly⟩ := ih (not_mem_of_not_mem_cons hz)
      (s.set move.dest (s.value move.source))
    refine ⟨s', hexec, by rw [run_cons, ← hval, hrun], ?_⟩
    exact (Only.set s _ mem_cons_self).trans (honly.mono (subset_cons_self _ _))

/-! ## Cycles -/

/-- The contents of `a` are copied to `b`. -/
def Feeds (moves : List Move) (a b : Register) : Prop := ⟨b, a⟩ ∈ moves

/-- Copies that lead from some register back to it. -/
def Cyclic (moves : List Move) : Prop := ∃ r, Relation.TransGen (Feeds moves) r r

theorem Cyclic.mono {more : List Move} (h : Cyclic moves) (hsub : moves ⊆ more) :
    Cyclic more := by
  obtain ⟨r, hr⟩ := h
  exact ⟨r, Relation.TransGen.mono (fun _ _ hmove => hsub hmove) r r hr⟩

theorem exists_reader_of_blocked (hblocked : moves.find? (isReady moves) = none)
    (hr : r ∈ dests moves) :
    ∃ other ∈ moves, other.source = r := by
  obtain ⟨move, hmove, rfl⟩ := List.mem_map.1 hr
  have := List.find?_eq_none.1 hblocked move hmove
  simpa [isReady] using this

theorem cyclic_of_blocked {first : Move} (hfst : first ∈ moves)
    (hblocked : moves.find? (isReady moves) = none) : Cyclic moves := by
  by_contra hnot
  let later (a b : Register) : Prop := Relation.TransGen (Feeds moves) b a
  have : Std.Irrefl later := ⟨fun r hr => hnot ⟨r, hr⟩⟩
  have : IsTrans Register later := ⟨fun _ _ _ hab hbc => hbc.trans hab⟩
  have hwf : WellFounded later := Finite.wellFounded_of_trans_of_irrefl later
  have hnone : ∀ r, r ∉ dests moves := by
    intro r
    induction r using hwf.induction with
    | _ r ih =>
      intro hr
      obtain ⟨other, hoth, rfl⟩ := exists_reader_of_blocked hblocked hr
      exact ih other.dest (.single hoth) (List.mem_map.2 ⟨other, hoth, rfl⟩)
  exact hnone first.dest (List.mem_map.2 ⟨first, hfst, rfl⟩)

theorem Cyclic.erase_ready (h : Cyclic moves)
    (hrdy : isReady moves move = true) : Cyclic (moves.erase move) := by
  have hunread : ∀ a b, Feeds moves a b → a ≠ move.dest := by
    intro a b hab
    have hall : ∀ other ∈ moves, other.source ≠ move.dest := by simpa [isReady] using hrdy
    exact hall _ hab
  have hkeep : ∀ {a b}, Feeds moves a b → b ≠ move.dest → Feeds (moves.erase move) a b := by
    intro a b hab hb
    exact (mem_erase_of_ne fun heq => hb (by rw [← heq])).2 hab
  have hpath : ∀ {a b}, Relation.TransGen (Feeds moves) a b → b ≠ move.dest →
      Relation.TransGen (Feeds (moves.erase move)) a b := by
    intro a b hab
    induction hab with
    | single hab => exact fun hb => .single (hkeep hab hb)
    | tail _ hbc ih => exact fun hc => .tail (ih (hunread _ _ hbc)) (hkeep hbc hc)
  obtain ⟨r, hr⟩ := h
  obtain ⟨next, hnxt, -⟩ := Relation.TransGen.head'_iff.1 hr
  exact ⟨r, hpath hr (hunread r next hnxt)⟩

theorem scratch_mem_sequence (moves : List Move) (hdest : ∀ move ∈ moves, move.dest ≠ scratch) :
    scratch ∈ dests (sequence scratch moves) ↔ Cyclic moves := by
  fun_induction sequence scratch moves with
  | case1 =>
    refine iff_of_false not_mem_nil fun ⟨r, hr⟩ => ?_
    obtain ⟨next, hnxt, -⟩ := Relation.TransGen.head'_iff.1 hr
    exact not_mem_nil hnxt
  | case2 first rest move hfind ih =>
    have hrest := ih fun other hoth => hdest other (mem_of_mem_erase hoth)
    constructor
    · intro hwr
      rcases List.mem_cons.1 hwr with heq | hwr
      · exact absurd heq.symm (hdest move (mem_of_find?_eq_some hfind))
      · exact (hrest.1 hwr).mono erase_subset
    · intro hcyclic
      exact mem_cons_of_mem _ (hrest.2 (hcyclic.erase_ready (find?_some hfind)))
  | case3 first rest hfind ih =>
    exact iff_of_true mem_cons_self (cyclic_of_blocked mem_cons_self hfind)

/-! ## Copies of a register to itself -/

/-- The copies that change something. -/
def nontrivial (moves : List Move) : List Move := moves.filter fun move => move.dest ≠ move.source

theorem nontrivial_subset (moves : List Move) : nontrivial moves ⊆ moves :=
  List.filter_sublist.subset

theorem dests_nontrivial_sublist (moves : List Move) :
    (dests (nontrivial moves)).Sublist (dests moves) := List.filter_sublist.map _

theorem run_sequence_nontrivial (hnd : (dests moves).Nodup)
    (hdest : ∀ move ∈ moves, move.dest ≠ scratch) (file : Register → α) :
    (∀ move ∈ moves, run file (sequence scratch (nontrivial moves)) move.dest = file move.source) ∧
      ∀ r, r ∉ scratch :: dests moves → run file (sequence scratch (nontrivial moves)) r = file r := by
  obtain ⟨hvals, hoths⟩ := run_sequence (nontrivial moves)
    ((dests_nontrivial_sublist moves).nodup hnd)
    (fun move hmove => hdest move (nontrivial_subset moves hmove)) file
  refine ⟨fun move hmove => ?_, fun r hr => hoths r fun hmem => hr ?_⟩
  · by_cases heq : move.dest = move.source
    · rw [hoths move.dest, heq]
      intro hmem
      rcases List.mem_cons.1 hmem with hmem | hmem
      · exact hdest move hmove hmem
      · obtain ⟨other, hoth, hsame⟩ := List.mem_map.1 hmem
        obtain rfl : other = move :=
          inj_on_of_nodup_map hnd (nontrivial_subset moves hoth) hmove hsame
        exact absurd heq (by simpa using (List.mem_filter.1 hoth).2)
    · exact hvals move (List.mem_filter.2 ⟨hmove, by simpa using heq⟩)
  · exact cons_subset_cons _ (dests_nontrivial_sublist moves).subset hmem

end Move

open Move

theorem parallelMove_eq_ok {moves : List Move} (hnd : (dests moves).Nodup)
    (hscr : ∀ move ∈ moves, move.dest ≠ scratch ∧ move.source ≠ scratch) :
    parallelMove scratch moves =
      .ok ((Move.sequence scratch (nontrivial moves)).map Move.instruction) := by
  have hnone : defect? scratch (nontrivial moves) = none :=
    defect?_eq_none ((dests_nontrivial_sublist moves).nodup hnd)
      fun move hmove => hscr move (nontrivial_subset moves hmove)
  simp only [parallelMove, nontrivial] at hnone ⊢
  rw [hnone]

theorem parallelMove_spec (hz : scratch ≠ .zero) {moves : List Move}
    (hnd : (Move.dests moves).Nodup) (hdest : ∀ move ∈ moves, move.dest ≠ .zero)
    (hscr : ∀ move ∈ moves, move.dest ≠ scratch ∧ move.source ≠ scratch) :
    ∃ code, parallelMove scratch moves = .ok code ∧
      ∀ (setting : Setting) s, ∃ s', setting.machine.exec code s = some s' ∧
        (∀ move ∈ moves, s'.value move.dest = s.value move.source) ∧
        Only (scratch :: Move.dests moves) s s' := by
  have hsubset : dests (Move.sequence scratch (nontrivial moves)) ⊆ scratch :: dests moves :=
    fun r hr => cons_subset_cons _ (dests_nontrivial_sublist moves).subset
      (dests_sequence_subset scratch _ hr)
  have hwr : Register.zero ∉ dests (Move.sequence scratch (nontrivial moves)) := by
    intro hmem
    rcases List.mem_cons.1 (hsubset hmem) with heq | hmem
    · exact hz heq.symm
    · obtain ⟨move, hmove, heq⟩ := List.mem_map.1 hmem
      exact hdest move hmove heq
  refine ⟨_, parallelMove_eq_ok hnd hscr, fun setting s => ?_⟩
  obtain ⟨s', hexec, hrun, honly⟩ := exec_instructions setting _ hwr s
  refine ⟨s', hexec, ?_, honly.mono hsubset⟩
  rw [hrun]
  exact (run_sequence_nontrivial hnd (fun move hmove => (hscr move hmove).1) s.value).1

/-- A parallel move always has a sequence of copies. Whatever the registers hold, in the end every
destination holds what its source held, and no other register has changed but the scratch register,
which is written exactly if the copies have a cycle. -/
theorem parallelMove_at_once {scratch : Register} {moves : List Move}
    (hnodup : (dests moves).Nodup)
    (hscratch : ∀ move ∈ moves, move.dest ≠ scratch ∧ move.source ≠ scratch) :
    ∃ copies : List Move, parallelMove scratch moves = .ok (copies.map Move.instruction) ∧
      (∀ {α : Type} (file : Register → α),
        (∀ move ∈ moves, Move.run file copies move.dest = file move.source) ∧
        ∀ r, r ≠ scratch → r ∉ dests moves → Move.run file copies r = file r) ∧
      (scratch ∈ dests copies ↔ Cyclic (nontrivial moves)) := by
  have hdest : ∀ move ∈ moves, move.dest ≠ scratch := fun move hmove => (hscratch move hmove).1
  refine ⟨Move.sequence scratch (nontrivial moves), parallelMove_eq_ok hnodup hscratch,
    fun file => ?_, ?_⟩
  · obtain ⟨hvalues, hothers⟩ := run_sequence_nontrivial hnodup hdest file
    exact ⟨hvalues, fun r hr hr' => hothers r (not_mem_cons_of_ne_of_not_mem hr hr')⟩
  · exact scratch_mem_sequence _ fun move hmove => hdest move (nontrivial_subset moves hmove)

/-- A rotation of three registers, one of which is copied to a fourth one as well, a copy that is
apart, and one of a register to itself. -/
def rotation : List Move :=
  match Register.arguments with
  | a :: b :: c :: d :: e :: _ => [⟨a, b⟩, ⟨b, c⟩, ⟨c, a⟩, ⟨d, a⟩, ⟨.s0, e⟩, ⟨e, e⟩]
  | _ => []

theorem rotation_at_once :
    (dests rotation).Nodup ∧
      (∀ move ∈ rotation, move.dest ≠ Register.t0 ∧ move.source ≠ Register.t0) ∧
      ∃ copies : List Move, parallelMove .t0 rotation = .ok (copies.map Move.instruction) ∧
        (∀ file : Register → Int32,
          ∀ move ∈ rotation, Move.run file copies move.dest = file move.source) ∧
        Register.t0 ∈ dests copies := by
  have hnodup : (dests rotation).Nodup := by decide
  have hscratch : ∀ move ∈ rotation, move.dest ≠ Register.t0 ∧ move.source ≠ Register.t0 := by
    decide
  obtain ⟨copies, hcopies, hrun, hwritten⟩ := parallelMove_at_once hnodup hscratch
  refine ⟨hnodup, hscratch, copies, hcopies, fun file => (hrun file).1, hwritten.2 ?_⟩
  have hfeeds : ∀ a b : Register, ⟨b, a⟩ ∈ nontrivial rotation → Feeds (nontrivial rotation) a b :=
    fun _ _ h => h
  exact ⟨.argument 0, .tail (.tail (.single (hfeeds _ (.argument 2) (by decide)))
    (hfeeds _ (.argument 1) (by decide))) (hfeeds _ _ (by decide))⟩

end Tigger

end SysY

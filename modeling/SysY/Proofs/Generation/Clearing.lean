import SysY.Proofs.Generation.Stage
import SysY.Proofs.Generation.Writing

/-!
# Writing zeros

A run of zeros is written word by word or by a loop over a cursor. Either way all its words are zero
afterwards, and nothing else has changed but new temporaries.
-/

namespace SysY

open Region

/-! ## Words of an array -/

namespace Region

/-- So many words of an array that begins at an address, from a position on. -/
def words (start : UInt32) (position count : Nat) : Region :=
  ⟨start + UInt32.ofNat (4 * position), 4 * count⟩

theorem contains_words {start b : UInt32} {position count : Nat}
    (h : 4 * (position + count) < 4294967296) :
    (words start position count).contains b = true ↔
      4 * position ≤ (b - start).toNat ∧ (b - start).toNat < 4 * (position + count) := by
  have hb := b.toNat_lt
  have hstart := start.toNat_lt
  simp only [words, contains, decide_eq_true_eq, UInt32.toNat_sub, UInt32.toNat_add,
    UInt32.toNat_ofNat']
  omega

end Region

/-- All that differs between two memories is that some words of an array are zero in the second. -/
def Zeroed (start : UInt32) (position count : Nat) (memory memory' : Memory) : Prop :=
  ∀ b, memory' b = if (Region.words start position count).contains b then 0 else memory b

namespace Zeroed

variable {start : UInt32} {position m n : Nat} {memory memory1 memory2 : Memory}

theorem none (start : UInt32) (position : Nat) (memory : Memory) :
    Zeroed start position 0 memory memory := fun b => by
  simp [words, contains]

theorem word (start : UInt32) (position : Nat) (memory : Memory) :
    Zeroed start position 1 memory (memory.write (start + UInt32.ofNat (4 * position)) 0) := by
  have hz : ∀ k, Memory.byteOf 0 k = 0 := fun k => by
    have hword : (0 : Int32).toUInt32.toNat = 0 := rfl
    simp [Memory.byteOf, hword]
  intro b
  simp [Memory.write, words, contains, hz]

theorem trans (h1 : Zeroed start position m memory memory1)
    (h2 : Zeroed start (position + m) n memory1 memory2)
    (hsm : 4 * (position + m + n) < 4294967296) :
    Zeroed start position (m + n) memory memory2 := by
  intro b
  rw [h2 b, h1 b]
  have hfst := @contains_words start b position m (by omega)
  have hsnd := @contains_words start b (position + m) n hsm
  have hboth := @contains_words start b position (m + n) (by omega)
  by_cases h : (words start position (m + n)).contains b = true
  · rw [if_pos h]
    have hrange := hboth.1 h
    by_cases h' : (words start (position + m) n).contains b = true
    · rw [if_pos h']
    · rw [if_neg h', if_pos (hfst.2 ?_)]
      have hnot := mt hsnd.2 h'
      omega
  · have hrange := mt hboth.2 h
    rw [if_neg h, if_neg, if_neg]
    · exact fun h' => hrange (by have := hfst.1 h'; omega)
    · exact fun h' => hrange (by have := hsnd.1 h'; omega)

end Zeroed

namespace Generation

open Eeyore Eeyore.Activation

namespace Stage

variable {stage : Stage} {b b1 b2 b' : Builder} {s s1 s2 s' : State} {symbol : Symbol} {array : Region}

/-- A run that changes nothing but memory and new temporaries. -/
structure Spares (b : Builder) (s s' : State) : Prop where
  scalars : ∀ x, x.isTemp = false → s'.scalars x = s.scalars x
  temps : ∀ i : UInt32, i.toNat < b.code.temps.toNat → s'.scalars (.temp i) = s.scalars (.temp i)
  count : s'.calls = s.calls
  calls : callsOf s'.events = callsOf s.events

theorem Spares.refl (b : Builder) (s : State) : Spares b s s :=
  ⟨fun _ _ => rfl, fun _ _ => rfl, rfl, rfl⟩

theorem Spares.trans (h1 : Spares b s s1) (h2 : Spares b1 s1 s2)
    (hle : b.code.temps.toNat ≤ b1.code.temps.toNat) : Spares b s s2 where
  scalars x hx := (h2.scalars x hx).trans (h1.scalars x hx)
  temps i hi := (h2.temps i (by omega)).trans (h1.temps i hi)
  count := h2.count.trans h1.count
  calls := h2.calls.trans h1.calls

theorem Spares.at (h : Spares b s s') (p : Nat) : Spares b s (s'.at p) :=
  ⟨h.scalars, h.temps, h.count, h.calls⟩

theorem spares_set (b : Builder) (s : State) {i : UInt32} (hi : b.code.temps.toNat ≤ i.toNat)
    (v : Int32) : Spares b s (s.set (.temp i) v) := by
  refine ⟨fun x hx => State.set_ne s v ?_, fun j hj => State.set_ne s v ?_, rfl, rfl⟩
  · rintro rfl
    cases hx
  · rintro ⟨⟩
    omega

/-! ## Single words -/

def stored (s : State) (a : UInt32) (v : Int32) : State :=
  { s with memory := s.memory.write a v, events := s.events ++ [.store a v] }

theorem spares_stored (b : Builder) (s : State) (a : UInt32) (v : Int32) :
    Spares b s (stored s a v) := by
  refine ⟨fun _ _ => rfl, fun _ _ => rfl, rfl, ?_⟩
  show callsOf (s.events ++ [.store a v]) = callsOf s.events
  rw [callsOf, List.filterMap_append]
  exact List.append_nil _

theorem toUInt32_of_signedMul {position : Nat} {offset : Int32}
    (h : signedMul (.ofNat position) wordSize = .ok offset) :
    offset.toUInt32 = UInt32.ofNat (4 * position) := by
  have hprod : offset = Int32.ofNat position * wordSize := by
    unfold signedMul at h
    split at h <;> cases h
    rfl
  have hword : wordSize = Int32.ofNat 4 := rfl
  rw [hprod, hword, ← Int32.ofNat_mul, Nat.mul_comm]
  rfl

theorem address_element {position : Nat} {index : Value} {offset : Int32}
    (harr : stage.act.array? symbol = some array) (hins : 4 * (position + 1) ≤ array.bytes)
    (hsm : array.bytes < 4294967296) (hidx : stage.act.value s index = some offset)
    (hoff : offset.toUInt32 = UInt32.ofNat (4 * position)) :
    stage.act.address s symbol index = some (array.start + UInt32.ofNat (4 * position)) := by
  refine address_eq_some.2 ⟨array.start.toInt32, offset, ?_, hidx, ?_, ?_⟩
  · simp only [Activation.value, harr]
  · simp only [admits, harr, holds, Memory.toNat_add_sub_self, UInt32.toNat_ofNat',
      decide_eq_true_eq]
    omega
  · rw [hoff]
    rfl

theorem effect_store {array : Symbol} {index value : Value} {a : UInt32} {v : Int32}
    (ha : stage.act.address s array index = some a) (hv : stage.act.value s value = some v) :
    stage.act.effect s (.store array index value) = some (stored s a v) := by
  simp only [effect, ha, hv, Option.bind_eq_bind, Option.bind_some, Option.pure_def]
  rfl

theorem comes_writeElement {position : Nat} {value : Value} {v : Int32} {u : Unit}
    (hb : Builds (writeElement symbol position value) b u b') (hcov : stage.Covers b')
    (harr : stage.act.array? symbol = some array) (hins : 4 * (position + 1) ≤ array.bytes)
    (hsm : array.bytes < 4294967296) (hs : s.position = stage.base + b.code.body.size)
    (hv : stage.act.value s value = some v) :
    ∃ s', Comes stage.act stage.body s s' ∧ s'.position = stage.base + b'.code.body.size ∧
      Spares b s s' ∧ s'.memory = s.memory.write (array.start + UInt32.ofNat (4 * position)) v := by
  obtain ⟨offset, hoff, rfl⟩ := builds_writeElement.1 hb
  have haddr := @address_element stage s symbol array position (.const offset) offset harr
    hins hsm rfl (toUInt32_of_signedMul hoff)
  exact ⟨_, comes_next hcov hs (effect_store haddr hv) rfl, rfl, (spares_stored b s _ v).at _, rfl⟩

/-! ## Runs -/

/-- A run that writes zeros to some words of an array. -/
structure Clears (stage : Stage) (start : UInt32) (position length : Nat) (b b' : Builder)
    (s s' : State) : Prop extends Spares b s s' where
  comes : Comes stage.act stage.body s s'
  arrives : s'.position = stage.base + b'.code.body.size
  zeroed : Zeroed start position length s.memory s'.memory

theorem clears_writeElements {start length : Nat} {u : Unit}
    (hb : Builds ((List.range' start length).forM fun position =>
      writeElement symbol position (.const 0)) b u b') (hcov : stage.Covers b')
    (harr : length ≠ 0 → stage.act.array? symbol = some array)
    (hins : 4 * (start + length) ≤ array.bytes) (hsm : array.bytes < 4294967296)
    (hs : s.position = stage.base + b.code.body.size) :
    ∃ s', stage.Clears array.start start length b b' s s' := by
  induction length generalizing start b s with
  | zero =>
    obtain rfl := builds_forM_nil.1 hb
    exact ⟨s, .refl b' s, .refl, hs, .none _ _ _⟩
  | succ length ih =>
    obtain ⟨b1, hfst, hrest⟩ := builds_forM_cons.1 hb
    have harr := harr (Nat.succ_ne_zero length)
    obtain ⟨s1, hcom, hpos, hspr, hmemo⟩ := comes_writeElement hfst
      (hcov.mono (emits_writeElements hrest).toGrows) harr (by omega) hsm hs rfl
    obtain ⟨s', hclrs⟩ := ih hrest (fun _ => harr) (by omega) hpos
    refine ⟨s', hspr.trans hclrs.toSpares (emits_writeElement hfst).temps,
      hcom.trans hclrs.comes, hclrs.arrives, ?_⟩
    have hword := Zeroed.word array.start start s.memory
    rw [← hmemo] at hword
    rw [Nat.add_comm length 1]
    exact hword.trans hclrs.zeroed (by omega)

/-! ## Loops -/

/-- In front of the body of a loop that writes zeros: the cursor is at an element. -/
structure AtTop (stage : Stage) (b : Builder) (first : Int32) (position : Nat) (s : State) :
    Prop where
  at_top : s.position = stage.base + (b.clearTop first).code.body.size
  cursor : s.scalars (.temp b.code.temps) = some (.ofNat (4 * position))

theorem clears_round {first last : Int32} {position stop : Nat}
    (hroom : b.code.temps.toNat + 1 < wordValues)
    (hcov : stage.Covers (b.clearLoop symbol first last))
    (harr : stage.act.array? symbol = some array) (hpos : position < stop)
    (hins : 4 * stop ≤ array.bytes) (hsm : array.bytes < 2147483648)
    (hlast : last = .ofNat (4 * stop)) (hs : stage.AtTop b first position s) :
    ∃ s', Comes stage.act stage.body s s' ∧ Spares b s s' ∧
      Zeroed array.start position 1 s.memory s'.memory ∧
      if position + 1 < stop then stage.AtTop b first (position + 1) s'
      else s'.position = stage.base + (b.clearLoop symbol first last).code.body.size := by
  obtain ⟨htop, hcur⟩ := hs
  have htemps : (b.clearLoop symbol first last).code.temps.toNat = b.code.temps.toNat + 1 :=
    toNat_succ hroom
  have hloc := hcov.temps b.code.temps (by omega)
  have hnone := stage.temps (.temp b.code.temps) rfl
  have hval : ∀ t : State, stage.act.value t (.symbol (.temp b.code.temps)) =
      t.scalars (.temp b.code.temps) := fun t => by simp only [Activation.value, hnone]
  have hcov2 := hcov.of_emit
  have hcov1 := hcov2.of_emit
  -- the word at the cursor
  obtain ⟨s1, hcom1, hpos1, hspr1, hscalars1, hmemo1⟩ : ∃ s1,
      Comes stage.act stage.body s s1 ∧ s1.position = stage.base + ((b.clearTop first).emit
        (.store symbol (.symbol (.temp b.code.temps)) (.const 0))).code.body.size ∧
      Spares b s s1 ∧ s1.scalars = s.scalars ∧
      s1.memory = s.memory.write (array.start + UInt32.ofNat (4 * position)) 0 := by
    have haddr := @address_element stage s symbol array position _ _ harr (by omega) (by omega)
      ((hval s).trans hcur) rfl
    exact ⟨_, comes_next hcov1 htop (effect_store haddr rfl) rfl, rfl,
      (spares_stored b s _ 0).at _, rfl, rfl⟩
  -- the cursor moves on
  have hcur1 : stage.act.value s1 (.symbol (.temp b.code.temps)) = some (.ofNat (4 * position)) := by
    rw [hval, hscalars1, hcur]
  have hnxt : BinaryOp.add.fold (.ofNat (4 * position)) wordSize =
      some (.ofNat (4 * (position + 1))) := by
    rw [Nat.mul_add, Int32.ofNat_add]
    rfl
  obtain ⟨s2, hcom2, hpos2, hspr2, hcur2, hmemo2⟩ : ∃ s2,
      Comes stage.act stage.body s1 s2 ∧ s2.position = stage.base + (((b.clearTop first).emit
        (.store symbol (.symbol (.temp b.code.temps)) (.const 0))).emit (.binary (.temp b.code.temps)
          .add (.symbol (.temp b.code.temps)) (.const wordSize))).code.body.size ∧
      Spares b s1 s2 ∧ s2.scalars (.temp b.code.temps) = some (.ofNat (4 * (position + 1))) ∧
      s2.memory = s1.memory :=
    ⟨_, comes_next hcov2 hpos1 ((effect_binary hcur1 rfl hnxt).trans
      (assign_local s1 _ hnone hloc)) rfl, rfl, (spares_set b s1 (Nat.le_refl _) _).at _,
      s1.set_self _ _, rfl⟩
  have hcom := hcom1.trans hcom2
  have hspr := hspr1.trans hspr2 (Nat.le_refl _)
  have hzd := Zeroed.word array.start position s.memory
  rw [← hmemo1, ← hmemo2] at hzd
  -- the jump back
  have hholds : Relation.lt.holds (.ofNat (4 * (position + 1))) last =
      decide (position + 1 < stop) := by
    rw [hlast]
    show decide (_ < _) = _
    rw [decide_eq_decide, Int32.lt_iff_toInt_lt, Int32.toInt_ofNat_of_lt (by omega),
      Int32.toInt_ofNat_of_lt (by omega)]
    omega
  by_cases hmore : position + 1 < stop
  · have hlab := hcov1.of_emit
    have hback := comes_branch_taken hcov hlab hpos2 ((hval s2).trans hcur2) rfl
      (hholds.trans (decide_eq_true hmore))
    refine ⟨_, (hcom.trans hback).trans (comes_label hlab rfl), (hspr.at _).at _, hzd, ?_⟩
    rw [if_pos hmore]
    exact ⟨rfl, hcur2⟩
  · have hskip := comes_branch_skipped hcov hpos2 ((hval s2).trans hcur2) rfl
      (hholds.trans (decide_eq_false hmore))
    refine ⟨_, hcom.trans hskip, hspr.at _, hzd, ?_⟩
    rw [if_neg hmore]
    rfl

theorem clears_rounds {first last : Int32} {position length : Nat}
    (hroom : b.code.temps.toNat + 1 < wordValues)
    (hcov : stage.Covers (b.clearLoop symbol first last))
    (harr : stage.act.array? symbol = some array)
    (hins : 4 * (position + (length + 1)) ≤ array.bytes) (hsm : array.bytes < 2147483648)
    (hlast : last = .ofNat (4 * (position + (length + 1)))) (hs : stage.AtTop b first position s) :
    ∃ s', stage.Clears array.start position (length + 1) b (b.clearLoop symbol first last) s s' := by
  induction length generalizing position s with
  | zero =>
    obtain ⟨s', hcom, hspr, hzd, hend⟩ :=
      clears_round hroom hcov harr (Nat.lt_succ_self position) hins hsm hlast hs
    rw [if_neg (Nat.lt_irrefl _)] at hend
    exact ⟨s', hspr, hcom, hend, hzd⟩
  | succ length ih =>
    obtain ⟨s1, hcom, hspr, hzd, htop⟩ := clears_round hroom hcov harr (by omega) hins hsm hlast hs
    rw [if_pos (by omega)] at htop
    have hsum : position + (length + 1 + 1) = position + 1 + (length + 1) := by omega
    rw [hsum] at hins hlast
    obtain ⟨s', hclrs⟩ := ih hins hlast htop
    refine ⟨s', hspr.trans hclrs.toSpares (Nat.le_refl _), hcom.trans hclrs.comes,
      hclrs.arrives, ?_⟩
    rw [Nat.add_comm (length + 1) 1]
    exact hzd.trans hclrs.zeroed (by omega)

theorem clears_clear {run : ZeroRun} {u : Unit} (hb : Builds (clear symbol run) b u b')
    (hcov : stage.Covers b') (harr : run.length ≠ 0 → stage.act.array? symbol = some array)
    (hins : 4 * (run.start + run.length) ≤ array.bytes) (hsm : array.bytes < 2147483648)
    (hs : s.position = stage.base + b.code.body.size) :
    ∃ s', stage.Clears array.start run.start run.length b b' s s' := by
  rcases builds_clear.1 hb with ⟨_, hb⟩ | ⟨hlong, hb⟩
  · exact clears_writeElements hb hcov harr hins (by omega) hs
  obtain ⟨htemp, hlab, first, last, hfst, hlast, rfl⟩ := builds_clearByLoop.1 hb
  unfold loopThreshold at hlong
  have hoff : ∀ (position : Nat) (offset : Int32),
      signedMul (.ofNat position) wordSize = .ok offset → offset = .ofNat (4 * position) := by
    intro position offset h
    exact congrArg UInt32.toInt32 (toUInt32_of_signedMul h)
  have hcov1 := hcov.of_emit.of_emit.of_emit
  have hcov0 := hcov1.of_emit
  -- the cursor is set, and the label is passed
  have hloc := hcov.temps b.code.temps (by
    show _ < (b.code.temps + 1).toNat
    rw [toNat_succ htemp]
    exact Nat.lt_succ_self _)
  have hcopy : stage.act.effect s (.copy (.temp b.code.temps) (.const first)) =
      some (s.set (.temp b.code.temps) first) :=
    assign_local s first (stage.temps (.temp b.code.temps) rfl) hloc
  obtain ⟨s1, hcom, hspr, hmemo, htop⟩ : ∃ s1, Comes stage.act stage.body s s1 ∧
      Spares b s s1 ∧ s1.memory = s.memory ∧ stage.AtTop b first run.start s1 := by
    refine ⟨_, (comes_next (b := b.addTemp.addLabel) hcov0 hs hcopy rfl).trans
      (comes_label hcov1 rfl), ((spares_set b s (Nat.le_refl _) first).at _).at _, rfl, rfl, ?_⟩
    exact (s.set_self _ first).trans (congrArg some (hoff _ _ hfst))
  obtain ⟨length, hlen⟩ : ∃ length, run.length = length + 1 := ⟨run.length - 1, by omega⟩
  rw [hlen] at hins hlast ⊢
  obtain ⟨s', hclrs⟩ := clears_rounds htemp hcov (harr (by omega)) hins hsm (hoff _ _ hlast) htop
  refine ⟨s', hspr.trans hclrs.toSpares (Nat.le_refl _), hcom.trans hclrs.comes, hclrs.arrives, ?_⟩
  rw [← hmemo]
  exact hclrs.zeroed

end Stage

end Generation

end SysY

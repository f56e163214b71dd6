import SysY.Proofs.RiscV.Blocks
import SysY.Proofs.RiscV.Emission
import SysY.Proofs.Tigger.Discipline

/-!
# States of register code on the machine

Machine code keeps two words for itself: the one below the stack pointer, where a register is put
while it is lent, and the one below the stack pointer of the caller, where the return address is.
Everywhere else, and in all registers but the scratch registers that are not awaited, it holds what
register code holds. `corresponds_pass` is this for one instruction and its block.
-/

namespace SysY.RiscV

open Tigger.Instruction Setting List

open Tigger (Awaits Tidy)

/-! ## Words of its own -/

def wordBelow (x : Int32) : Region := ⟨(x + -4).toUInt32, 4⟩

/-- Whether machine code keeps a byte for itself, in a function with a stack pointer under that of its
caller. -/
def isOwn (top sp : Int32) (b : UInt32) : Bool :=
  (wordBelow sp).contains b || (wordBelow top).contains b

/-- A word without a byte that machine code keeps for itself. -/
def Free (top sp : Int32) (a : UInt32) : Prop :=
  ∀ k : UInt32, k.toNat < 4 → isOwn top sp (a + k) = false

variable {top sp : Int32} {a : UInt32} {b : UInt32} {x v : Int32} {r : Register}
  {code : List Instruction}

theorem wordBelow_of_isOwn (h : isOwn top sp b = false) :
    (wordBelow sp).contains b = false ∧ (wordBelow top).contains b = false := by
  simpa [isOwn] using h

theorem Free.outside (h : Free top sp a) (hb : isOwn top sp b = true) :
    4 ≤ (b - a).toNat := by
  refine Nat.le_of_not_lt fun hlt => ?_
  have hfalse := h (b - a) hlt
  rw [UInt32.add_comm, UInt32.sub_add_cancel, hb] at hfalse
  cases hfalse

theorem Free.apart (h : Free top sp a) : Apart a (sp + -4).toUInt32 := by
  refine Decidable.byContradiction fun hnot => ?_
  obtain ⟨j, k, hj, hk, heq⟩ := Region.exists_common_byte hnot
  have hfalse := (wordBelow_of_isOwn (h j hj)).1
  rw [heq] at hfalse
  exact Bool.false_ne_true (hfalse.symm.trans (Region.contains_word hk))

/-- A frame between two stack pointers: its words are free, and so is the return address from what
is below. -/
structure Spans (top sp : Int32) (frame : UInt32) : Prop where
  slots : ∀ slot : UInt32, slot.toNat < frame.toNat → Free top sp (sp.toUInt32 + 4 * slot)
  apart : (wordBelow top).Disjoint (wordBelow sp)

theorem contains_wordBelow :
    (wordBelow x).contains b = true ↔ (b - x.toUInt32 + 4).toNat < 4 := by
  have hshf : b - (x + -4).toUInt32 = b - x.toUInt32 + 4 := by
    rw [Int32.toUInt32_add]
    show b - (x.toUInt32 + -4) = _
    grind
  simp only [wordBelow, Region.contains, hshf, decide_eq_true_eq]

theorem spans_of_stackSize (top : Int32) {frame : UInt32} {stack : Int32}
    (hfrm : frame.toNat < maxFrame) (hstk : stackSize frame = .ok stack) :
    Spans top (top - stack) frame := by
  obtain ⟨stack', hstk', hbyt⟩ := stackSize_ok hfrm
  obtain rfl : stack' = stack := Except.ok.inj (hstk'.symm.trans hstk)
  have hsz : stack'.toUInt32.toNat = 16 * (frame.toNat / 4 + 1) := by
    have := @toNat_toUInt32 stack' (by omega)
    omega
  unfold maxFrame at hfrm
  constructor
  · intro slot hslot k hk
    have hbel : (wordBelow (top - stack')).contains ((top - stack').toUInt32 + 4 * slot + k) = false := by
      refine Bool.eq_false_iff.2 fun h => ?_
      have heq : (top - stack').toUInt32 + 4 * slot + k - (top - stack').toUInt32 + 4 =
          4 * slot + k + 4 := by grind
      rw [contains_wordBelow, heq] at h
      simp only [UInt32.toNat_add, UInt32.toNat_mul, UInt32.reduceToNat] at h
      omega
    have habv : (wordBelow top).contains ((top - stack').toUInt32 + 4 * slot + k) = false := by
      refine Bool.eq_false_iff.2 fun h => ?_
      have heq : (top - stack').toUInt32 + 4 * slot + k - top.toUInt32 + 4 =
          4 * slot + k + 4 - stack'.toUInt32 := by
        rw [Int32.toUInt32_sub]
        grind
      rw [contains_wordBelow, heq] at h
      simp only [UInt32.toNat_sub, UInt32.toNat_add, UInt32.toNat_mul, UInt32.reduceToNat, hsz] at h
      omega
    rw [isOwn, hbel, habv, Bool.or_false]
  · rintro b ⟨h, h'⟩
    rw [contains_wordBelow] at h h'
    have heq : b - (top - stack').toUInt32 + 4 = b - top.toUInt32 + 4 + stack'.toUInt32 := by
      rw [Int32.toUInt32_sub]
      grind
    rw [heq, UInt32.toNat_add, hsz] at h'
    omega

theorem free_of_below (hsp : sp.toUInt32.toNat ≤ top.toUInt32.toNat)
    (ha : a.toNat + 8 ≤ sp.toUInt32.toNat) : Free top sp a := by
  have houtside : ∀ x : Int32, sp.toUInt32.toNat ≤ x.toUInt32.toNat → ∀ k : UInt32, k.toNat < 4 →
      (wordBelow x).contains (a + k) = false := by
    intro x hx k hk
    refine Bool.eq_false_iff.2 fun h => ?_
    rw [contains_wordBelow] at h
    have := x.toUInt32.toNat_lt
    simp only [UInt32.toNat_add, UInt32.toNat_sub, UInt32.reduceToNat] at h
    omega
  intro k hk
  rw [isOwn, houtside sp (Nat.le_refl _) k hk, houtside top hsp k hk, Bool.or_false]

/-! ## Register code on the machine -/

/-- What register code finds on a machine, where nothing but its own instructions may touch what
machine code keeps for itself, and where a division by zero has no value. -/
def Setting.forCode (setting : Setting) (top sp : Int32) (reserved : UInt32 → Bool) :
    Tigger.Setting where
  sp := sp.toUInt32
  place := setting.place
  keeps := setting.keeps
  reserved b := reserved b || isOwn top sp b
  byZero _ _ := none
  reply k := ⟨fun r => (setting.reply k).registers r, (setting.reply k).memory⟩

/-- A machine on which a function can run: a callee leaves the return address alone, and the global
variables that the function reads are elsewhere. -/
structure Setting.Suits (setting : Setting) (f : Tigger.Function) (top sp : Int32) : Prop where
  back : ∀ b, (wordBelow top).contains b = true → setting.keeps b = true
  globals : ∀ global dest, .globalLoad global dest ∈ f.body → Free top sp (setting.place global)

/-- The call that an event is, by the name that machine code uses. -/
def callOf? : Tigger.Event → Option (String × List Int32)
  | .call function arguments => some (callee function, arguments)
  | .store .. => none

/-- The state of the machine holds what the state of register code holds in front of the code that is
still to run, and the return address of the function. -/
structure Corresponds (top sp back : Int32) (rest : List Tigger.Instruction) (s : Tigger.State)
    (m : State) : Prop where
  registers : ∀ r, r ∉ Register.scratchOnes ∨ Awaits r rest → m.value r = s.value r
  stackPointer : m.value .sp = sp
  memory : ∀ b, isOwn top sp b = false → m.memory b = s.memory b
  back : m.memory.word (top + -4).toUInt32 = back
  calls : m.calls = s.events.filterMap callOf?
  count : s.calls = m.calls.length

variable {back : Int32} {setting : Setting} {reserved : UInt32 → Bool} {i : Tigger.Instruction}
  {rest : List Tigger.Instruction} {s s' : Tigger.State} {m m' : State}

theorem free_of_admits (h : (setting.forCode top sp reserved).admits a = true) : Free top sp a := by
  have hfalse : ∀ b, (setting.forCode top sp reserved).reserved b = false → isOwn top sp b = false :=
    fun b hb => (Bool.or_eq_false_iff.1 hb).2
  simp only [Tigger.Setting.admits, Bool.not_eq_true', Bool.or_eq_false_iff] at h
  obtain ⟨⟨⟨h0, h1⟩, h2⟩, h3⟩ := h
  intro k hk
  have hcas : k = 0 ∨ k = 1 ∨ k = 2 ∨ k = 3 := by
    simp only [← UInt32.toNat_inj, UInt32.reduceToNat]
    omega
  rcases hcas with rfl | rfl | rfl | rfl
  · rw [UInt32.add_zero]
    exact hfalse a h0
  · exact hfalse _ h1
  · exact hfalse _ h2
  · exact hfalse _ h3

namespace Corresponds

theorem read (h : Corresponds top sp back (i :: rest) s m) (hr : r ∈ i.reads) :
    m.value r = s.value r := h.registers r (.inr (.inl hr))

theorem word (h : Corresponds top sp back rest s m) (ha : Free top sp a) :
    m.memory.word a = s.memory.word a :=
  Memory.word_congr fun k hk => h.memory _ (ha k hk)

theorem elsewhere (h : Corresponds top sp back rest s m) {rest' : List Tigger.Instruction}
    (hfr : ∀ r ∈ Register.scratchOnes, ¬ Awaits r rest') : Corresponds top sp back rest' s m :=
  { h with
    registers := fun r hr =>
      h.registers r (.inl fun hscr => hr.elim (· hscr) (hfr r hscr)) }

theorem kept (h : Corresponds top sp back (i :: rest) s m) (htidy : Tidy (i :: rest))
    (hr : r ∉ Register.scratchOnes ∨ Awaits r rest) (hdest : i.dest? ≠ some r)
    (hover : i.overwrites r = false) : m.value r = s.value r ∧ r ∉ i.disturbs := by
  refine ⟨h.registers r (hr.imp_right fun h => .inr ⟨hover, h⟩), fun hdis => ?_⟩
  exact hr.elim (· (mem_scratchOnes_of_disturbs hdis)) (htidy.1 r hdis hdest)

theorem gives (h : Corresponds top sp back (i :: rest) s m) (htidy : Tidy (i :: rest))
    {dest : Register} (hdest : i.dest? = some dest) (hz : dest ≠ .zero) (hgiv : setting.Gives code m dest v (i.disturbs.map .file)) :
    ∃ m', setting.exec code m = some m' ∧ Corresponds top sp back rest (s.set dest v) m' := by
  obtain ⟨m', hexec, hval, honly⟩ := hgiv
  refine ⟨m', hexec, ⟨fun r hr => ?_, ?_, ?_, ?_, ?_, ?_⟩⟩
  · by_cases hne : r = dest
    · rw [hne, hval, s.value_set_self v hz]
    · have hdest' : i.dest? ≠ some r := fun h => hne (Option.some.inj (h.symm.trans hdest))
      have hover : i.overwrites r = false :=
        Bool.eq_false_iff.2 fun h => hne ((overwrites_of_dest hdest r).1 h)
      obtain ⟨hsame, hdis⟩ := h.kept htidy hr hdest' hover
      rw [honly.registers r (by simpa using ⟨hne, hdis⟩), hsame, s.value_set_of_ne v hne]
  · rw [honly.registers .sp (by simp), h.stackPointer]
  · rw [honly.memory]
    exact h.memory
  · rw [honly.memory]
    exact h.back
  · rw [honly.calls]
    exact h.calls
  · rw [honly.calls]
    exact h.count

theorem stores (h : Corresponds top sp back (i :: rest) s m) (htidy : Tidy (i :: rest))
    (hdest : i.dest? = none) (hover : ∀ r, i.overwrites r = false)
    (hdis : i.disturbs = Register.scratchOnes) (hapart : (wordBelow top).Disjoint (wordBelow sp))
    (ha : Free top sp a) (hstores : setting.Stores code m m' a v scratch)
    {events : List Tigger.Event} (hevents : events.filterMap callOf? = s.events.filterMap callOf?) :
    Corresponds top sp back rest { s.write a v with events := events } m' where
  registers r hr := by
    obtain ⟨hsame, hkept⟩ := h.kept htidy hr (hdest ▸ nofun) (hover r)
    rw [hdis] at hkept
    rw [hstores.registers r (by simpa [scratch] using hkept)]
    exact hsame
  stackPointer := by rw [hstores.registers .sp (by simp [scratch]), h.stackPointer]
  memory b hb := by
    have hlent : (lentWord m).contains b = false := by
      rw [lentWord, State.address, h.stackPointer]
      exact (wordBelow_of_isOwn hb).1
    rw [hstores.memory b hlent]
    show m.memory.write a v b = s.memory.write a v b
    unfold Memory.write
    rw [h.memory b hb]
  back := by
    rw [← h.back]
    refine Memory.word_congr fun k hk => ?_
    have hcon : (wordBelow top).contains ((top + -4).toUInt32 + k) = true := Region.contains_word hk
    have hlent : (lentWord m).contains ((top + -4).toUInt32 + k) = false := by
      rw [lentWord, State.address, h.stackPointer]
      exact Bool.eq_false_iff.2 fun h => hapart _ ⟨hcon, h⟩
    rw [hstores.memory _ hlent]
    exact Memory.write_outside _ _ _ (ha.outside (by rw [isOwn, hcon, Bool.or_true]))
  calls := by rw [hstores.calls, h.calls, hevents]
  count := by rw [hstores.calls]; exact h.count

theorem call {fn : String} (h : Corresponds top sp back (.call fn :: rest) s m)
    (hback : ∀ b, (wordBelow top).contains b = true → setting.keeps b = true) :
    Corresponds top sp back rest ((setting.forCode top sp reserved).afterCall s fn)
      (setting.afterCall m (callee fn)) where
  registers r _ := by
    have hsame : ∀ r : Register, r.isSaved = true → m.value r = s.value r := by
      intro r hr
      refine h.registers r (.inl fun hmem => ?_)
      simp only [Register.scratchOnes, mem_cons, not_mem_nil, or_false] at hmem
      rcases hmem with rfl | rfl <;> cases hr
    cases r with
    | zero => rfl
    | saved n => exact hsame (.saved n) rfl
    | temporary n =>
      show (setting.reply m.calls.length).registers _ = (setting.reply s.calls).registers _
      rw [h.count]
    | argument n =>
      show (setting.reply m.calls.length).registers _ = (setting.reply s.calls).registers _
      rw [h.count]
  stackPointer := h.stackPointer
  memory b hb := by
    show (if setting.keeps b then m.memory b else (setting.reply m.calls.length).memory b) =
      if setting.keeps b then s.memory b else (setting.reply s.calls).memory b
    rw [h.memory b hb, h.count]
  back := by
    rw [← h.back]
    exact Memory.word_congr fun k hk => if_pos (hback _ (Region.contains_word hk))
  calls := by
    have hargs : (Register.arguments.map fun r : Register => m.value r) = s.arguments :=
      map_congr_left fun r hr => h.read hr
    show m.calls ++ [_] = (s.events ++ [_]).filterMap callOf?
    rw [hargs, h.calls, filterMap_append]
    rfl
  count := by
    show s.calls + 1 = (m.calls ++ [_]).length
    rw [h.count, length_append]
    rfl

end Corresponds

/-! ## Instructions after which control goes on -/

theorem slotOffset_address {slot : UInt32} {offset : Int32} (h : slotOffset slot = .ok offset)
    (sp : Int32) : (sp + offset).toUInt32 = sp.toUInt32 + 4 * slot := by
  unfold slotOffset signedMul at h
  split at h
  · cases h
    rw [Int32.toUInt32_add, Int32.toUInt32_mul, UInt32.toUInt32_toInt32]
    rfl
  · cases h

theorem fold_of_runBinary {op : BinaryOp} {y : Int32}
    (h : Eeyore.runBinary (setting.forCode top sp reserved).byZero op x y = some v) :
    op.fold x y = some v := by
  unfold Eeyore.runBinary at h
  split at h
  · rename_i hfold
    exact hfold.trans h
  · cases h

variable {f : Tigger.Function} {stack : Int32} {block : List Line}

theorem corresponds_pass (hd : f.Disciplined) (hsp : Spans top sp f.frame)
    (hsuits : setting.Suits f top sp) (hi : i ∈ f.body) (htidy : Tidy (i :: rest))
    (h : Corresponds top sp back (i :: rest) s m)
    (hpass : (setting.forCode top sp reserved).machine.pass s i = some s')
    (hsel : select stack i = .ok block) :
    ∃ m', setting.machine.exec block m = some m' ∧ Corresponds top sp back rest s' m' := by
  have hwrb := hd.writable i hi
  have hslot : ∀ slot, i.slot? = some slot → Free top sp (sp.toUInt32 + 4 * slot) :=
    fun slot hslot => hsp.slots slot (hd.words i hi slot hslot)
  have haddr : ∀ {slot offset}, slotOffset slot = .ok offset →
      m.address .sp offset = sp.toUInt32 + 4 * slot := by
    intro slot offset hoff
    rw [State.address, h.stackPointer, slotOffset_address hoff]
  cases i with
  | binary dest op left right =>
    have hz : dest ≠ .zero := fun h => hwrb (congrArg some h)
    rw [Tigger.Setting.pass_binary] at hpass
    obtain ⟨v, hv, rfl⟩ := Option.map_eq_some_iff.1 hpass
    have hfold := fold_of_runBinary hv
    have hl : m.value left = s.value left := h.read (by cases right <;> simp [reads])
    cases right with
    | register right =>
      have hright : m.value right = s.value right := h.read (by simp [reads])
      cases hsel
      exact h.gives htidy rfl hz (gives_selectBinary hz (by rwa [hl, hright]))
    | immediate c =>
      cases hsel
      exact h.gives htidy rfl hz (gives_selectImmediate hz (by rwa [hl]))
  | unary dest op operand =>
    have hz : dest ≠ .zero := fun h => hwrb (congrArg some h)
    have hop : m.value operand = s.value operand := h.read (by simp [reads])
    cases hpass
    cases op with
    | neg =>
      cases hsel
      exact h.gives htidy rfl hz (hop ▸ gives_single .neg hz operand)
    | not =>
      cases hsel
      exact h.gives htidy rfl hz (hop ▸ gives_single .seqz hz operand)
  | move dest source =>
    have hz : dest ≠ .zero := fun h => hwrb (congrArg some h)
    have hsrc : m.value source = s.value source := h.read (by simp [reads])
    cases hpass
    cases hsel
    exact h.gives htidy rfl hz (hsrc ▸ gives_single .mv hz source)
  | constant dest c =>
    have hz : dest ≠ .zero := fun h => hwrb (congrArg some h)
    cases hpass
    cases hsel
    exact h.gives htidy rfl hz (gives_constant hz c)
  | store base offset value =>
    have hbase : m.value base = s.value base := h.read (by simp [reads])
    have hval : m.value value = s.value value := h.read (by simp [reads])
    obtain ⟨hadm, hs⟩ := Option.ite_none_right_eq_some.1 hpass
    cases hs
    cases hsel
    have hfree := free_of_admits hadm
    have hapart : Apart (m.address base offset) (m.address .sp (-4)) := by
      rw [State.address, State.address, hbase, h.stackPointer]
      exact hfree.apart
    obtain ⟨changed, m', hhlp, hstores⟩ :=
      @stores_selectStore setting m offset base value hapart
    refine ⟨m', hstores.exec, ?_⟩
    rw [State.address, hbase, hval] at hstores
    exact h.stores htidy rfl (fun _ => rfl) rfl hsp.apart hfree (hstores.mono hhlp.subset)
      (by simp [callOf?])
  | load dest base offset =>
    have hz : dest ≠ .zero := fun h => hwrb (congrArg some h)
    have hbase : m.value base = s.value base := h.read (by simp [reads])
    obtain ⟨hadm, hs⟩ := Option.ite_none_right_eq_some.1 hpass
    cases hs
    cases hsel
    obtain ⟨changed, hhlp, hgiv⟩ := @gives_selectLoad setting m dest hz base offset
    rw [State.address, hbase, h.word (free_of_admits hadm)] at hgiv
    exact h.gives htidy rfl hz (hgiv.mono hhlp.subset)
  | branch left relation right target =>
    have hl : m.value left = s.value left := h.read (by simp [reads])
    have hright : m.value right = s.value right := h.read (by simp [reads])
    cases hsel
    by_cases hholds : relation.holds (s.value left) (s.value right)
    · simp [Machine.pass, Tigger.Setting.machine, Tigger.Setting.course, hholds] at hpass
    · obtain rfl : s = s' := by
        simpa [Machine.pass, Tigger.Setting.machine, Tigger.Setting.course, hholds,
          Tigger.Setting.effect] using hpass
      refine ⟨m, ?_, { h with registers := fun r hr => (h.kept htidy hr (fun hdest => by cases hdest) rfl).1 }⟩
      simp [Machine.pass, machine, course, hl, hright, hholds, effect,
        perform]
  | jump target => cases hpass
  | label l =>
    cases hpass
    cases hsel
    exact ⟨m, rfl, h.elsewhere fun r hr => htidy.1 r hr fun hdest => by cases hdest⟩
  | call fn =>
    cases hpass
    cases hsel
    exact ⟨_, rfl, h.call hsuits.back⟩
  | «return» => cases hpass
  | stackStore value slot =>
    have hval : m.value value = s.value value := h.read (by simp [reads])
    cases hpass
    obtain ⟨offset, hoff, hsel⟩ := bind_eq_ok.1 hsel
    cases hsel
    obtain ⟨changed, m', hhlp, hstores⟩ := @stores_selectStackStore setting m value offset
    refine ⟨m', hstores.exec, ?_⟩
    rw [haddr hoff, hval] at hstores
    exact h.stores htidy rfl (fun _ => rfl) rfl hsp.apart (hslot slot rfl)
      (hstores.mono hhlp.subset) rfl
  | stackLoad slot dest =>
    have hz : dest ≠ .zero := fun h => hwrb (congrArg some h)
    cases hpass
    obtain ⟨offset, hoff, hsel⟩ := bind_eq_ok.1 hsel
    cases hsel
    have hgiv := @gives_selectStackLoad setting m dest [] hz offset
    rw [haddr hoff, h.word (hslot slot rfl)] at hgiv
    exact h.gives htidy rfl hz hgiv
  | stackAddress slot dest =>
    have hz : dest ≠ .zero := fun h => hwrb (congrArg some h)
    cases hpass
    obtain ⟨offset, hoff, hsel⟩ := bind_eq_ok.1 hsel
    cases hsel
    have hgiv := @gives_selectStackAddress setting m dest [] hz offset
    rw [h.stackPointer, ← Int32.toInt32_toUInt32 (sp + offset), slotOffset_address hoff] at hgiv
    exact h.gives htidy rfl hz hgiv
  | globalLoad global dest =>
    have hz : dest ≠ .zero := fun h => hwrb (congrArg some h)
    cases hpass
    cases hsel
    have hgiv := @gives_globalLoad setting m dest [] hz global
    rw [h.word (hsuits.globals global dest hi)] at hgiv
    exact h.gives htidy rfl hz hgiv
  | globalAddress global dest =>
    have hz : dest ≠ .zero := fun h => hwrb (congrArg some h)
    cases hpass
    cases hsel
    exact h.gives htidy rfl hz (gives_address hz global)

/-! ## Jumps and returns -/

theorem course_of_jump (h : Corresponds top sp back (i :: rest) s m) {label : Label}
    (heff : (setting.forCode top sp reserved).effect s i = some s')
    (hcrs : Tigger.Setting.course s i = .jump label) (hsel : select stack i = .ok block) :
    s' = s ∧ ∃ j, block = [.instruction j] ∧ setting.perform m j = some m ∧
      Setting.course m (.instruction j) = .jump label := by
  cases i with
  | branch left relation right target =>
    have hl : m.value left = s.value left := h.read (by simp [reads])
    have hr : m.value right = s.value right := h.read (by simp [reads])
    cases heff
    cases hsel
    refine ⟨rfl, _, rfl, rfl, ?_⟩
    rw [course, hl, hr]
    exact hcrs
  | jump target =>
    cases heff
    cases hsel
    exact ⟨rfl, _, rfl, rfl, hcrs⟩
  | _ => cases hcrs

theorem exec_return (hsp : sp = top - stack) (h : Corresponds top sp back rest s m) :
    ∃ m', setting.exec (moveStackPointer stack ++ [.loadWord .ra (-4) .sp]) m = some m' ∧
      m'.value .sp = top ∧ m'.value .ra = back ∧ Only (.ra :: .sp :: scratch) m m' := by
  obtain ⟨m1, hexec, hptr, honly⟩ := @gives_moveStackPointer setting m stack
  have htop : m1.value .sp = top := by
    rw [hptr, h.stackPointer, hsp, Int32.sub_add_cancel]
  have hback : m1.memory.word (m1.address .sp (-4)) = back := by
    rw [State.address, htop, honly.memory, h.back]
  refine ⟨m1.set .ra back, ?_, ?_, m1.value_set_self _ (by decide), ?_⟩
  · rw [exec, map_append, Machine.exec_append_of_exec hexec]
    exact (setting.exec_loadWord m1 .ra .sp (by decide)).trans (by rw [hback]; rfl)
  · rw [State.value_set_of_ne _ _ (show Reg.sp ≠ .ra by decide), htop]
  · exact (honly.mono fun x hx => mem_cons_of_mem _ hx).set mem_cons_self _

end SysY.RiscV

import SysY.Proofs.RiscV.Arithmetic

/-!
# What the chosen instructions do

Each block of instructions that stands for one instruction of register code gives its register the
value that it should have, or writes the word that it should write. Beyond that it changes at most the
scratch registers and, where a register has been lent, the word below the stack pointer.
-/

namespace SysY.RiscV

open State Register List

/-! ## What a block leaves alone -/

def scratch : List Reg := Register.scratchOnes.map .file

theorem otherScratch_mem_scratch (r : Register) : Reg.file r.otherScratch ∈ scratch :=
  mem_map_of_mem r.otherScratch_mem

/-- Nothing has changed but some registers. -/
structure Only (changed : List Reg) (m m' : State) : Prop where
  registers : ∀ x, x ∉ changed → m'.value x = m.value x
  memory : m'.memory = m.memory
  calls : m'.calls = m.calls

namespace Only

variable {changed changed' : List Reg} {m m1 m2 : State}

theorem refl (changed : List Reg) (m : State) : Only changed m m := ⟨fun _ _ => rfl, rfl, rfl⟩

theorem set (h : Only changed m m1) {x : Reg} (hx : x ∈ changed) (v : Int32) :
    Only changed m (m1.set x v) where
  registers y hy := by
    have hne : y ≠ x := fun heq => hy (heq ▸ hx)
    rw [value_set_of_ne _ _ hne, h.registers y hy]
  memory := h.memory
  calls := h.calls

theorem trans (h1 : Only changed m m1) (h2 : Only changed m1 m2) : Only changed m m2 where
  registers x hx := (h2.registers x hx).trans (h1.registers x hx)
  memory := h2.memory.trans h1.memory
  calls := h2.calls.trans h1.calls

theorem mono (h : Only changed m m1) (hsub : ∀ x ∈ changed, x ∈ changed') :
    Only changed' m m1 where
  registers x hx := h.registers x fun hmem => hx (hsub x hmem)
  memory := h.memory
  calls := h.calls

end Only

/-- At most one scratch register, and none of those in use. -/
def Helper (inUse : List Register) (changed : List Reg) : Prop :=
  changed = [] ∨ ∃ r ∈ Register.scratchOnes, r ∉ inUse ∧ changed = [.file r]

variable {inUse : List Register}

theorem Helper.subset {changed : List Reg} (h : Helper inUse changed) :
    ∀ x ∈ changed, x ∈ scratch := by
  rcases h with rfl | ⟨r, hr, _, rfl⟩
  · simp
  · simpa [scratch] using hr

theorem helper_otherScratch {r : Register} (h : r.otherScratch ∉ inUse) :
    Helper inUse [.file r.otherScratch] :=
  .inr ⟨_, r.otherScratch_mem, h, rfl⟩

/-- The word below the stack pointer. -/
def lentWord (m : State) : Region := ⟨m.address .sp (-4), 4⟩

namespace Setting

variable (setting : Setting)

/-- The block gives a register a value and changes nothing else but some registers. -/
def Gives (code : List Instruction) (m : State) (dest : Reg) (v : Int32) (changed : List Reg) : Prop :=
  ∃ m', setting.exec code m = some m' ∧ m'.value dest = v ∧ Only (dest :: changed) m m'

variable {setting} {m m1 : State} {dest a b : Register} {v : Int32} {changed : List Reg}

variable {rest : List Instruction} {x : Reg} {changed' : List Reg} {c : Int32} {k : Nat}

theorem Gives.after {code : List Instruction} (hexec : setting.exec code m = setting.exec rest m1)
    (honly : Only (x :: changed) m m1)
    (h : setting.Gives rest m1 x v changed) : setting.Gives code m x v changed := by
  obtain ⟨m2, hexec', hval, honly'⟩ := h
  exact ⟨m2, hexec.trans hexec', hval, honly.trans honly'⟩

theorem Gives.mono {code : List Instruction} (h : setting.Gives code m x v changed)
    (hsub : ∀ y ∈ changed, y ∈ changed') :
    setting.Gives code m x v changed' := by
  obtain ⟨m', hexec, hval, honly⟩ := h
  exact ⟨m', hexec, hval, honly.mono fun y hy => by
    rcases List.mem_cons.1 hy with rfl | hy
    · exact mem_cons_self
    · exact mem_cons_of_mem _ (hsub y hy)⟩

theorem gives_single (op : SingleOp) (hdest : dest ≠ .zero) (source : Reg) :
    setting.Gives [.single op dest source] m dest (op.value (m.value source)) changed :=
  ⟨_, rfl, m.value_set_self _ (by simpa using hdest), (Only.refl _ m).set mem_cons_self _⟩

theorem gives_register (op : RegisterOp) (hdest : dest ≠ .zero) (left right : Reg) :
    setting.Gives [.register op dest left right] m dest
      (op.value (m.value left) (m.value right)) changed :=
  ⟨_, rfl, m.value_set_self _ (by simpa using hdest), (Only.refl _ m).set mem_cons_self _⟩

theorem gives_immediate {op : ImmediateOp} (hdest : dest ≠ .zero) (source : Reg)
    (hc : op.takes c = true) :
    setting.Gives [.immediate op dest source c] m dest (op.value (m.value source) c) changed :=
  ⟨_, setting.exec_immediate m dest source hc, m.value_set_self _ (by simpa using hdest),
    (Only.refl _ m).set mem_cons_self _⟩

theorem gives_register_single (op : RegisterOp) (last : SingleOp) (hdest : dest ≠ .zero)
    (left right : Reg) :
    setting.Gives [.register op dest left right, .single last dest dest] m dest
      (last.value (op.value (m.value left) (m.value right))) changed := by
  have hdest' : Reg.file dest ≠ .file .zero := by simpa using hdest
  refine ⟨_, rfl, ?_, ((Only.refl _ m).set mem_cons_self _).set mem_cons_self _⟩
  rw [value_set_self _ _ hdest', value_set_self _ _ hdest']

/-! ## Operations on two registers -/

theorem gives_conjunction (hdest : dest ≠ .zero) {first second : Register}
    (horder : second = dest → first = dest) :
    setting.Gives [.single .snez dest first, .single .snez dest.otherScratch second,
      .register .and dest dest dest.otherScratch] m dest
      (truth (m.value first != 0 && m.value second != 0)) scratch := by
  have hdest' : Reg.file dest ≠ .file .zero := by simpa using hdest
  have hoth : Reg.file dest.otherScratch ≠ .file .zero := by simpa using dest.otherScratch_ne_zero
  have hne : Reg.file dest ≠ .file dest.otherScratch := by simpa using dest.otherScratch_ne.symm
  have hmem : Reg.file dest.otherScratch ∈ Reg.file dest :: scratch :=
    mem_cons_of_mem _ (otherScratch_mem_scratch dest)
  refine ⟨_, rfl, ?_, (((Only.refl _ m).set mem_cons_self _).set hmem _).set
    mem_cons_self _⟩
  rw [value_set_self _ _ hdest', value_set_of_ne _ _ hne,
    value_set_self _ _ hdest', value_set_self _ _ hoth, snez_value]
  by_cases hsnd : second = dest
  · subst hsnd
    rw [horder rfl, value_set_self _ _ hdest', snez_truth, and_truth]
  · rw [value_set_of_ne _ _ (by simpa using hsnd), snez_value, and_truth]

theorem gives_selectBinary {op : BinaryOp} (hdest : dest ≠ .zero)
    (h : op.fold (m.value a) (m.value b) = some v) :
    setting.Gives (selectBinary dest op a b) m dest v scratch := by
  cases op with
  | add => exact Option.some.inj h ▸ gives_register .add hdest a b
  | sub => exact Option.some.inj h ▸ gives_register .sub hdest a b
  | mul => exact Option.some.inj h ▸ gives_register .mul hdest a b
  | div =>
    simp only [BinaryOp.fold, Option.ite_none_left_eq_some, Option.some.injEq] at h
    have hgiv := @gives_register setting m dest scratch .div hdest a b
    rwa [RegisterOp.value, if_neg h.1, h.2] at hgiv
  | rem =>
    simp only [BinaryOp.fold, Option.ite_none_left_eq_some, Option.some.injEq] at h
    have hgiv := @gives_register setting m dest scratch .rem hdest a b
    rwa [RegisterOp.value, if_neg h.1, h.2] at hgiv
  | lt => exact Option.some.inj h ▸ gives_register .slt hdest a b
  | gt => exact Option.some.inj h ▸ gives_register .sgt hdest a b
  | le => exact Option.some.inj h ▸ seqz_sgt _ _ ▸ gives_register_single .sgt .seqz hdest a b
  | ge => exact Option.some.inj h ▸ seqz_slt _ _ ▸ gives_register_single .slt .seqz hdest a b
  | eq => exact Option.some.inj h ▸ seqz_xor _ _ ▸ gives_register_single .xor .seqz hdest a b
  | ne => exact Option.some.inj h ▸ snez_xor _ _ ▸ gives_register_single .xor .snez hdest a b
  | or => exact Option.some.inj h ▸ snez_or _ _ ▸ gives_register_single .or .snez hdest a b
  | and =>
    cases Option.some.inj h
    simp only [selectBinary]
    by_cases hb : b = dest
    · rw [if_pos hb, Bool.and_comm]
      exact gives_conjunction hdest fun _ => hb
    · rw [if_neg hb]
      exact gives_conjunction hdest fun heq => absurd heq hb

/-! ## Operations with a constant -/

theorem gives_selectLoaded {op : BinaryOp} {c : Int32} (hdest : dest ≠ .zero)
    (h : op.fold (m.value a) c = some v) :
    setting.Gives (selectLoaded dest op a c) m dest v scratch := by
  have hoth : Reg.file a.otherScratch ≠ .file .zero := by simpa using a.otherScratch_ne_zero
  have hne : Reg.file a ≠ .file a.otherScratch := by simpa using a.otherScratch_ne.symm
  have hmem : Reg.file a.otherScratch ∈ Reg.file dest :: scratch :=
    mem_cons_of_mem _ (otherScratch_mem_scratch a)
  refine Gives.after (setting.exec_constant m _ _) ((Only.refl _ m).set hmem _)
    (gives_selectBinary hdest ?_)
  rw [value_set_of_ne _ _ hne, value_set_self _ _ hoth]
  exact h

theorem gives_selectDivision (hdest : dest ≠ .zero) (hk : k ≤ 11) :
    setting.Gives (selectDivision dest a (.ofNat (2 ^ k)) k) m dest
      (m.value a / .ofNat (2 ^ k)) scratch := by
  have hoth : Reg.file a.otherScratch ≠ .file .zero := by simpa using a.otherScratch_ne_zero
  have hne : Reg.file a ≠ .file a.otherScratch := by simpa using a.otherScratch_ne.symm
  have hdest' : Reg.file dest ≠ .file .zero := by simpa using hdest
  have hmem : Reg.file a.otherScratch ∈ Reg.file dest :: scratch :=
    mem_cons_of_mem _ (otherScratch_mem_scratch a)
  simp only [selectDivision]
  refine ⟨_, by rw [exec_immediate _ _ _ _ (by decide), exec_immediate _ _ _ _ (takes_mask hk),
    exec_register, exec_immediate _ _ _ _ (takes_shift (by omega)), exec_nil], ?_, ?_⟩
  · rw [value_set_self _ _ hdest', value_set_self _ _ hdest',
      value_set_self _ _ hoth, value_set_self _ _ hoth,
      value_set_of_ne _ _ hne, value_set_of_ne _ _ hne]
    exact division_value _ (by omega)
  · exact ((((Only.refl _ m).set hmem _).set hmem _).set mem_cons_self _).set
      mem_cons_self _

theorem gives_selectRemainder (hdest : dest ≠ .zero) (hk : 1 ≤ k) (hk' : k ≤ 11) :
    setting.Gives (selectRemainder dest a (.ofNat (2 ^ k)) k) m dest
      (m.value a % .ofNat (2 ^ k)) scratch := by
  have hbias : Reg.file a.otherScratch ≠ .file .zero := by simpa using a.otherScratch_ne_zero
  have hbiased : Reg.file a.otherScratch.otherScratch ≠ .file .zero := by
    simpa using a.otherScratch.otherScratch_ne_zero
  have hne : Reg.file a ≠ .file a.otherScratch := by simpa using a.otherScratch_ne.symm
  have hne' : Reg.file a.otherScratch ≠ .file a.otherScratch.otherScratch := by
    simpa using a.otherScratch.otherScratch_ne.symm
  have hdest' : Reg.file dest ≠ .file .zero := by simpa using hdest
  have hmem : ∀ r : Register, Reg.file r.otherScratch ∈ Reg.file dest :: scratch :=
    fun r => mem_cons_of_mem _ (otherScratch_mem_scratch r)
  simp only [selectRemainder]
  refine ⟨_, by rw [exec_immediate _ _ _ _ (by decide),
    exec_immediate _ _ _ _ (show ImmediateOp.srli.takes _ = true from takes_shift (by omega)),
    exec_register, exec_immediate _ _ _ _ (takes_mask hk'), exec_register, exec_nil], ?_, ?_⟩
  · simp only [value_set_self _ _ hdest', value_set_self _ _ hbias,
      value_set_self _ _ hbiased, value_set_of_ne _ _ hne,
      value_set_of_ne _ _ hne']
    exact remainder_value _ hk (by omega)
  · exact (((((Only.refl _ m).set (hmem a) _).set (hmem a) _).set (hmem _) _).set (hmem _) _).set
      mem_cons_self _

theorem exponent?_of_le (h : exponent? c = some k) (hc : c ≤ 2048) :
    1 ≤ k ∧ k ≤ 11 ∧ c = .ofNat (2 ^ k) := by
  obtain ⟨hk, hk', rfl⟩ := exponent?_eq_some h
  refine ⟨hk, ?_, rfl⟩
  rw [Int32.le_iff_toInt_le, toInt_power hk'] at hc
  refine Nat.le_of_not_lt fun hlt => ?_
  have hpow : (2 : Int) ^ 12 ≤ 2 ^ k := pow_le_pow_right₀ (by decide) hlt
  have : (2048 : Int32).toInt = 2048 := by decide
  omega

theorem gives_selectImmediate {op : BinaryOp} {c : Int32} (hdest : dest ≠ .zero)
    (h : op.fold (m.value a) c = some v) :
    setting.Gives (selectImmediate dest op a c) m dest v scratch := by
  have hld := @gives_selectLoaded setting m dest a v op c hdest h
  unfold selectImmediate
  split
  · split
    · rename_i hc
      exact Option.some.inj h ▸ gives_immediate hdest a hc
    · exact hld
  · split
    · rename_i hc
      rw [← Option.some.inj h, Int32.sub_eq_add_neg]
      exact gives_immediate hdest a hc
    · exact hld
  · split
    · rename_i hc
      exact Option.some.inj h ▸ gives_immediate hdest a hc
    · exact hld
  · rename_i shift hshf
    obtain ⟨-, hle, rfl⟩ := exponent?_eq_some hshf
    rw [← Option.some.inj h, ← slli_value _ (by omega : shift < 32)]
    exact gives_immediate hdest a (show ImmediateOp.srai.takes _ = true from takes_shift (by omega))
  · rename_i shift hshf
    split
    · rename_i hc
      obtain ⟨-, hle, rfl⟩ := exponent?_of_le hshf hc
      simp only [BinaryOp.fold, Option.ite_none_left_eq_some, Option.some.injEq] at h
      exact h.2 ▸ gives_selectDivision hdest hle
    · exact hld
  · rename_i shift hshf
    split
    · rename_i hc
      obtain ⟨hk, hle, rfl⟩ := exponent?_of_le hshf hc
      simp only [BinaryOp.fold, Option.ite_none_left_eq_some, Option.some.injEq] at h
      exact h.2 ▸ gives_selectRemainder hdest hk hle
    · exact hld
  · exact hld

/-! ## Memory -/

variable {offset : Int32}

theorem gives_constant (hdest : dest ≠ .zero) (c : Int32) :
    setting.Gives [.constant dest c] m dest c changed :=
  ⟨_, rfl, m.value_set_self _ (by simpa using hdest), (Only.refl _ m).set mem_cons_self _⟩

theorem gives_address (hdest : dest ≠ .zero) (global : Tigger.Global) :
    setting.Gives [.address dest global] m dest (setting.place global).toInt32 changed :=
  ⟨_, rfl, m.value_set_self _ (by simpa using hdest), (Only.refl _ m).set mem_cons_self _⟩

theorem gives_globalLoad (hdest : dest ≠ .zero) (global : Tigger.Global) :
    setting.Gives [.upperPart dest global, .loadLower dest global dest] m dest
      (m.memory.word (setting.place global)) changed := by
  have hdest' : Reg.file dest ≠ .file .zero := by simpa using hdest
  refine ⟨_, rfl, ?_, ((Only.refl _ m).set mem_cons_self _).set mem_cons_self _⟩
  rw [value_set_self _ _ hdest', address, value_set_self _ _ hdest',
    upperPart_add_lowerPart]
  rfl

theorem exec_sum {base : Reg} (hx : x ≠ .file .zero) (hbase : base ≠ x) :
    setting.exec (.constant x offset :: .register .add x x base :: rest) m =
      setting.exec rest ((m.set x offset).set x (m.value base + offset)) := by
  rw [exec_constant, exec_register, value_set_self _ _ hx, value_set_of_ne _ _ hbase,
    RegisterOp.value, Int32.add_comm]

theorem address_zero (hx : x ≠ .file .zero) (c : Int32) :
    (m.set x c).address x 0 = c.toUInt32 := by
  rw [address, value_set_self _ _ hx, Int32.add_zero]

theorem gives_selectLoad (hdest : dest ≠ .zero) (base : Register) (offset : Int32) :
    ∃ changed, Helper [base, dest] changed ∧ setting.Gives (selectLoad dest base offset) m dest
      (m.memory.word (m.address base offset)) changed := by
  have hdest' : Reg.file dest ≠ .file .zero := by simpa using hdest
  unfold selectLoad
  split
  · rename_i hoff
    exact ⟨[], .inl rfl, _, setting.exec_loadWord m dest base hoff, m.value_set_self _ hdest',
      (Only.refl _ m).set mem_cons_self _⟩
  · -- the address is put together in a register that is not the base
    obtain ⟨x, changed, hx, hz, hne, hhlp, hmem⟩ : ∃ x changed,
        (if dest ≠ base then dest else base.otherScratch) = x ∧ Reg.file x ≠ .file .zero ∧
        Reg.file base ≠ .file x ∧ Helper [base, dest] changed ∧
          Reg.file x ∈ Reg.file dest :: changed := by
      by_cases h : dest = base
      · refine ⟨_, _, if_neg (by simpa using h), by simpa using base.otherScratch_ne_zero,
          by simpa using base.otherScratch_ne.symm, helper_otherScratch ?_,
          mem_cons_of_mem _ mem_cons_self⟩
        simp [h, base.otherScratch_ne]
      · exact ⟨_, [], if_pos h, hdest', by simpa using Ne.symm h, .inl rfl, mem_cons_self⟩
    simp only [hx]
    refine ⟨changed, hhlp, _,
      by rw [exec_sum hz hne, exec_loadWord _ _ _ _ (by decide), exec_nil], ?_, ?_⟩
    · rw [value_set_self _ _ hdest', address_zero hz]
      rfl
    · exact (((Only.refl _ m).set hmem _).set hmem _).set mem_cons_self _

theorem gives_selectStackLoad (hdest : dest ≠ .zero) (offset : Int32) :
    setting.Gives (selectStackLoad dest offset) m dest
      (m.memory.word (m.address .sp offset)) changed := by
  have hdest' : Reg.file dest ≠ .file .zero := by simpa using hdest
  unfold selectStackLoad
  split
  · rename_i hoff
    exact ⟨_, setting.exec_loadWord m dest .sp hoff, m.value_set_self _ hdest',
      (Only.refl _ m).set mem_cons_self _⟩
  · refine ⟨_, by rw [exec_sum hdest' (by simp), exec_loadWord _ _ _ _ (by decide), exec_nil],
      ?_, ?_⟩
    · rw [value_set_self _ _ hdest', address_zero hdest']
      rfl
    · exact (((Only.refl _ m).set mem_cons_self _).set mem_cons_self _).set
        mem_cons_self _

theorem gives_selectStackAddress (hdest : dest ≠ .zero) (offset : Int32) :
    setting.Gives (selectStackAddress dest offset) m dest (m.value .sp + offset) changed := by
  have hdest' : Reg.file dest ≠ .file .zero := by simpa using hdest
  unfold selectStackAddress
  split
  · rename_i hoff
    exact gives_immediate hdest .sp hoff
  · refine ⟨_, rfl, ?_, ((Only.refl _ m).set mem_cons_self _).set mem_cons_self _⟩
    rw [value_set_self _ _ hdest', value_set_of_ne _ _ (by simp),
      value_set_self _ _ hdest']
    rfl

/-- The block writes a word. It changes nothing else but some registers and the word below the stack
pointer. -/
structure Stores (setting : Setting) (code : List Instruction) (m m' : State) (a : UInt32)
    (v : Int32) (changed : List Reg) : Prop where
  exec : setting.exec code m = some m'
  registers : ∀ x, x ∉ changed → m'.value x = m.value x
  memory : ∀ b, (lentWord m).contains b = false → m'.memory b = m.memory.write a v b
  calls : m'.calls = m.calls

theorem Stores.mono {code : List Instruction} {m' : State} {a : UInt32}
    (h : setting.Stores code m m' a v changed) (hsub : ∀ x ∈ changed, x ∈ changed') :
    setting.Stores code m m' a v changed' :=
  ⟨h.exec, fun x hx => h.registers x fun hmem => hx (hsub x hmem), h.memory, h.calls⟩

theorem stores_storeWord (value : Register) {base : Reg} (hoff : isImmediate offset = true) :
    setting.Stores [.storeWord value offset base] m
      (m.write (m.address base offset) (m.value value)) (m.address base offset) (m.value value) [] :=
  ⟨setting.exec_storeWord m value base hoff, fun _ _ => rfl, fun _ _ => rfl, rfl⟩

theorem exec_store_sum {base value : Reg} (hx : x ≠ .file .zero) (hbase : base ≠ x)
    (hval : value ≠ x) :
    setting.exec (.constant x offset :: .register .add x x base :: .storeWord value 0 x :: rest) m =
      setting.exec rest (((m.set x offset).set x (m.value base + offset)).write
        (m.address base offset) (m.value value)) := by
  rw [exec_sum hx hbase, exec_storeWord _ _ _ _ (by decide), address_zero hx,
    value_set_of_ne _ _ hval, value_set_of_ne _ _ hval]
  rfl

theorem stores_through {x value : Register} {base : Reg} (hz : x ≠ .zero)
    (hbase : base ≠ .file x) (hval : value ≠ x) :
    ∃ m', setting.Stores [.constant x offset, .register .add x x base, .storeWord value 0 x] m m'
      (m.address base offset) (m.value value) [.file x] := by
  have hx : Reg.file x ∈ [Reg.file x] := mem_cons_self
  have honly : Only [.file x] m ((m.set x offset).set x (m.value base + offset)) :=
    ((Only.refl _ m).set hx _).set hx _
  refine ⟨((m.set x offset).set x (m.value base + offset)).write (m.address base offset)
    (m.value value), ?_, honly.registers, fun _ _ => rfl, rfl⟩
  exact exec_store_sum (by simpa using hz) hbase (by simpa using hval)

theorem stores_selectStackStore (value : Register) (offset : Int32) :
    ∃ changed m', Helper [value] changed ∧ setting.Stores (selectStackStore value offset) m m'
      (m.address .sp offset) (m.value value) changed := by
  unfold selectStackStore
  split
  · rename_i hoff
    exact ⟨[], _, .inl rfl, stores_storeWord value hoff⟩
  · obtain ⟨m', hstores⟩ := @stores_through setting m offset value.otherScratch value .sp
      value.otherScratch_ne_zero (by simp) value.otherScratch_ne.symm
    exact ⟨_, m', helper_otherScratch (by simpa using value.otherScratch_ne), hstores⟩

theorem stores_lent {value base : Register} (hval : value ≠ .s0) (hbase : base ≠ .s0)
    (hapart : Apart (m.address base offset) (m.address .sp (-4))) :
    ∃ m', setting.Stores [.storeWord Register.s0 (-4) .sp, .constant Register.s0 offset,
      .register .add Register.s0 Register.s0 base, .storeWord value 0 Register.s0,
      .loadWord Register.s0 (-4) .sp] m m' (m.address base offset) (m.value value) [] := by
  have hs0 : Reg.file .s0 ≠ .file .zero := by decide
  have hsp : Reg.sp ≠ .file .s0 := by decide
  generalize hlent : m.address .sp (-4) = lent at hapart
  obtain ⟨kept, hkept⟩ : ∃ kept, kept = m.write lent (m.value s0) := ⟨_, rfl⟩
  obtain ⟨stored, hstd⟩ : ∃ stored, stored = ((kept.set s0 offset).set s0
      (kept.value base + offset)).write (kept.address base offset) (kept.value value) := ⟨_, rfl⟩
  have hregs : ∀ x, x ≠ .file .s0 → stored.value x = m.value x := by
    intro x hx
    rw [hstd, value_write, value_set_of_ne _ _ hx, value_set_of_ne _ _ hx,
      hkept, value_write]
  have haddr : ∀ x offset, kept.address x offset = m.address x offset := by
    intro x offset
    rw [address, hkept, value_write, address]
  have hmemo : stored.memory =
      (m.memory.write lent (m.value s0)).write (m.address base offset) (m.value value) := by
    rw [hstd, memory_write, memory_set, memory_set, haddr, hkept,
      memory_write, value_write]
  have hword : stored.memory.word lent = m.value s0 := by
    rw [hmemo, Memory.word_write_of_apart _ _ hapart, Memory.word_write_self]
  have hback : stored.address .sp (-4) = lent := by
    rw [address, hregs _ hsp, ← hlent, address]
  have hcalls : stored.calls = m.calls := by
    rw [hstd, calls_write, calls_set, calls_set, hkept, calls_write]
  refine ⟨stored.set s0 (m.value s0), ?_, ?_, ?_, ?_⟩
  · rw [exec_storeWord _ _ _ _ (by decide), hlent, ← hkept,
      exec_store_sum hs0 (by simpa using hbase) (by simpa using hval), ← hstd,
      exec_loadWord _ _ _ _ (by decide), exec_nil, hback, hword]
  · intro x _
    by_cases h : x = .file .s0
    · rw [h, value_set_self _ _ hs0]
    · rw [value_set_of_ne _ _ h, hregs x h]
  · intro b hb
    have houtside : 4 ≤ (b - lent).toNat := by
      simpa [lentWord, Region.contains, hlent] using hb
    rw [memory_set, hmemo]
    unfold Memory.write
    split
    · rfl
    · exact if_neg (by omega)
  · rw [calls_set, hcalls]

theorem stores_selectStore {base value : Register}
    (hapart : Apart (m.address base offset) (m.address .sp (-4))) :
    ∃ changed m', Helper [base, value] changed ∧ setting.Stores (selectStore base offset value) m m'
      (m.address base offset) (m.value value) changed := by
  unfold selectStore
  split
  · rename_i hoff
    exact ⟨[], _, .inl rfl, stores_storeWord value hoff⟩
  dsimp only
  generalize hx : (if base.otherScratch = value then value.otherScratch else base.otherScratch) = x
  have hscr : x ∈ scratchOnes ∧ x ≠ .zero := by
    rw [← hx]
    split <;> exact ⟨otherScratch_mem _, otherScratch_ne_zero _⟩
  have hval : value ≠ x := by
    rw [← hx]
    split
    · exact value.otherScratch_ne.symm
    · rename_i hne
      exact Ne.symm hne
  split
  · rename_i hbase
    obtain ⟨m', hstores⟩ := @stores_through setting m offset x value base hscr.2
      (by simpa using Ne.symm hbase) hval
    exact ⟨_, m', .inr ⟨x, hscr.1, by simp [hbase, Ne.symm hval], rfl⟩, hstores⟩
  · -- the base and the value take both scratch regs
    rename_i hbase
    have hne : ∀ r : Register, r.otherScratch ≠ .s0 := by
      intro r
      unfold otherScratch
      split <;> decide
    by_cases h : base.otherScratch = value
    · obtain ⟨m', hstores⟩ := @stores_lent setting m offset value base (h ▸ hne base) (fun heq => by
        rw [if_pos h] at hx
        exact hne value (hx.trans (Decidable.not_not.1 hbase) |>.trans heq)) hapart
      exact ⟨[], m', .inl rfl, hstores⟩
    · rw [if_neg h] at hx
      exact absurd (hx.trans (Decidable.not_not.1 hbase)) base.otherScratch_ne

/-! ## The stack pointer -/

theorem gives_moveStackPointer (delta : Int32) :
    setting.Gives (moveStackPointer delta) m .sp (m.value .sp + delta) scratch := by
  have hsp : Reg.sp ≠ .file .zero := by simp
  have ht0 : Reg.file .t0 ≠ .file .zero := by decide
  have hmem : Reg.file .t0 ∈ Reg.sp :: scratch := by decide
  unfold moveStackPointer
  split
  · rename_i hdelta
    exact ⟨_, setting.exec_immediate m .sp .sp hdelta, m.value_set_self _ hsp,
      (Only.refl _ m).set mem_cons_self _⟩
  · refine ⟨_, rfl, ?_, ((Only.refl _ m).set hmem _).set mem_cons_self _⟩
    rw [value_set_self _ _ hsp, value_set_self _ _ ht0,
      value_set_of_ne _ _ (by simp)]
    rfl

end Setting

end SysY.RiscV

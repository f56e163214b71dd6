import SysY.Proofs.RiscV.Simulation

/-!
# Each block alone

What the blocks of machine code promise by themselves, whatever surrounds them. The block of an
operation leaves its exact value in the destination, for all coincidences of destination, operands and
scratch registers. The block of an instruction that reaches memory does what the instruction is for,
with the help of at most one scratch register that the instruction does not name.
-/

namespace SysY.RiscV

open Tigger (Operand)

variable {setting : Setting} {m : State} {i : Tigger.Instruction} {code : List Instruction}
  {v : Int32} {changed : List Reg}

/-! ## Operations -/

def State.operand (m : State) : Operand → Int32
  | .register r => m.value r
  | .immediate c => c

/-- The block of an operation that has a value gives it to the destination, and changes no register but
the destination and the scratch registers. -/
theorem operation_exact (stack : Int32) {dest left : Register} {op : BinaryOp} {right : Operand}
    {v : Int32} (hdest : dest ≠ .zero)
    (hv : op.fold (m.value left) (m.operand right) = some v) :
    ∃ block m', select stack (.binary dest op left right) = .ok block ∧
      setting.machine.exec block m = some m' ∧ m'.value dest = v ∧
      Only [dest, Register.t0, Register.t1] m m' := by
  cases right with
  | register b =>
    obtain ⟨m', hexec, hvalue, honly⟩ := @Setting.gives_selectBinary setting m dest left b v op hdest hv
    exact ⟨_, m', rfl, hexec, hvalue, honly⟩
  | immediate c =>
    obtain ⟨m', hexec, hvalue, honly⟩ :=
      @Setting.gives_selectImmediate setting m dest left v op c hdest hv
    exact ⟨_, m', rfl, hexec, hvalue, honly⟩

/-- A machine whose scratch registers hold the least word and an address. -/
def occupied : State where
  registers
    | .file r => if r = .t0 then -2147483648 else if r = .t1 then 4096 else 11
    | .sp => 65536
    | .ra => 0
  memory _ := 0
  calls := []

/-- The least word is divided by a power of two, in the register that it lies in. -/
theorem least_word_divided : Register.t0 ≠ .zero ∧
    BinaryOp.div.fold (occupied.value Register.t0) 2048 = some (-1048576) ∧
    ∃ block m', select 16 (.binary .t0 .div .t0 (.immediate 2048)) = .ok block ∧
      quiet.machine.exec block occupied = some m' ∧ m'.value Register.t0 = -1048576 ∧
      Only [Register.t0, Register.t0, Register.t1] occupied m' :=
  ⟨by decide, by decide, operation_exact 16 (by decide) (by decide)⟩

/-! ## Access to memory -/

def State.slot (m : State) (slot : UInt32) : UInt32 := (m.value .sp).toUInt32 + 4 * slot

/-- What an instruction that reaches memory is for. -/
def State.reach (m : State) : Tigger.Instruction → Option State
  | .store base offset value => some (m.write (m.address base offset) (m.value value))
  | .load dest base offset => some (m.set dest (m.memory.word (m.address base offset)))
  | .stackStore value slot => some (m.write (m.slot slot) (m.value value))
  | .stackLoad slot dest => some (m.set dest (m.memory.word (m.slot slot)))
  | .stackAddress slot dest => some (m.set dest (m.slot slot).toInt32)
  | _ => none

/-- What such an instruction is given: a word to write that is not the one below the stack pointer, a
register to read into, a slot whose offset is a signed word. -/
def State.Allows (m : State) : Tigger.Instruction → Prop
  | .store base offset _ => Apart (m.address base offset) (m.address .sp (-4))
  | .load dest _ _ => dest ≠ .zero
  | .stackStore _ slot | .stackAddress slot _ => slot.toNat < 2 ^ 29
  | .stackLoad slot dest => slot.toNat < 2 ^ 29 ∧ dest ≠ .zero
  | _ => True

/-- The state after a block is the one that an instruction is for, but for at most one scratch register
that the instruction does not name and for the word below the stack pointer. -/
structure Accomplishes (i : Tigger.Instruction) (m should m' : State) : Prop where
  registers : ∃ changed, Helper (i.reads ++ i.dest?.toList) changed ∧
    ∀ x, x ∉ changed → m'.value x = should.value x
  memory : ∀ b, (lentWord m).contains b = false → m'.memory b = should.memory b
  calls : m'.calls = should.calls

theorem slotOffset_slot {slot : UInt32} (h : slot.toNat < 2 ^ 29) (m : State) :
    ∃ offset, slotOffset slot = .ok offset ∧ m.address .sp offset = m.slot slot := by
  obtain ⟨offset, hoff, -⟩ := slotOffset_ok h
  exact ⟨offset, hoff, slotOffset_address hoff _⟩

theorem Setting.Gives.accomplishes {dest : Register}
    (hhlp : Helper (i.reads ++ i.dest?.toList) changed)
    (hgiv : setting.Gives code m dest v changed) :
    ∃ m', setting.exec code m = some m' ∧ Accomplishes i m (m.set dest v) m' := by
  obtain ⟨m', hexec, hval, honly⟩ := hgiv
  refine ⟨m', hexec, ⟨changed, hhlp, fun x hx => ?_⟩, fun b _ => by rw [honly.memory]; rfl,
    honly.calls⟩
  by_cases hdest : x = .file dest
  · subst hdest
    by_cases hz : dest = .zero
    · subst hz
      rfl
    · rw [hval, State.value_set_self _ _ (by simpa using hz)]
  · rw [State.value_set_of_ne _ _ hdest]
    exact honly.registers x (by simp [hdest, hx])

theorem Setting.Stores.accomplishes {m' : State} {a : UInt32}
    (hhlp : Helper (i.reads ++ i.dest?.toList) changed)
    (hstores : setting.Stores code m m' a v changed) : Accomplishes i m (m.write a v) m' :=
  ⟨⟨changed, hhlp, hstores.registers⟩, hstores.memory, hstores.calls⟩

theorem State.value_set_zero (m : State) (v : Int32) : (m.set (.file .zero) v).value = m.value := by
  funext x
  by_cases hx : x = .file .zero
  · rw [hx]
    rfl
  · exact m.value_set_of_ne v hx

theorem accomplishes_selectStackAddress (slot : UInt32) (dest : Register) (offset : Int32) :
    ∃ m', setting.exec (selectStackAddress dest offset) m = some m' ∧
      Accomplishes (.stackAddress slot dest) m (m.set dest (m.value .sp + offset)) m' := by
  by_cases hz : dest = .zero
  · subst hz
    have hsame : ∀ m' : State, m'.value = m.value → m'.memory = m.memory → m'.calls = m.calls →
        Accomplishes (.stackAddress slot .zero) m (m.set (.file .zero) (m.value .sp + offset)) m' :=
      fun m' hval hmemo hcalls =>
        ⟨⟨[], .inl rfl, fun x _ => by rw [hval, State.value_set_zero]⟩,
          fun b _ => by rw [hmemo, State.memory_set], hcalls⟩
    unfold selectStackAddress
    split
    · rename_i hoff
      exact ⟨_, setting.exec_immediate m _ .sp hoff, hsame _ (State.value_set_zero _ _) rfl rfl⟩
    · refine ⟨_, rfl, hsame _ ?_ rfl rfl⟩
      rw [State.value_set_zero, State.value_set_zero]
  · have hgiv := @Setting.gives_selectStackAddress setting m dest [] hz offset
    exact hgiv.accomplishes (.inl rfl)

/-- The block of an instruction that reaches memory does what the instruction is for. -/
theorem access_exact (stack : Int32) {i : Tigger.Instruction} {should : State}
    (hreach : m.reach i = some should) (hallows : m.Allows i) :
    ∃ block m', select stack i = .ok block ∧ setting.machine.exec block m = some m' ∧
      Accomplishes i m should m' := by
  cases i with
  | store base offset value =>
    cases hreach
    obtain ⟨changed, m', hhelper, hstores⟩ :=
      @Setting.stores_selectStore setting m offset base value hallows
    exact ⟨_, m', rfl, hstores.exec, hstores.accomplishes hhelper⟩
  | load dest base offset =>
    cases hreach
    obtain ⟨changed, hhelper, hgives⟩ := @Setting.gives_selectLoad setting m dest hallows base offset
    obtain ⟨m', hexec, haccomplishes⟩ := hgives.accomplishes (i := .load dest base offset) hhelper
    exact ⟨_, m', rfl, hexec, haccomplishes⟩
  | stackStore value slot =>
    cases hreach
    obtain ⟨offset, hoffset, haddress⟩ := slotOffset_slot hallows m
    obtain ⟨changed, m', hhelper, hstores⟩ := @Setting.stores_selectStackStore setting m value offset
    rw [haddress] at hstores
    exact ⟨_, m', by rw [select, hoffset]; rfl, hstores.exec, hstores.accomplishes hhelper⟩
  | stackLoad slot dest =>
    cases hreach
    obtain ⟨offset, hoffset, haddress⟩ := slotOffset_slot hallows.1 m
    have hgives := @Setting.gives_selectStackLoad setting m dest [] hallows.2 offset
    rw [haddress] at hgives
    obtain ⟨m', hexec, haccomplishes⟩ := hgives.accomplishes (i := .stackLoad slot dest) (.inl rfl)
    exact ⟨_, m', by rw [select, hoffset]; rfl, hexec, haccomplishes⟩
  | stackAddress slot dest =>
    cases hreach
    obtain ⟨offset, hoffset, haddress⟩ := slotOffset_slot hallows m
    have hsum : m.value .sp + offset = (m.slot slot).toInt32 := by
      rw [← haddress, State.address, Int32.toInt32_toUInt32]
    obtain ⟨m', hexec, haccomplishes⟩ :=
      @accomplishes_selectStackAddress setting m slot dest offset
    rw [hsum] at haccomplishes
    exact ⟨_, m', by rw [select, hoffset]; rfl, hexec, haccomplishes⟩
  | _ => cases hreach

/-- A word is written far from an address in one scratch register, from the other one. -/
theorem far_word_written :
    occupied.reach (.store .t1 100000 .t0) = some (occupied.write 104096 (-2147483648)) ∧
    occupied.Allows (.store .t1 100000 .t0) ∧
    ∃ block m', select 16 (.store .t1 100000 .t0) = .ok block ∧
      quiet.machine.exec block occupied = some m' ∧
      Accomplishes (.store .t1 100000 .t0) occupied (occupied.write 104096 (-2147483648)) m' := by
  have hallows : occupied.Allows (.store .t1 100000 .t0) :=
    show Apart (occupied.address Register.t1 100000) (occupied.address .sp (-4)) by decide
  exact ⟨rfl, hallows, access_exact 16 rfl hallows⟩

end SysY.RiscV

import SysY.Proofs.RiscV.Correspondence
import SysY.Proofs.Tigger.Simulation

/-!
# Machine code does what register code does

The lines of a function follow its register code: after any number of steps of the one there is a
number of steps of the other after which control is at the block of the same instruction, and all
registers agree but scratch registers that are not read any more, and so does all memory but the two
words that machine code keeps for itself. When the function returns, the stack pointer and the return
address are what they were.
-/

namespace SysY.RiscV

open Machine Tigger List

open Tigger (Awaits Tidy ReadLater)

/-! ## What it means -/

/-- States of register code and of the machine that agree, in all registers but scratch registers that
are not among those still read, in the frame and in all memory beyond the words that machine code keeps
for itself, and in the calls that have been made. -/
structure Agrees (top sp : Int32) (frame : UInt32) (read : Register → Prop) (s : Tigger.State)
    (m : State) : Prop where
  registers : ∀ r, r ∉ Register.scratchOnes ∨ read r → m.value r = s.value r
  slots : ∀ slot : UInt32, slot.toNat < frame.toNat →
    m.memory.word (sp.toUInt32 + 4 * slot) = s.memory.word (sp.toUInt32 + 4 * slot)
  memory : ∀ b, isOwn top sp b = false → m.memory b = s.memory b
  calls : m.calls = s.events.filterMap callOf?

/-- A run of machine code that has come as far as one of register code that is not stuck. -/
def Follows (f : Tigger.Function) (front : List Line) (blocks : List (List Line)) (top sp back : Int32) :
    Progress Tigger.State → Progress State → Prop
  | .running p s, .running q m => q = startOf front blocks p ∧ m.value .sp = sp ∧
      Agrees top sp f.frame (ReadLater f.body · p) s m
  | .returned s, .returned m => m.value .sp = top ∧ m.value .ra = back ∧
      Agrees top sp f.frame (fun _ => False) s m
  | .stuck, _ => True
  | _, _ => False

/-- Machine code that simulates a function of register code, block by block. While register code runs
on and on, machine code does so, too. -/
def Simulates (f : Tigger.Function) : Prop :=
  ∃ stack blocks, stackSize f.frame = .ok stack ∧ f.body.mapM (select stack) = .ok blocks ∧
    let front := entryLines f.name stack
    let parts := blocks ++ [exitLines f.name]
    (functionOutput f).whole = .ok (front ++ parts.flatten) ∧
    ∀ (setting : Setting) (reserved : UInt32 → Bool) (registers : Reg → Int32) (memory : Memory),
      let top := registers .sp
      let sp := top - stack
      setting.Suits f top sp → ∀ steps,
        let progress := (setting.forCode top sp reserved).machine.run f.body steps 0
          (.start (fun r => registers r) memory)
        ∃ steps',
          Follows f front parts top sp (registers .ra) progress
            (setting.machine.run (front ++ parts.flatten) steps' 0 (.start registers memory)) ∧
          ∀ p s, progress = .running p s → steps ≤ steps'

/-! ## Steps -/

variable {f : Tigger.Function} {stack top sp back : Int32} {setting : Setting}
  {reserved : UInt32 → Bool} {front : List Line} {parts : List (List Line)} {p q : Nat}
  {i : Tigger.Instruction} {s s' : Tigger.State} {m : State} {block : List Line}

/-- The parts of the lines of a function: the blocks of its instructions and nothing that sets another
label. -/
structure PartsOf (f : Tigger.Function) (stack : Int32) (parts : List (List Line)) : Prop where
  blocks : ∀ (p : Nat) i, f.body[p]? = some i →
    ∃ block, parts[p]? = some block ∧ select stack i = .ok block
  labels : ∀ (p : Nat) block l, parts[p]? = some block → .label l ∈ block →
    f.body[p]? = some (.label l)

theorem eq_label_of_mem_select {l : Label} (h : select stack i = .ok block) (hl : .label l ∈ block) :
    i = .label l := by
  have hlines : ∀ {code : List Instruction}, select.lines code = .ok block → .label l ∉ block := by
    intro code hcode hmem
    cases hcode
    obtain ⟨_, -, hfalse⟩ := List.mem_map.1 hmem
    cases hfalse
  cases i with
  | label l' =>
    cases h
    cases List.mem_singleton.1 hl
    rfl
  | binary dest op a b => cases b <;> exact absurd hl (hlines h)
  | unary dest op operand => cases op <;> exact absurd hl (hlines h)
  | stackStore value slot | stackLoad slot dest | stackAddress slot dest =>
    obtain ⟨offset, -, h⟩ := bind_eq_ok.1 h
    exact absurd hl (hlines h)
  | _ => exact absurd hl (hlines h)

theorem partsOf_blocks {blocks : List (List Line)} (h : f.body.mapM (select stack) = .ok blocks) :
    PartsOf f stack (blocks ++ [exitLines f.name]) := by
  have hblks := mapM_eq_ok.1 h
  have hlen := hblks.length_eq
  have hsel : ∀ (p : Nat) i, f.body[p]? = some i → ∃ block, blocks[p]? = some block ∧
      select stack i = .ok block := by
    intro p i hi
    obtain ⟨hlt, rfl⟩ := List.getElem?_eq_some_iff.1 hi
    exact ⟨_, getElem?_eq_getElem (hlen ▸ hlt), hblks.get hlt (hlen ▸ hlt)⟩
  refine ⟨fun p i hi => ?_, fun p block l hblk hl => ?_⟩
  · obtain ⟨block, hblk, hsel⟩ := hsel p i hi
    refine ⟨block, ?_, hsel⟩
    rw [getElem?_append_left (List.getElem?_eq_some_iff.1 hblk).1, hblk]
  · by_cases hlt : p < f.body.length
    · obtain ⟨block', hblk', hsel⟩ := hsel p _ (getElem?_eq_getElem hlt)
      rw [getElem?_append_left (List.getElem?_eq_some_iff.1 hblk').1, hblk'] at hblk
      cases hblk
      rw [getElem?_eq_getElem hlt, eq_label_of_mem_select hsel hl]
    · rw [getElem?_append_right (by omega)] at hblk
      obtain rfl := List.mem_singleton.1 (mem_of_getElem? hblk)
      simp [exitLines] at hl

theorem labelPosition?_parts (hparts : PartsOf f stack parts) {code : Tigger.Setting} {label : Label}
    (hq : code.machine.labelPosition? f.body label = some q) :
    setting.machine.labelPosition? (front ++ parts.flatten) label = some (startOf front parts q) := by
  obtain ⟨hset, hlast⟩ := labelPosition?_eq_some.1 hq
  obtain ⟨i, hi, hlab⟩ := Option.bind_eq_some_iff.1 hset
  obtain rfl : i = .label label := by
    cases i <;> cases hlab
    rfl
  obtain ⟨block, hblk, hsel⟩ := hparts.blocks q _ hi
  cases hsel
  have hsets : setting.machine.label? (.label label) = some label := rfl
  refine labelPosition?_blocks hblk hsets (forall_mem_nil _)
    fun q' block' hlt hblk' line hline hset' => ?_
  obtain rfl : line = .label label := by
    cases line <;> cases hset'
    rfl
  refine hlast q' hlt ?_
  rw [hparts.labels q' block' label hblk' hline]
  rfl

theorem select_ne_nil (h : select stack i = .ok block) : block ≠ [] := by
  have hlines : ∀ {code : List Instruction}, code ≠ [] → select.lines code = .ok block → block ≠ [] := by
    intro code hcode h
    cases h
    simpa using hcode
  have hbinary : ∀ dest op a b, selectBinary dest op a b ≠ [] := by
    intro dest op a b
    cases op <;> simp [selectBinary]
  cases i with
  | binary dest op a b =>
    cases b with
    | register b => exact hlines (hbinary dest op a b) h
    | immediate c =>
      refine hlines ?_ h
      unfold selectImmediate
      split <;> (try split) <;> simp [selectLoaded, selectDivision, selectRemainder]
  | unary dest op operand => cases op <;> exact hlines (cons_ne_nil _ _) h
  | store base offset value =>
    refine hlines ?_ h
    unfold selectStore
    dsimp only
    (repeat' split) <;> simp
  | load dest base offset =>
    refine hlines ?_ h
    unfold selectLoad
    split <;> simp
  | label l =>
    cases h
    simp
  | «return» => exact hlines (by simp) h
  | stackStore value slot =>
    obtain ⟨offset, -, h⟩ := bind_eq_ok.1 h
    refine hlines ?_ h
    unfold selectStackStore
    split <;> simp
  | stackLoad slot dest =>
    obtain ⟨offset, -, h⟩ := bind_eq_ok.1 h
    refine hlines ?_ h
    unfold selectStackLoad
    split <;> simp
  | stackAddress slot dest =>
    obtain ⟨offset, -, h⟩ := bind_eq_ok.1 h
    refine hlines ?_ h
    unfold selectStackAddress
    split <;> simp
  | _ => exact hlines (cons_ne_nil _ _) h

theorem run_of_step (hd : f.Disciplined) (hsp : Spans top sp f.frame)
    (hsuits : setting.Suits f top sp) (hparts : PartsOf f stack parts)
    (h : Corresponds top sp back (f.body.drop p) s m)
    (hstep : (setting.forCode top sp reserved).machine.step f.body p s = .running q s') :
    ∃ steps m', 0 < steps ∧
      setting.machine.run (front ++ parts.flatten) steps (startOf front parts p) m =
        .running (startOf front parts q) m' ∧
      Corresponds top sp back (f.body.drop q) s' m' := by
  obtain ⟨i, hi, hcas⟩ := step_eq_running hstep
  obtain ⟨block, hblk, hsel⟩ := hparts.blocks p i hi
  have hdrop := drop_of_getElem? hi
  rw [hdrop] at h
  rcases hcas with ⟨hpass, rfl⟩ | ⟨label, heff, hcrs, hlab⟩
  · have htidy : Tidy (i :: f.body.drop (p + 1)) := hdrop ▸ hd.tidy.drop p
    obtain ⟨m', hexec, h'⟩ := corresponds_pass hd hsp hsuits (mem_of_getElem? hi) htidy h
      hpass hsel
    exact ⟨block.length, m', List.length_pos_iff.2 (select_ne_nil hsel),
      run_startOf hblk hexec, h'⟩
  · obtain ⟨rfl, j, rfl, hperform, hjump⟩ := course_of_jump h heff hcrs hsel
    refine ⟨1, m, Nat.one_pos, ?_, h.elsewhere fun r => hd.tidy.not_awaits_of_label hlab⟩
    have hat : Machine.BlockAt (front ++ parts.flatten) ([] ++ [_]) _ := blockAt_startOf hblk
    exact run_block_jump hat rfl hperform hjump (labelPosition?_parts hparts hlab)

theorem run_of_return (hspans : Spans top sp f.frame) (hsp : sp = top - stack)
    (hparts : PartsOf f stack parts) (h : Corresponds top sp back (f.body.drop p) s m)
    (hstep : (setting.forCode top sp reserved).machine.step f.body p s = .returned s') :
    ∃ steps m', setting.machine.run (front ++ parts.flatten) steps (startOf front parts p) m =
        .returned m' ∧
      m'.value .sp = top ∧ m'.value .ra = back ∧ Agrees top sp f.frame (fun _ => False) s' m' := by
  obtain ⟨i, hi, heff, hcrs⟩ := step_eq_returned hstep
  obtain ⟨block, hblk, hsel⟩ := hparts.blocks p i hi
  obtain ⟨rfl, rfl⟩ : i = .return ∧ s = s' := by
    cases i with
    | «return» => exact ⟨rfl, Option.some.inj heff⟩
    | branch left relation right target =>
      simp only [Tigger.Setting.machine, Tigger.Setting.course] at hcrs
      split at hcrs <;> cases hcrs
    | _ => cases hcrs
  obtain ⟨m', hexec, hptr, hret, honly⟩ := @exec_return top sp back setting _ s m stack hsp h
  have hat : Machine.BlockAt (front ++ parts.flatten) block (startOf front parts p) :=
    blockAt_startOf hblk
  have hspl : block = (moveStackPointer stack ++ [Instruction.loadWord .ra (-4) .sp]).map
      Line.instruction ++ [.instruction .ret] := by
    cases hsel
    simp
  rw [hspl] at hat
  refine ⟨_, m', run_block_leave hat hexec rfl rfl, hptr, hret, ⟨?_, ?_, ?_, ?_⟩⟩
  · rintro r (hr | hr)
    · rw [honly.registers r (by simpa [scratch] using hr), h.registers r (.inl hr)]
    · exact hr.elim
  · intro slot hslot
    rw [honly.memory, h.word (hspans.slots slot hslot)]
  · rw [honly.memory]
    exact h.memory
  · rw [honly.calls, h.calls]

/-! ## Runs -/

theorem Corresponds.agrees (hd : f.Disciplined) (hsp : Spans top sp f.frame)
    (h : Corresponds top sp back (f.body.drop p) s m) :
    Agrees top sp f.frame (ReadLater f.body · p) s m where
  registers r hr := by
    by_cases hscr : r ∈ Register.scratchOnes
    · exact h.registers r (.inr (hr.elim (absurd hscr) (awaits_of_readLater hd.tidy hscr)))
    · exact h.registers r (.inl hscr)
  slots slot hslot := h.word (hsp.slots slot hslot)
  memory := h.memory
  calls := h.calls

theorem follows_run (hd : f.Disciplined) (hspans : Spans top sp f.frame) (hsp : sp = top - stack)
    (hsuits : setting.Suits f top sp) (hparts : PartsOf f stack parts) (front : List Line)
    (reserved : UInt32 → Bool) (steps : Nat) (h : Corresponds top sp back (f.body.drop p) s m) :
    ∃ steps', Follows f front parts top sp back
        ((setting.forCode top sp reserved).machine.run f.body steps p s)
        (setting.machine.run (front ++ parts.flatten) steps' (startOf front parts p) m) ∧
      ∀ q t, (setting.forCode top sp reserved).machine.run f.body steps p s = .running q t →
        steps ≤ steps' := by
  induction steps generalizing p s m with
  | zero => exact ⟨0, ⟨rfl, h.stackPointer, h.agrees hd hspans⟩, fun _ _ _ => Nat.le_refl 0⟩
  | succ steps ih =>
    rw [run]
    rcases hstep : (setting.forCode top sp reserved).machine.step f.body p s with ⟨q, s'⟩ | s' | _
    · obtain ⟨first, m', hfst, hrun, h'⟩ := run_of_step hd hspans hsuits hparts h hstep
      obtain ⟨steps', hfol, hbnd⟩ := ih h'
      refine ⟨first + steps', by rwa [run_add steps' hrun], fun q' t hrunning => ?_⟩
      have := hbnd q' t hrunning
      omega
    · obtain ⟨steps', m', hrun, hptr, hret, hagr⟩ := run_of_return hspans hsp hparts h hstep
      refine ⟨steps', ?_, fun q t hrunning => by cases hrunning⟩
      rw [hrun]
      exact ⟨hptr, hret, hagr⟩
    · exact ⟨0, trivial, fun q t hrunning => by cases hrunning⟩

theorem exec_entryLines (setting : Setting) (name : String) (stack : Int32) (regs : Reg → Int32)
    (memory : Memory) {body : List Tigger.Instruction}
    (hfr : ∀ r ∈ Register.scratchOnes, ¬ Awaits r body) :
    ∃ m, setting.machine.exec (entryLines name stack) (.start regs memory) = some m ∧
      Corresponds (regs .sp) (regs .sp - stack) (regs .ra) body
        (.start (fun r => regs r) memory) m := by
  obtain ⟨m0, hm0⟩ : ∃ m0, m0 = State.start regs memory := ⟨_, rfl⟩
  have hval : ∀ x, x ≠ .file .zero → m0.value x = regs x := fun x hx => by
    rw [hm0]
    exact if_neg hx
  have haddr : m0.address .sp (-4) = (regs .sp + -4).toUInt32 := by
    rw [State.address, hval .sp (by decide)]
  obtain ⟨m, hexec, hptr, honly⟩ := @Setting.gives_moveStackPointer setting
    (m0.write (m0.address .sp (-4)) (m0.value .ra)) (-stack)
  have hmemo : m.memory = memory.write (regs .sp + -4).toUInt32 (regs .ra) := by
    rw [honly.memory, State.memory_write, haddr, hval .ra (by decide), hm0]
    rfl
  have hcalls : m.calls = [] := by
    rw [honly.calls, State.calls_write, hm0]
    rfl
  refine ⟨m, ?_, ?_, ?_, ?_, ?_, hcalls, by rw [hcalls]; rfl⟩
  · have hheader : setting.machine.exec (functionHeader name) m0 = some m0 := rfl
    rw [← hm0, entryLines, exec_append_of_exec hheader]
    exact (setting.exec_storeWord m0 .ra .sp (by decide)).trans hexec
  · intro r hr
    have hscr : r ∉ Register.scratchOnes := fun hmem => hr.elim (· hmem) (hfr r hmem)
    rw [honly.registers r (by simpa [scratch] using hscr), State.value_write, hm0]
    simp [State.value, State.start, Tigger.State.value, Tigger.State.start]
  · rw [hptr, State.value_write, hval .sp (by decide), Int32.sub_eq_add_neg]
  · intro b hb
    have houtside : 4 ≤ (b - (regs .sp + -4).toUInt32).toNat := by
      simpa [wordBelow, Region.contains] using (wordBelow_of_isOwn hb).2
    rw [hmemo]
    exact Memory.write_outside _ _ _ houtside
  · rw [hmemo, Memory.word_write_self]

/-! ## Functions -/

theorem simulates_of_disciplined (hd : f.Disciplined) (hfrm : f.frame.toNat < maxFrame) :
    Simulates f := by
  obtain ⟨stack, blocks, hstk, hblks, hlines⟩ := functionOutput_eq ⟨hfrm, hd.offsets⟩
  refine ⟨stack, blocks, hstk, hblks, by rw [hlines]; rfl, ?_⟩
  intro setting reserved regs memory top sp hsuits steps progress
  obtain ⟨m, hexec, h⟩ := exec_entryLines setting f.name stack regs memory hd.fresh
  have hsp := spans_of_stackSize top hfrm hstk
  have hfro : Machine.BlockAt (entryLines f.name stack ++ (blocks ++ [exitLines f.name]).flatten)
      (entryLines f.name stack) 0 := fun j hj => by
    rw [Nat.zero_add, getElem?_append_left hj]
  obtain ⟨steps', hfol, hbnd⟩ := follows_run (p := 0) hd hsp rfl hsuits
    (partsOf_blocks hblks) (entryLines f.name stack) reserved steps h
  refine ⟨(entryLines f.name stack).length + steps', ?_, fun q t hrun => ?_⟩
  · rw [run_add steps' (run_block hfro hexec)]
    simpa [startOf] using hfol
  · have := hbnd q t hrun
    omega

/-- The assembly of register code that comes from three-address code simulates it, function by
function, wherever a frame is not too large. -/
theorem assembly_simulates {program : Eeyore.Program} {lowered : Tigger.Program}
    (hlowered : (Tigger.lower program).result = .ok lowered) {f : Tigger.Function}
    (hf : f ∈ lowered.code) (hframe : f.frame.toNat < maxFrame) : Simulates f :=
  simulates_of_disciplined (disciplined_of_lower hlowered f hf) hframe

/-- A function with a loop that writes to the far end of an array of its own, for which machine code
has to lend a register, and passes what it reads there on with the global `T0`. -/
def lending : Eeyore.Program where
  globals := [⟨.var 0, none⟩]
  code := [{
    name := "lend"
    parameters := 0
    decls := [⟨.var 1, some 1000⟩, ⟨.temp 0, none⟩]
    body := #[
      .label ⟨0⟩,
      .store (.var 1) (.const 3996) (.const 5),
      .load (.temp 0) (.var 1) (.const 3996),
      .call "f" [.symbol (.temp 0), .symbol (.var 0)] (some (.temp 0)),
      .branch (.symbol (.temp 0)) .ne (.const 0) ⟨0⟩,
      .return (some (.symbol (.temp 0)))] }]

/-- A machine with its global variables far below the stack, on which callees return zero. -/
def quiet : Setting := ⟨fun _ => 4096, fun _ => true, fun _ => ⟨fun _ => 0, fun _ => 0⟩⟩

theorem quiet_suits (hfrm : f.frame.toNat ≤ 1001) (hstk : stackSize f.frame = .ok stack) :
    quiet.Suits f 1048576 (1048576 - stack) := by
  obtain ⟨stack', hstk', hbyt⟩ := @stackSize_ok f.frame (by unfold maxFrame; omega)
  obtain rfl : stack' = stack := Except.ok.inj (hstk'.symm.trans hstk)
  have hsz := @toNat_toUInt32 stack' (by omega)
  have htop : (1048576 : Int32).toUInt32.toNat = 1048576 := rfl
  have hpl : ∀ global, (quiet.place global).toNat = 4096 := fun _ => rfl
  have hsp : (1048576 - stack').toUInt32.toNat = 1048576 - stack'.toUInt32.toNat := by
    rw [Int32.toUInt32_sub, UInt32.toNat_sub, htop]
    omega
  refine ⟨fun _ _ => rfl, fun global dest _ => free_of_below ?_ ?_⟩
  · omega
  · rw [hpl]
    omega

theorem lending_lowered : ∃ lowered f, (Tigger.lower lending).result = .ok lowered ∧
    f ∈ lowered.code ∧ f.frame.toNat ≤ 1001 := by
  obtain ⟨function, hcode⟩ : ∃ function, lending.code = [function] := ⟨_, rfl⟩
  have hlowerable : Tigger.Lowerable lending.globals function := by
    cases hcode
    exact ⟨by decide, by decide, by decide, by decide, by decide, by simp⟩
  have htargets : Flow.TargetsDefined function.body.toVector := by
    cases hcode
    exact Flow.undefinedTarget?_eq_none.1 (by decide)
  have hwords : declaredWords function = 1001 := by
    cases hcode
    rfl
  obtain ⟨f, hf⟩ := lowerFunction_ok hlowerable (contains_globalArrays lending.globals)
    htargets (by rw [hwords]; decide)
  refine ⟨⟨[⟨⟨0⟩, none⟩], [f]⟩, f, ?_, mem_singleton_self f, ?_⟩
  · have hmapM : ([function].mapM fun function =>
        (lowerFunction (globalArrays lending.globals) function).result) = .ok [f] :=
      mapM_eq_ok.2 (.cons hf .nil)
    rw [result_lower, hcode, hmapM]
    rfl
  · rw [← hwords]
    exact frame_le_declaredWords hf

theorem lending_simulated : ∃ lowered f, (Tigger.lower lending).result = .ok lowered ∧
    f ∈ lowered.code ∧ f.frame.toNat < maxFrame ∧ Simulates f ∧
      ∀ stack, stackSize f.frame = .ok stack → quiet.Suits f 1048576 (1048576 - stack) := by
  obtain ⟨lowered, f, hlowered, hf, hle⟩ := lending_lowered
  have hframe : f.frame.toNat < maxFrame := Nat.lt_of_le_of_lt hle (by decide)
  exact ⟨lowered, f, hlowered, hf, hframe, assembly_simulates hlowered hf hframe,
    fun _ hstack => quiet_suits hle hstack⟩

end SysY.RiscV

import SysY.Proofs.Tigger.Extent
import SysY.RiscV.Selection

/-!
# Assembly without faults

The only faults of the last stage are sizes and offsets in bytes that are no words. A frame whose
bytes are counted by a signed word rules them out, and so do globals that are not too large.
-/

namespace SysY.RiscV

open List

open Tigger.Context (offset?)

variable {f : Tigger.Function} {program : Tigger.Program}

/-! ## Outputs -/

/-- An output that no fault has stopped. -/
def Output.Whole (output : Output) : Prop := output.fault = none

namespace Output

theorem whole_ofLines (lines : List Line) : (ofLines lines).Whole := rfl

theorem whole_ofExcept {result : Except Fault (List Line)} {lines : List Line}
    (h : result = .ok lines) : (ofExcept result).Whole := by
  rw [h]
  rfl

theorem Whole.andThen {first second : Output} (hfst : first.Whole) (hsnd : second.Whole) :
    (first.andThen second).Whole := by
  unfold Output.andThen
  rw [hfst]
  exact hsnd

theorem whole_sequence {outputs : List Output} (h : ∀ output ∈ outputs, output.Whole) :
    (sequence outputs).Whole := by
  induction outputs with
  | nil => rfl
  | cons output outputs ih =>
    refine (h output mem_cons_self).andThen (ih fun other hoth => ?_)
    exact h other (mem_cons_of_mem _ hoth)

theorem sequence_ofLines (parts : List (List Line)) :
    sequence (parts.map ofLines) = ofLines parts.flatten := by
  induction parts with
  | nil => rfl
  | cons lines parts ih =>
    exact congrArg (andThen (ofLines lines)) ih

theorem Whole.exists_lines {output : Output} (h : output.Whole) : ∃ lines, output.whole = .ok lines := by
  refine ⟨output.lines, ?_⟩
  rw [Output.whole, h]

end Output

/-! ## Functions -/

/-- The words of a frame have to be fewer. -/
def maxFrame : Nat := 2 ^ 29 - 4

theorem stackSize_ok {frame : UInt32} (h : frame.toNat < maxFrame) :
    ∃ stack, stackSize frame = .ok stack ∧ stack.toInt = 16 * (frame.toNat / 4 + 1) := by
  unfold maxFrame at h
  have hfour : (4 : Int32).toInt = 4 := by decide
  have hsixteen : (16 : Int32).toInt = 16 := by decide
  have hone : (1 : Int32).toInt = 1 := by decide
  have hquarter : (frame.toInt32 / 4).toInt = frame.toNat / 4 := by
    rw [Int32.toInt_div_of_ne_right _ _ (by decide), toInt_toInt32 (by omega), hfour,
      Int.tdiv_eq_ediv_of_nonneg (by omega)]
  have hrows : (frame.toInt32 / 4 + 1).toInt = frame.toNat / 4 + 1 := by
    rw [Int32.toInt_add, hquarter, hone]
    exact Int.bmod_eq_of_le (by omega) (by omega)
  have hok : stackSize frame = .ok ((frame.toInt32 / 4 + 1) * 16) := by
    refine signedMul_ok ?_ ?_ <;> rw [hrows, hsixteen] <;> omega
  refine ⟨_, hok, ?_⟩
  rw [toInt_of_signedMul hok, hrows, hsixteen, Int.mul_comm]

theorem slotOffset_ok {slot : UInt32} (h : slot.toNat < 2 ^ 29) :
    ∃ offset, slotOffset slot = .ok offset ∧ offset.toInt = 4 * slot.toNat := by
  have hfour : (4 : Int32).toInt = 4 := by decide
  have hslot := @toInt_toInt32 slot (by omega)
  have hok : slotOffset slot = .ok (4 * slot.toInt32) := by
    refine signedMul_ok ?_ ?_ <;> rw [hslot, hfour] <;> omega
  refine ⟨_, hok, ?_⟩
  rw [toInt_of_signedMul hok, hslot, hfour]

/-- A function of register code that fits into a stack: its frame is not too large, and its code refers
only to the inside of the frame. -/
structure Fits (f : Tigger.Function) : Prop where
  frame : f.frame.toNat < maxFrame
  offsets : ∀ i ∈ f.body, ∀ offset, offset? i = some offset → offset.toNat ≤ f.frame.toNat

theorem select_ok (stack : Int32) {i : Tigger.Instruction}
    (h : ∀ offset, offset? i = some offset → offset.toNat < 2 ^ 29) :
    ∃ lines, select stack i = .ok lines := by
  cases i with
  | binary dest op a b => cases b <;> exact ⟨_, rfl⟩
  | unary dest op operand => cases op <;> exact ⟨_, rfl⟩
  | stackStore value slot =>
    obtain ⟨offset, hoff, -⟩ := slotOffset_ok (h slot rfl)
    exact ⟨_, by rw [select, hoff]; rfl⟩
  | stackLoad slot dest =>
    obtain ⟨offset, hoff, -⟩ := slotOffset_ok (h slot rfl)
    exact ⟨_, by rw [select, hoff]; rfl⟩
  | stackAddress slot dest =>
    obtain ⟨offset, hoff, -⟩ := slotOffset_ok (h slot rfl)
    exact ⟨_, by rw [select, hoff]; rfl⟩
  | _ => exact ⟨_, rfl⟩

/-- The lines in front of the code of a function: they keep the return address and make room for the
frame. -/
def entryLines (name : String) (stack : Int32) : List Line :=
  functionHeader name ++ (.storeWord .ra (-4) .sp :: moveStackPointer (-stack)).map Line.instruction

/-- The lines behind the code of a function. -/
def exitLines (name : String) : List Line := [.functionSize name, .blank]

theorem map_ofExcept_select {stack : Int32} {body : List Tigger.Instruction}
    {blocks : List (List Line)} (h : body.mapM (select stack) = .ok blocks) :
    body.map (fun i => Output.ofExcept (select stack i)) = blocks.map .ofLines := by
  have hblks := mapM_eq_ok.1 h
  clear h
  induction hblks with
  | nil => rfl
  | cons hblk _ ih =>
    rw [map_cons, map_cons, ih, hblk]
    rfl

theorem functionOutput_eq (h : Fits f) :
    ∃ stack blocks, stackSize f.frame = .ok stack ∧ f.body.mapM (select stack) = .ok blocks ∧
      functionOutput f = .ofLines
        (entryLines f.name stack ++ (blocks ++ [exitLines f.name]).flatten) := by
  have hfrm := h.frame
  unfold maxFrame at hfrm
  obtain ⟨stack, hstk, hbyt⟩ := stackSize_ok h.frame
  obtain ⟨blocks, hblks⟩ : ∃ blocks, f.body.mapM (select stack) = .ok blocks := by
    refine exists_mapM_ok fun i hi => select_ok stack fun offset hoff => ?_
    have := h.offsets i hi offset hoff
    omega
  refine ⟨stack, blocks, hstk, hblks, ?_⟩
  have hnegated : signedNeg stack = .ok (-stack) := signedNeg_ok (by omega)
  have hparts := Output.sequence_ofLines ([.instruction (.storeWord .ra (-4) .sp)] ::
    (moveStackPointer (-stack)).map .instruction :: (blocks ++ [exitLines f.name]))
  rw [functionOutput, hstk]
  dsimp only
  rw [hnegated, map_ofExcept_select hblks]
  simp only [map_cons, map_append, map_nil] at hparts
  exact (congrArg _ hparts).trans (by simp [entryLines, Output.ofLines, Output.andThen])

theorem whole_functionOutput (h : Fits f) : (functionOutput f).Whole := by
  obtain ⟨_, _, -, -, hlines⟩ := functionOutput_eq h
  rw [hlines]
  rfl

/-! ## Programs -/

theorem byteSize_ok {size : UInt32} (h : size.toNat < 2 ^ 29) :
    ∃ bytes, Tigger.byteSize size = .ok bytes := by
  have hwords : wordValues = 8 * 2 ^ 29 := rfl
  have hfour : (4 : UInt32).toNat = 4 := rfl
  exact ⟨_, if_pos (by rw [hfour]; omega)⟩

theorem whole_globalOutput {decl : Tigger.GlobalDecl}
    (h : ∀ size, decl.size = some size → size.toNat < 2 ^ 29) : (globalOutput decl).Whole := by
  unfold globalOutput
  dsimp only
  split
  · exact Output.whole_ofLines _
  · rename_i size hsz
    obtain ⟨bytes, hbyt⟩ := byteSize_ok (h size hsz)
    exact Output.whole_ofExcept (congrArg (Except.map _) hbyt)

theorem whole_assemble
    (hglobs : ∀ decl ∈ program.globals, ∀ size, decl.size = some size → size.toNat < 2 ^ 29)
    (hcode : ∀ f ∈ program.code, Fits f) : (assemble program).Whole := by
  refine Output.whole_sequence fun output houtput => ?_
  simp only [mem_append, mem_map] at houtput
  rcases houtput with ⟨decl, hdecl, rfl⟩ | ⟨f, hf, rfl⟩
  · exact whole_globalOutput (hglobs decl hdecl)
  · exact whole_functionOutput (hcode f hf)

theorem assemble_ok
    (hglobs : ∀ decl ∈ program.globals, ∀ size, decl.size = some size → size.toNat < 2 ^ 29)
    (hcode : ∀ f ∈ program.code, Fits f) : ∃ lines, (assemble program).whole = .ok lines :=
  (whole_assemble hglobs hcode).exists_lines

end SysY.RiscV

import SysY.Proofs.Tigger.Shape

/-!
# The extent of a frame

The code of a function refers to the frame only where something is kept, which is inside of it, and
the frame has no more words than the symbols of the function.
-/

namespace SysY.Tigger

open SysY.Flow Allocation

variable {n k : Nat} {ctx : Context n k}

/-! ## Offsets -/

namespace Context

variable {regs : Vector (Option Register) k} {hasCalls : Bool}
  {place : Object k → Option UInt32} {q : Option (Fin n)} {i : Instruction} {code : List Instruction}

theorem Refers.kept (hlay : Layout ctx.slots regs hasCalls ctx.frame place)
    {object : Object k} (h : ctx.Refers q i object) : place object = offset? i ∧
      ((∃ a r, i = .stackAddress a r) ∨ object.words ctx.slots = 1) := by
  cases h with
  | load _ _ h | store _ _ h | arrive _ h =>
    obtain ⟨hpl, harr⟩ := hlay.place_of_stack h
    simp only [Slots.isArray, Option.isSome_eq_false_iff, Option.isNone_iff_eq_none] at harr
    exact ⟨hpl, .inr (by simp [Object.words, harr])⟩
  | address _ _ h => exact ⟨(hlay.place_of_array h).1, .inl ⟨_, _, rfl⟩⟩
  | save h | restore _ h => exact ⟨(hlay.saved _ _ h).2, .inr rfl⟩
  | preserve _ h | fetch _ h => exact ⟨(hlay.spared _ _ h).2, .inr rfl⟩

theorem refers_of_mem_lowerBody (h : ctx.lowerBody = .ok code) :
    ∀ i ∈ code, ∀ a, offset? i = some a → ∃ q object, ctx.Refers q i object := by
  obtain ⟨first, codes, hfst, hcodes, rfl⟩ := lowerBody_eq_ok.1 h
  intro i hi a ha
  rcases List.mem_append.1 hi with hi | hi
  · split at hfst
    · cases hfst
      cases hi
    · exact ⟨none, (plain_entry hfst i hi).refers a ha⟩
  · obtain ⟨code, hcode, hi⟩ := List.mem_flatten.1 hi
    obtain ⟨p, -, hlow⟩ := exists_of_forall₂ (mapM_eq_ok.1 (codesOf_iff.2 hcodes)) hcode
    refine ⟨some p, ?_⟩
    rcases lowerInstruction_control hlow with ⟨hpln, -⟩ | ⟨front, last, rfl, hpln, hlast, -⟩
    · exact (hpln i hi).refers a ha
    · rcases List.mem_append.1 hi with hi | hi
      · exact (hpln i hi).refers a ha
      · rw [List.mem_singleton.1 hi, hlast] at ha
        cases ha

theorem offset_le_of_layout (hlay : Layout ctx.slots regs hasCalls ctx.frame place)
    (h : ctx.lowerBody = .ok code) :
    ∀ i ∈ code, ∀ a, offset? i = some a → a.toNat ≤ ctx.frame.size.toNat := by
  intro i hi a ha
  obtain ⟨q, object, hrfs⟩ := refers_of_mem_lowerBody h i hi a ha
  exact Nat.le_of_add_right_le (hlay.within object a ((hrfs.kept hlay).1.trans ha))

end Context

/-! ## Functions -/

variable {arrays : Std.HashSet Symbol} {function : Eeyore.Function} {lowered : Function}

theorem offset_le_frame (h : (lowerFunction arrays function).result = .ok lowered) :
    ∀ i ∈ lowered.body, ∀ offset, Context.offset? i = some offset →
      offset.toNat ≤ lowered.frame.toNat := by
  obtain ⟨ctx, regs, place, -, -, -, -, hlay, hfrm, hbody⟩ := lowerFunction_layout h
  exact hfrm ▸ Context.offset_le_of_layout hlay hbody

theorem frame_le_declaredWords (h : (lowerFunction arrays function).result = .ok lowered) :
    lowered.frame.toNat ≤ declaredWords function := by
  obtain ⟨ctx, regs, hctx, -, -, hfree, hfrm, -, hsz, -⟩ := lowerFunction_cases h
  rw [hctx.slots] at hfree hfrm
  rw [← sum_words, ← hsz]
  exact Frame.size_le hfree.scalar hfrm

end SysY.Tigger

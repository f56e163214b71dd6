import SysY.Word

/-!
# Exact arithmetic

A checked operation succeeds if its exact result is a word, and this is then what it returns.
-/

namespace SysY

variable {a : Int32}

theorem toNat_of_checkedAdd {a b c : UInt32} (h : checkedAdd a b = .ok c) :
    c.toNat = a.toNat + b.toNat := by
  unfold checkedAdd at h
  split at h
  · rename_i hlt
    cases h
    rw [UInt32.toNat_add]
    exact Nat.mod_eq_of_lt hlt
  · cases h

theorem toInt_of_signedMul {b c : Int32} (h : signedMul a b = .ok c) :
    c.toInt = a.toInt * b.toInt := by
  unfold signedMul at h
  split at h
  · rename_i hword
    simp only [isSignedWord, Bool.and_eq_true, decide_eq_true_eq] at hword
    cases h
    rw [Int32.toInt_mul]
    apply Int.bmod_eq_of_le <;> omega
  · cases h

theorem signedMul_ok {c : Int32} (hlow : -2147483648 ≤ a.toInt * c.toInt)
    (hhigh : a.toInt * c.toInt < 2147483648) : signedMul a c = .ok (a * c) := by
  unfold signedMul
  rw [if_pos]
  simpa [isSignedWord] using ⟨hlow, hhigh⟩

theorem signedNeg_ok (h : 0 ≤ a.toInt) : signedNeg a = .ok (-a) := by
  have hlt := a.toInt_lt
  unfold signedNeg
  rw [if_pos]
  simp only [isSignedWord, Bool.and_eq_true, decide_eq_true_eq]
  omega

theorem toInt_toInt32 {a : UInt32} (h : a.toNat < 2147483648) : a.toInt32.toInt = a.toNat := by
  show a.toBitVec.toInt = _
  rw [BitVec.toInt_eq_toNat_of_lt]
  · rfl
  · show 2 * a.toNat < 2 ^ 32
    omega

theorem toNat_toUInt32 (h : 0 ≤ a.toInt) : (a.toUInt32.toNat : Int) = a.toInt := by
  show (a.toBitVec.toNat : Int) = a.toBitVec.toInt
  rw [BitVec.toInt_eq_toNat_of_lt]
  have hlt := a.toInt_lt
  have hnonneg : 0 ≤ a.toBitVec.toInt := h
  rw [BitVec.toInt_eq_toNat_cond] at hnonneg
  split at hnonneg
  · assumption
  · have := a.toBitVec.isLt
    omega

end SysY

import Mathlib.Tactic.Ring
import SysY.Generation.Expression
import SysY.Proofs.Bind
import SysY.Proofs.Structured.Values
import SysY.Proofs.Word

/-!
# Positions in arrays

The code computes the position of an element one dimension at a time, `position`, and then scales it
to bytes. On words this agrees with the row-major order of arrays, also where the computation wraps.
-/

namespace SysY.Generation

open Structured (elements elementIndex)

variable {dims indices : List Int32} {index factor : Int32}

/-! ## Words -/

theorem toUInt32_ofInt (n : Int) : (Int32.ofInt n).toUInt32 = UInt32.ofInt n := by
  apply UInt32.toBitVec_inj.1
  show BitVec.ofInt 32 n = (UInt32.ofInt n).toBitVec
  apply BitVec.eq_of_toNat_eq
  simp only [UInt32.ofInt, BitVec.toNat_ofInt, UInt32.toNat_toBitVec, UInt32.toNat_ofNat']
  omega

theorem ofInt_toInt_mul (n : Int) (a : Int32) : Int32.ofInt (n * a.toInt) = Int32.ofInt n * a := by
  rw [Int32.ofInt_mul, Int32.ofInt_toInt]

theorem ofInt_toInt_add (n : Int) (a : Int32) : Int32.ofInt (n + a.toInt) = Int32.ofInt n + a := by
  rw [Int32.ofInt_add, Int32.ofInt_toInt]

theorem ofInt_div_wordSize {k : Int} (h : -536870912 ≤ k) (hk : k ≤ 536870911) :
    Int32.ofInt (4 * k) / wordSize = Int32.ofInt k := by
  have hsz : wordSize = Int32.ofInt 4 := by decide
  have hmin : Int32.minValue.toInt = -2147483648 := by decide
  have hmax : Int32.maxValue.toInt = 2147483647 := by decide
  rw [hsz, ← Int32.ofInt_tdiv (by omega) (by omega) (by omega) (by omega),
    Int.mul_tdiv_cancel_left k (by decide)]

/-! ## Positions -/

/-- The position that further indices select. -/
def position (p : Int) : List Int32 → List Int32 → Int
  | dimension :: dimensions, index :: indices =>
    position (p * dimension.toInt + index.toInt) dimensions indices
  | _, _ => p

theorem position_mul_elements {p : Int} (h : indices.length ≤ dims.length) :
    position p dims indices * elements (dims.drop indices.length) =
      p * elements dims + elementIndex dims indices := by
  induction dims generalizing p indices with
  | nil =>
    obtain rfl : indices = [] := List.length_eq_zero_iff.1 (Nat.le_zero.1 h)
    simp [position, elementIndex]
  | cons dimension dims ih =>
    cases indices with
    | nil => simp [position, elementIndex]
    | cons index indices =>
      rw [position, List.length_cons, List.drop_succ_cons, ih (Nat.le_of_succ_le_succ h), elements,
        elementIndex]
      ring

theorem elementIndex_eq_position (h : (index :: indices).length ≤ dims.length) :
    elementIndex dims (index :: indices) =
      position index.toInt (dims.drop 1) indices *
        elements (dims.drop (index :: indices).length) := by
  cases dims with
  | nil => cases h
  | cons dimension dims =>
    rw [List.length_cons, List.drop_succ_cons, List.drop_succ_cons, List.drop_zero,
      position_mul_elements (Nat.le_of_succ_le_succ h), elementIndex]

/-! ## Strides -/

theorem toInt_of_signedProduct {factors : List Int32} {c : Int32}
    (h : signedProduct factors = .ok c) : c.toInt = elements factors := by
  have hfold : ∀ (factors : List Int32) (a : Int32), factors.foldlM signedMul a = .ok c →
      c.toInt = a.toInt * elements factors := by
    intro factors
    induction factors with
    | nil =>
      intro a h
      cases h
      simp [elements]
    | cons factor factors ih =>
      intro a h
      rw [List.foldlM_cons, bind_eq_ok] at h
      obtain ⟨a', ha', h⟩ := h
      rw [ih a' h, toInt_of_signedMul ha', elements]
      ring
  simpa using hfold factors 1 h

theorem toInt_of_stride {indices : Nat} (h : stride dims indices = .ok factor) :
    factor.toInt = 4 * elements (dims.drop indices) := by
  obtain ⟨c, hc, h⟩ := bind_eq_ok.1 h
  have hsz : wordSize.toInt = 4 := by decide
  rw [toInt_of_signedMul h, toInt_of_signedProduct hc, hsz]
  ring

theorem ofInt_position_mul_stride (h : (index :: indices).length ≤ dims.length)
    (hfac : stride dims (index :: indices).length = .ok factor) :
    Int32.ofInt (position index.toInt (dims.drop 1) indices) * factor =
      Int32.ofInt (4 * elementIndex dims (index :: indices)) := by
  rw [← ofInt_toInt_mul, toInt_of_stride hfac, elementIndex_eq_position h]
  congr 1
  ring

end SysY.Generation

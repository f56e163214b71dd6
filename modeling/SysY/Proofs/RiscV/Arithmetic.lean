import Mathlib.Tactic.IntervalCases
import SysY.Proofs.RiscV.Semantics
import SysY.Proofs.Word

/-!
# Arithmetic of the machine

The operations that the machine lacks are put together from those it has: a comparison and its
negation, a bias that makes a shift round toward zero, a mask. Each of them has the value that it has
on constants.
-/

namespace SysY.RiscV

variable {b : Int32}

/-! ## Truth values -/

theorem snez_value (a : Int32) : SingleOp.snez.value a = truth (a != 0) := by
  simp [SingleOp.value, bne, BEq.beq]

theorem seqz_truth (p : Bool) : SingleOp.seqz.value (truth p) = truth !p := by cases p <;> rfl

theorem snez_truth (p : Bool) : SingleOp.snez.value (truth p) = truth p := by cases p <;> rfl

theorem and_truth (p q : Bool) : RegisterOp.and.value (truth p) (truth q) = truth (p && q) := by
  cases p <;> cases q <;> rfl

theorem seqz_sgt (a b : Int32) :
    SingleOp.seqz.value (RegisterOp.sgt.value a b) = truth (Relation.le.holds a b) := by
  rw [RegisterOp.value, seqz_truth]
  simp [Relation.holds, ← Int32.not_lt]

theorem seqz_slt (a b : Int32) :
    SingleOp.seqz.value (RegisterOp.slt.value a b) = truth (Relation.ge.holds a b) := by
  rw [RegisterOp.value, seqz_truth]
  simp [Relation.holds, ← Int32.not_lt]

theorem seqz_xor (a b : Int32) :
    SingleOp.seqz.value (RegisterOp.xor.value a b) = truth (Relation.eq.holds a b) := by
  simp [SingleOp.value, RegisterOp.value, Relation.holds]
  rfl

theorem snez_xor (a b : Int32) :
    SingleOp.snez.value (RegisterOp.xor.value a b) = truth (Relation.ne.holds a b) := by
  simp [SingleOp.value, RegisterOp.value, Relation.holds]
  rfl

theorem snez_or (a b : Int32) :
    SingleOp.snez.value (RegisterOp.or.value a b) = truth (a != 0 || b != 0) := by
  simp only [SingleOp.value, RegisterOp.value, Int32.or_eq_zero_iff, ne_eq]
  congr 1
  by_cases ha : a = 0 <;> by_cases hb : b = 0 <;> simp [ha, hb]

/-! ## Powers of two -/

theorem exponent?_eq_some {k : Nat} (h : exponent? b = some k) :
    1 ≤ k ∧ k ≤ 30 ∧ b = Int32.ofNat (2 ^ k) := by
  have hmem := List.mem_of_find?_eq_some h
  have heq := List.find?_some h
  rw [List.mem_range'_1] at hmem
  simp only [beq_iff_eq, Nat.one_shiftLeft] at heq
  exact ⟨hmem.1, by omega, heq⟩

theorem toInt_ofNat_of_lt {n : Nat} (h : n < 2 ^ 31) : (Int32.ofNat n).toInt = n := by
  rw [Int32.toInt_ofNat']
  exact Int.bmod_eq_of_le (by unfold Int32.size; omega) (by unfold Int32.size; omega)

theorem toNat_smod {k : Nat} (h : k < 32) : ((Int32.ofNat k).toBitVec.smod 32).toNat = k := by
  interval_cases k <;> rfl

theorem slli_value (a : Int32) {k : Nat} (h : k < 32) :
    ImmediateOp.slli.value a (.ofNat k) = a * .ofNat (2 ^ k) := by
  refine Int32.toBitVec_inj.1 ?_
  rw [ImmediateOp.value, Int32.toBitVec_shiftLeft, BitVec.shiftLeft_eq', toNat_smod h,
    BitVec.shiftLeft_eq_mul_twoPow, Int32.toBitVec_mul, Int32.toBitVec_ofNat', BitVec.twoPow_eq]
  congr 1
  refine BitVec.eq_of_toNat_eq ?_
  rw [BitVec.toNat_shiftLeft, BitVec.toNat_ofNat, BitVec.toNat_ofNat, Nat.shiftLeft_eq]
  simp

theorem toInt_srai (a : Int32) {k : Nat} (h : k < 32) :
    (ImmediateOp.srai.value a (.ofNat k)).toInt = a.toInt / 2 ^ k := by
  show (a >>> Int32.ofNat k).toBitVec.toInt = _
  rw [Int32.toBitVec_shiftRight, BitVec.sshiftRight', toNat_smod h, BitVec.toInt_sshiftRight,
    Int.shiftRight_eq_div_pow]
  rfl

theorem toNat_toBitVec (a : Int32) : (a.toBitVec.toNat : Int) = a.toInt % 2 ^ 32 := by
  have hlt := a.toBitVec.isLt
  show _ = a.toBitVec.toInt % 2 ^ 32
  rw [BitVec.toInt_eq_toNat_bmod]
  simp only [Int.bmod]
  omega

theorem toInt_andi (a : Int32) {k : Nat} (h : k ≤ 30) :
    (ImmediateOp.andi.value a (.ofNat (2 ^ k) - 1)).toInt = a.toInt % 2 ^ k := by
  have hpow : 2 ^ k ≤ 2 ^ 30 := Nat.pow_le_pow_right (by decide) h
  have hpos := Nat.two_pow_pos k
  have hmask : (Int32.ofNat (2 ^ k) - 1).toBitVec.toNat = 2 ^ k - 1 := by
    rw [Int32.toBitVec_sub, Int32.toBitVec_ofNat', BitVec.toNat_sub, BitVec.toNat_ofNat]
    show (2 ^ 32 - 1 + 2 ^ k % 2 ^ 32) % 2 ^ 32 = _
    omega
  show (a &&& (Int32.ofNat (2 ^ k) - 1)).toBitVec.toInt = _
  have hand : (a &&& (Int32.ofNat (2 ^ k) - 1)).toBitVec.toNat = a.toBitVec.toNat % 2 ^ k := by
    rw [Int32.toBitVec_and, BitVec.toNat_and, hmask, Nat.and_two_pow_sub_one_eq_mod]
  have hlt : a.toBitVec.toNat % 2 ^ k < 2 ^ k := Nat.mod_lt _ hpos
  rw [BitVec.toInt_eq_toNat_of_lt (by omega), hand, Int.natCast_mod, toNat_toBitVec]
  push_cast
  exact Int.emod_emod_of_dvd a.toInt (pow_dvd_pow 2 (show k ≤ 32 by omega))

theorem toInt_srli (a : Int32) {k : Nat} (hk : 0 < k) (h : k < 32) :
    (ImmediateOp.srli.value a (.ofNat k)).toInt = a.toInt % 2 ^ 32 / 2 ^ k := by
  have hpow : 2 ≤ 2 ^ k := Nat.le_self_pow (by omega) 2
  have hlt := a.toBitVec.isLt
  have hshf : (a.toUInt32 >>> (Int32.ofNat k).toUInt32).toNat = a.toBitVec.toNat / 2 ^ k := by
    rw [UInt32.toNat_shiftRight, Nat.shiftRight_eq_div_pow]
    have hk' : (Int32.ofNat k).toUInt32.toNat = k := by
      show (Int32.ofNat k).toBitVec.toNat = k
      rw [Int32.toBitVec_ofNat', BitVec.toNat_ofNat]
      omega
    rw [hk', Nat.mod_eq_of_lt h]
    rfl
  have hhalf : a.toBitVec.toNat / 2 ^ k ≤ a.toBitVec.toNat / 2 :=
    Nat.div_le_div_left hpow (by decide)
  rw [← toNat_toBitVec, ImmediateOp.value, toInt_toInt32 (by omega), hshf]
  push_cast
  rfl

/-! ## Division -/

theorem toInt_sign (a : Int32) :
    (ImmediateOp.srai.value a 31).toInt = if a.toInt < 0 then -1 else 0 := by
  have hle := a.le_toInt
  have hlt := a.toInt_lt
  have h := toInt_srai a (show 31 < 32 by decide)
  rw [show (31 : Int32) = .ofNat 31 from rfl, h]
  split <;> omega

theorem biased_ediv_emod {a d : Int} (ha : a < 0) (hd : 0 < d) :
    (d - 1 + a) / d = a.tdiv d ∧ (d - 1 + a) % d = d - 1 + a.tmod d := by
  have hnonneg := Int.emod_nonneg (-a) (Int.ne_of_gt hd)
  have hlt := Int.emod_lt_of_pos (-a) hd
  have hsum := Int.emod_add_mul_ediv (-a) d
  have hdiv : a.tdiv d = -(-a / d) := by
    rw [← Int.tdiv_eq_ediv_of_nonneg (by omega), Int.neg_tdiv, Int.neg_neg]
  have hmod : a.tmod d = -(-a % d) := by
    rw [← Int.tmod_eq_emod_of_nonneg (by omega), Int.neg_tmod, Int.neg_neg]
  rw [hdiv, hmod, Int.ediv_emod_unique hd, Int.mul_neg]
  exact ⟨by omega, by omega, by omega⟩

variable (a : Int32) {k : Nat}

/-- The bias of a division by a power of two: one less for a negative dividend. -/
def bias (k : Nat) : Int := if a.toInt < 0 then 2 ^ k - 1 else 0

theorem biased_ediv (k : Nat) : (bias a k + a.toInt) / 2 ^ k = a.toInt.tdiv (2 ^ k) := by
  unfold bias
  split
  · exact (biased_ediv_emod ‹_› (Int.pow_pos (by decide))).1
  · rw [Int.zero_add, Int.tdiv_eq_ediv_of_nonneg (by omega)]

theorem biased_emod (k : Nat) : (bias a k + a.toInt) % 2 ^ k - bias a k = a.toInt.tmod (2 ^ k) := by
  unfold bias
  split
  · rw [(biased_ediv_emod ‹_› (Int.pow_pos (by decide))).2]
    omega
  · rw [Int.zero_add, Int.sub_zero, Int.tmod_eq_emod_of_nonneg (by omega)]

theorem bias_bounds (h : k ≤ 30) : 0 ≤ bias a k ∧ bias a k < 2 ^ k ∧
    -2 ^ 31 ≤ bias a k + a.toInt ∧ bias a k + a.toInt < 2 ^ 31 := by
  have hle := a.le_toInt
  have hlt := a.toInt_lt
  have hpow : (2 : Int) ^ k ≤ 2 ^ 30 := pow_le_pow_right₀ (by decide) h
  have hpos : (0 : Int) < 2 ^ k := Int.pow_pos (by decide)
  unfold bias
  split <;> omega

theorem toInt_biased (h : k ≤ 30) (hb : b.toInt = bias a k) :
    (b + a).toInt = bias a k + a.toInt := by
  have ⟨_, _, hlow, hhigh⟩ := bias_bounds a h
  rw [Int32.toInt_add, hb]
  exact Int.bmod_eq_of_le (by omega) (by omega)

theorem toInt_power (h : k ≤ 30) : (Int32.ofNat (2 ^ k)).toInt = 2 ^ k := by
  have hpow : 2 ^ k ≤ 2 ^ 30 := Nat.pow_le_pow_right (by decide) h
  rw [toInt_ofNat_of_lt (by omega)]
  push_cast
  rfl

theorem takes_mask (h : k ≤ 11) : ImmediateOp.andi.takes (.ofNat (2 ^ k) - 1) = true := by
  interval_cases k <;> decide

theorem takes_shift (h : k < 32) : ImmediateOp.srai.takes (.ofNat k) = true := by
  interval_cases k <;> decide

theorem division_value (h : k ≤ 30) :
    ImmediateOp.srai.value (RegisterOp.add.value
        (ImmediateOp.andi.value (ImmediateOp.srai.value a 31) (.ofNat (2 ^ k) - 1)) a) (.ofNat k) =
      a / .ofNat (2 ^ k) := by
  have hbias : (ImmediateOp.andi.value (ImmediateOp.srai.value a 31) (.ofNat (2 ^ k) - 1)).toInt =
      bias a k := by
    have hpos : (0 : Int) < 2 ^ k := Int.pow_pos (by decide)
    rw [toInt_andi _ h, toInt_sign, bias]
    split
    · exact ((Int.ediv_emod_unique hpos).2 ⟨by omega, by omega, by omega⟩ :
        -1 / (2 : Int) ^ k = -1 ∧ -1 % (2 : Int) ^ k = 2 ^ k - 1).2
    · rfl
  have hne : Int32.ofNat (2 ^ k) ≠ -1 := by
    intro hneg
    have hpower := toInt_power h
    have hpos : (0 : Int) < 2 ^ k := Int.pow_pos (by decide)
    rw [hneg, show (-1 : Int32).toInt = -1 by decide] at hpower
    omega
  refine Int32.toInt_inj.1 ?_
  rw [toInt_srai _ (by omega), RegisterOp.value, toInt_biased a h hbias, biased_ediv,
    Int32.toInt_div_of_ne_right _ _ hne, toInt_power h]

theorem remainder_value (hk : 1 ≤ k) (h : k ≤ 30) :
    RegisterOp.sub.value
        (ImmediateOp.andi.value (RegisterOp.add.value a
          (ImmediateOp.srli.value (ImmediateOp.srai.value a 31) (.ofNat (32 - k))))
          (.ofNat (2 ^ k) - 1))
        (ImmediateOp.srli.value (ImmediateOp.srai.value a 31) (.ofNat (32 - k))) =
      a % .ofNat (2 ^ k) := by
  have hbias : (ImmediateOp.srli.value (ImmediateOp.srai.value a 31) (.ofNat (32 - k))).toInt =
      bias a k := by
    rw [toInt_srli _ (by omega) (by omega), toInt_sign, bias]
    split
    · interval_cases k <;> decide
    · rw [Int.zero_emod, Int.zero_ediv]
  have ⟨hnonneg, hsm, _, _⟩ := bias_bounds a h
  have hpow : (2 : Int) ^ k ≤ 2 ^ 30 := pow_le_pow_right₀ (by decide) h
  have hpos : (0 : Int) < 2 ^ k := Int.pow_pos (by decide)
  have hmod := Int.emod_nonneg (bias a k + a.toInt) (Int.ne_of_gt hpos)
  have hlt := Int.emod_lt_of_pos (bias a k + a.toInt) hpos
  refine Int32.toInt_inj.1 ?_
  simp only [RegisterOp.value]
  rw [Int32.toInt_sub, toInt_andi _ h, hbias, Int32.add_comm, toInt_biased a h hbias,
    Int32.toInt_mod, toInt_power h, ← biased_emod]
  exact Int.bmod_eq_of_le (by omega) (by omega)

end SysY.RiscV

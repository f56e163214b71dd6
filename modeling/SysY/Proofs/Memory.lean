import Mathlib.Algebra.Group.Nat.Defs

/-!
# Memory

Memory is addressed by bytes, and a word is four of them, the lowest one first. A word that is
written is read back, and a word that shares no byte with it is left alone. A region is a range of
bytes; words in disjoint regions share none.
-/

namespace SysY

variable {k : UInt32}

/-- The bytes at all addresses. -/
abbrev Memory := UInt32 → UInt8

/-- Two words without a common byte. -/
def Apart (a b : UInt32) : Prop := 4 ≤ (b - a).toNat ∧ 4 ≤ (a - b).toNat

instance (a b : UInt32) : Decidable (Apart a b) := inferInstanceAs (Decidable (_ ∧ _))

namespace Memory

def word (memory : Memory) (a : UInt32) : Int32 :=
  Int32.ofNat ((memory a).toNat + 256 * ((memory (a + 1)).toNat +
    256 * ((memory (a + 2)).toNat + 256 * (memory (a + 3)).toNat)))

/-- One of the bytes of a word. -/
def byteOf (value : Int32) (k : Nat) : UInt8 := UInt8.ofNat (value.toUInt32.toNat / 256 ^ k)

def write (memory : Memory) (a : UInt32) (value : Int32) : Memory := fun b =>
  if (b - a).toNat < 4 then byteOf value (b - a).toNat else memory b

variable {b a : UInt32}

theorem write_inside (memory : Memory) (a : UInt32) (value : Int32)
    (h : (b - a).toNat < 4) : memory.write a value b = byteOf value (b - a).toNat := if_pos h

theorem write_outside (memory : Memory) (a : UInt32) (value : Int32)
    (h : 4 ≤ (b - a).toNat) : memory.write a value b = memory b := if_neg (by omega)

theorem toNat_add_sub_self (a : UInt32) (k : UInt32) : (a + k - a).toNat = k.toNat := by
  rw [UInt32.toNat_sub, UInt32.toNat_add]
  have := a.toNat_lt
  have := k.toNat_lt
  omega

@[simp] theorem word_write_self (memory : Memory) (a : UInt32) (value : Int32) :
    (memory.write a value).word a = value := by
  have hbyte : ∀ k : UInt32, k.toNat < 4 →
      memory.write a value (a + k) = byteOf value k.toNat := by
    intro k hk
    rw [write_inside _ _ _ (by rw [toNat_add_sub_self]; exact hk), toNat_add_sub_self]
  have h0 := hbyte 0 (by decide)
  rw [UInt32.add_zero] at h0
  rw [word, h0, hbyte 1 (by decide), hbyte 2 (by decide), hbyte 3 (by decide)]
  have hlt := value.toUInt32.toNat_lt
  have hsum : (byteOf value (0 : UInt32).toNat).toNat + 256 * ((byteOf value (1 : UInt32).toNat).toNat +
      256 * ((byteOf value (2 : UInt32).toNat).toNat + 256 * (byteOf value (3 : UInt32).toNat).toNat))
      = value.toUInt32.toNat := by
    simp only [byteOf, UInt8.toNat_ofNat']
    simp
    omega
  have hword : Int32.ofNat value.toUInt32.toNat = (UInt32.ofNat value.toUInt32.toNat).toInt32 := rfl
  rw [hsum, hword, UInt32.ofNat_toNat]
  rfl

theorem Apart.outside (h : Apart a b) (hk : k.toNat < 4) :
    4 ≤ (b + k - a).toNat := by
  obtain ⟨h1, h2⟩ := h
  rw [UInt32.toNat_sub] at h1 h2 ⊢
  rw [UInt32.toNat_add]
  have := a.toNat_lt
  have := b.toNat_lt
  omega

theorem word_congr {memory memory' : Memory} {a : UInt32}
    (h : ∀ k : UInt32, k.toNat < 4 → memory (a + k) = memory' (a + k)) :
    memory.word a = memory'.word a := by
  have h0 := h 0 (by decide)
  rw [UInt32.add_zero] at h0
  rw [word, word, h0, h 1 (by decide), h 2 (by decide), h 3 (by decide)]

theorem word_write_of_apart (memory : Memory) (value : Int32) (h : Apart a b) :
    (memory.write a value).word b = memory.word b :=
  word_congr fun _ hk => write_outside _ _ _ (Apart.outside h hk)

end Memory

/-! ## Regions -/

/-- A range of bytes. -/
structure Region where
  start : UInt32
  bytes : Nat
deriving DecidableEq

namespace Region

/-- Whether a byte lies in the region. -/
def contains (region : Region) (b : UInt32) : Bool := (b - region.start).toNat < region.bytes

/-- Whether a whole word lies in the region. -/
def holds (region : Region) (a : UInt32) : Bool := (a - region.start).toNat + 4 ≤ region.bytes

/-- Whether a word has a byte in the region. -/
def touches (region : Region) (a : UInt32) : Bool :=
  region.contains a || region.contains (a + 1) || region.contains (a + 2) || region.contains (a + 3)

def all (region : Region) (p : UInt32 → Bool) : Bool :=
  (List.range region.bytes).all fun j => p (region.start + UInt32.ofNat j)

def Disjoint (r s : Region) : Prop := ∀ b, ¬ (r.contains b = true ∧ s.contains b = true)

variable {r s : Region} {a b j : UInt32}

theorem Disjoint.symm (h : r.Disjoint s) : s.Disjoint r :=
  fun b hb => h b ⟨hb.2, hb.1⟩

theorem contains_of_holds (h : r.holds a = true) (hk : k.toNat < 4) :
    r.contains (a + k) = true := by
  simp only [holds, contains, decide_eq_true_eq, UInt32.toNat_sub, UInt32.toNat_add] at h ⊢
  have := a.toNat_lt
  have := r.start.toNat_lt
  omega

theorem exists_common_byte (h : ¬ Apart a b) :
    ∃ j k : UInt32, j.toNat < 4 ∧ k.toNat < 4 ∧ a + j = b + k := by
  have hsub : a + (b - a) = b := by
    rw [UInt32.add_comm, UInt32.sub_add_cancel]
  have hsub' : b + (a - b) = a := by
    rw [UInt32.add_comm, UInt32.sub_add_cancel]
  by_cases hba : (b - a).toNat < 4
  · exact ⟨b - a, 0, hba, by decide, by rw [hsub, UInt32.add_zero]⟩
  · refine ⟨0, a - b, by decide, ?_, by rw [hsub', UInt32.add_zero]⟩
    have : ¬ 4 ≤ (a - b).toNat := fun h' => h ⟨by omega, h'⟩
    omega

theorem Disjoint.apart (h : r.Disjoint s) (ha : r.holds a = true)
    (hb : s.holds b = true) : Apart a b := by
  refine Decidable.byContradiction fun hnot => ?_
  obtain ⟨j, k, hj, hk, heq⟩ := exists_common_byte hnot
  exact h (a + j) ⟨contains_of_holds ha hj, heq ▸ contains_of_holds hb hk⟩

theorem contains_of_touches (h : r.touches a = false) (hj : j.toNat < 4) :
    r.contains (a + j) = false := by
  simp only [touches, Bool.or_eq_false_iff] at h
  obtain ⟨⟨⟨h0, h1⟩, h2⟩, h3⟩ := h
  have hcas : j = 0 ∨ j = 1 ∨ j = 2 ∨ j = 3 := by
    simp only [← UInt32.toNat_inj, UInt32.reduceToNat]
    omega
  rcases hcas with rfl | rfl | rfl | rfl
  · rwa [UInt32.add_zero]
  · exact h1
  · exact h2
  · exact h3

theorem all_eq_true {p : UInt32 → Bool} :
    r.all p = true → ∀ b, r.contains b = true → p b = true := by
  intro h b hb
  simp only [all, List.all_eq_true, List.mem_range] at h
  simp only [contains, decide_eq_true_eq] at hb
  have := h _ hb
  rwa [UInt32.ofNat_toNat, UInt32.add_comm, UInt32.sub_add_cancel] at this

theorem Disjoint.mono {r' : Region} (h : r.Disjoint s)
    (hsub : ∀ b, r'.contains b = true → r.contains b = true) : r'.Disjoint s :=
  fun b hb => h b ⟨hsub b hb.1, hb.2⟩

theorem contains_word (hj : j.toNat < 4) :
    (Region.mk a 4).contains (a + j) = true := by
  simpa [contains, Memory.toNat_add_sub_self] using hj

theorem holds_word (a : UInt32) : (Region.mk a 4).holds a = true := by simp [holds]

end Region

end SysY

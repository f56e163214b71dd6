import Mathlib
import SysY.Token.Lexer

/-!
# How numbers are written

A numeral has a digit for each place, and the number that it denotes can have any size. An integer
literal is a numeral of one of three bases. The lexer knows the digits of each base.
-/

namespace SysY.Lexer

/-- A character for a digit, in lower or in upper case. -/
def IsDigit (base : Nat) (c : Char) (digit : Nat) : Prop :=
  digit < base ∧ (c = digit.digitChar ∨ c = digit.digitChar.toUpper)

/-- At least one digit, and the number that the digits denote. -/
inductive IsNumeral (base : Nat) : List Char → Nat → Prop
  | single {c : Char} {digit : Nat} (h : IsDigit base c digit) : IsNumeral base [c] digit
  | snoc {cs : List Char} {c : Char} {n digit : Nat} (h : IsNumeral base cs n)
    (hc : IsDigit base c digit) : IsNumeral base (cs ++ [c]) (n * base + digit)

/-- The characters of a literal with digits of a base, and the number that it denotes. -/
def Radix.Writes : Radix → List Char → Nat → Prop
  | .octal, cs, n => ∃ digits, cs = '0' :: digits ∧ IsNumeral 8 digits n
  | .decimal, cs, n => IsNumeral 10 cs n ∧ cs.head? ≠ some '0'
  | .hexadecimal, cs, n => ∃ x digits, (x = 'x' ∨ x = 'X') ∧ cs = '0' :: x :: digits ∧
    IsNumeral 16 digits n

/-- The characters of a literal, and the number that it denotes. -/
def IsLiteral (cs : List Char) (n : Nat) : Prop :=
  (cs = ['0'] ∧ n = 0) ∨ ∃ radix : Radix, radix.Writes cs n

variable {c : Char} {cs : List Char} {radix : Radix} {base n digit : Nat}

/-! ## Digits -/

theorem digit?_lt (h : radix.digit? c = some digit) : digit < radix.size :=
  of_decide_eq_true (Option.filter_eq_some_iff.1 h).2

theorem digit?_of_not_word (h : isWordChar c = false) : radix.digit? c = none := by
  simp only [isWordChar, Char.isAlphanum, Char.isAlpha, Char.isUpper, Char.isLower,
    Bool.or_eq_false_iff] at h
  have hvalue : digitValue? c = none := by
    unfold digitValue?
    grind [Char.le_def]
  rw [Radix.digit?, hvalue]
  rfl

theorem IsDigit.digit? (h : IsDigit radix.size c digit) : radix.digit? c = some digit := by
  obtain ⟨hlt, hc⟩ := h
  have hsize : radix.size ≤ 16 := by cases radix <;> decide
  have hvalue : digitValue? c = some digit := by
    replace hlt : digit < 16 := Nat.lt_of_lt_of_le hlt hsize
    interval_cases digit <;> obtain rfl | rfl := hc <;> rfl
  rw [Radix.digit?, hvalue]
  exact Option.filter_eq_some_iff.2 ⟨rfl, decide_eq_true hlt⟩

/-! ## Literals -/

theorem IsNumeral.head?_append {tail : List Char} (h : IsNumeral base cs n) :
    (cs ++ tail).head? = cs.head? := by
  cases h with
  | single _ => rfl
  | snoc h _ =>
    cases h <;> simp

theorem Radix.Writes.snoc (h : radix.Writes cs n) (hc : IsDigit radix.size c digit) :
    radix.Writes (cs ++ [c]) (n * radix.size + digit) := by
  cases radix with
  | octal =>
    obtain ⟨digits, rfl, hdigits⟩ := h
    exact ⟨_, rfl, hdigits.snoc hc⟩
  | decimal =>
    obtain ⟨hdigits, hhead⟩ := h
    exact ⟨hdigits.snoc hc, by rwa [hdigits.head?_append]⟩
  | hexadecimal =>
    obtain ⟨x, digits, hx, rfl, hdigits⟩ := h
    exact ⟨x, _, hx, rfl, hdigits.snoc hc⟩

end SysY.Lexer

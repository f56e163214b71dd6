import SysY.Proofs.Token.Scanning

/-!
# Integer literals

A literal denotes a number of any size. The lexer adds up its digits one by one and gives up at the
first digit that is too much, so the number it holds never comes near the bounds of a machine word.
-/

namespace SysY.Lexer

open List

variable {c : Char} {cs rest : List Char} {radix : Radix} {n value digit : Nat} {seen : Bool}

/-! ## Reading digits -/

theorem IsDigit.ne_newline (h : IsDigit radix.size c digit) : c ≠ '\n' := by
  rintro rfl
  have hnone : radix.digit? '\n' = none := by cases radix <;> rfl
  cases hnone.symm.trans h.digit?

/-- What is found where a number is held, or is too large. -/
def holding (radix : Radix) (n : Nat) (rest : List Char) : List Finding :=
  if n < 2 ^ 32 then scan (.integer n radix true) rest
  else .error .literalTooLarge :: scan .skipping rest

theorem scan_digit (h : IsDigit radix.size c digit) (rest : List Char) :
    scan (.integer value radix seen) (c :: rest) =
      holding radix (value * radix.size + digit) rest := by
  have hmax : maxLiteral + 1 = 2 ^ 32 := rfl
  rw [scan_cons, step, extend, extendInteger, h.digit?, holding]
  dsimp only
  by_cases hlarge : value * radix.size + digit > maxLiteral
  · rw [if_pos hlarge, if_neg (by omega), recover, if_neg h.ne_newline]
    rfl
  · rw [if_neg hlarge, if_pos (by omega)]
    rfl

theorem scan_numeral (h : IsNumeral radix.size cs n) (rest : List Char) :
    scan (.integer 0 radix seen) (cs ++ rest) = holding radix n rest := by
  induction h generalizing rest with
  | single hc =>
    rw [singleton_append, scan_digit hc, Nat.zero_mul, Nat.zero_add]
  | @snoc cs c n digit h hc ih =>
    rw [append_assoc, ih, singleton_append, holding]
    split
    · exact scan_digit hc rest
    · rename_i hlarge
      -- more digits do not make it smaller
      have hmore : n ≤ n * radix.size := Nat.le_mul_of_pos_right n (Nat.zero_lt_of_lt hc.1)
      rw [holding, if_neg (by omega), scan_cons, step, extend, if_neg hc.ne_newline]
      rfl

/-! ## Literals -/

/-- What is found at a literal and behind it. -/
def literalThen (n : Nat) (rest : List Char) : List Finding :=
  if n < 2 ^ 32 then .ok (.literal (.ofNat n)) :: scan .start rest
  else .error .literalTooLarge :: scan .skipping rest

theorem scan_integer (hrest : ∀ c ∈ rest.head?, isWordChar c = false) :
    scan (.integer n radix true) rest = .ok (.literal (.ofNat n)) :: scan .start rest := by
  cases rest with
  | nil => rfl
  | cons c rest =>
    have hword := hrest c rfl
    refine scan_yield ?_ rest
    rw [extend, extendInteger, digit?_of_not_word hword, hword]
    rfl

theorem holding_end (hrest : ∀ c ∈ rest.head?, isWordChar c = false) :
    holding radix n rest = literalThen n rest := by
  rw [holding, literalThen, scan_integer hrest]

theorem scan_zero (hrest : ∀ c ∈ rest.head?, isWordChar c = false) :
    scan .zero rest = .ok (.literal 0) :: scan .start rest := by
  cases rest with
  | nil => rfl
  | cons c rest =>
    have hword := hrest c rfl
    have hx : ¬ (c = 'x' ∨ c = 'X') := by
      rintro (rfl | rfl) <;> cases hword
    refine scan_yield ?_ rest
    rw [extend, if_neg hx, hword]
    simp only [isWordChar, Char.isAlphanum, Bool.or_eq_false_iff] at hword
    rw [hword.1.2]
    rfl

theorem scan_octal (h : IsDigit 8 c digit) (rest : List Char) :
    scan .zero (c :: rest) = scan (.integer 0 .octal true) (c :: rest) := by
  obtain ⟨hlt, hc⟩ := h
  interval_cases digit <;> obtain rfl | rfl := hc <;> rfl

theorem scan_decimal (h : IsDigit 10 c digit) (hne : c ≠ '0') (rest : List Char) :
    scan .start (c :: rest) = scan (.integer 0 .decimal true) (c :: rest) := by
  obtain ⟨hlt, hc⟩ := h
  interval_cases digit
  · obtain rfl | rfl := hc <;> exact absurd rfl hne
  all_goals obtain rfl | rfl := hc <;> rfl

theorem IsNumeral.exists_head (h : IsNumeral radix.size cs n) :
    ∃ c digit rest, cs = c :: rest ∧ IsDigit radix.size c digit := by
  induction h with
  | single hc => exact ⟨_, _, [], rfl, hc⟩
  | @snoc cs c n digit h hc ih =>
    obtain ⟨d, digit, rest, rfl, hd⟩ := ih
    exact ⟨d, digit, rest ++ [c], rfl, hd⟩

theorem Radix.Writes.scan (h : radix.Writes cs n) (rest : List Char) :
    scan .start (cs ++ rest) = holding radix n rest := by
  cases radix with
  | octal =>
    obtain ⟨digits, rfl, hdigits⟩ := h
    obtain ⟨c, digit, tail, rfl, hc⟩ := @IsNumeral.exists_head _ .octal _ hdigits
    show Lexer.scan .zero (c :: (tail ++ rest)) = _
    rw [scan_octal hc]
    exact @scan_numeral _ .octal _ _ hdigits rest
  | decimal =>
    obtain ⟨hdigits, hlead⟩ := h
    obtain ⟨c, digit, tail, rfl, hc⟩ := @IsNumeral.exists_head _ .decimal _ hdigits
    rw [cons_append, scan_decimal hc fun heq => hlead (congrArg some heq)]
    exact @scan_numeral _ .decimal _ _ hdigits rest
  | hexadecimal =>
    obtain ⟨x, digits, hx, rfl, hdigits⟩ := h
    show Lexer.scan .zero (x :: (digits ++ rest)) = _
    rw [scan_cons, step, extend, if_pos hx]
    exact @scan_numeral _ .hexadecimal _ _ hdigits rest

theorem scan_literal (h : IsLiteral cs n) (hrest : ∀ c ∈ rest.head?, isWordChar c = false) :
    scan .start (cs ++ rest) = literalThen n rest := by
  obtain ⟨rfl, rfl⟩ | ⟨radix, h⟩ := h
  · exact scan_zero hrest
  · rw [h.scan, holding_end hrest]

/-! ## The lexer -/

/-- The states that the lexer comes to. -/
inductive Occurs : State → Prop
  | start : Occurs .start
  | skipping : Occurs .skipping
  | feed {cursor : Cursor} (h : Occurs cursor.state) (c : Char) (behind : Location) :
    Occurs (cursor.feed c behind).2.state

theorem Occurs.proper {state : State} (h : Occurs state) : state.Proper := by
  induction h with
  | start | skipping => trivial
  | @feed cursor _ c behind _ =>
    rw [(cursor.feed_step c behind).2]
    exact proper_step cursor.state c

/-- Wherever the lexer stands between tokens, a literal has its value as a signed word, or it is too
large. The number it holds while it reads stays below the bounds of 64 bits. -/
theorem literal_exact (h : IsLiteral cs n) (hrest : ∀ c ∈ rest.head?, isWordChar c = false) :
    (∀ (cursor : Cursor) (items : List Text.Item), cursor.state = .start → .unreadable ∉ items →
      characters items = cs ++ rest → (cursor.run items).map Result.finding =
        if n < 2 ^ 32 then .ok (.literal (.ofNat n)) :: scan .start rest
        else .error .literalTooLarge :: scan .skipping rest) ∧
    ∀ value radix seen, Occurs (.integer value radix seen) →
      ∀ c digit, radix.digit? c = some digit → value * radix.size + digit < 2 ^ 64 := by
  refine ⟨fun cursor items hstart hread hitems => ?_, fun value radix seen hoccurs c digit hc => ?_⟩
  · rw [Cursor.run_scan hread, hstart, hitems]
    exact scan_literal h hrest
  · have hvalue : value ≤ maxLiteral := hoccurs.proper
    have hdigit := digit?_lt hc
    have hsize : radix.size ≤ 16 := by cases radix <;> decide
    have := Nat.mul_le_mul hvalue hsize
    unfold maxLiteral at this
    omega

theorem largest_literal :
    ((Cursor.initial .unknown).run
      (Text.lineItems .unknown .first ("0xFFFFFFFF".toList ++ [';']))).map Result.finding =
      [.ok (.literal (-1)), .ok (.mark .semicolon)] := by
  have hliteral : IsLiteral "0xFFFFFFFF".toList 4294967295 := by
    have hdigit : IsDigit 16 'F' 15 := ⟨by decide, .inr (by decide)⟩
    refine .inr ⟨.hexadecimal, 'x', "FFFFFFFF".toList, .inl rfl, rfl, ?_⟩
    exact .snoc (.snoc (.snoc (.snoc (.snoc (.snoc (.snoc (.single hdigit) hdigit) hdigit) hdigit)
      hdigit) hdigit) hdigit) hdigit
  refine ((literal_exact hliteral ?_).1 _ _ rfl (unreadable_notMem_lineItems _ _ _)
    (characters_lineItems _ _ _)).trans (by decide)
  rintro _ ⟨⟩
  rfl

end SysY.Lexer

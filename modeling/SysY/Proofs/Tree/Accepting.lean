import SysY.Proofs.Tree.Reading

/-!
# What a parser accepts

A parser takes whatever the grammar allows, as long as what follows cannot go on with it: an operand
of a level ends in front of a delimiter or an operator of a looser level, and a statement that could
take an `else` is not in front of one.

Together with what parsers read, this makes reading a program and deriving it the same.
-/

namespace SysY.Tree

namespace Parser

open Grammar List

variable {α β : Type} {ts xs ys rest is : Tokens} {last : Location}
  {semicolon right x : Located Token} {token : Token} {returns : ReturnType} {es : List Expr}
  {depth : Nat} {p : Parser α} {f : α → Parser β} {value : Expr} {b : Block} {a : α} {c : β}

/-! ## Taking tokens -/

/-- Behind `last` and in front of `rest`, a parser takes the tokens `ts` and gives `a`. -/
def AcceptsFrom (last : Location) (p : Parser α) (ts : Tokens) (a : α) (rest : Tokens) : Prop :=
  p.run ⟨ts ++ rest, last⟩ = .ok (a, ⟨rest, lastOf last ts⟩)

/-- In front of `rest`, a parser takes the tokens `ts` and gives `a`. -/
def Accepts (p : Parser α) (ts : Tokens) (a : α) (rest : Tokens) : Prop :=
  ∀ last, AcceptsFrom last p ts a rest

theorem run_then {c c' : Cursor} {result : Except Failure (β × Cursor)}
    (h : p.run c = .ok (a, c')) (hrest : (f a).run c' = result) : (p >>= f).run c = result := by
  rw [StateT.run_bind, h]
  exact hrest

theorem Accepts.bind (h : Accepts p xs a (ys ++ rest))
    (hf : AcceptsFrom (lastOf last xs) (f a) ys c rest) :
    AcceptsFrom last (p >>= f) (xs ++ ys) c rest := by
  rw [AcceptsFrom, append_assoc, lastOf_append]
  exact run_then (h last) hf

/-- Behind `p` nothing is taken. -/
theorem Accepts.finally (h : Accepts p xs a rest)
    (hf : AcceptsFrom (lastOf last xs) (f a) [] c rest) : AcceptsFrom last (p >>= f) xs c rest :=
  run_then (h last) hf

theorem Accepts.failing (weak : Bool) (h : Accepts p ts a rest) :
    Accepts (failing weak p) ts a rest := by
  intro last
  have hrun := h last
  simp only [AcceptsFrom, StateT.run] at hrun ⊢
  rw [Parser.failing, hrun]
  rfl

theorem Accepts.strictly (h : Accepts p ts a rest) : Accepts (strictly p) ts a rest :=
  h.failing false

theorem Accepts.attempt (h : Accepts p ts a rest) : Accepts (attempt p) ts (some a) rest := by
  intro last
  have hrun := h last
  simp only [AcceptsFrom, StateT.run] at hrun ⊢
  rw [Parser.attempt, hrun]

theorem Accepts.optionally (h : Accepts p ts a rest) :
    Accepts (optionally p) ts (some a) rest := by
  intro last
  have hrun := h last
  simp only [AcceptsFrom, StateT.run] at hrun ⊢
  rw [Parser.optionally, hrun]

theorem run_optionally_weakly {c : Cursor} {failure : Failure}
    (h : p.run c = .error failure) : (optionally (weakly p >>= f)).run c = .ok (none, c) := by
  have hrun : (weakly p >>= f).run c = .error { failure with weak := true } := by
    rw [StateT.run_bind]
    simp only [StateT.run] at h ⊢
    rw [weakly, failing, h]
    rfl
  simp only [StateT.run] at hrun ⊢
  rw [optionally, hrun]
  rfl

/-! ## Single tokens -/

theorem run_peek (c : Cursor) : peek.run c = .ok (c.tokens.head?.map (·.value), c) := rfl

theorem accepts_next (x : Located Token) : Accepts next [x] x rest := fun _ => rfl

theorem accepts_bound : Accepts bound [] (rest.length + 1) rest := fun _ => rfl

theorem accepts_accept (hx : x.value = token) : Accepts (accept token) [x] true rest := by
  intro last
  simp [AcceptsFrom, accept, hx]
  rfl

theorem accepts_expect (hx : x.value = token) : Accepts (expect token) [x] () rest := by
  intro last
  simp [AcceptsFrom, expect, hx]
  rfl

theorem accepts_identifier {name : String} (hx : x.value = .identifier name) :
    Accepts identifier [x] ⟨name, x.location⟩ rest := by
  intro last
  refine (accepts_next x).bind ?_
  rw [hx]
  rfl

/-! ## Looking ahead -/

theorem accepts_here {f : Location → Parser β}
    (hf : AcceptsFrom last (f x.location) (x :: ts) c rest) :
    AcceptsFrom last (here >>= f) (x :: ts) c rest := hf

theorem accepts_since {start : Location} {f : Location → Parser β}
    (hf : AcceptsFrom last (f (.span start last)) ts c rest) :
    AcceptsFrom last (since start >>= f) ts c rest := hf

theorem accepts_get {f : Cursor → Parser β}
    (hf : AcceptsFrom last (f ⟨ts ++ rest, last⟩) ts c rest) :
    AcceptsFrom last (get >>= f) ts c rest := hf

theorem accepts_peek {f : Option Token → Parser β}
    (hf : AcceptsFrom last (f ((ts ++ rest).head?.map (·.value))) ts c rest) :
    AcceptsFrom last (peek >>= f) ts c rest := hf

theorem run_accept_absent (h : ∀ x ∈ rest.head?, x.value ≠ token) :
    (accept token).run ⟨rest, last⟩ = .ok (false, ⟨rest, last⟩) := by
  cases rest with
  | nil => rfl
  | cons x rest =>
    have hx : x.value ≠ token := h x rfl
    simp [accept, hx]
    rfl

theorem accepts_absent {f : Bool → Parser β} (h : ∀ x ∈ (ts ++ rest).head?, x.value ≠ token)
    (hf : AcceptsFrom last (f false) ts c rest) :
    AcceptsFrom last (accept token >>= f) ts c rest :=
  run_then (run_accept_absent h) hf

theorem run_expect_ne (hx : x.value ≠ token) :
    ∃ failure, (expect token).run ⟨x :: rest, last⟩ = .error failure := by
  refine ⟨⟨false, .unexpectedToken token x.value, x.location⟩, ?_⟩
  simp [expect, hx]
  rfl

theorem head_ne {token' : Token} (hx : x.value = token) (hne : token ≠ token') :
    ∀ y ∈ (x :: rest).head?, y.value ≠ token' := by
  intro y hy
  cases hy
  rw [hx]
  exact hne

/-! ## Ends of operands -/

/-- What an expression ends in front of. -/
def delimiters : List Mark := [.comma, .semicolon, .closeParen, .closeSquare, .closeCurly]

/-- Tokens that an operand of a level ends in front of. -/
inductive Stops (k : Nat) : Tokens → Prop
  | delimiter {mark : Mark} {x : Located Token} {rest : Tokens} (hmark : mark ∈ delimiters)
    (hx : x.value = .mark mark) : Stops k (x :: rest)
  | operator {operator : BinaryOperator} {x : Located Token} {rest : Tokens}
    (hlevel : level operator < k) (hx : x.value = .mark (binaryMark operator)) : Stops k (x :: rest)

theorem Stops.mono {k k' : Nat} (h : Stops k rest) (hk : k ≤ k') : Stops k' rest := by
  cases h with
  | delimiter hmark hx => exact .delimiter hmark hx
  | operator hlevel hx => exact .operator (by omega) hx

/-- Marks that neither end an operand nor go on behind it. -/
def goesOn : Token → Bool
  | .mark .openParen | .mark .openSquare | .mark .assign => false
  | _ => true

theorem Stops.head_ne {k : Nat} (h : Stops k rest) (htok : goesOn token = false) :
    ∀ x ∈ rest.head?, x.value ≠ token := by
  have hbegins : Begins goesOn rest := by
    cases h with
    | @delimiter mark x rest hmark hx =>
      have hall : ∀ mark ∈ delimiters, goesOn (.mark mark) = true := by decide
      exact begins hx (hall mark hmark)
    | @operator operator x rest hlevel hx =>
      have hall : goesOn (.mark (binaryMark operator)) = true := by cases operator <;> rfl
      exact begins hx hall
  exact hbegins.head_ne htok

theorem lookup_delimiter : ∀ k (h : k < levels.length), ∀ mark ∈ delimiters,
    levels[k].lookup mark = none := by
  decide

theorem lookup_looser (operator : BinaryOperator) : ∀ k (h : k < levels.length),
    level operator < k → levels[k].lookup (binaryMark operator) = none := by
  cases operator <;> decide

theorem level_lt (operator : BinaryOperator) : level operator < unaryLevel := by
  cases operator <;> decide

theorem lookup_level (operator : BinaryOperator) : ∃ h : level operator < levels.length,
    levels[level operator].lookup (binaryMark operator) = some operator := by
  cases operator <;> exact ⟨by decide, rfl⟩

theorem Stops.operatorIn {k : Nat} (hk : k < levels.length) (h : Stops k rest) :
    operatorIn levels[k] (rest.head?.map (·.value)) = none := by
  cases h with
  | delimiter hmark hx => simpa [Parser.operatorIn, hx] using lookup_delimiter k hk _ hmark
  | operator hlevel hx => simpa [Parser.operatorIn, hx] using lookup_looser _ k hk hlevel

/-! ## Lists -/

section Lists

variable {rule : Tokens → α → Prop} {N : Nat} {as : List α}
  (hp : ∀ ⦃xs a rest⦄, rule xs a → xs.length < N → Stops 0 rest → Accepts p xs a rest)

include hp

theorem accepts_separated (h : Separated rule ts as) (hlen : ts.length < N) (hstp : Stops 0 rest)
    (hend : ∀ x ∈ rest.head?, x.value ≠ .mark .comma) :
    ∃ xs a ys as', ts = xs ++ ys ∧ as = a :: as' ∧ Accepts p xs a (ys ++ rest) ∧
      ∀ m, ys.length + rest.length < m → Accepts (commaRest p m) ys as' rest := by
  induction h with
  | @single xs a head =>
    refine ⟨xs, a, [], [], (append_nil _).symm, rfl, hp head hlen hstp, fun m hm last => ?_⟩
    obtain ⟨m, rfl⟩ : ∃ n, m = n + 1 := ⟨m - 1, by omega⟩
    exact accepts_absent hend rfl
  | @cons xs ys comma a as head hcomma tail ih =>
    simp only [length_append, length_cons] at hlen
    obtain ⟨xs', a', ys', as', rfl, rfl, hfst, hrest⟩ := ih (by omega)
    refine ⟨xs, a, comma :: (xs' ++ ys'), _, rfl, rfl,
      hp head (by omega) (.delimiter (by decide) hcomma), fun m hm last => ?_⟩
    obtain ⟨m, rfl⟩ : ∃ n, m = n + 1 := ⟨m - 1, by omega⟩
    simp only [length_append, length_cons] at hm
    refine (accepts_accept hcomma).bind ?_
    exact hfst.strictly.bind ((hrest m (by omega)).finally rfl)

theorem accepts_commaSeparated (h : Separated rule ts as) (hlen : ts.length < N)
    (hstp : Stops 0 rest) (hend : ∀ x ∈ rest.head?, x.value ≠ .mark .comma) :
    Accepts (commaSeparated p) ts as rest := by
  obtain ⟨xs, a, ys, as, rfl, rfl, hfst, hrest⟩ := accepts_separated hp h hlen hstp hend
  intro last
  refine hfst.strictly.bind (accepts_bound.bind ?_)
  exact (hrest _ (by simp)).finally rfl

theorem accepts_commaSeparatedOrEmpty (h : Listing rule ts as) (hlen : ts.length < N)
    (hstp : Stops 0 rest) (hend : ∀ x ∈ rest.head?, x.value ≠ .mark .comma)
    (hnone : Accepts (optionally p) [] none rest) :
    Accepts (commaSeparatedOrEmpty p) ts as rest := by
  intro last
  cases h with
  | none => exact hnone.finally rfl
  | some h =>
    obtain ⟨xs, a, ys, as, rfl, rfl, hfst, hrest⟩ := accepts_separated hp h hlen hstp hend
    refine hfst.optionally.bind (accepts_bound.bind ?_)
    exact (hrest _ (by simp)).finally rfl

/-- A list of items in front of the mark that closes it. -/
theorem accepts_listing {kind : Token → Bool} {close : Mark} {f : List α → Parser β}
    (hbeg : ∀ ⦃xs a⦄, rule xs a → Begins kind xs) (hclose : close ∈ delimiters.erase .comma)
    (hkind : kind (.mark close) = false) (h : Listing rule ts as) (hlen : ts.length < N)
    (hr : right.value = .mark close) (hf : AcceptsFrom right.location (f as) [] c rest) :
    AcceptsFrom last (do
      if ← accept (.mark close) then pure [] >>= f else do
        let items ← commaSeparated p
        expect (.mark close)
        pure items >>= f) (ts ++ [right]) c rest := by
  cases h with
  | none => exact (accepts_accept hr).finally hf
  | some h =>
    have hcomma : Token.mark close ≠ .mark .comma := by
      rintro ⟨⟩
      exact absurd hclose (by decide)
    have hstop : Stops 0 (right :: rest) := .delimiter (mem_of_mem_erase hclose) hr
    have hlist := accepts_commaSeparated hp h hlen hstop (head_ne hr hcomma)
    have hfst : Begins kind ts := by
      cases h with
      | single head => exact hbeg head
      | cons head _ _ => exact (hbeg head).append
    refine accepts_absent (hfst.append.append.head_ne hkind) ?_
    exact hlist.bind ((accepts_expect hr).finally hf)

end Lists

/-! ## Expressions -/

theorem extent_closed (first : Located Token) (ts : Tokens) :
    extent (first :: (ts ++ [right])) = .span first.location right.location := by
  rw [extent, lastOf_append]
  rfl

theorem accepts_located {p : Parser (List Element)} {elements : List Element} (hts : ts ≠ [])
    (h : Accepts p ts elements rest) : Accepts (located p) ts (.mk elements (extent ts)) rest := by
  cases ts with
  | nil => exact absurd rfl hts
  | cons x xs =>
    intro last
    refine accepts_here ?_
    exact h.finally rfl

/-- A parser that takes every expression of fewer than `N` tokens. -/
def AcceptsExpr (p : Parser Expr) (N : Nat) : Prop :=
  ∀ ⦃ts e rest⦄, Sentence ts e → ts.length < N → Stops 0 rest → Accepts p ts e rest

theorem accepts_indexRest {p : Parser Expr} {N : Nat} (hp : AcceptsExpr p N)
    (h : Repeated Index ts es) (hlen : ts.length ≤ N)
    (hend : ∀ x ∈ rest.head?, x.value ≠ .mark .openSquare) :
    ∀ m, ts.length + rest.length < m → Accepts (indexRest p m) ts es rest := by
  induction h with
  | nil =>
    intro m hm last
    obtain ⟨m, rfl⟩ : ∃ n, m = n + 1 := ⟨m - 1, by omega⟩
    exact accepts_absent hend rfl
  | @cons xs ys e es head tail ih =>
    intro m hm last
    obtain ⟨m, rfl⟩ : ∃ n, m = n + 1 := ⟨m - 1, by omega⟩
    cases head with
    | @mk ts left right e hl he hr =>
      simp only [length_append, length_cons, length_nil] at hlen hm
      have hstop : Stops 0 (right :: (ys ++ rest)) := .delimiter (by decide) hr
      have hidx := hp he (by omega) hstop
      have hrest := ih (by omega) m (by omega)
      rw [cons_append, append_assoc]
      refine (accepts_accept hl).bind (hidx.bind ?_)
      exact (accepts_expect hr).bind (hrest.finally rfl)

theorem accepts_indices {p : Parser Expr} {N : Nat} (hp : AcceptsExpr p N)
    (h : Repeated Index ts es) (hlen : ts.length ≤ N)
    (hend : ∀ x ∈ rest.head?, x.value ≠ .mark .openSquare) : Accepts (indices p) ts es rest := by
  intro last
  exact accepts_bound.bind (accepts_indexRest hp h hlen hend _ (by simp) last)

/-- A parser that takes the operators and operands of every expression of fewer than `N` tokens. -/
def AcceptsOperation (p : Parser (List Element)) (N : Nat) : Prop :=
  ∀ ⦃ts t rest⦄, Operand 0 ts t → ts.length < N → Stops 0 rest → Accepts p ts t.elements rest

section Operands

variable {inner operand : Parser (List Element)} {N n k j : Nat} {t : Operation}
  {sign : Located Token}

theorem AcceptsOperation.located (h : AcceptsOperation inner N) : AcceptsExpr (located inner) N := by
  intro ts e rest hts hlen hstp
  cases hts with
  | mk hts => exact accepts_located hts.ne_nil (h hts hlen hstp)

theorem accepts_primary (hinner : AcceptsOperation inner N) (h : Operand k ts t)
    (hk : k = primaryLevel) (hlen : ts.length ≤ N) (hstp : Stops j rest) :
    Accepts (primary inner) ts t.elements rest := by
  intro last
  cases h with
  | tighter hlt _ => omega
  | @binary operator =>
    have := level_lt operator
    have : unaryLevel < primaryLevel := by decide
    omega
  | unary => exact absurd hk (by decide)
  | @parenthesized ts left right t hl h hr =>
    simp only [length_append, length_cons, length_nil] at hlen
    have hstop : Stops 0 (right :: rest) := .delimiter (by decide) hr
    refine (accepts_next left).bind ?_
    rw [hl]
    exact (hinner h (by omega) hstop).bind ((accepts_expect hr).finally rfl)
  | @literal value token htok =>
    refine (accepts_next token).bind ?_
    rw [htok]
    rfl
  | @call x ts name left right arguments hname hl hargs hr =>
    simp only [length_append, length_cons, length_nil] at hlen
    refine (accepts_next name).bind ?_
    rw [hname]
    refine (accepts_accept hl).bind ?_
    refine accepts_listing hinner.located (fun _ _ => Sentence.begins) (by decide) rfl hargs
      (by omega) hr ?_
    rw [Operation.elements, ← cons_append, extent_closed]
    rfl
  | @read x ts name indices hname hids =>
    simp only [length_cons] at hlen
    refine (accepts_next name).bind ?_
    rw [hname]
    refine accepts_absent (indices_head hids (hstp.head_ne rfl)) ?_
    exact (accepts_indices hinner.located hids (by omega) (hstp.head_ne rfl)).finally rfl

theorem accepts_sign {operator : UnaryOperator} {elements : List Element}
    {primary : Parser (List Element)} (hsign : sign.value = .mark (unaryMark operator))
    (h : Accepts (signed primary n) ts elements rest) :
    Accepts (signed primary (n + 1)) (sign :: ts) (elements ++ [.unary operator]) rest := by
  intro last
  have hsignOf : signOf (some sign.value) = some operator := by
    rw [hsign]
    cases operator <;> rfl
  refine accepts_peek ?_
  simp only [cons_append, head?_cons, Option.map_some, hsignOf]
  exact (accepts_next sign).bind (h.strictly.finally rfl)

theorem signOf_primary (h : Operand k ts t) (hk : k = primaryLevel) :
    signOf ((ts ++ rest).head?.map (·.value)) = none := by
  cases h with
  | tighter hlt _ => omega
  | @binary operator =>
    have := level_lt operator
    have : unaryLevel < primaryLevel := by decide
    omega
  | unary => exact absurd hk (by decide)
  | parenthesized hl => simp [hl, signOf]
  | literal htok => simp [htok, signOf]
  | call hname => simp [hname, signOf]
  | read hname => simp [hname, signOf]

theorem accepts_signed (hinner : AcceptsOperation inner N) :
    ∀ {k : Nat} {ts : Tokens} {t : Operation}, Operand k ts t → k = unaryLevel →
      ∀ {n : Nat}, ts.length ≤ n → ts.length ≤ N → Stops j rest →
      Accepts (signed (primary inner) n) ts t.elements rest
  | _, ts, t, .tighter hlt h, hk, n, hn, hlen, hstp => by
    have hk' : _ + 1 = primaryLevel := congrArg (· + 1) hk
    cases n with
    | zero => exact absurd (eq_nil_of_length_eq_zero (Nat.le_zero.1 hn)) h.ne_nil
    | succ n =>
      intro last
      refine accepts_peek ?_
      rw [signOf_primary h hk']
      exact accepts_primary hinner h hk' hlen hstp last
  | _, _, _, @Operand.binary operator _ _ _ _ _ _ hlevel _ _ _, hk, _, _, _, _ => by
    have := level_lt operator
    omega
  | _, _, _, .unary hsign h, hk, n, hn, hlen, hstp => by
    simp only [length_cons] at hn hlen
    cases n with
    | zero => omega
    | succ n =>
      exact accepts_sign hsign (accepts_signed hinner h rfl (by omega) (by omega) hstp)
  | _, _, _, .parenthesized _ _ _, hk, _, _, _, _ => absurd hk (by decide)
  | _, _, _, .literal _, hk, _, _, _, _ => absurd hk (by decide)
  | _, _, _, .call _ _ _ _, hk, _, _, _, _ => absurd hk (by decide)
  | _, _, _, .read _ _, hk, _, _, _, _ => absurd hk (by decide)

/-- What is left of a level behind its first operand. -/
def resume (operand : Parser (List Element)) (k : Nat) (left : List Element) (m : Nat) :
    Parser (List Element) :=
  match levels.drop k with
  | level :: tighter => operandRest (leveled operand tighter) level m left
  | [] => pure left

/-- Running `p` over the tokens `ts` is going on with `q` behind them. -/
def Continues (p : Parser α) (ts : Tokens) (q : Nat → Parser α) (rest : Tokens) : Prop :=
  ∀ last, ∃ m, rest.length < m ∧ p.run ⟨ts ++ rest, last⟩ = (q m).run ⟨rest, lastOf last ts⟩

theorem drop_levels (hk : k < levels.length) : levels.drop k = levels[k] :: levels.drop (k + 1) :=
  drop_eq_getElem_cons hk

theorem resume_eq (operand : Parser (List Element)) (hk : k < levels.length) (left : List Element)
    (m : Nat) : resume operand k left m =
      operandRest (leveled operand (levels.drop (k + 1))) levels[k] m left := by
  rw [resume, drop_levels hk]

theorem Continues.accepts {elements : List Element}
    (h : Continues (leveled operand (levels.drop k)) ts (resume operand k elements) rest)
    (hstp : Stops k rest) : Accepts (leveled operand (levels.drop k)) ts elements rest := by
  intro last
  obtain ⟨m, hm, hrun⟩ := h last
  obtain ⟨m, rfl⟩ : ∃ n, m = n + 1 := ⟨m - 1, by omega⟩
  rw [AcceptsFrom, hrun]
  by_cases hk : k < levels.length
  · rw [resume_eq operand hk]
    refine run_then (run_peek _) ?_
    rw [hstp.operatorIn hk]
    rfl
  · simp only [resume, drop_eq_nil_of_le (Nat.le_of_not_lt hk)]
    rfl

theorem Accepts.continues {elements : List Element} (hk : k < levels.length)
    (h : Accepts (leveled operand (levels.drop (k + 1))) ts elements rest) :
    Continues (leveled operand (levels.drop k)) ts (resume operand k elements) rest := by
  intro last
  refine ⟨rest.length + 1, by omega, ?_⟩
  rw [drop_levels hk, resume_eq operand hk]
  refine run_then (h last) ?_
  exact run_then (accepts_bound _) rfl

theorem Continues.binary {operator : BinaryOperator} {left right : Operation}
    (hk : k < levels.length) (hlevel : level operator = k)
    (hsign : sign.value = .mark (binaryMark operator))
    (hl : Continues (leveled operand (levels.drop k)) xs
      (resume operand k left.elements) (sign :: (ys ++ rest)))
    (hr : Accepts (leveled operand (levels.drop (k + 1))) ys right.elements rest) :
    Continues (leveled operand (levels.drop k)) (xs ++ sign :: ys)
      (resume operand k (Operation.binary operator left right).elements) rest := by
  intro last
  obtain ⟨m, hm, hrun⟩ := hl last
  simp only [length_cons, length_append] at hm
  obtain ⟨m, rfl⟩ : ∃ n, m = n + 1 := ⟨m - 1, by omega⟩
  refine ⟨m, by omega, ?_⟩
  have hopr : operatorIn levels[k] (some sign.value) = some operator := by
    subst hlevel
    rw [hsign]
    exact (lookup_level operator).2
  simp only [resume_eq operand hk] at hrun ⊢
  rw [append_assoc, cons_append, hrun, operandRest]
  refine run_then (run_peek _) ?_
  simp only [head?_cons, Option.map_some, hopr]
  refine run_then (accepts_next sign _) ?_
  refine run_then (hr.strictly _) ?_
  simp only [Operation.elements_binary, lastOf, lastOf_append]

theorem continues_operand (hinner : AcceptsOperation inner N) :
    ∀ {k : Nat} {ts : Tokens} {t : Operation}, Operand k ts t → k ≤ unaryLevel →
      ts.length ≤ n → ts.length ≤ N → ∀ {rest : Tokens}, Stops (k + 1) rest →
      Continues (leveled (signed (primary inner) n) (levels.drop k)) ts
        (resume (signed (primary inner) n) k t.elements) rest
  | k, ts, t, h, hk, hn, hlen, rest, hstp => by
    by_cases hunary : k = unaryLevel
    · -- the operators of this level stand in front of their operand
      subst hunary
      intro last
      exact ⟨rest.length + 1, by omega, accepts_signed hinner h rfl hn hlen hstp last⟩
    · have hlt : k < levels.length := by
        have : levels.length = unaryLevel := rfl
        omega
      match k, ts, t, h with
      | k, ts, t, .tighter _ h =>
        exact ((continues_operand hinner h (by omega) hn hlen
          (hstp.mono (by omega))).accepts hstp).continues hlt
      | k, _, _, @Operand.binary operator _ xs ys sign left right hlevel hl hsign hr =>
        simp only [length_append, length_cons] at hn hlen
        have hstop : Stops (k + 1) (sign :: (ys ++ rest)) := .operator (by omega) hsign
        exact .binary hlt hlevel hsign (continues_operand hinner hl hk (by omega) (by omega) hstop)
          ((continues_operand hinner hr (by omega) (by omega) (by omega)
            (hstp.mono (by omega))).accepts hstp)
      | _, _, _, .unary _ _ => exact absurd rfl hunary
      | _, _, _, .parenthesized _ _ _ => exact absurd hk (by decide)
      | _, _, _, .literal _ => exact absurd hk (by decide)
      | _, _, _, .call _ _ _ _ => exact absurd hk (by decide)
      | _, _, _, .read _ _ => exact absurd hk (by decide)

end Operands

theorem accepts_elements (depth : Nat) : AcceptsOperation (elements depth) depth := by
  induction depth with
  | zero => exact fun _ _ _ _ hlen => absurd hlen (Nat.not_lt_zero _)
  | succ depth ih =>
    intro ts t rest h hlen hstp last
    refine accepts_bound.bind ?_
    refine Continues.accepts (continues_operand ih h (Nat.zero_le _) ?_ (by omega)
      (hstp.mono (by omega))) hstp last
    simp only [length_append]
    omega

theorem accepts_expr (depth : Nat) : AcceptsExpr (expr depth) depth :=
  (accepts_elements depth).located

/-! ## Declarations -/

theorem accepts_initializer {p : Parser Expr} {N : Nat} (hp : AcceptsExpr p N) (depth : Nat)
    (hdepth : depth ≤ N) : ∀ ⦃ts i rest⦄, Initial ts i → ts.length < depth → Stops 0 rest →
      Accepts (initializer p depth) ts i rest := by
  induction depth with
  | zero => exact fun _ _ _ _ hlen => absurd hlen (Nat.not_lt_zero _)
  | succ depth ih =>
    intro ts i rest h hlen hstp last
    cases h with
    | expr h =>
      obtain ⟨x, xs, rfl, -⟩ := h.begins
      refine accepts_here (accepts_absent (h.begins.append.head_ne rfl) ?_)
      exact (hp h (by omega) hstp).finally rfl
    | @list ts left right items hl hitems hr =>
      simp only [length_append, length_cons, length_nil] at hlen
      refine accepts_here ((accepts_accept hl).bind ?_)
      refine accepts_listing (ih (by omega)) (fun _ _ => Initial.begins) (by decide) rfl hitems
        (by omega) hr ?_
      rw [extent_closed]
      rfl

theorem accepts_definition (depth : Nat) {definition' : Definition} (h : Defines ts definition')
    (hlen : ts.length < depth) (hstp : Stops 0 rest) :
    Accepts (definition depth) ts definition' rest := by
  intro last
  cases h with
  | @plain x ds name dimensions hname hdim =>
    simp only [length_cons] at hlen
    refine (accepts_identifier hname).bind ?_
    refine (accepts_indices (accepts_expr depth) hdim (by omega) (hstp.head_ne rfl)).finally ?_
    exact accepts_absent (hstp.head_ne rfl) rfl
  | @initialized x ds ts name assign dimensions i hname hdim hasg hini =>
    simp only [length_append, length_cons] at hlen
    have hopen : ∀ y ∈ (assign :: (ts ++ rest)).head?, y.value ≠ .mark .openSquare :=
      head_ne hasg nofun
    have hval := accepts_initializer (accepts_expr depth) depth (Nat.le_refl _) hini (by omega) hstp
    refine (accepts_identifier hname).bind ?_
    refine (accepts_indices (accepts_expr depth) hdim (by omega) hopen).bind ?_
    refine (accepts_accept hasg).bind ?_
    simp only [if_true, map_eq_pure_bind, bind_assoc, pure_bind]
    exact hval.finally rfl

theorem accepts_declaration (depth : Nat) (rest : Tokens) {declaration' : Declaration}
    (h : Declares ts declaration') (hlen : ts.length < depth) :
    Accepts (declaration depth) ts declaration' rest := by
  have hdefinitions : ∀ {ts : Tokens} {definitions : List Definition} {semicolon : Located Token},
      Separated Defines ts definitions → ts.length < depth →
      semicolon.value = .mark .semicolon →
      Accepts (commaSeparated (definition depth)) ts definitions (semicolon :: rest) :=
    fun hdefs hlen hsemi => accepts_commaSeparated (fun _ _ _ => accepts_definition depth) hdefs
      hlen (.delimiter (by decide) hsemi) (head_ne hsemi nofun)
  intro last
  cases h with
  | @ordinary ts type semicolon definitions htype hdefs hsemi =>
    simp only [length_append, length_cons, length_nil] at hlen
    refine accepts_absent (head_ne htype nofun) ((accepts_expect htype).bind ?_)
    exact (hdefinitions hdefs (by omega) hsemi).bind ((accepts_expect hsemi).finally rfl)
  | @constant ts const type semicolon definitions hconst htype hdefs hsemi =>
    simp only [length_append, length_cons, length_nil] at hlen
    refine (accepts_accept hconst).bind ((accepts_expect htype).bind ?_)
    exact (hdefinitions hdefs (by omega) hsemi).bind ((accepts_expect hsemi).finally rfl)

/-! ## Statements -/

theorem accepts_condition (depth : Nat) {e : Expr} {left : Located Token}
    (hl : left.value = .mark .openParen) (h : Sentence ts e) (hr : right.value = .mark .closeParen)
    (hlen : ts.length < depth) : Accepts (condition depth) (left :: (ts ++ [right])) e rest := by
  intro last
  have hstop : Stops 0 (right :: rest) := .delimiter (by decide) hr
  refine (accepts_expect hl).bind ?_
  exact (accepts_expr depth h hlen hstop).bind ((accepts_expect hr).finally rfl)

theorem accepts_target (depth : Nat) {x : String} {name assign : Located Token}
    {indices : List Expr} (hname : name.value = .identifier x) (h : Repeated Index is indices)
    (hasg : assign.value = .mark .assign) (hlen : is.length ≤ depth) :
    Accepts (target depth) (name :: (is ++ [assign]))
      ⟨⟨⟨x, name.location⟩, indices⟩, extent (name :: is)⟩ rest := by
  intro last
  have hopen : ∀ y ∈ (assign :: rest).head?, y.value ≠ .mark .openSquare := head_ne hasg nofun
  refine (accepts_identifier hname).bind ?_
  refine (accepts_indices (accepts_expr depth) h hlen hopen).bind (accepts_since ?_)
  exact (accepts_expect hasg).finally rfl

theorem accepts_targetless {depth : Nat} {e : Expr} {f : Option (Located Place) → Parser β}
    (h : Sentence ts e) (hsemi : semicolon.value = .mark .semicolon)
    (hf : AcceptsFrom last (f none) (ts ++ [semicolon]) c rest) :
    AcceptsFrom last (attempt (target depth) >>= f) (ts ++ [semicolon]) c rest := by
  refine run_then ?_ hf
  cases htgt : (target depth).run ⟨ts ++ [semicolon] ++ rest, last⟩ with
  | error failure =>
    simp only [StateT.run] at htgt ⊢
    rw [attempt, htgt]
  | ok result =>
    obtain ⟨name, x, is, indices, assign, htook, hx, his, hasg, -⟩ := reads_target depth htgt
    have hcut : ts ++ semicolon :: rest = (name :: is) ++ assign :: result.2.tokens := by
      simpa using htook.tokens
    have heq : semicolon = assign :=
      h.plain.cut (.cons hx rfl (plain_repeated his)) (by rw [hsemi]; rfl) (by rw [hasg]; rfl) hcut
    rw [← heq, hsemi] at hasg
    cases hasg

theorem accepts_assignment (depth : Nat) {x : String} {name assign : Located Token}
    {indices : List Expr} (hname : name.value = .identifier x) (hids : Repeated Index is indices)
    (hasg : assign.value = .mark .assign) (hval : Sentence ts value)
    (hsemi : semicolon.value = .mark .semicolon) (his : is.length ≤ depth) (hts : ts.length < depth) :
    Accepts (simpleStatement depth) (name :: (is ++ assign :: (ts ++ [semicolon])))
      (.assign ⟨⟨x, name.location⟩, indices⟩ (extent (name :: is)) value) rest := by
  intro last
  have hstop : Stops 0 (semicolon :: rest) := .delimiter (by decide) hsemi
  rw [append_cons, ← cons_append]
  refine (accepts_target depth hname hids hasg his).attempt.bind ?_
  exact (accepts_expr depth hval hts hstop).bind ((accepts_expect hsemi).finally rfl)

theorem accepts_expression (depth : Nat) (hval : Sentence ts value)
    (hsemi : semicolon.value = .mark .semicolon) (hts : ts.length < depth) :
    Accepts (simpleStatement depth) (ts ++ [semicolon]) (.expr value) rest := by
  intro last
  have hstop : Stops 0 (semicolon :: rest) := .delimiter (by decide) hsemi
  refine accepts_targetless hval hsemi ?_
  exact (accepts_expr depth hval hts hstop).bind ((accepts_expect hsemi).finally rfl)

/-- A parser that takes every statement of fewer than `N` tokens, if no `else` behind it could be
its own. -/
def AcceptsStatement (p : Parser Statement) (N : Nat) : Prop :=
  ∀ ⦃ts s rest⦄, States ts s → s.ElseNearest → ts.length < N →
    (s.endsOpen = true → ∀ x ∈ rest.head?, x.value ≠ .keyword .else) → Accepts p ts s rest

theorem sequence_head (rest : Tokens) (h : Sequence ts b) (hr : right.value = .mark .closeCurly) :
    ∀ x ∈ (ts ++ [right] ++ rest).head?, x.value ≠ .keyword .else := by
  cases h with
  | nil => exact head_ne hr nofun
  | declaration head _ => exact head.begins.append.append.append.head_ne rfl
  | statement head _ => exact head.begins.append.append.append.head_ne rfl

theorem accepts_blockRest_declaration {m : Nat} {p : Parser Statement}
    (h : Begins startsDeclaration ts)
    (hf : AcceptsFrom last (do
      let item ← declaration depth
      return Block.declaration item (← blockRest depth p m)) ts b rest) :
    AcceptsFrom last (blockRest depth p (m + 1)) ts b rest := by
  refine accepts_absent (h.append.head_ne rfl) (accepts_peek ?_)
  obtain ⟨x, xs, rfl, hx⟩ := h
  rw [cons_append, head?_cons, Option.map_some]
  rcases startsDeclaration_iff.1 hx with hx | hx
  · rw [hx]
    exact hf
  · rw [hx]
    exact hf

theorem accepts_blockRest_statement {m : Nat} {p : Parser Statement}
    (h : Begins startsStatement ts)
    (hf : AcceptsFrom last (do
      let item ← p
      return Block.statement item (← blockRest depth p m)) ts b rest) :
    AcceptsFrom last (blockRest depth p (m + 1)) ts b rest := by
  refine accepts_absent (h.append.head_ne rfl) (accepts_peek ?_)
  have hne : ∀ token, startsStatement token = false →
      (ts ++ rest).head?.map (·.value) ≠ some token := by
    intro token htok heq
    obtain ⟨x, hx, hvalue⟩ := Option.map_eq_some_iff.1 heq
    exact h.append.head_ne htok x hx hvalue
  split
  · next heq => exact absurd heq (hne _ rfl)
  · next heq => exact absurd heq (hne _ rfl)
  · exact hf

theorem accepts_blockRest {depth N : Nat} (hdepth : N ≤ depth) {p : Parser Statement}
    (hp : AcceptsStatement p N) {right : Located Token} (hr : right.value = .mark .closeCurly) :
    ∀ {ts : Tokens} {b : Block}, Sequence ts b → b.ElseNearest → ts.length < N →
      ∀ m, ts.length + rest.length + 1 < m → Accepts (blockRest depth p m) (ts ++ [right]) b rest
  | _, _, .nil, _, _, m, hm => by
    obtain ⟨m, rfl⟩ : ∃ n, m = n + 1 := ⟨m - 1, by omega⟩
    exact fun last => (accepts_accept hr).finally rfl
  | _, _, @Sequence.declaration ds ts _ _ head tail, hnear, hlen, m, hm => by
    obtain ⟨m, rfl⟩ : ∃ n, m = n + 1 := ⟨m - 1, by omega⟩
    intro last
    have hpos := head.begins.length_pos
    simp only [length_append] at hlen hm
    have hrest := accepts_blockRest hdepth hp hr tail hnear (by omega) m (by omega)
    have hitem := accepts_declaration depth (ts ++ [right] ++ rest) head (by omega)
    rw [append_assoc]
    exact accepts_blockRest_declaration head.begins.append (hitem.bind (hrest.finally rfl))
  | _, _, @Sequence.statement ss ts s b head tail, hnear, hlen, m, hm => by
    obtain ⟨m, rfl⟩ : ∃ n, m = n + 1 := ⟨m - 1, by omega⟩
    intro last
    have hpos := head.begins.length_pos
    simp only [length_append] at hlen hm
    have hrest := accepts_blockRest hdepth hp hr tail hnear.2 (by omega) m (by omega)
    have hitem := hp head hnear.1 (by omega) fun _ => sequence_head rest tail hr
    rw [append_assoc]
    exact accepts_blockRest_statement head.begins.append (hitem.bind (hrest.finally rfl))

theorem accepts_block (rest : Tokens) {N : Nat} (hdepth : N ≤ depth) {p : Parser Statement}
    (hp : AcceptsStatement p N) (h : Braces ts b) (hnear : b.ElseNearest) (hlen : ts.length ≤ N) :
    Accepts (block depth p) ts b rest := by
  intro last
  cases h with
  | @mk ts left right b hl hbody hr =>
    simp only [length_append, length_cons, length_nil] at hlen
    refine (accepts_expect hl).bind (accepts_bound.bind ?_)
    refine accepts_blockRest hdepth hp hr hbody hnear (by omega) _ ?_ _
    simp

/-- What a parser does can depend on the token ahead. -/
theorem accepts_ahead {f : Location → Option Token → Parser β} (hx : x.value = token)
    (hf : AcceptsFrom last (f x.location (some token)) (x :: ts) c rest) :
    AcceptsFrom last (do f (← here) (← peek)) (x :: ts) c rest := by
  subst hx
  exact hf

theorem accepts_simple {n : Nat} {s : Statement} (h : Begins startsExpression ts)
    (hs : Accepts (simpleStatement depth) ts s rest) :
    Accepts (statement depth (n + 1)) ts s rest := by
  intro last
  obtain ⟨x, xs, rfl, hx⟩ := h
  have hne : ∀ token, startsExpression token = false → some x.value ≠ some token := by
    rintro token htok heq
    rw [← Option.some.inj heq, hx] at htok
    cases htok
  refine accepts_ahead rfl ?_
  split
  iterate 7 next heq => exact absurd heq (hne _ rfl)
  exact hs last

theorem accepts_statement (n : Nat) (hdepth : n ≤ depth) :
    AcceptsStatement (statement depth n) n := by
  induction n with
  | zero => exact fun _ _ _ _ _ hlen => absurd hlen (Nat.not_lt_zero _)
  | succ n ih =>
    intro ts s rest h hnear hlen helse
    have ih := ih (by omega)
    cases h with
    | assign hname hids hasg hval hsemi =>
      simp only [length_append, length_cons, length_nil] at hlen
      refine accepts_simple (begins hname rfl) ?_
      exact accepts_assignment depth hname hids hasg hval hsemi (by omega) (by omega)
    | expr hval hsemi =>
      simp only [length_append, length_cons, length_nil] at hlen
      exact accepts_simple hval.begins.append (accepts_expression depth hval hsemi (by omega))
    | empty hsemi =>
      exact fun last => accepts_ahead hsemi ((accepts_next _).finally rfl)
    | block h =>
      have hbody := accepts_block rest (Nat.le_of_succ_le hdepth) ih h hnear (by omega)
      cases h with
      | mk hl _ _ => exact fun last => accepts_ahead hl (hbody.finally rfl)
    | @ifThen cs ts keyword left right condition yes hkw hl hcond hr hyes =>
      intro last
      simp only [length_append, length_cons] at hlen
      rw [append_cons, ← cons_append]
      refine accepts_ahead hkw ((accepts_next keyword).bind ?_)
      refine (accepts_condition depth hl hcond hr (by omega)).bind ?_
      refine (ih hyes hnear (by omega) fun _ => helse rfl).finally ?_
      exact accepts_absent (helse rfl) rfl
    | @ifElse cs ts us keyword left right other condition yes no hkw hl hcond hr
        hyes hoth hno =>
      intro last
      obtain ⟨hclo, hyesnear, hnnr⟩ := hnear
      simp only [length_append, length_cons] at hlen
      rw [append_cons, ← cons_append]
      refine accepts_ahead hkw ((accepts_next keyword).bind ?_)
      refine (accepts_condition depth hl hcond hr (by omega)).bind ?_
      refine (ih hyes hyesnear (by omega) (by simp [hclo])).bind ?_
      exact (accepts_accept hoth).bind ((ih hno hnnr (by omega) helse).finally rfl)
    | @«while» cs ts keyword left right condition body hkw hl hcond hr hbody =>
      intro last
      simp only [length_append, length_cons] at hlen
      rw [append_cons, ← cons_append]
      refine accepts_ahead hkw ((accepts_next keyword).bind ?_)
      refine (accepts_condition depth hl hcond hr (by omega)).bind ?_
      exact (ih hbody hnear (by omega) helse).finally rfl
    | «break» hkw hsemi =>
      intro last
      refine accepts_ahead hkw ((accepts_next _).bind ?_)
      exact (accepts_expect hsemi).finally rfl
    | «continue» hkw hsemi =>
      intro last
      refine accepts_ahead hkw ((accepts_next _).bind ?_)
      exact (accepts_expect hsemi).finally rfl
    | returnNothing hkw hsemi =>
      intro last
      refine accepts_ahead hkw ((accepts_next _).bind ?_)
      exact (accepts_accept hsemi).finally rfl
    | @returnValue ts keyword semicolon value hkw hval hsemi =>
      intro last
      simp only [length_append, length_cons, length_nil] at hlen
      have hstop : Stops 0 (semicolon :: rest) := .delimiter (by decide) hsemi
      rw [extent_closed]
      refine accepts_ahead hkw ((accepts_next keyword).bind ?_)
      refine accepts_absent (hval.begins.append.append.head_ne rfl) ?_
      exact (accepts_expr depth hval (by omega) hstop).bind ((accepts_expect hsemi).finally rfl)

/-! ## Programs -/

theorem accepts_parameter (depth : Nat) {p : Parameter} (h : Takes ts p)
    (hlen : ts.length < depth) (hstp : Stops 0 rest) : Accepts (parameter depth) ts p rest := by
  intro last
  cases h with
  | @scalar x type name htype hname =>
    refine ((accepts_expect htype).failing true).bind ((accepts_identifier hname).bind ?_)
    exact accepts_absent (hstp.head_ne rfl) rfl
  | @array x ds type name left right dimensions htype hname hl hr hdim =>
    simp only [length_cons] at hlen
    refine ((accepts_expect htype).failing true).bind ((accepts_identifier hname).bind ?_)
    refine (accepts_accept hl).bind ((accepts_expect hr).bind ?_)
    exact (accepts_indices (accepts_expr depth) hdim (by omega) (hstp.head_ne rfl)).finally rfl

theorem accepts_parameterless (depth : Nat) (hr : right.value = .mark .closeParen) :
    Accepts (optionally (parameter depth)) [] none (right :: rest) := by
  intro last
  have hne : right.value ≠ .keyword .int := by
    rw [hr]
    nofun
  obtain ⟨failure, hfailure⟩ := run_expect_ne hne
  exact run_optionally_weakly hfailure

theorem functionAhead_eq {x : String} {type name left : Located Token}
    (htype : type.value = .keyword (returnKeyword returns)) (hname : name.value = .identifier x)
    (hl : left.value = .mark .openParen) :
    functionAhead (type :: name :: left :: rest) = some returns := by
  cases returns <;> simp [functionAhead, htype, hname, hl, returnKeyword]

theorem functionAhead_declaration {declaration : Declaration} (h : Declares ts declaration) :
    functionAhead (ts ++ rest) = none := by
  cases h with
  | @ordinary ts type semicolon definitions htype hdefs hsemi =>
    have hsnd : ∀ x ∈ (semicolon :: rest).head?, x.value ≠ .mark .openParen := head_ne hsemi nofun
    obtain ⟨name, vs, heq, hvs⟩ := definitions_head hdefs hsnd
    rw [cons_append, append_assoc, singleton_append, heq]
    cases vs with
    | nil => rfl
    | cons third vs =>
      have hthird := hvs third rfl
      simp only [functionAhead]
      split <;> simp_all
  | constant hconst htype hdefs hsemi =>
    simp only [functionAhead, cons_append]
    split
    · split <;> simp_all
    · rfl

theorem accepts_function {x : String} {ps bs : Tokens} {type name left : Located Token}
    {parameters : List Parameter} {body : Block}
    (htype : type.value = .keyword (returnKeyword returns)) (hname : name.value = .identifier x)
    (hl : left.value = .mark .openParen) (hpars : Listing Takes ps parameters)
    (hr : right.value = .mark .closeParen) (hbody : Braces bs body) (hnear : body.ElseNearest)
    (hlen : (type :: name :: left :: (ps ++ right :: bs)).length < depth) :
    Accepts (item depth) (type :: name :: left :: (ps ++ right :: bs))
      (.function ⟨returns, ⟨x, name.location⟩, parameters, body⟩) rest := by
  intro last
  simp only [length_append, length_cons] at hlen
  have hstop : Stops 0 (right :: (bs ++ rest)) := .delimiter (by decide) hr
  have hlist := accepts_commaSeparatedOrEmpty (fun _ _ _ => accepts_parameter depth) hpars
    (by omega) hstop (head_ne hr nofun) (accepts_parameterless depth hr)
  have hblk := accepts_block rest (Nat.le_refl depth) (accepts_statement depth (Nat.le_refl depth))
    hbody hnear (by omega)
  refine accepts_get ?_
  simp only [cons_append, functionAhead_eq htype hname hl, function, bind_assoc]
  refine (accepts_next type).bind ((accepts_identifier hname).bind ?_)
  refine (accepts_expect hl).bind (hlist.bind ?_)
  exact (accepts_expect hr).bind (hblk.finally rfl)

theorem accepts_item (depth : Nat) (rest : Tokens) {item' : Item} (h : NearestPart ts item')
    (hlen : ts.length < depth) : Accepts (item depth) ts item' rest := by
  obtain ⟨h, hnear⟩ := h
  cases h with
  | declaration h =>
    intro last
    refine accepts_get ?_
    simp only [functionAhead_declaration h]
    exact (accepts_declaration depth rest h hlen).finally rfl
  | function htype hname hl hpars hr hbody =>
    exact accepts_function htype hname hl hpars hr hbody (hnear _ rfl) hlen

theorem accepts_itemRest {items : List Item} (h : Repeated NearestPart ts items)
    (hlen : ts.length < depth) : ∀ m, ts.length < m → Accepts (itemRest depth m) ts items [] := by
  induction h with
  | nil =>
    intro m hm last
    obtain ⟨m, rfl⟩ : ∃ n, m = n + 1 := ⟨m - 1, by omega⟩
    rfl
  | @cons xs ys item items head tail ih =>
    intro m hm last
    obtain ⟨m, rfl⟩ : ∃ n, m = n + 1 := ⟨m - 1, by omega⟩
    simp only [length_append] at hlen hm
    have hpos := head.1.length_pos
    have hitem := accepts_item depth (ys ++ []) head (by omega)
    have hrest := ih (by omega) m (by omega)
    have hsome : ((xs ++ ys ++ []).head?.map Located.value).isNone = false := by
      cases xs with
      | nil => cases hpos
      | cons => rfl
    refine accepts_peek ?_
    simp only [hsome]
    exact hitem.bind (hrest.finally rfl)

theorem ofTokens_of_whole {program : Program} (h : Whole ts program)
    (hnear : program.ElseNearest) : Program.ofTokens ts = .ok program := by
  cases h with
  | @mk items h =>
    have hitems := accepts_itemRest (repeated_parts h hnear) (Nat.lt_succ_self _) _
      (Nat.lt_succ_self _)
    have hprog : AcceptsFrom .unknown Parser.program ts ⟨items, lastOf .unknown ts⟩ [] := by
      refine accepts_bound.bind ?_
      rw [append_nil]
      exact hitems.finally rfl
    rw [AcceptsFrom, append_nil] at hprog
    rw [Program.ofTokens, hprog]

end Parser

open Grammar

/-- Reading accepts exactly what derives from the grammar, and gives the tree of the derivation, the
one with every `else` at the nearest `if`. -/
theorem Program.reads_exactly_derivations (tokens : Tokens) :
    (∀ program, Program.ofTokens tokens = .ok program ↔
      Whole tokens program ∧ program.ElseNearest) ∧
    ((∃ program, Program.ofTokens tokens = .ok program) ↔ ∃ program, Whole tokens program) := by
  have hread : ∀ program, Program.ofTokens tokens = .ok program ↔
      Whole tokens program ∧ program.ElseNearest := by
    intro program
    constructor
    · exact Parser.whole_of_ofTokens
    · rintro ⟨h, hnear⟩
      exact Parser.ofTokens_of_whole h hnear
  refine ⟨hread, ?_, ?_⟩
  · rintro ⟨program, hprogram⟩
    exact ⟨program, ((hread program).1 hprogram).1⟩
  · rintro ⟨program, hprogram⟩
    obtain ⟨nearest, hnearest⟩ := hprogram.nearest
    exact ⟨nearest, (hread nearest).2 hnearest⟩

end SysY.Tree

import SysY.Proofs.Bind
import SysY.Proofs.Tree.Derivations
import SysY.Proofs.Tree.Postfix

/-!
# What a parser reads

A parser that succeeds has taken tokens that the grammar allows, and gives their tree. `Reads` says
this of every parser, by the order in which it takes its tokens.
-/

namespace SysY.Tree.Parser

open Grammar List

variable {α β : Type} {c c' c1 c2 : Cursor} {ts xs ys tokens : Tokens}
  {operand : Parser (List Element)} {token : Option Token} {returns : ReturnType} {start : Location}

/-! ## Taking tokens -/

/-- Tokens were taken between two places. -/
structure Took (c : Cursor) (ts : Tokens) (c' : Cursor) : Prop where
  tokens : c.tokens = ts ++ c'.tokens
  last : c'.last = lastOf c.last ts

theorem lastOf_append (last : Location) (xs ys : Tokens) :
    lastOf last (xs ++ ys) = lastOf (lastOf last xs) ys := by
  induction xs generalizing last with
  | nil => rfl
  | cons x xs ih => exact ih x.location

theorem Took.refl (c : Cursor) : Took c [] c := ⟨rfl, rfl⟩

theorem Took.trans (h1 : Took c xs c1) (h2 : Took c1 ys c') : Took c (xs ++ ys) c' :=
  ⟨by rw [h1.tokens, h2.tokens, append_assoc], by rw [h2.last, h1.last, lastOf_append]⟩

variable {x : Located Token} {p : Parser α} {a : α} {t : Token}

theorem Took.span_here (h : Took c (x :: xs) c') :
    Location.span x.location c'.last = extent (x :: xs) := by
  rw [h.last]
  rfl

/-- A parser that takes what a rule allows and gives its tree. -/
def Reads (p : Parser α) (rule : Tokens → α → Prop) : Prop :=
  ∀ ⦃c a c'⦄, p.run c = .ok (a, c') → ∃ ts, Took c ts c' ∧ rule ts a

/-! ## Single tokens -/

variable {f : α → Parser β} {b : β}

theorem run_bind (h : (p >>= f).run c = .ok (b, c')) :
    ∃ a c1, p.run c = .ok (a, c1) ∧ (f a).run c1 = .ok (b, c') := by
  obtain ⟨⟨a, c1⟩, hp, hf⟩ := bind_eq_ok.1 h
  exact ⟨a, c1, hp, hf⟩

theorem run_map {f : α → β} (h : (f <$> p).run c = .ok (b, c')) :
    ∃ a, p.run c = .ok (a, c') ∧ f a = b := by
  obtain ⟨⟨a, c1⟩, hp, hf⟩ := bind_eq_ok.1 h
  cases hf
  exact ⟨a, hp, rfl⟩

theorem of_pure {b : α} (h : (pure a : Parser α).run c = .ok (b, c')) : a = b ∧ c = c' := by
  cases h
  exact ⟨rfl, rfl⟩

theorem of_fail {error : GrammarError} (h : (fail error : Parser α).run c = .ok (a, c')) :
    False := by
  cases h

/-- The location of the next token, or of the last one at the end. -/
def Cursor.ahead (c : Cursor) : Location :=
  match c.tokens with
  | [] => c.last
  | token :: _ => token.location

theorem Took.ahead_eq (h : Took c (x :: xs) c') :
    Cursor.ahead c = x.location := by
  rw [Cursor.ahead, h.tokens]
  rfl

theorem bind_pure (h : (pure a >>= f).run c = .ok (b, c')) : (f a).run c = .ok (b, c') := h

theorem bind_peek {f : Option Token → Parser β} (h : (peek >>= f).run c = .ok (b, c')) :
    ∃ ahead, c.tokens.head?.map (·.value) = ahead ∧ (f ahead).run c = .ok (b, c') := ⟨_, rfl, h⟩

theorem bind_here {f : Location → Parser β} (h : (here >>= f).run c = .ok (b, c')) :
    (f (Cursor.ahead c)).run c = .ok (b, c') := h

theorem bind_since {f : Location → Parser β} (h : (since start >>= f).run c = .ok (b, c')) :
    (f (.span start c.last)).run c = .ok (b, c') := h

theorem of_since {g : Location → β} (h : (since start >>= fun l => pure (g l)).run c = .ok (b, c')) :
    g (.span start c.last) = b ∧ c = c' := of_pure (bind_since h)

theorem bind_bound {f : Nat → Parser β} (h : (bound >>= f).run c = .ok (b, c')) :
    ∃ n, (f n).run c = .ok (b, c') := ⟨_, h⟩

theorem bind_next {f : Located Token → Parser β} (h : (next >>= f).run c = .ok (b, c')) :
    ∃ x c1, Took c [x] c1 ∧ (f x).run c1 = .ok (b, c') := by
  obtain ⟨x, c1, hnxt, h⟩ := run_bind h
  obtain ⟨tokens, last⟩ := c
  cases tokens with
  | nil => cases hnxt
  | cons token rest =>
    cases hnxt
    exact ⟨x, _, ⟨rfl, rfl⟩, h⟩

theorem bind_accept {f : Bool → Parser β} (h : (accept t >>= f).run c = .ok (b, c')) :
    (∃ x c1, x.value = t ∧ Took c [x] c1 ∧ (f true).run c1 = .ok (b, c')) ∨
      (∀ x ∈ c.tokens.head?, x.value ≠ t) ∧ (f false).run c = .ok (b, c') := by
  obtain ⟨accepted, c1, haccept, h⟩ := run_bind h
  obtain ⟨tokens, last⟩ := c
  cases tokens with
  | nil =>
    cases haccept
    exact .inr ⟨nofun, h⟩
  | cons x rest =>
    by_cases hx : x.value = t
    · simp [accept, hx] at haccept
      cases haccept
      exact .inl ⟨x, _, hx, ⟨rfl, rfl⟩, h⟩
    · simp [accept, hx] at haccept
      cases haccept
      refine .inr ⟨fun y hy => ?_, h⟩
      cases hy
      exact hx

theorem of_expect {u : PUnit} (h : (expect t).run c = .ok (u, c')) :
    ∃ x, x.value = t ∧ Took c [x] c' := by
  obtain ⟨tokens, last⟩ := c
  cases tokens with
  | nil => cases h
  | cons x rest =>
    by_cases hx : x.value = t
    · simp [expect, hx] at h
      cases h
      exact ⟨x, hx, rfl, rfl⟩
    · simp [expect, hx] at h
      cases h

theorem bind_expect {f : PUnit → Parser β} (h : (expect t >>= f).run c = .ok (b, c')) :
    ∃ x c1, x.value = t ∧ Took c [x] c1 ∧ (f ⟨⟩).run c1 = .ok (b, c') := by
  obtain ⟨_, c1, hexpect, h⟩ := run_bind h
  obtain ⟨x, hx, htook⟩ := of_expect hexpect
  exact ⟨x, c1, hx, htook, h⟩

theorem bind_identifier {f : Name → Parser β} (h : (identifier >>= f).run c = .ok (b, c')) :
    ∃ x s c1, x.value = .identifier s ∧ Took c [x] c1 ∧ (f ⟨s, x.location⟩).run c1 = .ok (b, c') := by
  obtain ⟨name, c1, hname, h⟩ := run_bind h
  obtain ⟨x, c2, htook, hname⟩ := bind_next hname
  split at hname
  · rename_i s hs
    obtain ⟨rfl, rfl⟩ := of_pure hname
    exact ⟨x, s, c2, hs, htook, h⟩
  · exact (of_fail hname).elim

theorem Reads.bind {rule : Tokens → α → Prop} (hp : Reads p rule)
    (h : (p >>= f).run c = .ok (b, c')) :
    ∃ a ts c1, Took c ts c1 ∧ rule ts a ∧ (f a).run c1 = .ok (b, c') := by
  obtain ⟨a, c1, ha, h⟩ := run_bind h
  obtain ⟨ts, htook, hrule⟩ := hp ha
  exact ⟨a, ts, c1, htook, hrule, h⟩

/-! ## Loops and choices -/

variable {p : Parser α} {rule : Tokens → α → Prop}

theorem Reads.failing (h : Reads p rule) (weak : Bool) : Reads (failing weak p) rule := by
  intro c a c' hrun
  exact h (mapError_eq_ok.1 hrun)

theorem Reads.strictly (h : Reads p rule) : Reads (strictly p) rule := h.failing false

theorem reads_commaRest (h : Reads p rule) (n : Nat) {x : Tokens} (ha : rule x a) {as : List α}
    (hrun : (commaRest p n).run c = .ok (as, c')) :
    ∃ ts, Took c ts c' ∧ Separated rule (x ++ ts) (a :: as) := by
  induction n generalizing c as x a with
  | zero => exact (of_fail hrun).elim
  | succ n ih =>
    rcases bind_accept hrun with ⟨comma, c1, hcomma, htook, hrun⟩ | ⟨-, hrun⟩
    · obtain ⟨a', c2, hitem, hrun⟩ := run_bind hrun
      obtain ⟨ys, htook', ha'⟩ := h.strictly hitem
      obtain ⟨rest, c3, hrest, hrun⟩ := run_bind hrun
      obtain ⟨rfl, rfl⟩ := of_pure hrun
      obtain ⟨ts, htook'', hts⟩ := ih ha' hrest
      exact ⟨_, htook.trans (htook'.trans htook''), .cons ha hcomma hts⟩
    · obtain ⟨rfl, rfl⟩ := of_pure hrun
      refine ⟨[], .refl _, ?_⟩
      rw [append_nil]
      exact .single ha

theorem reads_commaSeparated (h : Reads p rule) : Reads (commaSeparated p) (Separated rule) := by
  intro c as c' hrun
  obtain ⟨a, xs, c1, htook, ha, hrun⟩ := h.strictly.bind hrun
  obtain ⟨n, hrun⟩ := bind_bound hrun
  obtain ⟨rest, c3, hrest, hrun⟩ := run_bind hrun
  obtain ⟨rfl, rfl⟩ := of_pure hrun
  obtain ⟨ys, htook', has⟩ := reads_commaRest h n ha hrest
  exact ⟨_, htook.trans htook', has⟩

theorem reads_commaSeparatedOrEmpty (h : Reads p rule) :
    Reads (commaSeparatedOrEmpty p) (Listing rule) := by
  intro c as c' hrun
  obtain ⟨first, c1, hfst, hrun⟩ := run_bind hrun
  cases hp : p.run c with
  | ok result =>
    have hok : (optionally p).run c = .ok (some result.1, result.2) := by
      simp only [StateT.run] at hp ⊢
      rw [optionally, hp]
    rw [hok] at hfst
    cases hfst
    obtain ⟨xs, htook, ha⟩ := h hp
    obtain ⟨n, hrun⟩ := bind_bound hrun
    obtain ⟨rest, c3, hrest, hrun⟩ := run_bind hrun
    obtain ⟨rfl, rfl⟩ := of_pure hrun
    obtain ⟨ys, htook', has⟩ := reads_commaRest h n ha hrest
    exact ⟨_, htook.trans htook', .some has⟩
  | error failure =>
    have hweak : (optionally p).run c = if failure.weak then .ok (none, c) else .error failure := by
      simp only [StateT.run] at hp ⊢
      rw [optionally, hp]
    rw [hweak] at hfst
    split at hfst <;> cases hfst
    obtain ⟨rfl, rfl⟩ := of_pure hrun
    exact ⟨[], .refl _, .none⟩

theorem Reads.bind_listing (h : Reads p rule) {close : Token} {f : List α → Parser β}
    (hrun : (do if ← accept close then pure [] >>= f else do
      let items ← commaSeparated p
      expect close
      pure items >>= f).run c = .ok (b, c')) :
    ∃ as ts right c1, Took c (ts ++ [right]) c1 ∧ Listing rule ts as ∧ right.value = close ∧
      (f as).run c1 = .ok (b, c') := by
  rcases bind_accept hrun with ⟨right, c1, hr, htook, h1⟩ | ⟨-, h1⟩
  · exact ⟨[], [], right, c1, htook, .none, hr, h1⟩
  · obtain ⟨as, ts, c2, htook, hts, h2⟩ := (reads_commaSeparated h).bind h1
    obtain ⟨right, c3, hr, htook', h3⟩ := bind_expect h2
    exact ⟨as, ts, right, c3, htook.trans htook', .some hts, hr, h3⟩

/-! ## Expressions -/

/-- Elements in the postfix order of an operand. -/
def Spelled (k : Nat) (ts : Tokens) (elements : List Element) : Prop :=
  ∃ t, Operand k ts t ∧ t.elements = elements

theorem mem_levels : ∀ k (h : k < levels.length), ∀ entry ∈ levels[k],
    binaryMark entry.2 = entry.1 ∧ level entry.2 = k := by
  decide

theorem mark_of_operatorIn {k : Nat} (hk : k < levels.length) {operator : BinaryOperator}
    (h : operatorIn levels[k] token = some operator) :
    token = some (.mark (binaryMark operator)) ∧ level operator = k := by
  unfold operatorIn at h
  split at h
  · rename_i sign
    obtain ⟨front, back, heq, -⟩ := List.lookup_eq_some_iff.1 h
    have hmem : (sign, operator) ∈ levels[k] := by
      rw [heq]
      exact mem_append_right _ mem_cons_self
    obtain ⟨hsign, hlevel⟩ := mem_levels k hk _ hmem
    exact ⟨congrArg (fun sign => some (Token.mark sign)) hsign.symm, hlevel⟩
  · cases h

theorem Took.head_value {token : Token} (h : Took c [x] c')
    (hpeek : c.tokens.head?.map (·.value) = some token) : x.value = token := by
  rw [h.tokens] at hpeek
  exact Option.some.inj hpeek

theorem reads_operandRest {k : Nat} (hk : k < levels.length) (hop : Reads operand (Spelled (k + 1)))
    (n : Nat) {left elements : List Element} (hleft : Spelled k xs left)
    (h : (operandRest operand levels[k] n left).run c = .ok (elements, c')) :
    ∃ ts, Took c ts c' ∧ Spelled k (xs ++ ts) elements := by
  induction n generalizing c left xs with
  | zero => exact (of_fail h).elim
  | succ n ih =>
    obtain ⟨ahead, hahd, h1⟩ := bind_peek h
    split at h1
    · obtain ⟨rfl, rfl⟩ := of_pure h1
      refine ⟨[], .refl _, ?_⟩
      rw [append_nil]
      exact hleft
    · rename_i operator hopr
      obtain ⟨rfl, hlevel⟩ := mark_of_operatorIn hk hopr
      obtain ⟨sign, c2, hsign, h2⟩ := bind_next h1
      obtain ⟨right, ys, c3, htook, ⟨t, ht, rfl⟩, h3⟩ := hop.strictly.bind h2
      obtain ⟨l, hl, rfl⟩ := hleft
      have hmore : Spelled k (xs ++ sign :: ys)
          (l.elements ++ (splitMarker operator ++ (t.elements ++ [.binary operator]))) :=
        ⟨_, .binary hlevel hl (hsign.head_value hahd) ht, Operation.elements_binary _ _ _⟩
      obtain ⟨ts, htook', hall⟩ := ih hmore h3
      refine ⟨_, hsign.trans (htook.trans htook'), ?_⟩
      rw [append_assoc, cons_append] at hall
      exact hall

theorem reads_leveled (hop : Reads operand (Spelled unaryLevel)) (j : Nat) (hj : j ≤ levels.length) :
    Reads (leveled operand (levels.drop (levels.length - j))) (Spelled (levels.length - j)) := by
  induction j with
  | zero => exact hop
  | succ j ih =>
    have hk : levels.length - (j + 1) < levels.length := by omega
    have hnxt : levels.length - (j + 1) + 1 = levels.length - j := by omega
    have hprimary : levels.length - (j + 1) < primaryLevel := Nat.lt_trans hk (by decide)
    rw [drop_eq_getElem_cons hk]
    intro c elements c' h
    obtain ⟨left, c1, hleft, h1⟩ := run_bind h
    rw [← hnxt] at ih
    have ih := ih (by omega)
    obtain ⟨xs, htook, l, hl, helements⟩ := ih hleft
    obtain ⟨n, h2⟩ := bind_bound h1
    obtain ⟨ys, htook', hall⟩ := reads_operandRest hk ih n ⟨l, .tighter hprimary hl, helements⟩ h2
    exact ⟨_, htook.trans htook', hall⟩

theorem mark_of_signOf {operator : UnaryOperator} (h : signOf token = some operator) :
    token = some (.mark (unaryMark operator)) := by
  unfold signOf at h
  split at h <;> cases h <;> rfl

theorem reads_signed {primary : Parser (List Element)} (hprimary : Reads primary (Spelled primaryLevel))
    (n : Nat) : Reads (signed primary n) (Spelled unaryLevel) := by
  induction n with
  | zero => exact fun c a c' h => (of_fail h).elim
  | succ n ih =>
    intro c elements c' h
    obtain ⟨ahead, hahd, h1⟩ := bind_peek h
    split at h1
    · obtain ⟨ts, htook, t, ht, helements⟩ := hprimary h1
      exact ⟨ts, htook, t, .tighter (by decide) ht, helements⟩
    · rename_i operator hopr
      obtain rfl := mark_of_signOf hopr
      obtain ⟨sign, c2, hsign, h2⟩ := bind_next h1
      obtain ⟨operand, ts, c3, htook, ⟨t, ht, rfl⟩, h3⟩ := ih.strictly.bind h2
      obtain ⟨rfl, rfl⟩ := of_pure h3
      exact ⟨_, hsign.trans htook, _, .unary (hsign.head_value hahd) ht, rfl⟩

theorem reads_located {elements : Parser (List Element)} (h : Reads elements (Spelled 0)) :
    Reads (located elements) Sentence := by
  intro c e c' hrun
  have h1 := bind_here hrun
  obtain ⟨xs, ts, c2, htook, ⟨t, ht, rfl⟩, h2⟩ := h.bind h1
  obtain ⟨rfl, rfl⟩ := of_since h2
  obtain ⟨first, rest, rfl⟩ := exists_cons_of_ne_nil (ht.ne_nil)
  rw [htook.ahead_eq, htook.span_here]
  exact ⟨_, htook, .mk ht⟩

theorem reads_indexRest {expr : Parser Expr} (h : Reads expr Sentence) (n : Nat) :
    Reads (indexRest expr n) (Repeated Index) := by
  induction n with
  | zero => exact fun c a c' h => (of_fail h).elim
  | succ n ih =>
    intro c indices c' hrun
    rcases bind_accept hrun with ⟨left, c1, hl, htook, h1⟩ | ⟨-, h1⟩
    · obtain ⟨e, ts, c2, htook1, hts, h2⟩ := h.bind h1
      obtain ⟨right, c3, hr, htook2, h3⟩ := bind_expect h2
      obtain ⟨es, us, c4, htook3, hus, h4⟩ := ih.bind h3
      obtain ⟨rfl, rfl⟩ := of_pure h4
      refine ⟨_, ((htook.trans htook1).trans htook2).trans htook3, ?_⟩
      exact .cons (.mk hl hts hr) hus
    · obtain ⟨rfl, rfl⟩ := of_pure h1
      exact ⟨[], .refl _, .nil⟩

theorem reads_indices {expr : Parser Expr} (h : Reads expr Sentence) :
    Reads (indices expr) (Repeated Index) := by
  intro c es c' hrun
  obtain ⟨n, h1⟩ := bind_bound hrun
  exact reads_indexRest h n h1

theorem reads_primary {inner : Parser (List Element)} (h : Reads inner (Spelled 0)) :
    Reads (primary inner) (Spelled primaryLevel) := by
  intro c elements c' hrun
  obtain ⟨token, c1, htok, h1⟩ := bind_next hrun
  split at h1
  · rename_i hl
    obtain ⟨xs, ts, c2, htook, ⟨t, ht, rfl⟩, h2⟩ := h.bind h1
    obtain ⟨right, c3, hr, htook', h3⟩ := bind_expect h2
    obtain ⟨rfl, rfl⟩ := of_pure h3
    exact ⟨_, htok.trans (htook.trans htook'), t, .parenthesized hl ht hr, rfl⟩
  · rename_i value hval
    obtain ⟨rfl, rfl⟩ := of_pure h1
    exact ⟨_, htok, _, .literal hval, rfl⟩
  · rename_i x hx
    rcases bind_accept h1 with ⟨left, c2, hl, htook, h2⟩ | ⟨-, h2⟩
    · obtain ⟨es, ts, right, c3, htook', hts, hr, h3⟩ := (reads_located h).bind_listing h2
      obtain ⟨rfl, rfl⟩ := of_since h3
      have hall := htok.trans (htook.trans htook')
      exact ⟨_, hall, _, .call hx hl hts hr, by rw [hall.span_here]; rfl⟩
    · obtain ⟨es, ts, c3, htook, hts, h3⟩ := (reads_indices (reads_located h)).bind h2
      obtain ⟨rfl, rfl⟩ := of_since h3
      have hall := htok.trans htook
      exact ⟨_, hall, _, .read hx hts, by rw [hall.span_here]; rfl⟩
  · cases h1

theorem reads_elements (depth : Nat) : Reads (elements depth) (Spelled 0) := by
  induction depth with
  | zero => exact fun c a c' h => (of_fail h).elim
  | succ depth ih =>
    intro c xs c' h
    obtain ⟨n, h1⟩ := bind_bound h
    exact reads_leveled (reads_signed (reads_primary ih) n) levels.length (Nat.le_refl _) h1

theorem reads_expr (depth : Nat) : Reads (expr depth) Sentence := reads_located (reads_elements depth)

/-! ## Declarations -/

theorem reads_initializer {expr : Parser Expr} (h : Reads expr Sentence) (depth : Nat) :
    Reads (initializer expr depth) Initial := by
  induction depth with
  | zero => exact fun c a c' h => (of_fail h).elim
  | succ depth ih =>
    intro c i c' hrun
    have h1 := bind_here hrun
    rcases bind_accept h1 with ⟨left, c2, hl, htook, h2⟩ | ⟨-, h2⟩
    · obtain ⟨is, ts, right, c3, htook', hts, hr, h3⟩ := ih.bind_listing h2
      obtain ⟨rfl, rfl⟩ := of_since h3
      have hall := htook.trans htook'
      rw [htook.ahead_eq, hall.span_here]
      exact ⟨_, hall, .list hl hts hr⟩
    · obtain ⟨e, ts, c3, htook, hts, h3⟩ := h.bind h2
      obtain ⟨rfl, rfl⟩ := of_pure h3
      exact ⟨ts, htook, .expr hts⟩

theorem reads_definition (depth : Nat) : Reads (definition depth) Defines := by
  intro c d c' hrun
  obtain ⟨x, s, c1, hs, htook, h1⟩ := bind_identifier hrun
  obtain ⟨ds, ts, c2, htook1, hts, h2⟩ := (reads_indices (reads_expr depth)).bind h1
  rcases bind_accept h2 with ⟨assign, c3, hasg, htook2, h3⟩ | ⟨-, h3⟩
  · obtain ⟨i, c4, hi, h4⟩ := run_bind h3
    obtain ⟨rfl, rfl⟩ := of_pure h4
    obtain ⟨i', hi', rfl⟩ := run_map hi
    obtain ⟨us, htook3, hus⟩ := reads_initializer (reads_expr depth) depth hi'
    exact ⟨_, htook.trans (htook1.trans (htook2.trans htook3)), .initialized hs hts hasg hus⟩
  · have h4 := bind_pure h3
    obtain ⟨rfl, rfl⟩ := of_pure h4
    exact ⟨_, htook.trans htook1, .plain hs hts⟩

theorem reads_declaration (depth : Nat) : Reads (declaration depth) Declares := by
  intro c d c' hrun
  rcases bind_accept hrun with ⟨const, c1, hconst, htook, h1⟩ | ⟨-, h1⟩
  · obtain ⟨type, c2, htype, htook1, h2⟩ := bind_expect h1
    obtain ⟨ds, ts, c3, htook2, hts, h3⟩ := (reads_commaSeparated (reads_definition depth)).bind h2
    obtain ⟨semicolon, c4, hsemi, htook3, h4⟩ := bind_expect h3
    obtain ⟨rfl, rfl⟩ := of_pure h4
    exact ⟨_, htook.trans (htook1.trans (htook2.trans htook3)), .constant hconst htype hts hsemi⟩
  · obtain ⟨type, c2, htype, htook1, h2⟩ := bind_expect h1
    obtain ⟨ds, ts, c3, htook2, hts, h3⟩ := (reads_commaSeparated (reads_definition depth)).bind h2
    obtain ⟨semicolon, c4, hsemi, htook3, h4⟩ := bind_expect h3
    obtain ⟨rfl, rfl⟩ := of_pure h4
    exact ⟨_, htook1.trans (htook2.trans htook3), .ordinary htype hts hsemi⟩

/-! ## Statements -/

/-- A condition with the parentheses around it. -/
inductive Condition : Tokens → Expr → Prop
  | mk {ts : Tokens} {left right : Located Token} {e : Expr}
    (hleft : left.value = .mark .openParen) (h : Sentence ts e)
    (hright : right.value = .mark .closeParen) : Condition (left :: (ts ++ [right])) e

theorem reads_condition (depth : Nat) : Reads (condition depth) Condition := by
  intro c e c' hrun
  obtain ⟨left, c1, hl, htook, h1⟩ := bind_expect hrun
  obtain ⟨e', c2, he, h2⟩ := run_bind h1
  obtain ⟨ts, htook1, hts⟩ := reads_expr depth he
  obtain ⟨_, c3, hexpect', h3⟩ := run_bind h2
  obtain ⟨right, hr, htook2⟩ := of_expect hexpect'
  obtain ⟨rfl, rfl⟩ := of_pure h3
  exact ⟨_, htook.trans (htook1.trans htook2), .mk hl hts hr⟩

theorem reads_target (depth : Nat) {place : Located Place}
    (h : (target depth).run c = .ok (place, c')) :
    ∃ name x is indices assign, Took c (name :: (is ++ [assign])) c' ∧
      name.value = .identifier x ∧ Repeated Index is indices ∧ assign.value = .mark .assign ∧
      place = ⟨⟨⟨x, name.location⟩, indices⟩, extent (name :: is)⟩ := by
  obtain ⟨name, x, c1, hx, htook, h1⟩ := bind_identifier h
  obtain ⟨indices, is, c2, htook1, his, h2⟩ := (reads_indices (reads_expr depth)).bind h1
  have h3 := bind_since h2
  obtain ⟨assign, c4, hasg, htook2, h4⟩ := bind_expect h3
  obtain ⟨rfl, rfl⟩ := of_pure h4
  have hpl := htook.trans htook1
  exact ⟨name, x, is, indices, assign, hpl.trans htook2, hx, his, hasg, by rw [hpl.span_here]; rfl⟩

theorem of_attempt {a : Option α} (h : (attempt p).run c = .ok (a, c')) :
    (∃ b, a = some b ∧ p.run c = .ok (b, c')) ∨ (a = none ∧ c = c' ∧ ∃ e, p.run c = .error e) := by
  cases hp : p.run c with
  | ok result =>
    have hok : (attempt p).run c = .ok (some result.1, result.2) := by
      simp only [StateT.run] at hp ⊢
      rw [attempt, hp]
    rw [hok] at h
    cases h
    exact .inl ⟨_, rfl, rfl⟩
  | error failure =>
    have hok : (attempt p).run c = .ok (none, c) := by
      simp only [StateT.run] at hp ⊢
      rw [attempt, hp]
    rw [hok] at h
    cases h
    exact .inr ⟨rfl, rfl, failure, rfl⟩

theorem reads_simpleStatement (depth : Nat) : Reads (simpleStatement depth) fun ts s =>
    States ts s ∧ s.ElseNearest ∧ s.endsOpen = false := by
  intro c s c' hrun
  obtain ⟨place, c1, hattempt, h1⟩ := run_bind hrun
  rcases of_attempt hattempt with ⟨place, rfl, htgt⟩ | ⟨rfl, rfl, -⟩
  · obtain ⟨name, x, is, indices, assign, htook, hx, his, hasg, rfl⟩ := reads_target depth htgt
    obtain ⟨e, ts, c2, htook1, hts, h2⟩ := (reads_expr depth).bind h1
    obtain ⟨semicolon, c3, hsemi, htook2, h3⟩ := bind_expect h2
    obtain ⟨rfl, rfl⟩ := of_pure h3
    refine ⟨_, htook.trans (htook1.trans htook2), ?_, trivial, rfl⟩
    rw [cons_append, append_assoc, singleton_append]
    exact .assign hx his hasg hts hsemi
  · obtain ⟨e, ts, c2, htook1, hts, h2⟩ := (reads_expr depth).bind h1
    obtain ⟨semicolon, c3, hsemi, htook2, h3⟩ := bind_expect h2
    obtain ⟨rfl, rfl⟩ := of_pure h3
    exact ⟨_, htook1.trans htook2, .expr hts hsemi, trivial, rfl⟩

/-- A parser of statements. A statement that could have an `else` behind it has none. -/
def ReadsStatement (p : Parser Statement) : Prop :=
  ∀ ⦃c s c'⦄, p.run c = .ok (s, c') → ∃ ts, Took c ts c' ∧ States ts s ∧ s.ElseNearest ∧
    (s.endsOpen = true → ∀ x ∈ c'.tokens.head?, x.value ≠ .keyword .else)

theorem reads_blockRest (depth : Nat) {statement : Parser Statement} (h : ReadsStatement statement)
    (n : Nat) {body : Block} (hrun : (blockRest depth statement n).run c = .ok (body, c')) :
    ∃ ts right, Took c (ts ++ [right]) c' ∧ Sequence ts body ∧ body.ElseNearest ∧
      right.value = .mark .closeCurly := by
  induction n generalizing c body with
  | zero => exact (of_fail hrun).elim
  | succ n ih =>
    rcases bind_accept hrun with ⟨right, c1, hr, htook, h1⟩ | ⟨-, h1⟩
    · obtain ⟨rfl, rfl⟩ := of_pure h1
      exact ⟨[], right, htook, .nil, trivial, hr⟩
    · obtain ⟨ahead, hahd, h2⟩ := bind_peek h1
      have hdeclaration : ∀ {c3 : Cursor} {item : Declaration} {rest : Block},
          (declaration depth).run c = .ok (item, c3) →
          (blockRest depth statement n).run c3 = .ok (rest, c') →
          ∃ ts right, Took c (ts ++ [right]) c' ∧ Sequence ts (.declaration item rest) ∧
            (Block.declaration item rest).ElseNearest ∧ right.value = .mark .closeCurly := by
        intro c3 item rest hitem hrest
        obtain ⟨ds, htook, hds⟩ := reads_declaration depth hitem
        obtain ⟨ts, right, htook', hts, hnear, hr⟩ := ih hrest
        refine ⟨ds ++ ts, right, ?_, .declaration hds hts, hnear, hr⟩
        rw [append_assoc]
        exact htook.trans htook'
      split at h2
      · obtain ⟨item, c3, hitem, h3⟩ := run_bind h2
        obtain ⟨rest, c4, hrest, h4⟩ := run_bind h3
        obtain ⟨rfl, rfl⟩ := of_pure h4
        exact hdeclaration hitem hrest
      · obtain ⟨item, c3, hitem, h3⟩ := run_bind h2
        obtain ⟨rest, c4, hrest, h4⟩ := run_bind h3
        obtain ⟨rfl, rfl⟩ := of_pure h4
        exact hdeclaration hitem hrest
      · obtain ⟨item, c3, hitem, h3⟩ := run_bind h2
        obtain ⟨rest, c4, hrest, h4⟩ := run_bind h3
        obtain ⟨rfl, rfl⟩ := of_pure h4
        obtain ⟨ss, htook, hss, hnear, -⟩ := h hitem
        obtain ⟨ts, right, htook', hts, hnear', hr⟩ := ih hrest
        refine ⟨ss ++ ts, right, ?_, .statement hss hts, ⟨hnear, hnear'⟩, hr⟩
        rw [append_assoc]
        exact htook.trans htook'

theorem reads_block (depth : Nat) {statement : Parser Statement} (h : ReadsStatement statement) :
    Reads (block depth statement) fun ts body => Braces ts body ∧ body.ElseNearest := by
  intro c body c' hrun
  obtain ⟨left, c1, hl, htook, h1⟩ := bind_expect hrun
  obtain ⟨n, h2⟩ := bind_bound h1
  obtain ⟨ts, right, htook', hts, hnear, hr⟩ := reads_blockRest depth h n h2
  exact ⟨_, htook.trans htook', .mk hl hts hr, hnear⟩

theorem reads_statement (depth n : Nat) : ReadsStatement (statement depth n) := by
  induction n with
  | zero => exact fun c a c' h => (of_fail h).elim
  | succ n ih =>
    intro c s c' hrun
    have h1 := bind_here hrun
    obtain ⟨ahead, hahd, h2⟩ := bind_peek h1
    split at h2
    · -- a block
      obtain ⟨body, ts, c3, htook, ⟨hts, hnear⟩, h3⟩ := (reads_block depth ih).bind h2
      obtain ⟨rfl, rfl⟩ := of_pure h3
      exact ⟨ts, htook, .block hts, hnear, nofun⟩
    · -- nothing
      obtain ⟨semicolon, c3, htook, h3⟩ := bind_next h2
      obtain ⟨rfl, rfl⟩ := of_pure h3
      exact ⟨_, htook, .empty (htook.head_value hahd), trivial, nofun⟩
    · -- `if`
      obtain ⟨keyword, c3, htook, h3⟩ := bind_next h2
      obtain ⟨e, cs, c4, htook1, ⟨hl, he, hr⟩, h4⟩ := (reads_condition depth).bind h3
      obtain ⟨yes, c5, hyes, h5⟩ := run_bind h4
      obtain ⟨ts, htook2, hts, hnear, hopen⟩ := ih hyes
      have hkw := htook.head_value hahd
      rcases bind_accept h5 with ⟨other, c6, hoth, htook3, h6⟩ | ⟨hnone, h6⟩
      · obtain ⟨no, c7, hno, h7⟩ := run_bind h6
        obtain ⟨us, htook4, hus, hnear', hopen'⟩ := ih hno
        obtain ⟨rfl, rfl⟩ := of_pure h7
        -- the `else` stands right behind the first branch, which therefore is not open
        have hclo : yes.endsOpen = false := by
          rw [Bool.eq_false_iff]
          intro htrue
          refine hopen htrue other ?_ hoth
          rw [htook3.tokens]
          rfl
        refine ⟨_, htook.trans (htook1.trans (htook2.trans (htook3.trans htook4))), ?_,
          ⟨hclo, hnear, hnear'⟩, hopen'⟩
        simpa using States.ifElse hkw hl he hr hts hoth hus
      · obtain ⟨rfl, rfl⟩ := of_pure h6
        refine ⟨_, htook.trans (htook1.trans htook2), ?_, hnear, fun _ => hnone⟩
        simpa using States.ifThen hkw hl he hr hts
    · -- `while`
      obtain ⟨keyword, c3, htook, h3⟩ := bind_next h2
      obtain ⟨e, cs, c4, htook1, ⟨hl, he, hr⟩, h4⟩ := (reads_condition depth).bind h3
      obtain ⟨body, c5, hbody, h5⟩ := run_bind h4
      obtain ⟨ts, htook2, hts, hnear, hopen⟩ := ih hbody
      obtain ⟨rfl, rfl⟩ := of_pure h5
      refine ⟨_, htook.trans (htook1.trans htook2), ?_, hnear, hopen⟩
      simpa using States.while (htook.head_value hahd) hl he hr hts
    · -- `break`
      obtain ⟨keyword, c3, htook, h3⟩ := bind_next h2
      obtain ⟨semicolon, c4, hsemi, htook1, h4⟩ := bind_expect h3
      obtain ⟨rfl, rfl⟩ := of_since h4
      have hall := htook.trans htook1
      rw [htook.ahead_eq, hall.span_here]
      exact ⟨_, hall, .break (htook.head_value hahd) hsemi, trivial, nofun⟩
    · -- `continue`
      obtain ⟨keyword, c3, htook, h3⟩ := bind_next h2
      obtain ⟨semicolon, c4, hsemi, htook1, h4⟩ := bind_expect h3
      obtain ⟨rfl, rfl⟩ := of_since h4
      have hall := htook.trans htook1
      rw [htook.ahead_eq, hall.span_here]
      exact ⟨_, hall, .continue (htook.head_value hahd) hsemi, trivial, nofun⟩
    · -- `return`
      obtain ⟨keyword, c3, htook, h3⟩ := bind_next h2
      have hkw := htook.head_value hahd
      rcases bind_accept h3 with ⟨semicolon, c4, hsemi, htook1, h4⟩ | ⟨-, h4⟩
      · obtain ⟨rfl, rfl⟩ := of_since h4
        have hall := htook.trans htook1
        rw [htook.ahead_eq, hall.span_here]
        exact ⟨_, hall, .returnNothing hkw hsemi, trivial, nofun⟩
      · obtain ⟨e, ts, c5, htook1, hts, h5⟩ := (reads_expr depth).bind h4
        obtain ⟨semicolon, c6, hsemi, htook2, h6⟩ := bind_expect h5
        obtain ⟨rfl, rfl⟩ := of_since h6
        have hall := htook.trans (htook1.trans htook2)
        rw [htook.ahead_eq, hall.span_here]
        exact ⟨_, hall, .returnValue hkw hts hsemi, trivial, nofun⟩
    · -- an assignment or an expression
      obtain ⟨ts, htook, hts, hnear, hclo⟩ := reads_simpleStatement depth h2
      exact ⟨ts, htook, hts, hnear, fun hopen => absurd hopen (by simp [hclo])⟩

/-! ## Programs -/

theorem reads_parameter (depth : Nat) : Reads (parameter depth) Takes := by
  intro c p c' hrun
  obtain ⟨_, c1, hweak, h1⟩ := run_bind hrun
  obtain ⟨type, htype, htook⟩ := of_expect (mapError_eq_ok.1 hweak)
  obtain ⟨name, x, c2, hx, htook1, h2⟩ := bind_identifier h1
  rcases bind_accept h2 with ⟨left, c3, hl, htook2, h3⟩ | ⟨-, h3⟩
  · obtain ⟨right, c4, hr, htook3, h4⟩ := bind_expect h3
    obtain ⟨ds, ts, c5, htook4, hts, h5⟩ := (reads_indices (reads_expr depth)).bind h4
    obtain ⟨rfl, rfl⟩ := of_pure h5
    exact ⟨_, htook.trans (htook1.trans (htook2.trans (htook3.trans htook4))),
      .array htype hx hl hr hts⟩
  · obtain ⟨rfl, rfl⟩ := of_pure h3
    exact ⟨_, htook.trans htook1, .scalar htype hx⟩

theorem type_of_functionAhead (h : functionAhead tokens = some returns) :
    ∀ x ∈ tokens.head?, x.value = .keyword (returnKeyword returns) := by
  unfold functionAhead at h
  split at h
  · rename_i first second third rest
    intro x hx
    cases hx
    split at h
    · rename_i hint _ _
      cases h
      exact hint
    · rename_i hvoid _ _
      cases h
      exact hvoid
    · cases h
  · cases h

theorem reads_function (depth : Nat) {f : Function} (hahd : functionAhead c.tokens = some returns)
    (h : (function depth returns).run c = .ok (f, c')) :
    ∃ ts, Took c ts c' ∧ Part ts (.function f) ∧ f.body.ElseNearest := by
  obtain ⟨type, c1, htook, h1⟩ := bind_next h
  have htype : type.value = .keyword (returnKeyword returns) := by
    refine type_of_functionAhead hahd type ?_
    rw [htook.tokens]
    rfl
  obtain ⟨name, x, c2, hx, htook1, h2⟩ := bind_identifier h1
  obtain ⟨left, c3, hl, htook2, h3⟩ := bind_expect h2
  obtain ⟨parameters, ps, c4, htook3, hps, h4⟩ := (reads_commaSeparatedOrEmpty (reads_parameter depth)).bind h3
  obtain ⟨_, c5, hexpect', h5⟩ := run_bind h4
  obtain ⟨right, hr, htook4⟩ := of_expect hexpect'
  obtain ⟨body, bs, c6, htook5, ⟨hbs, hnear⟩, h6⟩ := (reads_block depth (reads_statement depth depth)).bind h5
  obtain ⟨rfl, rfl⟩ := of_pure h6
  exact ⟨_, htook.trans (htook1.trans (htook2.trans (htook3.trans (htook4.trans htook5)))),
    .function htype hx hl hps hr hbs, hnear⟩

theorem reads_item (depth : Nat) : Reads (item depth) NearestPart := by
  intro c item c' hrun
  obtain ⟨c1, c2, hget, h1⟩ := run_bind hrun
  cases hget
  split at h1
  · rename_i returns hahd
    obtain ⟨f, c3, hf, h2⟩ := run_bind h1
    obtain ⟨ts, htook, hts, hnear⟩ := reads_function depth hahd hf
    obtain ⟨rfl, rfl⟩ := of_pure h2
    refine ⟨ts, htook, hts, fun g hg => ?_⟩
    cases hg
    exact hnear
  · obtain ⟨d, ts, c3, htook, hts, h2⟩ := (reads_declaration depth).bind h1
    obtain ⟨rfl, rfl⟩ := of_pure h2
    exact ⟨ts, htook, .declaration hts, nofun⟩

theorem reads_itemRest (depth n : Nat) {items : List Item}
    (h : (itemRest depth n).run c = .ok (items, c')) :
    ∃ ts, Took c ts c' ∧ Repeated NearestPart ts items ∧ c'.tokens = [] := by
  induction n generalizing c items with
  | zero => exact (of_fail h).elim
  | succ n ih =>
    obtain ⟨ahead, hahd, h1⟩ := bind_peek h
    split at h1
    · rename_i hnone
      obtain ⟨rfl, rfl⟩ := of_pure h1
      refine ⟨[], .refl _, .nil, ?_⟩
      rw [← hahd] at hnone
      simpa using hnone
    · obtain ⟨first, xs, c2, htook, hxs, h2⟩ := (reads_item depth).bind h1
      obtain ⟨rest, c3, hrest, h3⟩ := run_bind h2
      obtain ⟨rfl, rfl⟩ := of_pure h3
      obtain ⟨ts, htook', hts, hend⟩ := ih hrest
      exact ⟨_, htook.trans htook', .cons hxs hts, hend⟩

theorem whole_of_ofTokens {program : Program} (h : Program.ofTokens tokens = .ok program) :
    Whole tokens program ∧ program.ElseNearest := by
  unfold Program.ofTokens at h
  split at h
  · rename_i p c hrun
    cases h
    obtain ⟨depth, h1⟩ := bind_bound hrun
    obtain ⟨items, c2, hitems, h2⟩ := run_bind h1
    obtain ⟨ts, htook, hts, hend⟩ := reads_itemRest depth depth hitems
    obtain ⟨c3, c4, hget, h3⟩ := run_bind h2
    cases hget
    cases h3
    obtain rfl : tokens = ts := by simpa [hend] using htook.tokens
    rw [htook.last]
    exact whole_of_nearest hts
  · cases h

end SysY.Tree.Parser

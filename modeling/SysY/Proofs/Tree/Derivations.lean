import SysY.Proofs.Tree.Grammar

/-!
# What stands where in a derivation

Facts of the grammar that a reader with one token of lookahead depends on: what an expression, a
declaration and a statement begin with, and which tokens never stand inside an expression. Whatever
derives from the grammar also derives with every `else` at the nearest `if`.
-/

namespace SysY.Tree.Grammar

variable {ts us : Tokens} {kind : Token → Bool} {token : Token} {x : Located Token} {item : Item}
  {items : List Item} {program : Program}

/-! ## Tokens of expressions -/

/-- Tokens that an expression may have. -/
def inExpression : Token → Bool
  | .keyword _ => false
  | .mark .assign | .mark .semicolon | .mark .openCurly | .mark .closeCurly => false
  | _ => true

/-- Tokens that are all allowed in expressions. -/
def Plain (ts : Tokens) : Prop := ∀ x ∈ ts, inExpression x.value = true

theorem inExpression_binaryMark (operator : BinaryOperator) :
    inExpression (.mark (binaryMark operator)) = true := by
  cases operator <;> rfl

theorem inExpression_unaryMark (operator : UnaryOperator) :
    inExpression (.mark (unaryMark operator)) = true := by
  cases operator <;> rfl

theorem plain_nil : Plain [] := nofun

theorem Plain.append (hts : Plain ts) (hus : Plain us) : Plain (ts ++ us) := by
  intro x hx
  rcases List.mem_append.1 hx with h | h
  · exact hts x h
  · exact hus x h

theorem Plain.cons (hx : x.value = token) (htok : inExpression token = true) (hts : Plain ts) :
    Plain (x :: ts) := by
  intro y hy
  rcases List.mem_cons.1 hy with rfl | h
  · rw [hx, htok]
  · exact hts y h

mutual

theorem Operand.plain : ∀ {k : Nat} {ts : Tokens} {t : Operation}, Operand k ts t → Plain ts
  | _, _, _, .tighter _ h => h.plain
  | _, _, _, .binary _ hl hsign hr =>
    hl.plain.append (.cons hsign (inExpression_binaryMark _) hr.plain)
  | _, _, _, .unary hsign h => .cons hsign (inExpression_unaryMark _) h.plain
  | _, _, _, .parenthesized hl h hr =>
    .cons hl rfl (h.plain.append (.cons hr rfl plain_nil))
  | _, _, _, .literal htok => .cons htok rfl plain_nil
  | _, _, _, .call hname hl .none hr =>
    .cons hname rfl (.cons hl rfl (.cons hr rfl plain_nil))
  | _, _, _, .call hname hl (.some h) hr =>
    .cons hname rfl (.cons hl rfl ((plain_separated h).append (.cons hr rfl plain_nil)))
  | _, _, _, .read hname h => .cons hname rfl (plain_repeated h)

theorem Sentence.plain : ∀ {ts : Tokens} {e : Expr}, Sentence ts e → Plain ts
  | _, _, .mk h => h.plain

theorem Index.plain : ∀ {ts : Tokens} {e : Expr}, Index ts e → Plain ts
  | _, _, .mk hl h hr => .cons hl rfl (h.plain.append (.cons hr rfl plain_nil))

theorem plain_separated : ∀ {ts : Tokens} {es : List Expr}, Separated Sentence ts es → Plain ts
  | _, _, .single h => h.plain
  | _, _, .cons h hcomma hs => h.plain.append (.cons hcomma rfl (plain_separated hs))

theorem plain_repeated : ∀ {ts : Tokens} {es : List Expr}, Repeated Index ts es → Plain ts
  | _, _, .nil => plain_nil
  | _, _, .cons h hs => h.plain.append (plain_repeated hs)

end

theorem Plain.cut {xs ys : Tokens} {y : Located Token} (hts : Plain ts) (hus : Plain us)
    (hx : inExpression x.value = false) (hy : inExpression y.value = false)
    (h : ts ++ x :: xs = us ++ y :: ys) : x = y := by
  induction ts generalizing us with
  | nil =>
    cases us with
    | nil => exact (List.cons.inj h).1
    | cons u us =>
      obtain ⟨rfl, -⟩ := List.cons.inj h
      rw [hus x List.mem_cons_self] at hx
      cases hx
  | cons t ts ih =>
    cases us with
    | nil =>
      obtain ⟨rfl, -⟩ := List.cons.inj h
      rw [hts t List.mem_cons_self] at hy
      cases hy
    | cons u us =>
      exact ih (fun z hz => hts z (List.mem_cons_of_mem _ hz))
        (fun z hz => hus z (List.mem_cons_of_mem _ hz)) (List.cons.inj h).2

/-! ## First tokens -/

/-- A list that begins with a token of the given kind. -/
def Begins (kind : Token → Bool) (ts : Tokens) : Prop :=
  ∃ x xs, ts = x :: xs ∧ kind x.value = true

theorem begins (hx : x.value = token) (hkind : kind token = true) : Begins kind (x :: ts) :=
  ⟨x, ts, rfl, by rw [hx, hkind]⟩

theorem Begins.append (h : Begins kind ts) : Begins kind (ts ++ us) := by
  obtain ⟨x, xs, rfl, hx⟩ := h
  exact ⟨x, xs ++ us, rfl, hx⟩

theorem Begins.mono {kind' : Token → Bool} (h : Begins kind ts)
    (hkind : ∀ token, kind token = true → kind' token = true) : Begins kind' ts := by
  obtain ⟨x, xs, rfl, hx⟩ := h
  exact ⟨x, xs, rfl, hkind _ hx⟩

theorem Begins.length_pos (h : Begins kind ts) : 0 < ts.length := by
  obtain ⟨x, xs, rfl, -⟩ := h
  exact Nat.succ_pos _

theorem Begins.head_ne (h : Begins kind ts)
    (htok : kind token = false) : ∀ x ∈ ts.head?, x.value ≠ token := by
  obtain ⟨x, xs, rfl, hx⟩ := h
  intro y hy heq
  cases hy
  rw [heq, htok] at hx
  cases hx

/-- What an expression begins with. -/
def startsExpression : Token → Bool
  | .identifier _ | .literal _ => true
  | .mark .openParen | .mark .plus | .mark .minus | .mark .not => true
  | _ => false

def startsInitializer (token : Token) : Bool :=
  startsExpression token || token == .mark .openCurly

def startsDeclaration : Token → Bool
  | .keyword .const | .keyword .int => true
  | _ => false

theorem startsDeclaration_iff : startsDeclaration token = true ↔
    token = .keyword .const ∨ token = .keyword .int := by
  unfold startsDeclaration
  split <;> simp_all

def startsStatement : Token → Bool
  | .keyword .if | .keyword .while | .keyword .break | .keyword .continue | .keyword .return => true
  | .mark .semicolon | .mark .openCurly => true
  | token => startsExpression token

theorem startsExpression_unaryMark (operator : UnaryOperator) :
    startsExpression (.mark (unaryMark operator)) = true := by
  cases operator <;> rfl

theorem Operand.begins : ∀ {k : Nat} {ts : Tokens} {t : Operation}, Operand k ts t →
    Begins startsExpression ts
  | _, _, _, .tighter _ h => h.begins
  | _, _, _, .binary _ hl _ _ => hl.begins.append
  | _, _, _, .unary hsign _ => Grammar.begins hsign (startsExpression_unaryMark _)
  | _, _, _, .parenthesized hl _ _ => Grammar.begins hl rfl
  | _, _, _, .literal htok => Grammar.begins htok rfl
  | _, _, _, .call hname _ _ _ => Grammar.begins hname rfl
  | _, _, _, .read hname _ => Grammar.begins hname rfl

theorem Sentence.begins {e : Expr} (h : Sentence ts e) : Begins startsExpression ts := by
  cases h with
  | mk h => exact h.begins

theorem Initial.begins {initializer : Initializer} (h : Initial ts initializer) :
    Begins startsInitializer ts := by
  cases h with
  | expr h => exact h.begins.mono fun token htok => by simp [startsInitializer, htok]
  | list hl _ _ => exact Grammar.begins hl rfl

theorem Declares.begins {declaration : Declaration} (h : Declares ts declaration) :
    Begins startsDeclaration ts := by
  cases h with
  | ordinary htype _ _ => exact Grammar.begins htype rfl
  | constant hconst _ _ _ => exact Grammar.begins hconst rfl

theorem Part.length_pos (h : Part ts item) : 0 < ts.length := by
  cases h with
  | declaration h => exact h.begins.length_pos
  | function => exact Nat.succ_pos _

theorem startsStatement_of_startsExpression (h : startsExpression token = true) :
    startsStatement token = true := by
  unfold startsStatement
  split <;> first | rfl | exact h

theorem States.begins {s : Statement} (h : States ts s) : Begins startsStatement ts := by
  cases h with
  | assign hname _ _ _ _ => exact Grammar.begins hname rfl
  | expr hval _ =>
    exact (hval.begins.mono fun _ => startsStatement_of_startsExpression).append
  | empty hsemi => exact Grammar.begins hsemi rfl
  | block h =>
    cases h with
    | mk hl _ _ => exact Grammar.begins hl rfl
  | ifThen hkw _ _ _ _ => exact Grammar.begins hkw rfl
  | ifElse hkw _ _ _ _ _ _ => exact Grammar.begins hkw rfl
  | «while» hkw _ _ _ _ => exact Grammar.begins hkw rfl
  | «break» hkw _ => exact Grammar.begins hkw rfl
  | «continue» hkw _ => exact Grammar.begins hkw rfl
  | returnNothing hkw _ => exact Grammar.begins hkw rfl
  | returnValue hkw _ _ => exact Grammar.begins hkw rfl

theorem indices_head {es : List Expr} (h : Repeated Index ts es)
    (hus : ∀ x ∈ us.head?, x.value ≠ .mark .openParen) :
    ∀ x ∈ (ts ++ us).head?, x.value ≠ .mark .openParen := by
  cases h with
  | nil => exact hus
  | cons head _ =>
    cases head with
    | mk hl _ _ =>
      intro x hx
      cases hx
      rw [hl]
      nofun

theorem definitions_head {definitions : List Definition} (h : Separated Defines ts definitions)
    (hus : ∀ x ∈ us.head?, x.value ≠ .mark .openParen) :
    ∃ name vs, ts ++ us = name :: vs ∧ ∀ x ∈ vs.head?, x.value ≠ .mark .openParen := by
  have hdfs : ∀ {xs vs d}, Defines xs d → (∀ x ∈ vs.head?, x.value ≠ .mark .openParen) →
      ∃ name ws, xs ++ vs = name :: ws ∧ ∀ x ∈ ws.head?, x.value ≠ .mark .openParen := by
    intro xs vs d hd hvs
    cases hd with
    | @plain _ ds name _ _ hdim => exact ⟨name, ds ++ vs, rfl, indices_head hdim hvs⟩
    | @initialized _ ds ts name assign _ _ _ hdim hasg _ =>
      refine ⟨name, ds ++ assign :: (ts ++ vs), by simp, indices_head hdim fun x hx => ?_⟩
      cases hx
      rw [hasg]
      nofun
  cases h with
  | single head => exact hdfs head hus
  | @cons xs ys comma _ _ head hcomma tail =>
    rw [List.append_assoc]
    refine hdfs head fun x hx => ?_
    cases hx
    rw [hcomma]
    nofun

/-! ## The nearest `if` -/

theorem States.attach {no : Statement} {other : Located Token}
    (hoth : other.value = .keyword .else) (hno : States us no) (hnnr : no.ElseNearest) :
    ∀ (s : Statement) {ts : Tokens}, States ts s → s.ElseNearest → s.endsOpen = true →
      ∃ s', States (ts ++ other :: us) s' ∧ s'.ElseNearest
  | .ifThen condition yes, _, hs, hnear, _ => by
    cases hs with
    | ifThen hkw hl hcond hr hyes =>
      cases hopen : yes.endsOpen with
      | true =>
        obtain ⟨s', hs', hnear'⟩ := States.attach hoth hno hnnr yes hyes hnear hopen
        refine ⟨.ifThen condition s', ?_, hnear'⟩
        simpa using States.ifThen hkw hl hcond hr hs'
      | false =>
        refine ⟨.ifElse condition yes no, ?_, hopen, hnear, hnnr⟩
        simpa using States.ifElse hkw hl hcond hr hyes hoth hno
  | .ifElse condition yes last, _, hs, ⟨hclo, hyesnear, hlastnear⟩, hopen => by
    cases hs with
    | ifElse hkw hl hcond hr hyes hoth' hlast =>
      obtain ⟨s', hs', hnear'⟩ := States.attach hoth hno hnnr last hlast hlastnear hopen
      refine ⟨.ifElse condition yes s', ?_, hclo, hyesnear, hnear'⟩
      simpa using States.ifElse hkw hl hcond hr hyes hoth' hs'
  | .while condition body, _, hs, hnear, hopen => by
    cases hs with
    | «while» hkw hl hcond hr hbody =>
      obtain ⟨s', hs', hnear'⟩ := States.attach hoth hno hnnr body hbody hnear hopen
      refine ⟨.while condition s', ?_, hnear'⟩
      simpa using States.while hkw hl hcond hr hs'
  | .assign _ _ _, _, _, _, hopen => by cases hopen
  | .expr _, _, _, _, hopen => by cases hopen
  | .empty, _, _, _, hopen => by cases hopen
  | .block _, _, _, _, hopen => by cases hopen
  | .break _, _, _, _, hopen => by cases hopen
  | .continue _, _, _, _, hopen => by cases hopen
  | .return _ _, _, _, _, hopen => by cases hopen

mutual

theorem States.nearest : ∀ {ts : Tokens} {s : Statement}, States ts s →
    ∃ s', States ts s' ∧ s'.ElseNearest
  | _, _, .assign hname hids hasg hval hsemi =>
    ⟨_, .assign hname hids hasg hval hsemi, trivial⟩
  | _, _, .expr hval hsemi => ⟨_, .expr hval hsemi, trivial⟩
  | _, _, .empty hsemi => ⟨_, .empty hsemi, trivial⟩
  | _, _, .block h => by
    obtain ⟨body, hbody, hnear⟩ := h.nearest
    exact ⟨.block body, .block hbody, hnear⟩
  | _, _, .ifThen hkw hl hcond hr hyes => by
    obtain ⟨yes, hyes', hnear⟩ := hyes.nearest
    exact ⟨.ifThen _ yes, .ifThen hkw hl hcond hr hyes', hnear⟩
  | _, _, .ifElse hkw hl hcond hr hyes hoth hno => by
    obtain ⟨yes, hyes', hnear⟩ := hyes.nearest
    obtain ⟨no, hno', hnear'⟩ := hno.nearest
    cases hopen : yes.endsOpen with
    | true =>
      -- the branch takes the `else`, and the outer `if` is left without one
      obtain ⟨s, hs, hnear''⟩ := States.attach hoth hno' hnear' yes hyes' hnear hopen
      exact ⟨.ifThen _ s, .ifThen hkw hl hcond hr hs, hnear''⟩
    | false =>
      exact ⟨.ifElse _ yes no, .ifElse hkw hl hcond hr hyes' hoth hno', hopen, hnear, hnear'⟩
  | _, _, .while hkw hl hcond hr hbody => by
    obtain ⟨body, hbody', hnear⟩ := hbody.nearest
    exact ⟨.while _ body, .while hkw hl hcond hr hbody', hnear⟩
  | _, _, .break hkw hsemi => ⟨_, .break hkw hsemi, trivial⟩
  | _, _, .continue hkw hsemi => ⟨_, .continue hkw hsemi, trivial⟩
  | _, _, .returnNothing hkw hsemi => ⟨_, .returnNothing hkw hsemi, trivial⟩
  | _, _, .returnValue hkw hval hsemi =>
    ⟨_, .returnValue hkw hval hsemi, trivial⟩

theorem Sequence.nearest : ∀ {ts : Tokens} {b : Block}, Sequence ts b →
    ∃ b', Sequence ts b' ∧ b'.ElseNearest
  | _, _, .nil => ⟨.nil, .nil, trivial⟩
  | _, _, .declaration head tail => by
    obtain ⟨rest, hrest, hnear⟩ := tail.nearest
    exact ⟨.declaration _ rest, .declaration head hrest, hnear⟩
  | _, _, .statement head tail => by
    obtain ⟨s, hs, hnear⟩ := head.nearest
    obtain ⟨rest, hrest, hnear'⟩ := tail.nearest
    exact ⟨.statement s rest, .statement hs hrest, hnear, hnear'⟩

theorem Braces.nearest : ∀ {ts : Tokens} {b : Block}, Braces ts b →
    ∃ b', Braces ts b' ∧ b'.ElseNearest
  | _, _, .mk hl hbody hr => by
    obtain ⟨body, hbody', hnear⟩ := hbody.nearest
    exact ⟨body, .mk hl hbody' hr, hnear⟩

end

/-- A part with every `else` at the nearest `if`. -/
def NearestPart (ts : Tokens) (item : Item) : Prop :=
  Part ts item ∧ ∀ f, item = .function f → f.body.ElseNearest

theorem Part.nearest (h : Part ts item) : ∃ item', NearestPart ts item' := by
  cases h with
  | declaration h => exact ⟨_, .declaration h, nofun⟩
  | function htype hname hl hpars hr hbody =>
    obtain ⟨body, hbody', hnear⟩ := hbody.nearest
    refine ⟨_, .function htype hname hl hpars hr hbody', fun f hf => ?_⟩
    cases hf
    exact hnear

theorem Repeated.nearest (h : Repeated Part ts items) :
    ∃ items', Repeated NearestPart ts items' := by
  induction h with
  | nil => exact ⟨[], .nil⟩
  | cons head _ ih =>
    obtain ⟨item, hitem⟩ := head.nearest
    obtain ⟨items, hitems⟩ := ih
    exact ⟨item :: items, .cons hitem hitems⟩

theorem Repeated.parts (h : Repeated NearestPart ts items) :
    Repeated Part ts items ∧ ∀ f, .function f ∈ items → f.body.ElseNearest := by
  induction h with
  | nil => exact ⟨.nil, nofun⟩
  | cons head _ ih =>
    refine ⟨.cons head.1 ih.1, fun f hf => ?_⟩
    rcases List.mem_cons.1 hf with h | h
    · exact head.2 f h.symm
    · exact ih.2 f h

theorem repeated_parts (h : Repeated Part ts program.items)
    (hnear : program.ElseNearest) : Repeated NearestPart ts program.items := by
  have hall : ∀ item ∈ program.items, ∀ f, item = .function f → f.body.ElseNearest := by
    rintro item hitem f rfl
    exact hnear f (List.mem_filterMap.2 ⟨_, hitem, rfl⟩)
  generalize program.items = items at h hall
  induction h with
  | nil => exact .nil
  | cons head _ ih =>
    exact .cons ⟨head, hall _ List.mem_cons_self⟩
      (ih fun item hitem => hall item (List.mem_cons_of_mem _ hitem))

theorem whole_of_nearest (h : Repeated NearestPart ts items) :
    Whole ts ⟨items, lastOf .unknown ts⟩ ∧
      Program.ElseNearest ⟨items, lastOf .unknown ts⟩ := by
  refine ⟨.mk (Repeated.parts h).1, fun f hf => (Repeated.parts h).2 f ?_⟩
  obtain ⟨item, hitem, hf⟩ := List.mem_filterMap.1 hf
  split at hf
  · cases hf
  · cases hf
    exact hitem

theorem Whole.nearest (h : Whole ts program) :
    ∃ program', Whole ts program' ∧ program'.ElseNearest := by
  cases h with
  | mk h =>
    obtain ⟨items, hitems⟩ := Repeated.nearest h
    exact ⟨_, whole_of_nearest hitems⟩

end SysY.Tree.Grammar

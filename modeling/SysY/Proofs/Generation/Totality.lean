import SysY.Proofs.Generation.Programs
import SysY.Proofs.Tree.Reading

/-!
# Programs without faults

Each tree costs at most four for every token it is spelled with, as induction on derivations shows. So
a program with fewer than `2 ^ 28` tokens never uses up a counter: it gets code or is rejected for a
mistake of its own. A generated function has fewer temporaries than the program has tokens, even
together with its parameters.
-/

namespace SysY.Tree

/-- The price of an item. A function also pays for its parameters and for the words around them. -/
def Item.price : Item → Nat
  | .declaration d => d.price
  | .function f => f.price + 4 * (f.parameters.length + 4)

def Program.price (program : Program) : Nat := (program.items.map Item.price).sum

/-- The price of formulas that select elements or are passed on. -/
def Expr.listed (e : Expr) : Nat := e.price + 8

theorem price_ofExprs (es : List Expr) : (Formulas.ofExprs es).price = (es.map Expr.listed).sum := by
  induction es with
  | nil =>
    rw [Formulas.ofExprs]
    rfl
  | cons e es ih =>
    obtain ⟨elements, location⟩ := e
    rw [Formulas.ofExprs, Formulas.price, ih, List.map_cons, List.sum_cons]
    show 4 + ((Formula.ofReversed elements.reverse).price + _) =
      (Formula.ofReversed elements.reverse).price + 8 + _
    omega

theorem sum_price_le (es : List Expr) : (es.map Expr.price).sum ≤ (es.map Expr.listed).sum := by
  induction es with
  | nil => exact Nat.le_refl 0
  | cons e es ih =>
    rw [List.map_cons, List.map_cons, List.sum_cons, List.sum_cons, Expr.listed]
    omega

namespace Grammar

variable {α : Type} {rule : Tokens → α → Prop} {ts : Tokens} {f : α → Nat} {as : List α}

/-! ## Expressions -/

mutual

theorem Operand.price_le : ∀ {k : Nat} {ts : Tokens} {t : Operation}, Operand k ts t →
    t.formula.price + 4 ≤ 4 * ts.length
  | _, _, _, .tighter _ h => h.price_le
  | _, _, _, .binary _ hl _ hr => by
    have hl := hl.price_le
    have hr := hr.price_le
    rw [Operation.formula, List.length_append, List.length_cons]
    split <;> rw [Formula.price] <;> omega
  | _, _, _, .unary _ h => by
    have h := h.price_le
    rw [Operation.formula, Formula.price, List.length_cons]
    omega
  | _, _, _, .parenthesized _ h _ => by
    have h := h.price_le
    simp only [List.length_cons, List.length_append]
    omega
  | _, _, _, .literal _ => Nat.le_refl 4
  | _, _, _, .call _ _ .none _ => by
    rw [Operation.formula, Formulas.ofExprs]
    exact show 8 ≤ 12 by decide
  | _, _, _, .call _ _ (.some h) _ => by
    have h := listed_separated h
    rw [Operation.formula, Formula.price, price_ofExprs]
    simp only [List.length_cons, List.length_append]
    omega
  | _, _, _, .read _ h => by
    have h := listed_repeated h
    rw [Operation.formula, Formula.price, price_ofExprs, List.length_cons]
    omega

theorem Sentence.price_le : ∀ {ts : Tokens} {e : Expr}, Sentence ts e → e.price + 4 ≤ 4 * ts.length
  | _, _, .mk h => by
    rw [Expr.price, formula_elements]
    exact h.price_le

theorem listed_separated : ∀ {ts : Tokens} {es : List Expr}, Separated Sentence ts es →
    (es.map Expr.listed).sum ≤ 4 * ts.length + 4
  | _, _, .single h => by
    have h := h.price_le
    rw [List.map_singleton, List.sum_singleton, Expr.listed]
    omega
  | _, _, .cons h _ hs => by
    have h := h.price_le
    have hs := listed_separated hs
    rw [List.map_cons, List.sum_cons, Expr.listed, List.length_append, List.length_cons]
    omega

theorem listed_repeated : ∀ {ts : Tokens} {es : List Expr}, Repeated Index ts es →
    (es.map Expr.listed).sum ≤ 4 * ts.length
  | _, _, .nil => Nat.le_refl 0
  | _, _, .cons (.mk _ h _) hs => by
    have h := h.price_le
    have hs := listed_repeated hs
    simp only [List.map_cons, List.sum_cons, Expr.listed, List.length_append, List.length_cons]
    omega

end

theorem dimensions_price_le {dimensions : List Expr} (h : Repeated Index ts dimensions) :
    (dimensions.map Expr.price).sum ≤ 4 * ts.length :=
  Nat.le_trans (sum_price_le dimensions) (listed_repeated h)

/-! ## Lists -/

theorem sum_repeated (hrule : ∀ ts a, rule ts a → f a ≤ 4 * ts.length)
    (h : Repeated rule ts as) : (as.map f).sum ≤ 4 * ts.length := by
  induction h with
  | nil => exact Nat.le_refl 0
  | cons head _ ih =>
    have head := hrule _ _ head
    rw [List.map_cons, List.sum_cons, List.length_append]
    omega

theorem sum_separated (hrule : ∀ ts a, rule ts a → f a ≤ 4 * ts.length + 4)
    (h : Separated rule ts as) : (as.map f).sum ≤ 4 * ts.length + 4 := by
  induction h with
  | single head => simpa using hrule _ _ head
  | cons head _ _ ih =>
    have head := hrule _ _ head
    rw [List.map_cons, List.sum_cons, List.length_append, List.length_cons]
    omega

theorem sum_listing (hrule : ∀ ts a, rule ts a → f a ≤ 4 * ts.length + 4)
    (h : Listing rule ts as) : (as.map f).sum ≤ 4 * ts.length + 4 := by
  cases h with
  | none => exact Nat.zero_le 4
  | some items => exact sum_separated hrule items

/-! ## Declarations -/

/-- The price of the elements of an initializer. -/
def elementsPrice (i : Initializer) : Nat := (i.exprs.map (·.price + 5)).sum

mutual

theorem Initial.elements_le : ∀ {ts : Tokens} {i : Initializer}, Initial ts i →
    elementsPrice i ≤ 4 * ts.length + 1
  | _, _, .expr h => by
    have h := h.price_le
    rw [elementsPrice, Initializer.exprs, List.map_singleton, List.sum_singleton]
    omega
  | _, _, .list _ .none _ => by
    rw [elementsPrice, Initializer.exprs]
    exact Nat.zero_le _
  | _, _, .list _ (.some h) _ => by
    have h := initials_elements_le h
    rw [elementsPrice, Initializer.exprs]
    simp only [List.length_cons, List.length_append]
    omega

theorem initials_elements_le : ∀ {ts : Tokens} {is : List Initializer}, Separated Initial ts is →
    ((is.flatMap Initializer.exprs).map (·.price + 5)).sum ≤ 4 * ts.length + 4
  | _, _, .single h => by
    have h := h.elements_le
    rw [elementsPrice] at h
    rw [List.flatMap_singleton]
    omega
  | _, _, .cons h _ hs => by
    have h := h.elements_le
    have hs := initials_elements_le hs
    rw [elementsPrice] at h
    rw [List.flatMap_cons, List.map_append, List.sum_append, List.length_append, List.length_cons]
    omega

end

theorem Defines.price_le {d : Definition} (h : Defines ts d) : d.price ≤ 4 * ts.length := by
  cases h with
  | plain _ hdim =>
    have hdim := dimensions_price_le hdim
    rw [Definition.price, List.length_cons]
    dsimp only [Option.elim_none]
    omega
  | initialized _ hdim _ hini =>
    have hdim := dimensions_price_le hdim
    have hini := hini.elements_le
    rw [elementsPrice] at hini
    rw [Definition.price, Option.elim_some, Initializer.price]
    simp only [List.length_cons, List.length_append]
    omega

theorem Declares.price_le {d : Declaration} (h : Declares ts d) : d.price ≤ 4 * ts.length := by
  have hdefs : ∀ {ts definitions}, Separated Defines ts definitions →
      (definitions.map Definition.price).sum ≤ 4 * ts.length + 4 := fun h =>
    sum_separated (fun _ _ h => Nat.le_add_right_of_le h.price_le) h
  rw [Declaration.price]
  cases h with
  | ordinary _ h _ | constant _ _ h _ =>
    have h := hdefs h
    simp only [List.length_cons, List.length_append]
    omega

/-! ## Statements -/

mutual

theorem States.price_le : ∀ {ts : Tokens} {s : Statement}, States ts s → s.price ≤ 4 * ts.length
  | _, _, .assign _ hids _ hval _ => by
    have hids := listed_repeated hids
    have hval := hval.price_le
    rw [Statement.price, price_ofExprs]
    simp only [List.length_cons, List.length_append]
    omega
  | _, _, .expr hval _ => by
    have hval := hval.price_le
    rw [Statement.price, List.length_append]
    omega
  | _, _, .empty _ | _, _, .break _ _ | _, _, .continue _ _ | _, _, .returnNothing _ _ =>
    Nat.zero_le _
  | _, _, .block (.mk _ hbody _) => by
    have hbody := hbody.price_le
    rw [Statement.price]
    simp only [List.length_cons, List.length_append]
    omega
  | _, _, .ifThen _ _ hcond _ hyes => by
    have hcond := hcond.price_le
    have hyes := hyes.price_le
    rw [Statement.price]
    simp only [List.length_cons, List.length_append]
    omega
  | _, _, .ifElse _ _ hcond _ hyes _ hno => by
    have hcond := hcond.price_le
    have hyes := hyes.price_le
    have hno := hno.price_le
    rw [Statement.price]
    simp only [List.length_cons, List.length_append]
    omega
  | _, _, .while _ _ hcond _ hbody => by
    have hcond := hcond.price_le
    have hbody := hbody.price_le
    rw [Statement.price]
    simp only [List.length_cons, List.length_append]
    omega
  | _, _, .returnValue _ hval _ => by
    have hval := hval.price_le
    rw [Statement.price, Option.elim_some]
    simp only [List.length_cons, List.length_append]
    omega

theorem Sequence.price_le : ∀ {ts : Tokens} {b : Block}, Sequence ts b → b.price ≤ 4 * ts.length
  | _, _, .nil => Nat.zero_le _
  | _, _, .declaration head tail => by
    have head := head.price_le
    have tail := tail.price_le
    rw [Block.price, List.length_append]
    omega
  | _, _, .statement head tail => by
    have head := head.price_le
    have tail := tail.price_le
    rw [Block.price, List.length_append]
    omega

end

/-! ## Programs -/

theorem Takes.price_le {p : Parameter} (h : Takes ts p) : p.price + 4 ≤ 4 * ts.length + 4 := by
  cases h with
  | scalar => exact Nat.le_add_left 4 _
  | array _ _ _ _ hdim =>
    have hdim := dimensions_price_le hdim
    rw [Parameter.price, Option.elim_some]
    simp only [List.length_cons]
    omega

theorem sum_price_add (parameters : List Parameter) :
    (parameters.map (·.price + 4)).sum =
      (parameters.map Parameter.price).sum + 4 * parameters.length := by
  induction parameters with
  | nil => rfl
  | cons parameter rest ih =>
    simp only [List.map_cons, List.sum_cons, List.length_cons]
    omega

theorem Part.price_le {item : Item} (h : Part ts item) : item.price ≤ 4 * ts.length := by
  cases h with
  | declaration h => exact h.price_le
  | @function _ _ _ _ _ _ _ _ parameters _ _ _ _ hpars _ hbody =>
    obtain ⟨_, hbody, _⟩ := hbody
    have hbody := hbody.price_le
    have hpars := sum_listing (fun _ _ h => h.price_le) hpars
    rw [sum_price_add] at hpars
    rw [Item.price, Function.price]
    simp only [List.length_cons, List.length_append]
    omega

end Grammar

/-- Tokens pay for the program that is read from them. -/
theorem price_ofTokens {tokens : List (Located Token)} {program : Program}
    (h : Program.ofTokens tokens = .ok program) : program.price ≤ 4 * tokens.length := by
  obtain ⟨hitems⟩ := (Parser.whole_of_ofTokens h).1
  exact Grammar.sum_repeated (fun _ _ h => h.price_le) hitems

end SysY.Tree

namespace SysY.Generation

open Eeyore SysY.Tree Logged List

variable {b b' : Builder} {m n : Nat} {env globals : List Decl} {signatures : Signatures}
  {function : Tree.Function} {w : Written} {sources : List Tree.Function} {tree : Tree.Program}

/-! ## Functions -/

theorem meets_writeFunction (hst : Standing globals { b with code := .empty }) :
    Meets function.price (writeFunction signatures function) b fun f _ =>
      4 * tempCount f.decls ≤ function.price := by
  have hbody := @meets_writeBody signatures _ _ function (orderly_empty function.parameters hst)
    (by simp [Builder.known])
  have hempty : Meets 0 (modify fun builder : Builder => { builder with code := .empty }) b
      fun _ b0 => b0 = { b with code := .empty } :=
    meets_of_builds (a := ()) (builds_modify.2 rfl)
      ⟨Nat.le_refl _, Nat.zero_le _, Nat.le_refl _⟩ rfl
  have hmeets : Meets function.price (writeFunction signatures function) b fun _ _ => True := by
    refine hempty.after ?_
    rintro _ _ rfl
    exact hbody.andThen fun _ _ _ => .free (builds_get.2 ⟨rfl, rfl⟩) (meets_pure trivial)
  refine ⟨fun f b' hb => ?_, hmeets.takes, hmeets.safe⟩
  obtain ⟨_, _, _, _, _, hdcl⟩ := law_writeFunction hb hst
  have hcnt := hdcl.tempCount (Nat.le_of_lt b'.code.temps.toNat_lt)
  have htemps := (hbody.takes _ _ (builds_writeFunction hb).1).temps
  have hnone : Code.empty.temps.toNat = 0 := rfl
  dsimp only at htemps
  omega

/-! ## Items -/

/-- The most tokens of a program: with so many, no counter is used up. -/
def maxTokens : Nat := 2 ^ 28

/-- What items of a price have taken. The temporaries of the initializers go to `main` in the end, so
that each function is counted together with them. -/
structure Counted (n : Nat) (w : Written) : Prop where
  labels : w.builder.lastLabel.toNat ≤ n
  vars : w.builder.nextVar.toNat ≤ n
  temps : 4 * w.builder.code.temps.toNat ≤ n
  globals : 4 * w.globals.temps.toNat ≤ n
  functions : ∀ f ∈ w.functions.toList,
    4 * (tempCount f.decls + f.parameters.toNat + 4 + w.globals.temps.toNat) ≤ n

theorem counted_empty : Counted 0 ⟨.empty, .empty, #[]⟩ :=
  ⟨Nat.le_refl 0, Nat.le_refl 0, Nat.le_refl 0, Nat.le_refl 0, by simp⟩

theorem counted_writeItem {item : Item} (hlaw : ItemsLaw signatures sources w)
    (hctd : Counted n w) (hshort : n + item.price < 4 * maxTokens) :
    (∀ fault, (writeItem signatures w item).result ≠ .error (.fault fault)) ∧
      ∀ w', (writeItem signatures w item).result = .ok w' → Counted (n + item.price) w' := by
  obtain ⟨hlabs, hvars, htemps, hglobs, hfns⟩ := hctd
  have hmax : 8 * maxTokens ≤ wordValues := by decide
  cases item with
  | declaration declaration =>
    rw [Item.price] at hshort ⊢
    have hmeets := @meets_declare signatures [] _ true declaration ⟨hlaw.init.neat, hlaw.standing⟩
    refine ⟨fun fault hflt => ?_, fun w' hres => ?_⟩
    · simp only [writeItem, result_bind, result_ofExcept] at hflt
      rcases bind_eq_error.1 hflt with hflt | ⟨_, _, ⟨⟩⟩
      exact hmeets.safe ⟨by dsimp only; omega, by dsimp only; omega, by dsimp only; omega⟩ fault hflt
    · obtain ⟨_, builder, ⟨⟩, hb, rfl⟩ | ⟨_, _, _, ⟨⟩, _⟩ := result_writeItem hres
      obtain ⟨hlabs', htemps', hvars'⟩ := hmeets.takes _ _ hb
      dsimp only at hlabs' htemps' hvars'
      refine ⟨by dsimp only; omega, by dsimp only; omega, by dsimp only; omega,
        by dsimp only; omega, fun f hf => ?_⟩
      have hf := hfns f hf
      dsimp only
      omega
  | function function =>
    rw [Item.price] at hshort ⊢
    have hmeets := @meets_writeFunction _ _ signatures function (Standing.outside hlaw.standing)
    refine ⟨fun fault hflt => ?_, fun w' hres => ?_⟩
    · simp only [writeItem, result_bind, result_ofExcept] at hflt
      rcases bind_eq_error.1 hflt with hflt | ⟨_, _, ⟨⟩⟩
      exact hmeets.safe ⟨by omega, by omega, by omega⟩ fault hflt
    · obtain ⟨_, _, ⟨⟩, _⟩ | ⟨_, f, builder, ⟨⟩, hb, rfl⟩ := result_writeItem hres
      obtain ⟨hlabs', htemps', hvars'⟩ := hmeets.takes _ _ hb
      have hcnt := hmeets.post _ _ hb
      refine ⟨by dsimp only; omega, by dsimp only; omega, by dsimp only; omega,
        by dsimp only; omega, fun g hg => ?_⟩
      rw [Array.toList_push, mem_append, mem_singleton] at hg
      rcases hg with hg | rfl
      · have hg := hfns g hg
        dsimp only
        omega
      · have hpars : g.parameters.toNat ≤ function.parameters.length := by
          obtain ⟨_, rfl⟩ := builds_writeFunction hb
          exact Nat.le_trans (Nat.le_of_eq UInt32.toNat_ofNat') (Nat.mod_le _ _)
        dsimp only
        omega

theorem counted_items {items : List Item} (hlaw : ItemsLaw signatures sources w)
    (hctd : Counted n w) (hshort : n + (items.map Item.price).sum < 4 * maxTokens) :
    (∀ fault, (items.foldlM (writeItem signatures) w).result ≠ .error (.fault fault)) ∧
      ∀ w', (items.foldlM (writeItem signatures) w).result = .ok w' →
        Counted (n + (items.map Item.price).sum) w' := by
  induction items generalizing n sources w with
  | nil =>
    refine ⟨nofun, fun w' hres => ?_⟩
    cases hres
    exact hctd
  | cons item items ih =>
    rw [map_cons, sum_cons, ← Nat.add_assoc] at hshort ⊢
    obtain ⟨hsafe, hnxt⟩ := @counted_writeItem _ _ _ _ item hlaw hctd (by omega)
    rw [foldlM_cons, result_bind]
    -- what holds behind the first item
    have hrest : ∀ w1, (writeItem signatures w item).result = .ok w1 →
        ∃ sources', ItemsLaw signatures sources' w1 := by
      intro w1 hfst
      have hsingle : ([item].foldlM (writeItem signatures) w).result = .ok w1 := by
        rw [foldlM_cons, result_bind, hfst]
        rfl
      exact ⟨_, itemsLaw_items hlaw hsingle⟩
    refine ⟨fun fault hflt => ?_, fun w' hres => ?_⟩
    · rcases bind_eq_error.1 hflt with hflt | ⟨w1, hfst, hflt⟩
      · exact hsafe fault hflt
      · obtain ⟨sources', hlaw1⟩ := hrest w1 hfst
        exact (ih hlaw1 (hnxt w1 hfst) hshort).1 fault hflt
    · obtain ⟨w1, hfst, hres⟩ := bind_eq_ok.1 hres
      obtain ⟨sources', hlaw1⟩ := hrest w1 hfst
      exact (ih hlaw1 (hnxt w1 hfst) hshort).2 w' hres

/-! ## Programs -/

theorem relocate_ok {code : Code} {main : Eeyore.Function} (hinit : InitLaw signatures code)
    (hroom : code.temps.toNat + tempCount main.decls ≤ wordValues) :
    ∃ parts, relocate code main = .ok parts := by
  have hoff : (UInt32.ofNat (tempCount main.decls)).toNat ≤ tempCount main.decls := by
    rw [UInt32.toNat_ofNat']
    exact Nat.mod_le _ _
  have hdeclared : ∀ x, Declared code.decls.toList x →
      canShift (.ofNat (tempCount main.decls)) x = true := by
    rintro x ⟨size, hmem⟩
    rcases hinit.known _ hmem with ⟨i, heq, hi⟩ | ⟨i, _, heq⟩
    · cases heq
      have hlt : i.toNat + (UInt32.ofNat (tempCount main.decls)).toNat < wordValues := by omega
      rw [canShift, Bool.or_eq_true]
      exact .inr (decide_eq_true hlt)
    · cases heq
      rfl
  unfold relocate
  simp only [partition_eq_filter_filter]
  rw [if_pos]
  · exact ⟨_, rfl⟩
  · refine List.all_eq_true.2 fun x hx => hdeclared x ?_
    rcases List.mem_append.1 hx with hx | hx
    · obtain ⟨d, hd, rfl⟩ := List.mem_map.1 hx
      exact ⟨d.size, (List.mem_filter.1 hd).1⟩
    · obtain ⟨i, hi, hx⟩ := List.mem_flatMap.1 hx
      exact (hinit.lawful i hi).declared hx

theorem generate_no_fault (hshort : tree.price < 4 * maxTokens) (fault : Fault) :
    (generate tree).result ≠ .error (.fault fault) := by
  intro hflt
  unfold generate at hflt
  simp only [result_bind, result_ofExcept] at hflt
  rcases bind_eq_error.1 hflt with hflt | ⟨signatures, _, hflt⟩
  · obtain ⟨_, _, ⟨⟩⟩ := mapError_eq_error.1 hflt
  rw [Program.price, ← Nat.zero_add (sum _)] at hshort
  have hlaw := itemsLaw_empty signatures
  obtain ⟨hsafe, hnxt⟩ := counted_items hlaw counted_empty hshort
  rcases bind_eq_error.1 hflt with hflt | ⟨w, hitems, hflt⟩
  · exact hsafe fault hflt
  have hinit := (itemsLaw_items hlaw hitems).init
  have hctd := hnxt w hitems
  cases hfind : w.functions.toList.find? (·.name == "main") with
  | none =>
    rw [hfind] at hflt
    cases hflt
  | some main =>
    rw [hfind] at hflt
    simp only [result_bind, result_ofExcept] at hflt
    have hmain := hctd.functions main (mem_of_find?_eq_some hfind)
    have hglobs := hctd.globals
    have hmax : 8 * maxTokens ≤ wordValues := by decide
    obtain ⟨parts, hparts⟩ := @relocate_ok signatures w.globals main hinit (by omega)
    rw [hparts] at hflt
    cases hflt

theorem tempCount_generate {program : Eeyore.Program} (hshort : tree.price < 4 * maxTokens)
    (h : (generate tree).result = .ok program) :
    ∀ f ∈ program.code, 4 * (tempCount f.decls + f.parameters.toNat + 4) ≤ tree.price := by
  obtain ⟨signatures, w, main, main', _, hitems, hfind, hrel, hcode⟩ := generate_eq_ok h
  have hlaw := itemsLaw_items (itemsLaw_empty signatures) hitems
  rw [Program.price, ← Nat.zero_add (sum _)] at hshort ⊢
  have hctd := (counted_items (itemsLaw_empty signatures) counted_empty hshort).2 w hitems
  have hmem := mem_of_find?_eq_some hfind
  obtain ⟨source, _, hmain⟩ := exists_of_forall₂ hlaw.functions hmem
  obtain ⟨_, _, _, _, htemps⟩ := law_relocate hlaw.init hmain.1 hmain.2 hrel
  obtain ⟨_, _, hmain'⟩ := relocate_eq_ok hrel
  obtain ⟨front, back, hspl, hrep⟩ := replaceFirst_eq main' hfind
  have hpars : main'.parameters = main.parameters := by rw [hmain']
  intro f hf
  rw [hcode, hrep, mem_append, mem_cons] at hf
  rcases hf with hf | rfl | hf
  · have hbnd := hctd.functions f (by rw [hspl]; exact mem_append_left _ hf)
    omega
  · have hbnd := hctd.functions main hmem
    rw [hpars]
    omega
  · have hbnd := hctd.functions f (by
      rw [hspl]
      exact mem_append_right _ (mem_cons_of_mem _ hf))
    omega

end SysY.Generation

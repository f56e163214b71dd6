import SysY.Proofs.Generation.Emission

/-!
# Inversion of definitions and statements

What each step on an initializer, a definition, a statement or a function writes if it succeeds. The
code of a statement is cut where the source has its parts, so that later proofs speak about the
builders between them. Initializers and simple statements only add instructions, new temporaries and
new labels, as expressions do.
-/

namespace SysY.Generation

open Eeyore SysY.Tree

variable {α β : Type} {b b' : Builder} {sigs : Signatures} {u : Unit}
  {dimensions : List Int32} {f : α → Build Unit} {a : α} {rest : List α} {init x : β}
  {around : Surroundings} {expr condition : Expr} {position : Nat} {array : Symbol} {value : Value}
  {run : ZeroRun} {initializer : Initializer} {values : Option (Array Int32)} {loc : Location}
  {param : Parameter} {fn : Tree.Function}

/-! ## Loops of steps -/

@[simp] theorem builds_forM_nil :
    Builds (([] : List α).forM f) b u b' ↔ b' = b := by
  simp [show ([] : List α).forM f = pure () from rfl]

@[simp] theorem builds_forM_cons :
    Builds ((a :: rest).forM f) b u b' ↔
      ∃ b1, Builds (f a) b () b1 ∧ Builds (rest.forM f) b1 () b' := by
  simp [show (a :: rest).forM f = f a >>= fun _ => rest.forM f from rfl]

theorem builds_foldlM_nil {f : β → α → Build β} :
    Builds (([] : List α).foldlM f init) b x b' ↔ x = init ∧ b' = b := by
  rw [List.foldlM_nil, builds_pure]

theorem builds_foldlM_cons {f : β → α → Build β} :
    Builds ((a :: rest).foldlM f init) b x b' ↔
      ∃ y b1, Builds (f init a) b y b1 ∧ Builds (rest.foldlM f y) b1 x b' := by
  rw [List.foldlM_cons, builds_bind]

/-! ## Expressions -/

theorem builds_evalConstant {c : Int32} :
    Builds (evalConstant sigs expr) b c b' ↔
      Builds (evalExpr sigs expr) b (.const c) b' := by
  rw [evalConstant, builds_bind]
  constructor
  · rintro ⟨x, b1, hx, h⟩
    cases x <;> simp_all
  · intro h
    exact ⟨.const c, b', h, by simp⟩

theorem discard_cases (h : Builds (discard sigs expr) b u b') :
    (∃ fn args loc x, expr.formula = .call fn args loc ∧
      Builds (call sigs fn args loc) b x b') ∨
    (∃ x, (∀ fn args loc, expr.formula ≠ .call fn args loc) ∧
      Builds (evalExpr sigs expr) b x b') := by
  unfold discard at h
  split at h
  · rename_i fn args loc hform
    obtain ⟨x, b1, hx, h⟩ := builds_bind.1 h
    obtain ⟨-, rfl⟩ := builds_pure.1 h
    exact .inl ⟨fn, args, loc, x, hform, hx⟩
  · rename_i hform
    obtain ⟨x, b1, hx, h⟩ := builds_bind.1 h
    obtain ⟨-, rfl⟩ := builds_pure.1 h
    exact .inr ⟨x, hform, hx⟩

/-! ## Zeros -/

theorem builds_elementOffset {x : Int32} :
    Builds (elementOffset position) b x b' ↔
      signedMul (.ofNat position) wordSize = .ok x ∧ b' = b := builds_checked

theorem builds_writeElement :
    Builds (writeElement array position value) b u b' ↔
      ∃ offset, signedMul (.ofNat position) wordSize = .ok offset ∧
        b' = b.emit (.store array (.const offset) value) := by
  simp [writeElement, elementOffset, and_assoc]

/-- The builder at the top of a loop that writes zeros: its cursor is at the first element. -/
def Builder.clearTop (b : Builder) (start : Int32) : Builder :=
  (b.addTemp.addLabel.emit (.copy (.temp b.code.temps) (.const start))).emit
    (.label ⟨b.lastLabel + 1⟩)

/-- The builder behind a loop that writes zeros from one offset to another. -/
def Builder.clearLoop (b : Builder) (array : Symbol) (start stop : Int32) : Builder :=
  let cursor := Symbol.temp b.code.temps
  (((b.clearTop start).emit (.store array (.symbol cursor) (.const 0))).emit
    (.binary cursor .add (.symbol cursor) (.const wordSize))).emit
    (.branch (.symbol cursor) .lt (.const stop) ⟨b.lastLabel + 1⟩)

theorem builds_clearByLoop :
    Builds (clearByLoop array run) b u b' ↔
      b.code.temps.toNat + 1 < wordValues ∧ b.lastLabel.toNat + 1 < wordValues ∧
      ∃ start stop, signedMul (.ofNat run.start) wordSize = .ok start ∧
        signedMul (.ofNat (run.start + run.length)) wordSize = .ok stop ∧
        b' = b.clearLoop array start stop := by
  simp only [clearByLoop, builds_bind, builds_newTemp, builds_newLabel, builds_elementOffset,
    builds_push]
  constructor
  · rintro ⟨_, _, ⟨htemp, rfl, rfl⟩, _, _, ⟨hlab, rfl, rfl⟩, start, _, ⟨hstart, rfl⟩, -, _, rfl,
      -, _, rfl, -, _, rfl, -, _, rfl, stop, _, ⟨hstop, rfl⟩, rfl⟩
    exact ⟨htemp, hlab, start, stop, hstart, hstop, rfl⟩
  · rintro ⟨htemp, hlab, start, stop, hstart, hstop, rfl⟩
    exact ⟨_, _, ⟨htemp, rfl, rfl⟩, _, _, ⟨hlab, rfl, rfl⟩, start, _, ⟨hstart, rfl⟩, ⟨⟩, _, rfl,
      ⟨⟩, _, rfl, ⟨⟩, _, rfl, ⟨⟩, _, rfl, stop, _, ⟨hstop, rfl⟩, rfl⟩

theorem builds_clear :
    Builds (clear array run) b u b' ↔
      (run.length < loopThreshold ∧ Builds ((List.range' run.start run.length).forM
        fun position => writeElement array position (.const 0)) b u b') ∨
      (¬ run.length < loopThreshold ∧ Builds (clearByLoop array run) b u b') := by
  unfold clear
  split
  · rename_i h
    simp [h]
  · rename_i h
    simp [h]

theorem emits_writeElement
    (h : Builds (writeElement array position value) b u b') : Emits b b' := by
  obtain ⟨offset, _, rfl⟩ := builds_writeElement.1 h
  exact .emit _ rfl trivial

theorem emits_writeElements {positions : List Nat}
    (h : Builds (positions.forM fun position => writeElement array position (.const 0)) b u b') :
    Emits b b' := by
  induction positions generalizing b with
  | nil =>
    obtain rfl := builds_forM_nil.1 h
    exact .refl _
  | cons position positions ih =>
    obtain ⟨b1, hfst, hrest⟩ := builds_forM_cons.1 h
    exact (emits_writeElement hfst).trans (ih hrest)

theorem emits_clearTop (start : Int32) (htemp : b.code.temps.toNat + 1 < wordValues)
    (hlab : b.lastLabel.toNat + 1 < wordValues) : Emits b (b.clearTop start) := by
  have hcopy : Emits b.addTemp.addLabel
      (b.addTemp.addLabel.emit (.copy (.temp b.code.temps) (.const start))) :=
    .emit _ rfl trivial
  exact (Emits.addTemp htemp).trans (.mark hlab hcopy)

theorem emits_clear (h : Builds (clear array run) b u b') : Emits b b' := by
  rcases builds_clear.1 h with ⟨_, h⟩ | ⟨_, h⟩
  · exact emits_writeElements h
  · obtain ⟨htemp, hlab, start, stop, _, _, rfl⟩ := builds_clearByLoop.1 h
    have hloop : Emits (b.clearTop start) (b.clearLoop array start stop) :=
      .trans (.trans (.emit _ (by rfl) (by trivial)) (.emit _ (by rfl) (by rfl)))
        (.emit _ (by rfl) (by trivial))
    exact (emits_clearTop start htemp hlab).trans hloop

/-! ## Initializers -/

section Initializers

variable {target : Target} {progress p : Progress} {cells : List Cell}

theorem initializeElement_cases (h : Builds (initializeElement target progress value) b p b') :
    (target.isConstant = true ∧ target.isArray = false ∧ p = progress ∧ b' = b) ∨
    (¬ (target.isConstant = true ∧ target.isArray = false) ∧
      ((value = .const 0 ∧ (target.isGlobal = true ∨ target.isArray = true) ∧
          p = progress.skip target 1 ∧ b' = b) ∨
        (¬ (value = .const 0 ∧ (target.isGlobal = true ∨ target.isArray = true)) ∧
          p = { progress with zeros := .none } ∧
          ∃ b1, Builds (clear target.symbol progress.zeros) b () b1 ∧
            ((target.isArray = true ∧
                Builds (writeElement target.symbol progress.position value) b1 () b') ∨
              (target.isArray = false ∧ b' = b1.emit (.copy target.symbol value)))))) := by
  unfold initializeElement at h
  split at h
  · simp_all
  · split at h
    · simp_all
    · rename_i hz
      obtain ⟨⟨⟩, b1, hclr, h⟩ := builds_bind.1 h
      refine .inr ⟨by simp_all, .inr ⟨by simpa using hz, ?_, b1, hclr, ?_⟩⟩ <;>
        cases harr : target.isArray <;> simp_all

theorem values_initializeElement (h : Builds (initializeElement target progress value) b p b') :
    p.values = progress.values ∧ p.position = progress.position := by
  rcases initializeElement_cases h with ⟨_, _, rfl, _⟩ | ⟨_, ⟨_, _, rfl, _⟩ | ⟨_, rfl, _⟩⟩
  · exact ⟨rfl, rfl⟩
  · unfold Progress.skip
    split <;> exact ⟨rfl, rfl⟩
  · exact ⟨rfl, rfl⟩

theorem initializeCell_value
    (h : Builds (initializeCell sigs target progress (.value expr)) b p b') :
    ∃ x b1 p1, Builds (evalExpr sigs expr) b x b1 ∧
      Builds (initializeElement target progress x) b1 p1 b' ∧
      p.position = progress.position + 1 ∧ p.zeros = p1.zeros ∧
      (target.isConstant = true → ∃ c, x = .const c ∧ p.values = progress.values.push c) := by
  rw [initializeCell] at h
  split at h
  · simp only [builds_bind, builds_pure] at h
    obtain ⟨c, b1, hc, p1, _, hp1, rfl, rfl⟩ := h
    obtain ⟨hvals, hpos⟩ := values_initializeElement hp1
    exact ⟨.const c, b1, p1, builds_evalConstant.1 hc, hp1, congrArg (· + 1) hpos, rfl,
      fun _ => ⟨c, rfl, congrArg (Array.push · c) hvals⟩⟩
  · rename_i hvar
    simp only [builds_bind, builds_pure] at h
    obtain ⟨x, b1, hx, p1, _, hp1, rfl, rfl⟩ := h
    exact ⟨x, b1, p1, hx, hp1, congrArg (· + 1) (values_initializeElement hp1).2, rfl,
      fun hcst => absurd hcst hvar⟩

theorem initializeCell_blank {count : Nat}
    (h : Builds (initializeCell sigs target progress (.blank count)) b p b') :
    b' = b ∧ p.position = progress.position + count ∧
      p.zeros = (if count = 0 then progress else progress.skip target count).zeros ∧
      p.values = progress.values ++
        (if target.isConstant then Array.replicate count 0 else #[]) := by
  obtain ⟨rfl, rfl⟩ := builds_pure.1 h
  refine ⟨rfl, ?_⟩
  by_cases hcnt : count = 0 <;> by_cases hglob : target.isGlobal = true <;>
    simp [hcnt, hglob, Progress.skip]

theorem builds_writeInitializer {dimensions : List Nat}
    (h : Builds (writeInitializer sigs target dimensions initializer) b values b') :
    ∃ cells progress b1, distribute dimensions initializer = .ok cells ∧
      Builds (cells.foldlM (initializeCell sigs target) ⟨0, .none, #[]⟩) b progress b1 ∧
      Builds (clear target.symbol progress.zeros) b1 () b' ∧
      values = if target.isConstant then some progress.values else none := by
  simpa [writeInitializer, mapError_eq_ok, and_comm, and_assoc] using h

theorem emits_initializeElement
    (h : Builds (initializeElement target progress value) b p b') : Emits b b' := by
  rcases initializeElement_cases h with ⟨_, _, _, rfl⟩ | ⟨_, ⟨_, _, _, rfl⟩ | ⟨_, _, b1, hclr, hw⟩⟩
  · exact .refl _
  · exact .refl _
  · refine (emits_clear hclr).trans ?_
    rcases hw with ⟨_, hw⟩ | ⟨_, rfl⟩
    · exact emits_writeElement hw
    · exact .emit _ rfl trivial

theorem emits_initializeCell {cell : Cell}
    (h : Builds (initializeCell sigs target progress cell) b p b') : Emits b b' := by
  cases cell with
  | value expr =>
    obtain ⟨x, b1, p1, hx, helt, _⟩ := initializeCell_value h
    exact (emits_eval hx).trans (emits_initializeElement helt)
  | blank count =>
    obtain ⟨rfl, _⟩ := initializeCell_blank h
    exact .refl _

theorem emits_initializeCells
    (h : Builds (cells.foldlM (initializeCell sigs target) progress) b p b') :
    Emits b b' := by
  induction cells generalizing b progress with
  | nil =>
    obtain ⟨_, rfl⟩ := builds_foldlM_nil.1 h
    exact .refl _
  | cons cell cells ih =>
    obtain ⟨p1, b1, hcell, hrest⟩ := builds_foldlM_cons.1 h
    exact (emits_initializeCell hcell).trans (ih hrest)

theorem distribute_nil
    (h : distribute [] initializer = .ok cells) : ∃ expr, cells = [.value expr] := by
  cases initializer with
  | expr value =>
    simp only [distribute, List.isEmpty_nil, if_true, Except.ok.injEq] at h
    exact ⟨value, h.symm⟩
  | list items loc =>
    simp [distribute] at h

theorem builds_clear_none {symbol : Symbol} (h : Builds (clear symbol run) b u b')
    (hrun : run.length = 0) : b' = b := by
  rcases builds_clear.1 h with ⟨_, h⟩ | ⟨hlong, _⟩
  · rw [hrun, List.range'_zero] at h
    exact builds_forM_nil.1 h
  · rw [hrun] at hlong
    exact absurd (by decide) hlong

theorem writeInitializer_scalar (htgt : target.isArray = false)
    (h : Builds (writeInitializer sigs target [] initializer) b values b') :
    ∃ expr x b1 p, distribute [] initializer = .ok [.value expr] ∧
      Builds (evalExpr sigs expr) b x b1 ∧
      Builds (initializeElement target ⟨0, .none, #[]⟩ x) b1 p b' ∧
      ((target.isConstant = true ∧ ∃ c, x = .const c ∧ values = some #[c]) ∨
        (target.isConstant = false ∧ values = none)) := by
  obtain ⟨cells, progress, b1, hcel, hprg, hclr, rfl⟩ := builds_writeInitializer h
  obtain ⟨expr, rfl⟩ := distribute_nil hcel
  obtain ⟨p1, b2, hcell, hrest⟩ := builds_foldlM_cons.1 hprg
  obtain ⟨rfl, rfl⟩ := builds_foldlM_nil.1 hrest
  obtain ⟨x, b0, p0, hx, helt, -, hzeros, hvals⟩ := initializeCell_value hcell
  have hnone : p0.zeros = .none := by
    rcases initializeElement_cases helt with ⟨_, _, rfl, _⟩ | ⟨_, ⟨_, hglob, rfl, _⟩ | ⟨_, rfl, _⟩⟩
    · rfl
    · rw [Progress.skip, if_pos (by simpa [htgt] using hglob)]
    · rfl
  obtain rfl := builds_clear_none hclr (by rw [hzeros, hnone]; rfl)
  refine ⟨expr, x, b0, p0, hcel, hx, helt, ?_⟩
  cases hcst : target.isConstant with
  | true =>
    obtain ⟨c, rfl, hc⟩ := hvals hcst
    exact .inl ⟨rfl, c, rfl, by rw [if_pos rfl, hc]; rfl⟩
  | false => exact .inr ⟨rfl, rfl⟩

theorem emits_writeInitializer {dimensions : List Nat}
    (h : Builds (writeInitializer sigs target dimensions initializer) b values b') :
    Emits b b' := by
  obtain ⟨cells, progress, b1, _, hprg, hclr, _⟩ := builds_writeInitializer h
  exact (emits_initializeCells hprg).trans (emits_clear hclr)

end Initializers

/-! ## Definitions -/

def Builder.addName (b : Builder) (name : String) (meaning : Meaning) : Builder :=
  { b with scopes := b.scopes.add name meaning }

theorem builds_evalDimensions_cons {rest : List Expr}
    (h : Builds (evalDimensions sigs (expr :: rest)) b dimensions b') :
    ∃ d ds b1, dimensions = d :: ds ∧ 0 < d ∧ Builds (evalExpr sigs expr) b (.const d) b1 ∧
      Builds (evalDimensions sigs rest) b1 ds b' := by
  rw [evalDimensions] at h
  obtain ⟨d, b1, hd, h⟩ := builds_bind.1 h
  split at h
  · rename_i hpos
    simp only [builds_bind, builds_pure] at h
    obtain ⟨ds, _, hds, rfl, rfl⟩ := h
    exact ⟨d, ds, b1, rfl, hpos, builds_evalConstant.1 hd, hds⟩
  · simp at h

theorem builds_elementCount {count : UInt32} :
    Builds (elementCount dimensions loc) b count b' ↔
      extent (lengths dimensions) ≤ maxElements ∧
        count = .ofNat (extent (lengths dimensions)) ∧ b' = b := by
  by_cases h : extent (lengths dimensions) ≤ maxElements <;> simp [elementCount, h]

/-- The size that a definition is declared with. -/
def sizeOf? (dimensions : List Int32) : Option UInt32 :=
  if dimensions.isEmpty then none else some (.ofNat (extent (lengths dimensions)))

theorem ite_isEmpty_eq_sizeOf? (dimensions : List Int32) :
    (if !dimensions.isEmpty then some (.ofNat (extent (lengths dimensions))) else none) =
      sizeOf? dimensions := by
  cases dimensions <;> rfl

theorem builds_define {isConstant isGlobal : Bool} {definition : Definition}
    (h : Builds (define sigs isConstant isGlobal definition) b u b') :
    ∃ dimensions b1 values b2, Builds (evalDimensions sigs definition.dimensions) b dimensions b1 ∧
      extent (lengths dimensions) ≤ maxElements ∧ b1.nextVar.toNat + 1 < wordValues ∧
      ((∃ initializer, definition.initializer = some initializer ∧
          Builds (writeInitializer sigs
            ⟨.var b1.nextVar, !dimensions.isEmpty, isConstant, isGlobal⟩ (lengths dimensions)
            initializer) (b1.addVar (sizeOf? dimensions)) values b2) ∨
        (definition.initializer = none ∧ isConstant = false ∧ values = none ∧
          b2 = b1.addVar (sizeOf? dimensions))) ∧
      b2.scopes.current.lookup definition.name.value = none ∧
      b' = b2.addName definition.name.value ⟨.var b1.nextVar, dimensions, values⟩ := by
  obtain ⟨dimensions, b1, hdim, hnxt⟩ := builds_bind.1 h
  obtain ⟨count, b0, hsz, hthen⟩ := builds_bind.1 hnxt
  obtain ⟨hsm, rfl, rfl⟩ := builds_elementCount.1 hsz
  obtain ⟨symbol, b1, hvar, hrest⟩ := builds_bind.1 hthen
  rw [ite_isEmpty_eq_sizeOf?] at hvar
  obtain ⟨hroom, rfl, rfl⟩ := builds_newVar.1 hvar
  cases hinit : definition.initializer with
  | some initializer =>
    simp only [hinit] at hrest
    obtain ⟨values, b2, hvals, hlast⟩ := builds_bind.1 hrest
    obtain ⟨hnew, hb'⟩ := builds_defineName.1 hlast
    exact ⟨dimensions, b0, values, b2, hdim, hsm, hroom, .inl ⟨initializer, rfl, hvals⟩, hnew, hb'⟩
  | none =>
    simp only [hinit] at hrest
    split at hrest
    · obtain ⟨_, _, hreject, _⟩ := builds_bind.1 hrest
      exact absurd hreject not_builds_reject
    · rename_i hconst
      obtain ⟨values, b2, hvals, hlast⟩ := builds_bind.1 hrest
      obtain ⟨rfl, rfl⟩ := builds_pure.1 hvals
      obtain ⟨hnew, hb'⟩ := builds_defineName.1 hlast
      exact ⟨dimensions, b0, none, _, hdim, hsm, hroom,
        .inr ⟨rfl, by simpa using hconst, rfl, rfl⟩, hnew, hb'⟩

/-! ## Statements -/

theorem assign_cases {target : Place} {value : Expr}
    (h : Builds (assign sigs target value) b u b') :
    ∃ r b1 x b2, Builds (resolve sigs target.name (.ofExprs target.indices) true) b r b1 ∧
      Builds (evalExpr sigs value) b1 x b2 ∧
      ((∃ y, r = .scalar y ∧ b' = b2.emit (.copy y x)) ∨
        (∃ array index, r = .element array index ∧ b' = b2.emit (.store array index x))) := by
  obtain ⟨r, b1, hr, h⟩ := builds_bind.1 h
  refine ⟨r, b1, ?_⟩
  cases r <;> simp_all

theorem returnValue_cases {value : Option Expr}
    (h : Builds (returnValue around value loc) b u b') :
    (∃ expr x b1, around.returns = .int ∧ value = some expr ∧
      Builds (evalExpr around.signatures expr) b x b1 ∧ b' = b1.emit (.return (some x))) ∨
    (around.returns = .void ∧ value = none ∧ b' = b.emit (.return none)) := by
  unfold returnValue at h
  split at h <;> simp_all

theorem emits_assign {target : Place} {value : Expr}
    (h : Builds (assign sigs target value) b u b') : Emits b b' := by
  obtain ⟨r, b1, x, b2, hrsv, hx, hw⟩ := assign_cases h
  refine Emits.trans (emits_resolveWith (fun _ _ _ hidx => emits_evalPosition hidx) hrsv)
    ((emits_eval hx).trans ?_)
  rcases hw with ⟨y, _, rfl⟩ | ⟨array, index, _, rfl⟩
  · exact .emit _ rfl trivial
  · exact .emit _ rfl trivial

theorem emits_discard (h : Builds (discard sigs expr) b u b') :
    Emits b b' := by
  rcases discard_cases h with ⟨fn, args, loc, x, _, hcall⟩ | ⟨x, _, hx⟩
  · exact emits_callWith (fun _ _ hvals => emits_evalAll hvals) hcall
  · exact emits_eval hx

/-- The builder in front of the second branch of a conditional: the first one jumps to its end. -/
def Builder.otherwise (b b2 : Builder) : Builder :=
  (b2.addLabel.emit (.jump ⟨b2.lastLabel + 1⟩)).emit (.label ⟨b.lastLabel + 1⟩)

/-- The labels of a loop that begins at a builder. -/
def Builder.loop (b : Builder) : Loop := ⟨⟨b.lastLabel + 1⟩, ⟨b.lastLabel + 1 + 1⟩⟩

section Statements

variable {around : Surroundings} {loop : Option Loop} {u : Unit} {yes : Statement} {rest : Block}

theorem writeStatement_block {body : Block}
    (h : Builds (writeStatement around loop (.block body)) b u b') :
    ∃ b1 scopes, Builds (writeBlock around loop body) { b with scopes := b.scopes.enter } () b1 ∧
      b1.scopes.leave = .ok scopes ∧ b' = { b1 with scopes := scopes } := by
  simpa [writeStatement, builds_enterScope, builds_leaveScope] using h

theorem writeStatement_ifThen
    (h : Builds (writeStatement around loop (.ifThen condition yes)) b u b') :
    b.lastLabel.toNat + 1 < wordValues ∧ ∃ j b1 b2,
      Builds (branchExpr around.signatures condition false ⟨b.lastLabel + 1⟩) b.addLabel j b1 ∧
      Builds (writeStatement around loop yes) b1 () b2 ∧
      b' = b2.emit (.label ⟨b.lastLabel + 1⟩) := by
  simpa [writeStatement, and_assoc] using h

theorem writeStatement_ifElse {no : Statement}
    (h : Builds (writeStatement around loop (.ifElse condition yes no)) b u b') :
    b.lastLabel.toNat + 1 < wordValues ∧ ∃ j b1 b2 b3,
      Builds (branchExpr around.signatures condition false ⟨b.lastLabel + 1⟩) b.addLabel j b1 ∧
      Builds (writeStatement around loop yes) b1 () b2 ∧
      b2.lastLabel.toNat + 1 < wordValues ∧
      Builds (writeStatement around loop no) (b.otherwise b2) () b3 ∧
      b' = b3.emit (.label ⟨b2.lastLabel + 1⟩) := by
  simpa [writeStatement, Builder.otherwise, and_assoc] using h

theorem writeStatement_while {body : Statement}
    (h : Builds (writeStatement around loop (.while condition body)) b u b') :
    b.lastLabel.toNat + 1 < wordValues ∧ b.addLabel.lastLabel.toNat + 1 < wordValues ∧ ∃ j b1 b2,
      Builds (branchExpr around.signatures condition false b.loop.exit)
        (b.addLabel.addLabel.emit (.label b.loop.head)) j b1 ∧
      Builds (writeStatement around (some b.loop) body) b1 () b2 ∧
      b' = (b2.emit (.jump b.loop.head)).emit (.label b.loop.exit) := by
  simpa [writeStatement, Builder.loop, Builder.addLabel, and_assoc] using h

theorem writeStatement_break (h : Builds (writeStatement around loop (.break loc)) b u b') :
    ∃ l, loop = some l ∧ b' = b.emit (.jump l.exit) := by
  cases loop <;> simp_all [writeStatement]

theorem writeStatement_continue
    (h : Builds (writeStatement around loop (.continue loc)) b u b') :
    ∃ l, loop = some l ∧ b' = b.emit (.jump l.head) := by
  cases loop <;> simp_all [writeStatement]

theorem writeBlock_declaration {decl : Declaration}
    (h : Builds (writeBlock around loop (.declaration decl rest)) b u b') :
    ∃ b1, Builds (declare around.signatures false decl) b () b1 ∧
      Builds (writeBlock around loop rest) b1 () b' := by
  simpa [writeBlock] using h

theorem writeBlock_statement {stmt : Statement}
    (h : Builds (writeBlock around loop (.statement stmt rest)) b u b') :
    ∃ b1, Builds (writeStatement around loop stmt) b () b1 ∧
      Builds (writeBlock around loop rest) b1 () b' := by
  simpa [writeBlock] using h

end Statements

/-! ## Functions -/

theorem parameterDimensions_cases
    (h : Builds (parameterDimensions sigs param) b dimensions b') :
    (param.dimensions = none ∧ dimensions = [] ∧ b' = b) ∨
    (∃ exprs ds, param.dimensions = some exprs ∧ dimensions = 0 :: ds ∧
      Builds (evalDimensions sigs exprs) b ds b' ∧ extent (lengths ds) ≤ maxElements) := by
  unfold parameterDimensions at h
  split at h <;> simp_all [builds_elementCount, and_left_comm]

theorem builds_defineParameters_cons {id : Nat} {rest : List Parameter}
    (h : Builds (defineParameters sigs id (param :: rest)) b u b') :
    ∃ dimensions b1, Builds (parameterDimensions sigs param) b dimensions b1 ∧
      b1.scopes.current.lookup param.name.value = none ∧
      Builds (defineParameters sigs (id + 1) rest)
        (b1.addName param.name.value ⟨.param (.ofNat id), dimensions, none⟩) () b' := by
  simpa [defineParameters, builds_defineName, Builder.addName, and_assoc] using h

/-- What a function returns when its end is reached. -/
def endValue : ReturnType → Option Value
  | .int => some (.const 0)
  | .void => none

theorem finish_cases {returns : ReturnType} (h : Builds (finish returns) b u b') :
    (b.code.body.back?.any (·.isTerminator) = true ∧ b' = b) ∨
    (b.code.body.back?.any (·.isTerminator) = false ∧
      b' = b.emit (.return (endValue returns))) := by
  simp only [finish, builds_bind, builds_get] at h
  obtain ⟨_, _, ⟨rfl, rfl⟩, h⟩ := h
  split at h
  · simp_all
  · cases returns <;> simp_all [endValue]

theorem builds_writeBody (h : Builds (writeBody sigs fn) b u b') :
    ∃ b1 b2 scopes, Builds (defineParameters sigs 0 fn.parameters)
        { b with scopes := b.scopes.enter } () b1 ∧
      Builds (writeStatement ⟨sigs, fn.returns⟩ none (.block fn.body)) b1 () b2 ∧
      b2.scopes.leave = .ok scopes ∧
      Builds (finish fn.returns) { b2 with scopes := scopes } () b' := by
  simpa [writeBody, builds_enterScope, builds_leaveScope, and_assoc] using h

theorem builds_writeFunction {f : Eeyore.Function}
    (h : Builds (writeFunction sigs fn) b f b') :
    Builds (writeBody sigs fn) { b with code := .empty } () b' ∧
      f = ⟨fn.name.value, .ofNat fn.parameters.length, b'.code.decls.toList,
        b'.code.body⟩ := by
  simpa [writeFunction, builds_modify] using h

end SysY.Generation

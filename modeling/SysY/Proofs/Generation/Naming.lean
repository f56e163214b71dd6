import SysY.Proofs.Generation.Evaluation
import SysY.Proofs.Generation.Folding
import SysY.Proofs.Generation.Layout

/-!
# Names

The scopes of a builder give names the meaning that the innermost visible declaration gives them: a
definition changes what its name stands for, and the end of a block brings back what names stood for
in front of it. Variables get the numbers that they have in the order of their definitions.
-/

namespace SysY.Generation

open Eeyore Structured List
open Tree (Expr Definition Declaration Initializer Parameter)

variable {sigs : Signatures} {outer : List Decl} {env : Environment} {b b' : Builder}
  {meaning : Meaning} {isGlobal : Bool} {u : Unit} {dims : List Int32}
  {decl : Declaration} {env' : Environment}

/-! ## Scopes -/

namespace Scopes

theorem find?_add (scopes : Scopes) (name : String) (meaning : Meaning) :
    (scopes.add name meaning).find? = Environment.define scopes.find? name meaning := by
  funext x
  have hlook : ∀ scope : Scope, List.lookup x ((name, meaning) :: scope) =
      if x = name then some meaning else List.lookup x scope := by
    intro scope
    by_cases h : x = name
    · simp [h]
    · have hne : (x == name) = false := by simpa using h
      rw [lookup_cons, hne, if_neg h]
  obtain ⟨inner, global⟩ := scopes
  by_cases h : x = name
  · cases inner <;> simp [find?, add, Environment.define, h]
  · cases inner <;> simp [find?, add, Environment.define, findSome?, hlook, h]

end Scopes

theorem find?_addName (b : Builder) (name : String) (meaning : Meaning) :
    (b.addName name meaning).scopes.find? = Environment.define b.scopes.find? name meaning :=
  Scopes.find?_add b.scopes name meaning

/-! ## Constants -/

theorem evalDimensions_of_constants {exprs : List Expr} {ds : List Int32} (hvld : ValidNames env)
    (henv : b.scopes.find? = env) (hds : exprs.mapM (constant? env ·.formula) = some ds)
    (h : Builds (evalDimensions sigs exprs) b dims b') : dims = ds ∧ b' = b := by
  induction exprs generalizing ds dims with
  | nil =>
    cases hds
    exact builds_pure.1 h
  | cons expr rest ih =>
    obtain ⟨d, ds, hd, hrest, rfl⟩ := List.forall₂_cons_left_iff.1 (mapM_eq_some.1 hds)
    obtain ⟨d', ds', b1, rfl, _, heval, hb⟩ := builds_evalDimensions_cons h
    obtain ⟨hconst, rfl⟩ := eval_of_constant hvld henv hd heval
    cases hconst
    obtain ⟨rfl, rfl⟩ := ih (mapM_eq_some.2 hrest) hb
    exact ⟨rfl, rfl⟩

section Values

variable {target : Target} {progress p : Progress}

theorem values_initializeCells {cells : List Cell} {vs : List Int32}
    (hcst : target.isConstant = true) (hvld : ValidNames env) (henv : b.scopes.find? = env)
    (hvs : (cells.flatMap Cell.expand).mapM (constantElement? env) = some vs)
    (h : Builds (cells.foldlM (initializeCell sigs target) progress) b p b') :
    p.values.toList = progress.values.toList ++ vs := by
  induction cells generalizing b progress vs with
  | nil =>
    cases hvs
    obtain ⟨rfl, _⟩ := builds_foldlM_nil.1 h
    exact (append_nil _).symm
  | cons cell cells ih =>
    obtain ⟨p1, b1, hcell, hrest⟩ := builds_foldlM_cons.1 h
    rw [flatMap_cons, mapM_append] at hvs
    obtain ⟨ws, hfst, hvs⟩ := Option.bind_eq_some_iff.1 hvs
    obtain ⟨zs, hsnd, hvs⟩ := Option.bind_eq_some_iff.1 hvs
    cases hvs
    have henv1 : b1.scopes.find? = env := (emits_initializeCell hcell).find?_eq henv
    rw [mapM_eq_some] at hfst
    have hp1 : p1.values.toList = progress.values.toList ++ ws := by
      cases cell with
      | value expr =>
        obtain ⟨x, b2, p2, hx, -, -, -, hvals⟩ := initializeCell_value hcell
        obtain ⟨c, rfl, hpush⟩ := hvals hcst
        obtain ⟨v, rest, hv, hnil, rfl⟩ := List.forall₂_cons_left_iff.1 hfst
        cases hnil
        obtain ⟨hconst, _⟩ := eval_of_constant hvld henv hv hx
        cases hconst
        rw [hpush]
        exact Array.toList_push
      | blank count =>
        obtain ⟨_, _, _, hvals⟩ := initializeCell_blank hcell
        have hzeros : ws = replicate count 0 := by
          refine List.eq_replicate_iff.2 ⟨?_, fun w hw => ?_⟩
          · rw [← hfst.length_eq]
            exact length_replicate
          · obtain ⟨initial, hinit, hone⟩ := exists_of_forall₂ hfst hw
            rw [eq_of_mem_replicate hinit] at hone
            exact (Option.some.inj hone).symm
        rw [hvals, if_pos hcst, hzeros]
        simp
    rw [ih henv1 hsnd hrest, hp1, append_assoc]

end Values

/-! ## Definitions -/

theorem meaning_cases {constant : Bool} {number : Nat} {definition : Definition}
    (h : meaning? constant env number definition = some meaning) :
    ∃ dims, definition.dimensions.mapM (constant? env ·.formula) = some dims ∧
      ((constant = true ∧ ∃ init cells values, definition.initializer = some init ∧
          distribute (lengths dims) init = .ok cells ∧
          (cells.flatMap Cell.expand).mapM (constantElement? env) = some values ∧
          meaning = ⟨.var (.ofNat number), dims, some values.toArray⟩) ∨
        (constant = false ∧ meaning = ⟨.var (.ofNat number), dims, none⟩)) := by
  unfold meaning? at h
  obtain ⟨dims, hdim, h⟩ := Option.bind_eq_some_iff.1 h
  refine ⟨dims, hdim, ?_⟩
  cases constant with
  | true =>
    obtain ⟨init, hini, h⟩ := Option.bind_eq_some_iff.1 h
    obtain ⟨initial, hinit, h⟩ := Option.bind_eq_some_iff.1 h
    obtain ⟨values, hvals, h⟩ := Option.bind_eq_some_iff.1 h
    cases h
    unfold initialElements at hinit
    split at hinit
    · rename_i cells hcel
      cases hinit
      exact .inl ⟨rfl, init, cells, values, hini, hcel, hvals, rfl⟩
    · cases hinit
  | false =>
    cases h
    exact .inr ⟨rfl, rfl⟩

/-- A definition of a name that has a meaning. -/
structure Defined (signatures : Signatures) (isConstant isGlobal : Bool) (definition : Definition)
    (meaning : Meaning) (b b₂ b' : Builder) : Prop where
  symbol : meaning.symbol = .var b.nextVar
  constant : (isConstant = true ↔ meaning.values ≠ none)
  room : b.nextVar.toNat + 1 < wordValues
  small : extent (lengths meaning.dimensions) ≤ maxElements
  positive : ∀ d ∈ meaning.dimensions, 0 < d
  initialized : (∃ initializer values, definition.initializer = some initializer ∧
      Builds (writeInitializer signatures
        ⟨meaning.symbol, !meaning.dimensions.isEmpty, isConstant, isGlobal⟩
        (lengths meaning.dimensions) initializer) (b.addVar (sizeOf? meaning.dimensions)) values b₂) ∨
    (definition.initializer = none ∧ b₂ = b.addVar (sizeOf? meaning.dimensions))
  named : b' = b₂.addName definition.name.value meaning

theorem defined_of_meaning {isConstant : Bool} {definition : Definition}
    (hst : Standing outer b) (henv : b.scopes.find? = env)
    (hmean : meaning? isConstant env b.nextVar.toNat definition = some meaning)
    (h : Builds (define sigs isConstant isGlobal definition) b u b') :
    ∃ b2, Defined sigs isConstant isGlobal definition meaning b b2 b' := by
  have hvld : ValidNames env := henv ▸ hst.validNames
  obtain ⟨dims, hconstants, hcas⟩ := meaning_cases hmean
  rw [UInt32.ofNat_toNat] at hcas
  obtain ⟨ds, b1, values, b2, hdim, hsm, hroom, hinit, _, rfl⟩ := builds_define h
  have hposv := ((works_evalDimensions hst).post _ _ hdim).2
  obtain ⟨rfl, rfl⟩ := evalDimensions_of_constants hvld henv hconstants hdim
  refine ⟨b2, ?_⟩
  rcases hcas with ⟨rfl, initializer, cells, vs, hini, hcel, hvs, rfl⟩ | ⟨rfl, rfl⟩
  · rcases hinit with ⟨initializer', hini', hw⟩ | ⟨_, hvar, _⟩
    · obtain rfl : initializer' = initializer := Option.some.inj (hini'.symm.trans hini)
      obtain ⟨cells', progress, b3, hcel', hprg, _, rfl⟩ := builds_writeInitializer hw
      obtain rfl : cells' = cells := Except.ok.inj (hcel'.symm.trans hcel)
      have henv1 : (b1.addVar (sizeOf? ds)).scopes.find? = env := henv
      have hvals := values_initializeCells rfl hvld henv1 hvs hprg
      have hsame : progress.values = vs.toArray := by
        rw [← hvals.trans (nil_append vs), Array.toArray_toList]
      rw [hsame] at hw ⊢
      exact ⟨rfl, by simp, hroom, hsm, hposv, .inl ⟨_, _, hini, hw⟩, rfl⟩
    · cases hvar
  · have hnone : values = none := by
      rcases hinit with ⟨_, _, hw⟩ | ⟨_, _, hvals, _⟩
      · obtain ⟨_, _, _, _, _, _, hvals⟩ := builds_writeInitializer hw
        exact hvals
      · exact hvals
    subst hnone
    refine ⟨rfl, by simp, hroom, hsm, hposv, ?_, rfl⟩
    rcases hinit with ⟨initializer, hini, hw⟩ | ⟨hini, _, _, rfl⟩
    · exact .inl ⟨_, _, hini, hw⟩
    · exact .inr ⟨hini, rfl⟩

namespace Defined

variable {isConstant isGlobal : Bool} {definition : Definition} {meaning : Meaning} {b2 : Builder}

theorem emits (h : Defined sigs isConstant isGlobal definition meaning b b2 b') :
    Emits (b.addVar (sizeOf? meaning.dimensions)) b2 := by
  rcases h.initialized with ⟨_, _, _, hw⟩ | ⟨_, rfl⟩
  · exact emits_writeInitializer hw
  · exact .refl _

theorem find? (h : Defined sigs isConstant isGlobal definition meaning b b2 b')
    (henv : b.scopes.find? = env) :
    b'.scopes.find? = env.define definition.name.value meaning := by
  rw [h.named, find?_addName, h.emits.sameScopes]
  exact congrArg (Environment.define · _ _) henv

end Defined

theorem find?_declare (h : Builds (declare sigs isGlobal decl) b u b')
    (hord : Orderly outer b) (henv : b.scopes.find? = env)
    (hbind : bindDefinitions decl.constant env b.nextVar.toNat decl.definitions =
      some env') : b'.scopes.find? = env' := by
  obtain ⟨isConstant, definitions⟩ := decl
  unfold declare at h
  dsimp only at h hbind
  induction definitions generalizing b env with
  | nil =>
    rw [builds_forM_nil] at h
    cases hbind
    rw [h, henv]
  | cons definition definitions ih =>
    obtain ⟨b1, hfst, hrest⟩ := builds_forM_cons.1 h
    obtain ⟨meaning, hmean, hbind⟩ := Option.bind_eq_some_iff.1 hbind
    obtain ⟨b2, hdfd⟩ := defined_of_meaning hord.standing henv hmean hfst
    have hdfn := (meets_define hord).post _ _ hfst
    rw [← hdfn.vars] at hbind
    exact ih hdfn.orderly (hdfd.find? henv) hrest hbind

/-! ## Parameters -/

theorem ValidNames.define {name : String} (h : ValidNames env)
    (hmean : meaning.Valid) : ValidNames (env.define name meaning) := by
  intro x other hx
  unfold Environment.define at hx
  split at hx
  · cases hx
    exact hmean
  · exact h x other hx

theorem find?_defineParameters {params : List Parameter} {id : Nat}
    (h : Builds (defineParameters sigs id params) b () b') (hvld : ValidNames env)
    (henv : b.scopes.find? = env) (hbind : bindParameters env id params = some env') :
    b'.scopes.find? = env' ∧ b'.code = b.code ∧ b'.nextVar = b.nextVar := by
  induction params generalizing b env id with
  | nil =>
    obtain ⟨_, rfl⟩ := builds_pure.1 h
    cases hbind
    exact ⟨henv, rfl, rfl⟩
  | cons param rest ih =>
    obtain ⟨dims, b1, hdim, _, hrest⟩ := builds_defineParameters_cons h
    rw [bindParameters] at hbind
    obtain ⟨dims', hmatch, hbind⟩ := Option.bind_eq_some_iff.1 hbind
    obtain ⟨_, hbind⟩ := Option.ite_none_right_eq_some.1 hbind
    obtain ⟨rfl, rfl⟩ : dims' = dims ∧ b1 = b := by
      unfold parameterDimensions? at hmatch
      rcases parameterDimensions_cases hdim with ⟨hnone, rfl, rfl⟩ | ⟨exprs, ds, hsome, rfl, hds, _⟩
      · rw [hnone] at hmatch
        exact ⟨(Option.some.inj hmatch).symm, rfl⟩
      · rw [hsome] at hmatch
        obtain ⟨ds', hds', rfl⟩ := Option.map_eq_some_iff.1 hmatch
        obtain ⟨rfl, rfl⟩ := evalDimensions_of_constants hvld henv hds' hds
        exact ⟨rfl, rfl⟩
    have hmean : Meaning.Valid ⟨.param (.ofNat id), dims', none⟩ := ⟨rfl, absurd rfl, nofun⟩
    have henv1 := find?_addName b1 param.name.value ⟨.param (.ofNat id), dims', none⟩
    rw [henv] at henv1
    obtain ⟨henv', hcode, hvars⟩ := ih hrest (hvld.define hmean) henv1 hbind
    exact ⟨henv', hcode, hvars⟩

/-! ## Places -/

namespace Stage

variable {stage : Stage}

/-- Declarations are what the stage takes them for. -/
structure Knows (stage : Stage) (ds : List Decl) : Prop where
  parameter : ∀ d ∈ ds, d.symbol.kind = .parameter → stage.site.own d.symbol = true
  array : ∀ d ∈ ds, d.symbol.kind = .variable → stage.act.array? d.symbol =
    d.size.map fun size => ⟨stage.site.world.place d.symbol, 4 * size.toNat⟩

theorem Knows.known (h : stage.Knows outer) (hcov : stage.Covers b) :
    stage.Knows (b.known outer) := by
  refine ⟨fun d hd hkind => ?_, fun d hd hkind => ?_⟩
  · rcases List.mem_append.1 hd with hd | hd
    · exact h.parameter d hd hkind
    · have htemp : d.symbol.isTemp = false := by simp [Symbol.isTemp, hkind]
      rw [← stage.own _ htemp]
      exact hcov.parameters d hd hkind
  · rcases List.mem_append.1 hd with hd | hd
    · exact h.array d hd hkind
    · exact hcov.decls d hd

theorem map_sizeOf? (start : UInt32) (hposv : ∀ d ∈ dims, 0 < d)
    (hsm : elements dims ≤ maxElements) :
    ((sizeOf? dims).map fun size => (⟨start, 4 * size.toNat⟩ : Region)) =
      if dims = [] then none else some ⟨start, 4 * (elements dims).toNat⟩ := by
  have hexn := elements_eq_extent hposv
  unfold maxElements at hsm
  unfold sizeOf?
  by_cases hdims : dims = []
  · simp [hdims]
  · rw [if_neg hdims, if_neg (by simpa using hdims), Option.map_some, UInt32.toNat_ofNat', hexn,
      Int.toNat_natCast, Nat.mod_eq_of_lt (by omega)]

theorem Knows.names (h : stage.Knows outer) (hcov : stage.Covers b)
    (hst : Standing outer b) : stage.Names b.scopes.find? := by
  intro name meaning hfind
  have hstd := hst.find? hfind
  have hkno := h.known hcov
  refine ⟨hstd.valid, fun hkind => ?_, fun hkind => ?_⟩
  · obtain ⟨size, hmem, _⟩ := hstd.declared
    exact hkno.parameter _ hmem hkind
  · obtain ⟨hmem, hposv⟩ := hstd.sized hkind
    rw [← map_sizeOf? _ hposv (hstd.valid.small hkind)]
    exact hkno.array _ hmem hkind

end Stage

end SysY.Generation

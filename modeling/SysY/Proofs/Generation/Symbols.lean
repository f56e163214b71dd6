import Mathlib
import SysY.Proofs.Generation.Programs

/-!
# The symbols of generated programs

A generated function declares its symbols once and its temporaries without gaps, mentions what it
declares, its parameters and the globals, indexes arrays and parameters only, and assigns neither an
array nor a parameter that it indexes. A variable has one declaration in the whole program.
-/

namespace SysY.Generation

open Eeyore SysY.Tree List

variable {id : Nat} {parameters : List Parameter}

/-- The symbols of a function among global declarations. Its parameters are numbered by words, so
that two of them have the same number if there are more parameters than words. -/
structure SymbolsSound (globals : List Decl) (source : Tree.Function) (f : Eeyore.Function) :
    Prop where
  parameters : f.parameters = .ofNat source.parameters.length
  distinct : (f.decls.map (·.symbol)).Nodup
  temporaries : ∀ i, Declared f.decls (.temp i) ↔ i.toNat < tempCount f.decls
  mentioned : ∀ i ∈ f.body.toList, ∀ x ∈ i.symbols,
    (x.kind = .parameter ∧ x.id.toNat < source.parameters.length) ∨ Declared f.decls x ∨
      Declared globals x
  indexed : ∀ i ∈ f.body.toList, ∀ x, i.base? = some x →
    x.kind = .parameter ∨ DeclaredArray f.decls x ∨ DeclaredArray globals x
  arrays : ∀ i ∈ f.body.toList, ∀ x, i.definition = some x →
    ¬ DeclaredArray f.decls x ∧ ¬ DeclaredArray globals x
  bases : source.parameters.length ≤ wordValues → ∀ i ∈ f.body.toList, ∀ j ∈ f.body.toList, ∀ x,
    x.kind = .parameter → i.definition = some x → j.base? ≠ some x
  folded : ∀ i ∈ f.body.toList, ∀ dest op a c, i ≠ .binary dest op (.const a) (.const c)

theorem mem_parameterDecls {d : Decl} (h : d ∈ parameterDecls id parameters) :
    ∃ k, id ≤ k ∧ k < id + parameters.length ∧ d.symbol = .param (.ofNat k) := by
  induction parameters generalizing id with
  | nil => cases h
  | cons param rest ih =>
    rcases List.mem_cons.1 h with rfl | h
    · exact ⟨id, Nat.le_refl _, by simp, rfl⟩
    · obtain ⟨k, hlow, hhigh, hd⟩ := ih h
      rw [length_cons]
      exact ⟨k, by omega, by omega, hd⟩

theorem nodup_parameterDecls (h : id + parameters.length ≤ wordValues) :
    ((parameterDecls id parameters).map (·.symbol)).Nodup := by
  induction parameters generalizing id with
  | nil => exact nodup_nil
  | cons param rest ih =>
    rw [length_cons] at h
    rw [parameterDecls, map_cons, nodup_cons]
    refine ⟨fun hmem => ?_, ih (by omega)⟩
    obtain ⟨d, hd, heq⟩ := List.mem_map.1 hmem
    obtain ⟨k, hlow, hhigh, hk⟩ := mem_parameterDecls hd
    have hid : UInt32.ofNat k = UInt32.ofNat id := congrArg Symbol.id (hk.symm.trans heq)
    have hnat := congrArg UInt32.toNat hid
    unfold wordValues at h
    simp only [UInt32.toNat_ofNat'] at hnat
    omega

theorem not_declaredArray {ds : List Decl} {x : Symbol} (h : (ds.map (·.symbol)).Nodup)
    (hsca : ⟨x, none⟩ ∈ ds) : ¬ DeclaredArray ds x := by
  rintro ⟨size, harr⟩
  cases inj_on_of_nodup_map h hsca harr rfl

variable {signatures : Signatures} {globals : List Decl} {source : Tree.Function}
  {f : Eeyore.Function}

theorem FunctionLaw.kinds (h : FunctionLaw signatures globals source f) :
    (∀ d ∈ parameterDecls 0 source.parameters, d.symbol.kind = .parameter) ∧
      ∀ d ∈ f.decls, d.symbol.kind ≠ .parameter := by
  refine ⟨fun d hd => ?_, fun d hd => ?_⟩
  · obtain ⟨k, _, _, hk⟩ := mem_parameterDecls hd
    rw [hk]
    rfl
  · obtain ⟨t, v, v', _, _, hdcl⟩ := h.declared
    rcases hdcl.known d hd with ⟨i, rfl, _⟩ | ⟨i, size, rfl, _⟩
    · exact nofun
    · exact nofun

theorem FunctionLaw.nodup (h : FunctionLaw signatures globals source f)
    (hglobs : ∀ d ∈ globals, d.symbol.kind = .variable)
    (hvars : (declaredVars globals ++ declaredVars f.decls).Nodup) :
    ((globals ++ f.decls).map (·.symbol)).Nodup := by
  obtain ⟨t, v, v', _, _, hdcl⟩ := h.declared
  have hall : declaredVars globals = globals.map (·.symbol) := by
    refine List.filter_eq_self.2 fun x hx => ?_
    obtain ⟨d, hd, rfl⟩ := List.mem_map.1 hx
    simpa using hglobs d hd
  rw [hall, nodup_append] at hvars
  rw [map_append, nodup_append]
  refine ⟨hvars.1, hdcl.distinct, fun x hx y hy heq => ?_⟩
  obtain ⟨d, hd, rfl⟩ := List.mem_map.1 hx
  obtain ⟨e, he, rfl⟩ := List.mem_map.1 hy
  exact hvars.2.2 _ hx _ (mem_declaredVars.2 ⟨⟨e.size, he⟩, heq ▸ hglobs d hd⟩) heq

theorem FunctionLaw.symbolsSound (h : FunctionLaw signatures globals source f)
    (hglobs : ∀ d ∈ globals, d.symbol.kind = .variable)
    (hvars : (declaredVars globals ++ declaredVars f.decls).Nodup) :
    SymbolsSound globals source f := by
  obtain ⟨hpar, hloc⟩ := h.kinds
  obtain ⟨t, v, v', ht, _, hdcl⟩ := h.declared
  have hnd := h.nodup hglobs hvars
  -- where a declaration that a lawful instruction refers to stands
  have hwhere : ∀ d ∈ globals ++ parameterDecls 0 source.parameters ++ f.decls,
      d ∈ globals ∨ d ∈ parameterDecls 0 source.parameters ∨ d ∈ f.decls := by
    intro d hd
    rwa [append_assoc, mem_append, mem_append] at hd
  refine ⟨h.parameters, hdcl.distinct, fun i => ?_, fun i hi x hx => ?_, fun i hi x hx => ?_,
    fun i hi x hx => ?_, fun hcnt i hi j hj x hkind hdef hbase => ?_, fun i hi => (h.lawful i hi).folded⟩
  · rw [hdcl.tempCount ht]
    constructor
    · rintro ⟨size, hmem⟩
      rcases hdcl.known _ hmem with ⟨j, heq, _, hlt⟩ | ⟨j, _, heq, _⟩
      · cases heq
        exact hlt
      · cases heq
    · exact fun hlt => ⟨none, hdcl.temps i (Nat.zero_le _) hlt⟩
  · obtain ⟨size, hmem⟩ := (h.lawful i hi).declared hx
    rcases hwhere _ hmem with hmem | hmem | hmem
    · exact .inr (.inr ⟨size, hmem⟩)
    · obtain ⟨k, _, hk, heq⟩ := mem_parameterDecls hmem
      obtain rfl : x = .param (.ofNat k) := heq
      refine .inl ⟨rfl, ?_⟩
      show (UInt32.ofNat k).toNat < _
      rw [UInt32.toNat_ofNat']
      have := Nat.mod_le k (2 ^ 32)
      omega
    · exact .inr (.inl ⟨size, hmem⟩)
  · obtain ⟨size, hmem⟩ := (h.lawful i hi).array x hx
    rcases hwhere _ hmem with hmem | hmem | hmem
    · exact .inr (.inr ⟨size, hmem⟩)
    · exact .inl (hpar _ hmem)
    · exact .inr (.inl ⟨size, hmem⟩)
  · have hsca := (h.lawful i hi).scalar x hx
    have hboth : ¬ DeclaredArray (globals ++ f.decls) x := by
      rcases hwhere _ hsca with hmem | hmem | hmem
      · exact not_declaredArray hnd (mem_append_left _ hmem)
      · rintro ⟨size, harr⟩
        rcases List.mem_append.1 harr with harr | harr
        · cases (hpar ⟨x, none⟩ hmem).symm.trans (hglobs ⟨x, some size⟩ harr)
        · exact hloc ⟨x, some size⟩ harr (hpar ⟨x, none⟩ hmem)
      · exact not_declaredArray hnd (mem_append_right _ hmem)
    exact ⟨fun ⟨size, hmem⟩ => hboth ⟨size, mem_append_right _ hmem⟩,
      fun ⟨size, hmem⟩ => hboth ⟨size, mem_append_left _ hmem⟩⟩
  · have honly : ∀ size, ⟨x, size⟩ ∈ globals ++ parameterDecls 0 source.parameters ++ f.decls →
        ⟨x, size⟩ ∈ parameterDecls 0 source.parameters := by
      intro size hmem
      rcases hwhere _ hmem with hmem | hmem | hmem
      · cases hkind.symm.trans (hglobs _ hmem)
      · exact hmem
      · exact absurd hkind (hloc _ hmem)
    obtain ⟨size, harr⟩ := (h.lawful j hj).array x hbase
    refine not_declaredArray (nodup_parameterDecls (by omega)) (honly _ ((h.lawful i hi).scalar x hdef))
      ⟨size, honly _ harr⟩

/-- Symbol integrity of generated programs. -/
theorem generate_symbols {tree : Tree.Program} {program : Eeyore.Program}
    (h : (generate tree).result = .ok program) :
    List.Forall₂ (SymbolsSound program.globals) tree.functions program.code ∧
      (declaredVars program.globals ++ varsOf program.code).Nodup := by
  obtain ⟨signatures, _, hlaw⟩ := law_generate h
  refine ⟨List.forall₂_iff_get.2 ⟨hlaw.functions.length_eq, fun i hi hi' => ?_⟩, hlaw.vars⟩
  refine (hlaw.functions.get hi hi').symbolsSound hlaw.globals (hlaw.vars.sublist ?_)
  refine List.Sublist.append_left ?_ _
  exact sublist_flatten_of_mem (mem_map_of_mem (getElem_mem hi'))

/-! ## An example -/

/-- A name that stands nowhere. -/
def unplaced (name : String) : Name := ⟨name, .unknown⟩

/-- The value of a variable or of an array element. -/
def reading (name : String) (indices : List Expr) : Element :=
  .read (unplaced name) indices .unknown

/-- An expression that stands nowhere. -/
def exprOf (elements : List Element) : Expr := .mk elements .unknown

/-- A global array with an element that is read when the program starts, a function that counts its
second parameter down to zero and indexes the first one with it, and a `main` that calls it. -/
def counting : Tree.Program where
  items := [
    .declaration ⟨false, [⟨unplaced "a", [exprOf [.literal 2 .unknown]], some (.list
      [.expr (exprOf [.literal 1 .unknown]),
        .expr (exprOf [.call (unplaced "getint") [] .unknown])] .unknown)⟩]⟩,
    .function ⟨.int, unplaced "count", [⟨unplaced "v", some []⟩, ⟨unplaced "n", none⟩],
      .statement (.while (exprOf [reading "n" [], .literal 0 .unknown, .binary .greater])
        (.assign ⟨unplaced "n", []⟩ .unknown
          (exprOf [reading "n" [], .literal 1 .unknown, .binary .sub])))
      (.statement (.return (some (exprOf [reading "v" [exprOf [reading "n" []]]])) .unknown) .nil)⟩,
    .function ⟨.int, unplaced "main", [],
      .declaration ⟨false, [⟨unplaced "t", [], some (.expr (exprOf [.literal 1 .unknown]))⟩]⟩
      (.statement (.return (some (exprOf [.call (unplaced "count")
        [exprOf [reading "a" []], exprOf [reading "t" []]] .unknown])) .unknown) .nil)⟩]
  stop := .unknown

theorem counting_accepted : ∃ program, (generate counting).result = .ok program := by
  have hsome : (generate counting).result.toOption.isSome = true := by cbv
  cases hres : (generate counting).result with
  | error e =>
    rw [hres] at hsome
    cases hsome
  | ok program => exact ⟨program, rfl⟩

theorem counting_symbols : ∃ program, (generate counting).result = .ok program ∧
    List.Forall₂ (SymbolsSound program.globals) counting.functions program.code ∧
    (declaredVars program.globals ++ varsOf program.code).Nodup := by
  obtain ⟨program, h⟩ := counting_accepted
  exact ⟨program, h, generate_symbols h⟩

end SysY.Generation

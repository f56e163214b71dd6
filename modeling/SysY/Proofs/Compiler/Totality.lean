import SysY.Compiler
import SysY.Proofs.Compiler.ControlFlow
import SysY.Proofs.Generation.Totality
import SysY.Proofs.RiscV.Emission
import SysY.Proofs.Tigger.Simulation

/-!
# Programs that compile

A program of fewer than `2 ^ 28` tokens has code or mistakes of its own. If it has code, and none of
its functions has more than eight parameters or `2 ^ 28` words of variables, then it can be written
down in each language, optimized or not.
-/

namespace SysY.Compiler

open Eeyore Generation SysY.Flow Instruction List
open Tigger (Lowerable declaredWords globalArrays lowerGlobal lowerFunction)

variable {signatures : Signatures} {globals : List Decl} {source : Tree.Function} {f : Function}
  {functions sources : List Tree.Function} {name : String} {signature : Signature} {n : Nat}

/-! ## Arguments -/

theorem lookup_collectSignatures {known : Signatures}
    (h : collectSignatures known functions = .ok signatures)
    (hlook : signatures.lookup name = some signature) :
    known.lookup name = some signature ∨
      known.lookup name = none ∧ ∃ f ∈ functions, signature.arity = f.parameters.length := by
  induction functions generalizing known with
  | nil =>
    cases h
    exact .inl hlook
  | cons fn rest ih =>
    rw [collectSignatures] at h
    split at h
    · cases h
    · rename_i hnew
      rcases ih h with hkn | ⟨hkn, f, hf, harity⟩
      · rw [lookup_cons] at hkn
        split at hkn
        · rename_i heq
          cases hkn
          refine .inr ⟨?_, fn, mem_cons_self, rfl⟩
          rw [eq_of_beq heq]
          exact Option.not_isSome_iff_eq_none.1 hnew
        · exact .inl hkn
      · rw [lookup_cons] at hkn
        split at hkn
        · cases hkn
        · exact .inr ⟨hkn, f, mem_cons_of_mem _ hf, harity⟩

theorem arguments_le {m : Nat} (hm : 2 ≤ m)
    (h : collectSignatures library functions = .ok signatures)
    (hpars : ∀ f ∈ functions, f.parameters.length ≤ m)
    (hlook : signatures.lookup name = some signature) :
    signature.arity + (if isTiming name then 1 else 0) ≤ m := by
  rcases lookup_collectSignatures h hlook with hlibrary | ⟨hnew, f, hf, harity⟩
  · have hall : ∀ entry ∈ library, entry.2.arity + (if isTiming entry.1 then 1 else 0) ≤ 2 := by
      decide
    obtain ⟨front, back, heq, -⟩ := List.lookup_eq_some_iff.1 hlibrary
    refine Nat.le_trans (hall (name, signature) ?_) hm
    rw [heq]
    exact mem_append_right _ mem_cons_self
  · have htiming : isTiming name = false := by
      cases htiming : isTiming name with
      | false => rfl
      | true =>
        simp only [isTiming, Bool.or_eq_true, beq_iff_eq] at htiming
        rcases htiming with rfl | rfl <;> cases hnew
    rw [htiming, harity]
    exact hpars f hf

/-! ## Lawful functions can be lowered -/

theorem mem_symbols_of_uses {i : Instruction} {x : Symbol}
    (h : x ∈ i.uses ++ i.definition.toList) : x ∈ i.symbols := by
  unfold symbols
  cases i with
  | «return» value =>
    cases value <;> simp_all [uses, definition, operands]
  | binary | store | load =>
    simp only [uses, definition, operands,
      places, mem_append, mem_cons, mem_filterMap, Option.mem_toList,
      Option.toList_none, Option.toList_some, not_mem_nil, exists_eq_or_imp, exists_eq_left,
      or_false] at h ⊢
    tauto
  | _ =>
    simp_all [uses, definition, operands, places]

theorem nodup_slotDecls (h : FunctionLaw signatures globals source f) :
    ((slotDecls f).map (·.symbol)).Nodup := by
  obtain ⟨t, v, v', -, -, hdcl⟩ := h.declared
  rw [slotDecls, map_append, map_map, nodup_append]
  refine ⟨?_, hdcl.distinct, ?_⟩
  · refine List.Nodup.map_on (fun a ha b hb heq => ?_) nodup_range
    have hid : UInt32.ofNat a = UInt32.ofNat b := congrArg Symbol.id heq
    have hnat := congrArg UInt32.toNat hid
    have hlt := f.parameters.toNat_lt
    rw [mem_range] at ha hb
    simp only [UInt32.toNat_ofNat'] at hnat
    omega
  · intro x hx y hy heq
    obtain ⟨id, -, rfl⟩ := List.mem_map.1 hx
    obtain ⟨d, hd, rfl⟩ := List.mem_map.1 hy
    refine h.kinds.2 d hd ?_
    rw [← heq]
    rfl

theorem lowerable_of_law (h : FunctionLaw signatures globals source f)
    (hglobs : ∀ d ∈ globals, d.symbol.kind = .variable)
    (hvars : (declaredVars globals ++ declaredVars f.decls).Nodup)
    (hcnt : source.parameters.length < wordValues) (hpars : f.parameters.toNat ≤ maxArguments)
    (harity : ∀ name signature, signatures.lookup name = some signature →
      signature.arity + (if isTiming name then 1 else 0) ≤ maxArguments) :
    Lowerable globals f := by
  have hsound := h.symbolsSound hglobs hvars
  have hlen : f.parameters.toNat = source.parameters.length := by
    rw [h.parameters]
    exact UInt32.toNat_ofNat_of_lt' hcnt
  refine ⟨hpars, fun i hi hcall => ?_, nodup_slotDecls h, fun i hi x hx => ?_,
    fun i hi x hx => ?_, fun dest op a b hmem => ?_⟩
  · cases i with
    | call callee args output =>
      obtain ⟨signature, hlook, hlen⟩ :=
        (h.lawful _ (Array.mem_toList_iff.2 hi)).arguments callee args output rfl
      show args.length ≤ _
      rw [hlen]
      exact harity callee signature hlook
    | _ => cases hcall
  · have hmem := hsound.mentioned i (Array.mem_toList_iff.2 hi) x (mem_symbols_of_uses hx)
    rw [map_append, mem_append]
    rcases hmem with ⟨hkind, hid⟩ | ⟨size, hmem⟩ | ⟨size, hmem⟩
    · refine .inl (List.mem_map.2 ⟨⟨.param x.id, none⟩, mem_slotDecls.2 (.inl
        ⟨x.id.toNat, by omega, by rw [UInt32.ofNat_toNat]⟩), ?_⟩)
      cases x
      cases hkind
      rfl
    · exact .inl (List.mem_map.2 ⟨_, mem_slotDecls.2 (.inr hmem), rfl⟩)
    · exact .inr (mem_map_of_mem hmem)
  · obtain ⟨hloc, hglob⟩ := hsound.arrays i (Array.mem_toList_iff.2 hi) x (Option.mem_toList.1 hx)
    rw [isArray, Option.any_eq_false]
    intro d hd
    have hmem := mem_of_find?_eq_some hd
    obtain rfl : d.symbol = x := by simpa using find?_some hd
    rw [Option.isSome_eq_false_iff, Option.isNone_iff_eq_none]
    cases hsz : d.size with
    | none => rfl
    | some size =>
      have hd : d = ⟨d.symbol, some size⟩ := by rw [← hsz]
      rcases List.mem_append.1 hmem with hmem | hmem
      · rcases mem_slotDecls.1 hmem with ⟨id, -, rfl⟩ | hmem
        · cases hsz
        · exact absurd ⟨size, hd ▸ hmem⟩ hloc
      · exact absurd ⟨size, hd ▸ hmem⟩ hglob
  · exact hsound.folded _ (Array.mem_toList_iff.2 hmem) dest op a b rfl

/-! ## Words -/

/-- The words of the variables that a function declares. -/
def localWords (f : Function) : Nat :=
  ((f.decls.filter (·.symbol.kind = .variable)).map fun d => (d.size.getD 1).toNat).sum

theorem declaredWords_le (h : FunctionLaw signatures globals source f) :
    declaredWords f ≤ localWords f + (tempCount f.decls + f.parameters.toNat) := by
  obtain ⟨t, v, v', -, -, hdcl⟩ := h.declared
  -- the words of declarations, each of a temporary or of a variable
  have hdecls : ∀ ds : List Decl, (∀ d ∈ ds, (∃ i, d = ⟨.temp i, none⟩) ∨ ∃ i size, d = ⟨.var i, size⟩) →
      (ds.map fun d => (d.size.getD 1).toNat).sum ≤
        ((ds.filter (·.symbol.kind = .variable)).map fun d => (d.size.getD 1).toNat).sum +
          tempCount ds := by
    intro ds hds
    induction ds with
    | nil => exact Nat.le_refl 0
    | cons d ds ih =>
      have ih := ih fun d hd => hds d (mem_cons_of_mem _ hd)
      rcases hds d mem_cons_self with ⟨i, rfl⟩ | ⟨i, size, rfl⟩
      · simp [tempCount, Symbol.isTemp, Symbol.temp] at ih ⊢
        omega
      · simp [tempCount, Symbol.isTemp, Symbol.var] at ih ⊢
        omega
  have hsum := hdecls f.decls fun d hd => by
    rcases hdcl.known d hd with ⟨i, rfl, -⟩ | ⟨i, size, rfl, -⟩
    · exact .inl ⟨i, rfl⟩
    · exact .inr ⟨i, size, rfl⟩
  have hpars : ∀ n : Nat, ((List.range n).map fun id =>
      (((⟨.param (.ofNat id), none⟩ : Decl).size.getD 1).toNat)).sum = n := by
    intro n
    simp
  rw [declaredWords, slotDecls, map_append, sum_append, map_map]
  have := hpars f.parameters.toNat
  unfold localWords
  simp only [Function.comp_def] at *
  omega

/-! ## Programs -/

/-- A program that all back ends can take. -/
structure Compilable (program : Program) : Prop where
  kinds : ∀ d ∈ program.globals, d.symbol.kind = .variable
  globals : ∀ d ∈ program.globals, ∀ size, d.size = some size → size.toNat ≤ maxElements
  locals : ∀ f ∈ program.code, ∀ d ∈ f.decls, ∀ size, d.size = some size → size.toNat ≤ maxElements
  lowerable : ∀ f ∈ program.code, Lowerable program.globals f
  targets : ∀ f ∈ program.code, TargetsDefined f.body.toVector
  words : ∀ f ∈ program.code, declaredWords f < RiscV.maxFrame

theorem compilable_of_law {program : Program} (h : ProgramLaw signatures sources program)
    (hsigs : collectSignatures library sources = .ok signatures)
    (hsrcs : ∀ source ∈ sources, source.parameters.length < maxTokens) (hshort : n < maxTokens)
    (htemps : ∀ f ∈ program.code, tempCount f.decls + f.parameters.toNat + 4 ≤ n)
    (hpars : ∀ f ∈ program.code, f.parameters.toNat ≤ maxArguments)
    (hwords : ∀ f ∈ program.code, localWords f < 2 ^ 28) : Compilable program := by
  have hmax : maxTokens ≤ wordValues := by decide
  have harity : ∀ source ∈ sources, source.parameters.length ≤ maxArguments := by
    intro source hsrc
    obtain ⟨f, hf, hlaw⟩ := exists_of_forall₂ h.functions.flip hsrc
    have hword : (UInt32.ofNat source.parameters.length).toNat = source.parameters.length :=
      UInt32.toNat_ofNat_of_lt' (Nat.lt_of_lt_of_le (hsrcs source hsrc) hmax)
    rw [← hword, ← hlaw.parameters]
    exact hpars f hf
  have hlaw : ∀ f ∈ program.code, ∃ source ∈ sources,
      FunctionLaw signatures program.globals source f := fun f hf => exists_of_forall₂ h.functions hf
  refine ⟨h.globals, h.small, fun f hf => ?_, fun f hf => ?_, fun f hf => ?_, fun f hf => ?_⟩
  · obtain ⟨source, -, hlaw⟩ := hlaw f hf
    obtain ⟨t, v, v', -, -, hdcl⟩ := hlaw.declared
    exact hdcl.small
  · obtain ⟨source, hsrc, hlaw⟩ := hlaw f hf
    refine lowerable_of_law hlaw h.globals (h.vars.sublist (List.Sublist.append_left ?_ _))
      (Nat.lt_of_lt_of_le (hsrcs source hsrc) hmax) (hpars f hf) fun name signature =>
      arguments_le (by decide) hsigs harity
    exact sublist_flatten_of_mem (mem_map_of_mem hf)
  · obtain ⟨source, -, hlaw⟩ := hlaw f hf
    exact Optimization.targetsDefined_of_aimed (aimed_of_law hlaw)
  · obtain ⟨source, -, hlaw⟩ := hlaw f hf
    have hle := declaredWords_le hlaw
    have hloc := hwords f hf
    have htemp := htemps f hf
    unfold maxTokens at hshort
    unfold RiscV.maxFrame
    omega

namespace Compilable

variable {program : Program}

theorem declText_ok {decls : List Decl}
    (h : ∀ d ∈ decls, ∀ size, d.size = some size → size.toNat ≤ maxElements) :
    ∃ text, declText decls = .ok text := by
  obtain ⟨lines, hlines⟩ : ∃ lines, decls.mapM Decl.text = .ok lines := by
    refine exists_mapM_ok fun d hd => ?_
    unfold Decl.text
    split
    · exact ⟨_, rfl⟩
    · rename_i size hsz
      have hle := h d hd size hsz
      unfold maxElements at hle
      have hfour : wordSize.toInt = 4 := by decide
      have hok : signedMul size.toInt32 wordSize = .ok (size.toInt32 * wordSize) := by
        refine signedMul_ok ?_ ?_ <;> rw [toInt_toInt32 (by omega), hfour] <;> omega
      rw [hok]
      exact ⟨_, rfl⟩
  exact ⟨_, by rw [declText, hlines]; rfl⟩

theorem text_ok (h : Compilable program) : ∃ text, program.text = .ok text := by
  obtain ⟨globals, hglobs⟩ := declText_ok h.globals
  obtain ⟨functions, hfns⟩ : ∃ functions, program.code.mapM Function.text = .ok functions := by
    refine exists_mapM_ok fun f hf => ?_
    obtain ⟨decls, hdecls⟩ := declText_ok (h.locals f hf)
    exact ⟨_, by rw [Function.text, hdecls]; rfl⟩
  exact ⟨_, by rw [Program.text, hglobs, ok_bind, hfns]; rfl⟩

theorem lower_ok (h : Compilable program) : ∃ lowered, (Tigger.lower program).result = .ok lowered ∧
    (∀ decl ∈ lowered.globals, ∀ size, decl.size = some size → size.toNat < 2 ^ 29) ∧
    ∀ f ∈ lowered.code, RiscV.Fits f := by
  have harrs := Tigger.contains_globalArrays program.globals
  obtain ⟨globals, hglobs⟩ : ∃ globals, program.globals.mapM lowerGlobal = .ok globals :=
    exists_mapM_ok fun d hd => ⟨⟨⟨d.symbol.id⟩, d.size⟩, by simp [lowerGlobal, h.kinds d hd]⟩
  obtain ⟨code, hcode⟩ : ∃ code,
      (program.code.mapM fun f => (lowerFunction (globalArrays program.globals) f).result) =
        .ok code := by
    refine exists_mapM_ok fun f hf => Tigger.lowerFunction_ok (h.lowerable f hf) harrs
      (h.targets f hf) ?_
    have hwords := h.words f hf
    have hroom : RiscV.maxFrame + Register.all.length ≤ wordValues := by decide
    omega
  refine ⟨⟨globals, code⟩, ?_, fun decl hdecl size hsz => ?_, fun g hg => ?_⟩
  · rw [Tigger.result_lower, hglobs, ok_bind, hcode, ok_bind]
  · obtain ⟨d, hd, hlow⟩ := exists_of_forall₂ (mapM_eq_ok.1 hglobs) hdecl
    unfold lowerGlobal at hlow
    split at hlow
    · cases hlow
      have hle := h.globals d hd size hsz
      unfold maxElements at hle
      omega
    · cases hlow
  · obtain ⟨f, hf, hlow⟩ := exists_of_forall₂ (mapM_eq_ok.1 hcode) hg
    exact ⟨Nat.lt_of_le_of_lt (Tigger.frame_le_declaredWords hlow) (h.words f hf),
      Tigger.offset_le_frame hlow⟩

theorem tigger_text_ok {lowered : Tigger.Program}
    (h : ∀ decl ∈ lowered.globals, ∀ size, decl.size = some size → size.toNat < 2 ^ 29) :
    ∃ text, lowered.text = .ok text := by
  obtain ⟨globals, hglobs⟩ : ∃ globals, lowered.globals.mapM Tigger.GlobalDecl.text = .ok globals := by
    refine exists_mapM_ok fun decl hdecl => ?_
    unfold Tigger.GlobalDecl.text
    split
    · exact ⟨_, rfl⟩
    · rename_i size hsz
      obtain ⟨bytes, hbyt⟩ := RiscV.byteSize_ok (h decl hdecl size hsz)
      rw [hbyt]
      exact ⟨_, rfl⟩
  exact ⟨_, by rw [Tigger.Program.text, hglobs]; rfl⟩

theorem write_ok (h : Compilable program) (form : Form) :
    ∃ text, (emit form false program).result = .ok text := by
  obtain ⟨lowered, hlwd, hglobs, hcode⟩ := h.lower_ok
  cases form with
  | eeyore => exact h.text_ok
  | tigger =>
    obtain ⟨text, htext⟩ := tigger_text_ok hglobs
    refine ⟨text, ?_⟩
    simp only [emit, improve, Logged.result_bind, Logged.result_ofExcept]
    exact bind_eq_ok.2 ⟨program, rfl, bind_eq_ok.2 ⟨lowered, hlwd, htext⟩⟩
  | assembly =>
    obtain ⟨lines, hlines⟩ := RiscV.assemble_ok hglobs hcode
    refine ⟨RiscV.linesText lines, ?_⟩
    simp only [emit, improve, Logged.result_bind, Logged.result_ofExcept]
    exact bind_eq_ok.2 ⟨program, rfl, bind_eq_ok.2 ⟨lowered, hlwd,
      bind_eq_ok.2 ⟨lines, hlines, rfl⟩⟩⟩

end Compilable

theorem result_emit_improved {program improved : Program} {optimized : Bool}
    (h : (improve optimized program).result = .ok improved) (form : Form) :
    (emit form optimized program).result = (emit form false improved).result := by
  rw [emit, Logged.result_bind, h]
  rfl

theorem law_improve {program improved : Program} {optimized : Bool}
    (h : ProgramLaw signatures sources program)
    (himp : (improve optimized program).result = .ok improved) :
    ProgramLaw signatures sources improved ∧
      List.Forall₂ SameSymbols program.code improved.code := by
  cases optimized with
  | false =>
    cases himp
    exact ⟨h, List.forall₂_same.2 fun f _ => ⟨rfl, rfl⟩⟩
  | true =>
    obtain ⟨other, hoth, hlaw, hsame⟩ := law_optimize h
    cases hoth.symm.trans himp
    exact ⟨hlaw, hsame⟩

/-! ## Sources -/

theorem parameters_le_price {tree : Tree.Program} {source : Tree.Function}
    (h : source ∈ tree.functions) : 4 * source.parameters.length ≤ tree.price := by
  obtain ⟨item, hitem, hfn⟩ := List.mem_filterMap.1 h
  cases item <;> cases hfn
  have hle : (Tree.Item.function source).price ≤ tree.price := le_sum_of_mem (mem_map_of_mem hitem)
  rw [Tree.Item.price] at hle
  omega

/-- What is made of the code of a program that is not too long can be written down, if no function is
too large. -/
theorem compilable_improve {tokens : List (Located Token)} {tree : Tree.Program}
    {program improved : Program} {optimized : Bool} (hshort : tokens.length < 2 ^ 28)
    (hparse : Tree.Program.ofTokens tokens = .ok tree) (hgen : (generate tree).result = .ok program)
    (himp : (improve optimized program).result = .ok improved)
    (hsm : ∀ f ∈ program.code, f.parameters.toNat ≤ 8 ∧ localWords f < 2 ^ 28) :
    Compilable improved := by
  have hpays := Tree.price_ofTokens hparse
  have hmax : maxTokens = 2 ^ 28 := rfl
  obtain ⟨signatures, hsigs, hlaw⟩ := law_generate hgen
  have htemps := tempCount_generate (by omega) hgen
  have hsrcs : ∀ source ∈ tree.functions, source.parameters.length < maxTokens := by
    intro source hsrc
    have hle := parameters_le_price hsrc
    omega
  -- optimizing keeps what a function declares
  obtain ⟨hlaw', hsame⟩ := law_improve hlaw himp
  refine compilable_of_law hlaw' hsigs hsrcs hshort (fun g hg => ?_) (fun g hg => ?_) fun g hg => ?_
  all_goals obtain ⟨f, hf, hlike⟩ := exists_of_forall₂ hsame hg
  · have hle := htemps f hf
    rw [hlike.decls, hlike.parameters]
    omega
  · rw [hlike.parameters]
    exact (hsm f hf).1
  · rw [localWords, hlike.decls]
    exact (hsm f hf).2

/-- A program that is not too long has no fault, and neither does what is made of its code if its
functions are not too large. -/
theorem compiles_without_fault {tokens : List (Located Token)} {tree : Tree.Program}
    (hshort : tokens.length < 2 ^ 28) (hparse : Tree.Program.ofTokens tokens = .ok tree) :
    (∀ fault, (generate tree).result ≠ .error (.fault fault)) ∧
    ∀ program, (generate tree).result = .ok program →
      (∀ f ∈ program.code, f.parameters.toNat ≤ 8 ∧ localWords f < 2 ^ 28) →
      ∀ form optimized, ∃ text, (emit form optimized program).result = .ok text := by
  have hpays := Tree.price_ofTokens hparse
  have hmax : maxTokens = 2 ^ 28 := rfl
  refine ⟨generate_no_fault (by omega), fun program hprogram hsmall form optimized => ?_⟩
  obtain ⟨signatures, -, hlaw⟩ := law_generate hprogram
  obtain ⟨improved, himproved⟩ : ∃ improved, (improve optimized program).result = .ok improved := by
    cases optimized with
    | false => exact ⟨program, rfl⟩
    | true =>
      obtain ⟨other, hother, -⟩ := law_optimize hlaw
      exact ⟨other, hother⟩
  rw [result_emit_improved himproved]
  exact (compilable_improve hshort hparse hprogram himproved hsmall).write_ok form

/-- The tokens of a function that adds up an array that it is given, and of a `main` that calls it
with an array of its own. -/
def summing : List (Located Token) := [
  .keyword .int, .identifier "sum", .mark .openParen,
    .keyword .int, .identifier "v", .mark .openSquare, .mark .closeSquare, .mark .comma,
    .keyword .int, .identifier "n", .mark .closeParen, .mark .openCurly,
    .keyword .int, .identifier "s", .mark .assign, .literal 0, .mark .semicolon,
    .keyword .while, .mark .openParen, .identifier "n", .mark .closeParen, .mark .openCurly,
      .identifier "n", .mark .assign, .identifier "n", .mark .minus, .literal 1, .mark .semicolon,
      .identifier "s", .mark .assign, .identifier "s", .mark .plus,
        .identifier "v", .mark .openSquare, .identifier "n", .mark .closeSquare, .mark .semicolon,
    .mark .closeCurly,
    .keyword .return, .identifier "s", .mark .semicolon,
  .mark .closeCurly,
  .keyword .int, .identifier "main", .mark .openParen, .mark .closeParen, .mark .openCurly,
    .keyword .int, .identifier "a", .mark .openSquare, .literal 3, .mark .closeSquare, .mark .assign,
      .mark .openCurly, .literal 1, .mark .closeCurly, .mark .semicolon,
    .keyword .return, .identifier "sum", .mark .openParen,
      .identifier "a", .mark .comma, .literal 3, .mark .closeParen, .mark .semicolon,
  .mark .closeCurly].map fun token => ⟨token, .unknown⟩

theorem summing_compiles : summing.length < 2 ^ 28 ∧ ∃ tree program,
    Tree.Program.ofTokens summing = .ok tree ∧ (generate tree).result = .ok program ∧
      (∀ f ∈ program.code, f.parameters.toNat ≤ 8 ∧ localWords f < 2 ^ 28) ∧
      ∀ form optimized, ∃ text, (emit form optimized program).result = .ok text := by
  have hshort : summing.length < 2 ^ 28 := by decide
  have haccepted : (Tree.Program.ofTokens summing).toOption.any (fun tree =>
      (generate tree).result.toOption.any fun program => program.code.all fun f =>
        f.parameters.toNat ≤ 8 && localWords f < 2 ^ 28) = true := by cbv
  cases hparse : Tree.Program.ofTokens summing with
  | error e =>
    rw [hparse] at haccepted
    cases haccepted
  | ok tree =>
    rw [hparse] at haccepted
    cases hgenerate : (generate tree).result with
    | error e =>
      simp only [Except.toOption, Option.any_some, hgenerate] at haccepted
      cases haccepted
    | ok program =>
      simp only [Except.toOption, Option.any_some, hgenerate, List.all_eq_true, Bool.and_eq_true,
        decide_eq_true_eq] at haccepted
      exact ⟨hshort, tree, program, rfl, hgenerate, haccepted,
        (compiles_without_fault hshort hparse).2 program hgenerate haccepted⟩

end SysY.Compiler

import Std.Data.String.ToNat
import SysY.Proofs.Compiler.Totality

/-!
# What assembly defines

Functions, globals and labels share the names of one assembly file. Functions keep the names of the
source, globals and labels are numbered. So no symbol is defined twice if no function has the name of
a global or a label.
-/

namespace SysY.RiscV

open List

open Tigger (Global GlobalDecl)

variable {outputs : List Output} {lines : List Line}

def Line.symbol? : Line → Option String
  | .label l => some (labelText l)
  | .place name => some name
  | .common name _ => some name
  | _ => none

def symbols (lines : List Line) : List String := lines.filterMap Line.symbol?

theorem symbols_append (xs ys : List Line) : symbols (xs ++ ys) = symbols xs ++ symbols ys :=
  filterMap_append

theorem symbols_instructions (is : List Instruction) : symbols (is.map .instruction) = [] := by
  rw [symbols, filterMap_map, filterMap_eq_nil_iff]
  exact fun i hi => rfl

/-! ## Outputs -/

namespace Output

theorem Whole.of_andThen {first second : Output} (h : (first.andThen second).Whole) :
    first.Whole ∧ second.Whole ∧ (first.andThen second).lines = first.lines ++ second.lines := by
  unfold Output.andThen at h ⊢
  split at h
  · rename_i fault hflt
    rw [Output.Whole, hflt] at h
    cases h
  · rename_i hflt
    exact ⟨hflt, h, rfl⟩

theorem Whole.of_sequence (h : (sequence outputs).Whole) :
    (∀ output ∈ outputs, output.Whole) ∧ (sequence outputs).lines = outputs.flatMap (·.lines) := by
  induction outputs with
  | nil => exact ⟨nofun, rfl⟩
  | cons output outputs ih =>
    obtain ⟨hfst, hrest, hlines⟩ := Whole.of_andThen h
    obtain ⟨hall, hrest⟩ := ih hrest
    refine ⟨List.forall_mem_cons.2 ⟨hfst, hall⟩, ?_⟩
    rw [flatMap_cons, ← hrest]
    exact hlines

theorem whole_eq_ok {output : Output} (h : output.whole = .ok lines) :
    output.Whole ∧ output.lines = lines := by
  unfold Output.whole at h
  split at h
  · cases h
  · rename_i hflt
    exact ⟨hflt, Except.ok.inj h⟩

theorem symbols_sequence (h : (sequence outputs).Whole) :
    symbols (sequence outputs).lines = outputs.flatMap fun output => symbols output.lines := by
  rw [h.of_sequence.2, symbols, filterMap_flatMap]
  rfl

theorem Whole.of_ofExcept {result : Except Fault (List Line)} (h : (ofExcept result).Whole) :
    result = .ok (ofExcept result).lines := by
  cases result with
  | ok lines => rfl
  | error fault => cases h

end Output

theorem symbols_select {stack : Int32} {i : Tigger.Instruction} (h : select stack i = .ok lines) :
    symbols lines = i.control.label.toList.map labelText := by
  have hpln : ∀ is, select.lines is = .ok lines → symbols lines = [] := by
    intro is his
    cases his
    exact symbols_instructions is
  cases i with
  | label l =>
    cases h
    rfl
  | binary dest op a b => cases b <;> exact hpln _ h
  | unary dest op operand => cases op <;> exact hpln _ h
  | stackStore value slot =>
    obtain ⟨offset, -, h⟩ := bind_eq_ok.1 h
    exact hpln _ h
  | stackLoad slot dest =>
    obtain ⟨offset, -, h⟩ := bind_eq_ok.1 h
    exact hpln _ h
  | stackAddress slot dest =>
    obtain ⟨offset, -, h⟩ := bind_eq_ok.1 h
    exact hpln _ h
  | _ => exact hpln _ h

theorem symbols_globalOutput {decl : GlobalDecl} (h : (globalOutput decl).Whole) :
    symbols (globalOutput decl).lines = [decl.global.text] := by
  unfold globalOutput at h ⊢
  dsimp only at h ⊢
  split at h
  · rfl
  · rename_i size hsz
    cases hbyt : Tigger.byteSize size with
    | error fault =>
      rw [hbyt] at h
      cases h
    | ok bytes => rfl

theorem symbols_moveStackPointer (delta : Except Fault Int32) :
    symbols (Output.ofExcept (delta.map fun delta =>
      (moveStackPointer delta).map .instruction)).lines = [] := by
  cases delta with
  | error fault => rfl
  | ok delta => exact symbols_instructions _

theorem map_labels_controls (f : Tigger.Function) : (Control.labels f.controls).map labelText =
    f.body.flatMap fun i => i.control.label.toList.map labelText := by
  rw [Control.labels, Tigger.Function.controls, filterMap_map,
    filterMap_eq_flatMap_toList, List.map_flatMap]
  rfl

theorem symbols_functionOutput {f : Tigger.Function} (h : (functionOutput f).Whole) :
    symbols (functionOutput f).lines = f.name :: (Control.labels f.controls).map labelText := by
  obtain ⟨-, hrest, hlines⟩ := Output.Whole.of_andThen h
  rw [functionOutput, hlines, symbols_append, map_labels_controls]
  refine congrArg (f.name :: ·) ?_
  split at hrest
  · cases hrest
  · rename_i stack hstk
    have hbody : ∀ i ∈ f.body, symbols (Output.ofExcept (select stack i)).lines =
        i.control.label.toList.map labelText := by
      intro i hi
      refine symbols_select (Output.Whole.of_ofExcept (hrest.of_sequence.1 _ ?_))
      exact List.mem_append_left _ (mem_cons_of_mem _ (mem_cons_of_mem _
        (List.mem_map_of_mem hi)))
    refine (Output.symbols_sequence hrest).trans ?_
    rw [flatMap_append, flatMap_cons, flatMap_cons, symbols_moveStackPointer,
      List.flatMap_map, flatMap_congr hbody]
    exact append_nil _

theorem symbols_assemble {program : Tigger.Program} (h : (assemble program).Whole) :
    symbols (assemble program).lines = program.globals.map (·.global.text) ++
      program.code.flatMap fun f => f.name :: (Control.labels f.controls).map labelText := by
  have hall := (Output.Whole.of_sequence h).1
  refine (Output.symbols_sequence h).trans ?_
  rw [flatMap_append, List.flatMap_map, List.flatMap_map]
  congr 1
  · rw [List.map_eq_flatMap]
    refine flatMap_congr fun decl hdecl => symbols_globalOutput (hall _ ?_)
    exact List.mem_append_left _ (List.mem_map_of_mem hdecl)
  · refine flatMap_congr fun f hf => symbols_functionOutput (hall _ ?_)
    exact mem_append_right _ (List.mem_map_of_mem hf)

/-! ## Names -/

theorem global_text_injective {a b : Global} (h : a.text = b.text) : a = b := by
  have hid := Nat.repr_injective ((String.append_right_inj "v").1 h)
  exact congrArg Global.mk (UInt32.toNat_inj.1 hid)

theorem labelText_injective {a b : Label} (h : labelText a = labelText b) : a = b := by
  have hid := Nat.repr_injective ((String.append_right_inj "l").1 ((String.append_right_inj ".").1 h))
  exact congrArg Label.mk (UInt32.toNat_inj.1 hid)

theorem global_text_ne_labelText (a : Global) (l : Label) : a.text ≠ labelText l := by
  intro h
  have hhead := congrArg (fun s => s.toList.head?) h
  simp [Global.text, labelText, Label.text] at hhead

end SysY.RiscV

namespace SysY.Compiler

open Eeyore Generation RiscV

variable {tree : Tree.Program} {program improved : Program} {lowered : Tigger.Program}
  {signatures : Signatures} {α : Type}

/-! ## Programs -/

theorem map_eq_of_forall₂ {β γ : Type} {R : α → β → Prop} {f : α → γ} {g : β → γ} {as : List α}
    {bs : List β} (h : List.Forall₂ R as bs) (heq : ∀ a b, R a b → f a = g b) :
    as.map f = bs.map g := by
  induction h with
  | nil => rfl
  | cons head _ ih => rw [List.map_cons, List.map_cons, heq _ _ head, ih]

theorem names_lower (hlow : (Tigger.lower program).result = .ok lowered) :
    program.globals.map (·.symbol.id) = lowered.globals.map (·.global.id) ∧
      program.code.map (·.name) = lowered.code.map (·.name) := by
  obtain ⟨hglobs, arrays, hcode⟩ := Tigger.lower_cases hlow
  constructor
  · refine map_eq_of_forall₂ (mapM_eq_ok.1 hglobs) fun d decl hd => ?_
    unfold Tigger.lowerGlobal at hd
    split at hd <;> cases hd
    rfl
  · refine map_eq_of_forall₂ hcode fun f t ht => ?_
    obtain ⟨-, -, -, -, -, -, -, hname, -, -⟩ := Tigger.lowerFunction_cases ht
    exact hname.symm

theorem nodup_globals {sources : List Tree.Function} (h : ProgramLaw signatures sources program)
    (hlow : (Tigger.lower program).result = .ok lowered) :
    (lowered.globals.map (·.global.text)).Nodup := by
  have hvars : (program.globals.map (·.symbol)).Nodup := by
    have hfilter : declaredVars program.globals = program.globals.map (·.symbol) := by
      refine List.filter_eq_self.2 fun x hx => ?_
      obtain ⟨d, hd, rfl⟩ := List.mem_map.1 hx
      exact decide_eq_true (h.globals d hd)
    rw [← hfilter]
    exact (List.nodup_append.1 h.vars).1
  have hids : (program.globals.map (·.symbol.id)).Nodup := by
    have hmap : program.globals.map (·.symbol.id) = (program.globals.map (·.symbol)).map (·.id) := by
      rw [List.map_map]
      rfl
    rw [hmap]
    refine List.Nodup.map_on (fun x hx y hy heq => ?_) hvars
    obtain ⟨d, hd, rfl⟩ := List.mem_map.1 hx
    obtain ⟨e, he, rfl⟩ := List.mem_map.1 hy
    have hkind := (h.globals d hd).trans (h.globals e he).symm
    cases hsym : d.symbol
    cases hoth : e.symbol
    simp_all
  have htexts : lowered.globals.map (·.global.text) =
      (lowered.globals.map (·.global.id)).map fun id => Tigger.Global.text ⟨id⟩ := by
    rw [List.map_map]
    rfl
  rw [htexts, ← (names_lower hlow).1]
  exact hids.map fun a b heq => congrArg Tigger.Global.id (global_text_injective heq)

def placedLabels (program : Tigger.Program) : List Label :=
  (program.code.map (·.controls)).flatMap Control.labels

theorem symbols_perm (h : (assemble lowered).Whole) :
    (symbols (assemble lowered).lines).Perm (lowered.globals.map (·.global.text) ++
      (lowered.code.map (·.name) ++ (placedLabels lowered).map labelText)) := by
  rw [symbols_assemble h, placedLabels, List.flatMap_map, List.map_flatMap]
  refine List.Perm.append_left _ ?_
  rw [List.map_eq_flatMap]
  exact (List.flatMap_append_perm lowered.code (fun f => [f.name])
    fun f => (Control.labels f.controls).map labelText).symm

/-- The assembly of a program defines every symbol once, unless a function has the name of a global or
of a label. -/
theorem symbols_defined_once_iff (optimized : Bool) {lines : List Line}
    (hgenerate : (generate tree).result = .ok program)
    (himprove : (improve optimized program).result = .ok improved)
    (hlower : (Tigger.lower improved).result = .ok lowered)
    (hassemble : (assemble lowered).whole = .ok lines) :
    (symbols lines).Nodup ↔ ∀ f ∈ tree.functions,
      (∀ decl ∈ lowered.globals, f.name.value ≠ decl.global.text) ∧
        ∀ l ∈ placedLabels lowered, f.name.value ≠ labelText l := by
  obtain ⟨signatures, hsignatures, hlaw⟩ := law_generate hgenerate
  have hlaw := (law_improve hlaw himprove).1
  have hglobals := nodup_globals hlaw hlower
  have hlabels : ((placedLabels lowered).map labelText).Nodup :=
    ((sound_of_law hlaw).lower hlower).distinct.map fun a b => labelText_injective
  have hnames : lowered.code.map (·.name) = tree.functions.map (·.name.value) := by
    rw [← (names_lower hlower).2]
    exact (map_eq_of_forall₂ hlaw.functions fun source f hf => hf.name.symm).symm
  have hdistinct := (nodup_of_collectSignatures hsignatures).1
  obtain ⟨hwhole, rfl⟩ := Output.whole_eq_ok hassemble
  rw [(symbols_perm hwhole).nodup_iff, hnames, List.nodup_append, List.nodup_append]
  constructor
  · rintro ⟨-, ⟨-, -, hfunctions⟩, hall⟩ f hf
    have hmem : f.name.value ∈ tree.functions.map (·.name.value) := List.mem_map_of_mem hf
    exact ⟨fun decl hdecl heq => hall _ (List.mem_map_of_mem hdecl) _
        (List.mem_append_left _ hmem) heq.symm,
      fun l hl => hfunctions _ hmem _ (List.mem_map_of_mem hl)⟩
  · intro hfree
    refine ⟨hglobals, ⟨hdistinct, hlabels, fun a ha b hb => ?_⟩, fun a ha b hb => ?_⟩
    · obtain ⟨f, hf, rfl⟩ := List.mem_map.1 ha
      obtain ⟨l, hl, rfl⟩ := List.mem_map.1 hb
      exact (hfree f hf).2 l hl
    · obtain ⟨decl, hdecl, rfl⟩ := List.mem_map.1 ha
      rcases List.mem_append.1 hb with hb | hb
      · obtain ⟨f, hf, rfl⟩ := List.mem_map.1 hb
        exact ((hfree f hf).1 decl hdecl).symm
      · obtain ⟨l, -, rfl⟩ := List.mem_map.1 hb
        exact global_text_ne_labelText _ l

/-- The symbols of the assembly of a program, not optimized. -/
def assembledSymbols (tokens : List (Located Token)) : Option (List String) := do
  let tree ← (Tree.Program.ofTokens tokens).toOption
  let program ← (generate tree).result.toOption
  let lowered ← (Tigger.lower program).result.toOption
  let lines ← (assemble lowered).whole.toOption
  return symbols lines

theorem eq_ok_of_toOption {ε : Type} {x : Except ε α} {a : α} (h : x.toOption = some a) :
    x = .ok a := by
  cases x with
  | error e => cases h
  | ok b => exact congrArg Except.ok (Option.some.inj h)

theorem of_assembledSymbols {tokens : List (Located Token)} {names : List String}
    (h : assembledSymbols tokens = some names) :
    ∃ tree program lowered lines, Tree.Program.ofTokens tokens = .ok tree ∧
      (generate tree).result = .ok program ∧ (Tigger.lower program).result = .ok lowered ∧
      (assemble lowered).whole = .ok lines ∧ symbols lines = names := by
  obtain ⟨tree, htree, h⟩ := Option.bind_eq_some_iff.1 h
  obtain ⟨program, hprog, h⟩ := Option.bind_eq_some_iff.1 h
  obtain ⟨lowered, hlwd, h⟩ := Option.bind_eq_some_iff.1 h
  obtain ⟨lines, hlines, h⟩ := Option.bind_eq_some_iff.1 h
  exact ⟨tree, program, lowered, lines, eq_ok_of_toOption htree, eq_ok_of_toOption hprog,
    eq_ok_of_toOption hlwd, eq_ok_of_toOption hlines, Option.some.inj h⟩

/-- The tokens of a function without parameters. -/
def functionTokens (name : String) : List Token := [
  .keyword .int, .identifier name, .mark .openParen, .mark .closeParen, .mark .openCurly,
  .keyword .return, .literal 0, .mark .semicolon, .mark .closeCurly]

/-- The tokens of a program with a global and functions of the given names. -/
def naming (functions : List String) : List (Located Token) :=
  (.keyword .int :: .identifier "g" :: .mark .semicolon :: functions.flatMap functionTokens).map
    fun token => ⟨token, .unknown⟩

theorem main_has_own_symbol : ∃ tree program lowered lines,
    (generate tree).result = .ok program ∧ (improve false program).result = .ok program ∧
      (Tigger.lower program).result = .ok lowered ∧ (assemble lowered).whole = .ok lines ∧
      symbols lines = ["v0", "main"] ∧ ∀ f ∈ tree.functions,
        (∀ decl ∈ lowered.globals, f.name.value ≠ decl.global.text) ∧
          ∀ l ∈ placedLabels lowered, f.name.value ≠ labelText l := by
  have hsymbols : assembledSymbols (naming ["main"]) = some ["v0", "main"] := by cbv
  obtain ⟨tree, program, lowered, lines, -, hgenerate, hlower, hassemble, hlines⟩ :=
    of_assembledSymbols hsymbols
  refine ⟨tree, program, lowered, lines, hgenerate, rfl, hlower, hassemble, hlines, ?_⟩
  refine (symbols_defined_once_iff false hgenerate rfl hlower hassemble).1 ?_
  rw [hlines]
  decide

theorem function_takes_symbol_of_global : ∃ tree program lowered lines,
    (generate tree).result = .ok program ∧ (Tigger.lower program).result = .ok lowered ∧
      (assemble lowered).whole = .ok lines ∧ ¬ (symbols lines).Nodup := by
  have hsymbols : assembledSymbols (naming ["v0", "main"]) = some ["v0", "v0", "main"] := by cbv
  obtain ⟨tree, program, lowered, lines, -, hgenerate, hlower, hassemble, hlines⟩ :=
    of_assembledSymbols hsymbols
  refine ⟨tree, program, lowered, lines, hgenerate, hlower, hassemble, ?_⟩
  rw [hlines]
  decide

end SysY.Compiler

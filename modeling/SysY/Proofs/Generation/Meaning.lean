import SysY.Proofs.Generation.Functions

/-!
# The meaning of generated programs

Every function of a program becomes code that does what the function does at its place: names stand
for the declarations in front of the function, and its variables are numbered behind those in front of
it. The code of `main` stands behind the code that initializes the globals.
-/

namespace SysY.Generation

open Eeyore Eeyore.Activation Flow Structured List
open Tree (Parameter Item)

variable {signatures : Signatures} {globals : List Decl} {b b' : Builder} {f g : Eeyore.Function}
  {placed : Placed} {sources : List Tree.Function} {program : Eeyore.Program} {tree : Tree.Program}

/-! ## Numbers of variables -/

theorem nextVar_writeFunction {source : Tree.Function}
    (h : Builds (writeFunction signatures source) b g b')
    (hst : Standing globals { b with code := .empty }) :
    b'.nextVar.toNat = b.nextVar.toNat + source.body.variables := by
  obtain ⟨hbody, -⟩ := builds_writeFunction h
  have hord := orderly_empty source.parameters hst
  exact ((meets_writeBody hord (by simp [Builder.known])).post _ _ hbody).2.2.1

/-! ## Functions at their places -/

/-- A function is written at its place in a program. -/
def WrittenAt (signatures : Signatures) (globals : List Decl) (placed : Placed)
    (g : Eeyore.Function) : Prop :=
  ∃ b b', Builds (writeFunction signatures placed.function) b g b' ∧
    Standing globals { b with code := .empty } ∧ b.nextVar.toNat = placed.number ∧
    ∀ env, placed.env = some env → b.scopes.find? = env

theorem Standing.widen {globals' : List Decl} (h : Standing globals { b with code := .empty })
    (hsub : globals ⊆ globals') : Standing globals' { b with code := .empty } :=
  fun meaning hdfs => (h meaning hdfs).mono fun d hd => by
    simp only [Builder.known, Code.empty, append_nil] at hd ⊢
    exact hsub hd

theorem writtenAt_items {items : List Item} {w w' : Written}
    {env : Option Environment} {number : Nat} (hlaw : ItemsLaw signatures sources w)
    (hres : (items.foldlM (writeItem signatures) w).result = .ok w')
    (henv : ∀ e, env = some e → w.builder.scopes.find? = e)
    (hnum : w.builder.nextVar.toNat = number) :
    globalDecls w.globals ⊆ globalDecls w'.globals ∧
      ∃ new, w'.functions.toList = w.functions.toList ++ new ∧
        List.Forall₂ (WrittenAt signatures (globalDecls w'.globals))
          (placedFunctions env number items) new := by
  induction items generalizing w sources env number with
  | nil =>
    cases hres
    exact ⟨fun _ hd => hd, [], (append_nil _).symm, .nil⟩
  | cons item items ih =>
    rw [foldlM_cons, Logged.result_bind] at hres
    obtain ⟨w1, hfst, hrest⟩ := bind_eq_ok.1 hres
    rcases result_writeItem hfst with ⟨declaration, builder, rfl, hb, rfl⟩ |
      ⟨source, f, builder, rfl, hb, rfl⟩
    · have hord : Orderly [] { w.builder with code := w.globals } := ⟨hlaw.init.neat, hlaw.standing⟩
      obtain ⟨hlays, _, _, hnum1⟩ := (meets_declare hord).post _ _ hb
      have hsub : globalDecls w.globals ⊆ globalDecls builder.code := fun d hd => by
        obtain ⟨hd, htemp⟩ := List.mem_filter.1 hd
        exact List.mem_filter.2 ⟨hlays.mem_decls hd, htemp⟩
      subst hnum
      have henv1 : ∀ e, (env.bind fun env => bindDefinitions declaration.constant env
          w.builder.nextVar.toNat declaration.definitions) = some e → builder.scopes.find? = e := by
        intro e he
        obtain ⟨e0, he0, he⟩ := Option.bind_eq_some_iff.1 he
        exact find?_declare hb hord (henv e0 he0) he
      obtain ⟨hsub', new, hnew, hwr⟩ := ih (itemsLaw_declaration hlaw hb) hrest henv1 hnum1
      exact ⟨fun d hd => hsub' (hsub hd), new, hnew, hwr⟩
    · have hst := Standing.outside hlaw.standing
      have hsc := (law_writeFunction hb hst).2.1
      have hnum1 := nextVar_writeFunction hb hst
      rw [hnum] at hnum1
      obtain ⟨hsub, new, hnew, hwr⟩ := ih (itemsLaw_function hlaw hb) hrest
        (fun e he => (congrArg Scopes.find? hsc).trans (henv e he)) hnum1
      refine ⟨hsub, f :: new, ?_, .cons ⟨w.builder, builder, hb, hst.widen hsub, hnum, henv⟩ hwr⟩
      rw [hnew, Array.toList_push, append_assoc]
      rfl

theorem WrittenAt.law (h : WrittenAt signatures globals placed g) :
    FunctionLaw signatures globals placed.function g ∧ tempCount g.decls < wordValues ∧
      ∀ i : UInt32, Declared g.decls (.var i) ↔
        placed.number ≤ i.toNat ∧ i.toNat < placed.number + placed.function.body.variables := by
  obtain ⟨b, b', hb, hst, hnum, _⟩ := h
  obtain ⟨hlaw, _, _, _, _, hdcl⟩ := law_writeFunction hb hst
  have ht : b'.code.temps.toNat < wordValues := b'.code.temps.toNat_lt
  refine ⟨hlaw, by rwa [hdcl.tempCount (Nat.le_of_lt ht)], fun i => ?_⟩
  rw [← hnum, ← nextVar_writeFunction hb hst]
  constructor
  · rintro ⟨size, hmem⟩
    rcases hdcl.known _ hmem with ⟨j, heq, _⟩ | ⟨j, _, heq, hlow, hhigh⟩
    · cases heq
    · cases heq
      exact ⟨hlow, hhigh⟩
  · rintro ⟨hlow, hhigh⟩
    exact hdcl.vars i hlow hhigh

/-! ## Programs -/

/-- The code of a function that begins at a position does what the function does at its place. If
no execution of the function is undefined, the code returns a value, with calls, variables and memory,
exactly if the function does. -/
def Preserves (globals : List Decl) (position : Nat) (placed : Placed) (f : Eeyore.Function) :
    Prop :=
  ∀ (world : World) (scalars : Symbol → Option Int32) (memory : Memory),
    let s := (State.start scalars memory).at position
    (∀ fuel, placed.run world fuel (shown s) ≠ .undefined) →
    ∀ value final, (∃ steps t, world.run globals f steps s = ⟨.returned value, t⟩ ∧ shown t = final) ↔
      ∃ fuel, placed.run world fuel (shown s) = .returned value final

theorem WrittenAt.preserves (hwr : WrittenAt signatures globals placed g)
    (h : Situated signatures globals placed.function placed.number f) {front : List Instruction}
    (hbody : f.body.toList = front ++ g.body.toList) (hdecls : g.decls ⊆ f.decls) :
    Preserves globals front.length placed f := by
  intro world scalars memory s hdfd value final
  have hends : ∀ fuel, (h.stage world front.length).Ends fuel s
      (placed.run world fuel (shown s)) := by
    intro fuel
    obtain ⟨b, b', hb, hst, hnum, henv⟩ := hwr
    unfold Placed.run
    cases hpld : placed.env with
    | none => trivial
    | some env =>
      exact h.ends hb hst hnum (henv env hpld) hbody hdecls rfl (shows_shown s rfl)
  rw [← Stage.returns_iff hends hdfd]
  constructor
  · rintro ⟨steps, t, hrun, hshown⟩
    exact ⟨t, ⟨steps, hrun⟩, hshown⟩
  · rintro ⟨t, ⟨steps, hrun⟩, hshown⟩
    exact ⟨steps, t, hrun, hshown⟩

/-- How many instructions initialize the globals of a program. -/
def initialInstructions (tree : Tree.Program) : Nat :=
  match collectSignatures library tree.functions with
  | .error _ => 0
  | .ok signatures =>
    match (tree.items.foldlM (writeItem signatures) ⟨.empty, .empty, #[]⟩).result with
    | .error _ => 0
    | .ok w => w.globals.body.size

/-- Where the code of a function begins: `main` stands behind the initialization of the globals. -/
def entry (tree : Tree.Program) (function : Tree.Function) : Nat :=
  if function.name.value = "main" then initialInstructions tree else 0

theorem functions_placedFunctions (env : Option Environment) (number : Nat) (items : List Item) :
    (placedFunctions env number items).map (·.function) = functionsOf items := by
  induction items generalizing env number with
  | nil => rfl
  | cons item items ih =>
    cases item with
    | declaration declaration => exact ih _ _
    | function function => exact congrArg (function :: ·) (ih _ _)

theorem WrittenAt.situated (h : WrittenAt signatures globals placed g)
    (hkinds : ∀ d ∈ globals, d.symbol.kind = .variable) (hlabs : (setLabels g.body.toList).Nodup)
    (hdist : (declaredVars globals ++ declaredVars g.decls).Nodup) :
    Situated signatures globals placed.function placed.number g :=
  ⟨h.law.1, hkinds, hlabs, hdist, h.law.2.2⟩

theorem WrittenAt.preserves_relocated {code : Code} {main : Eeyore.Function}
    (h : WrittenAt signatures globals placed g) (hinit : InitLaw signatures code)
    (hrel : relocate code g = .ok (globals, main))
    (hkinds : ∀ d ∈ globals, d.symbol.kind = .variable) (hlabs : (setLabels main.body.toList).Nodup)
    (hdist : (declaredVars globals ++ declaredVars main.decls).Nodup) :
    Preserves globals code.body.size placed main := by
  obtain ⟨hglobs, _, hmain⟩ := relocate_eq_ok hrel
  obtain ⟨_, hlaw, _, hvars, _⟩ := law_relocate hinit (hglobs ▸ h.law.1) h.law.2.1 hrel
  have hsituated : Situated signatures globals placed.function placed.number main := by
    refine ⟨hlaw, hkinds, hlabs, hdist, fun i => ?_⟩
    rw [← h.law.2.2 i]
    have hkind : (Symbol.var i).kind = .variable := rfl
    have hmem : Symbol.var i ∈ declaredVars main.decls ↔ Symbol.var i ∈ declaredVars g.decls := by
      rw [hvars]
    rwa [mem_declaredVars, mem_declaredVars, and_iff_left hkind, and_iff_left hkind] at hmem
  have hbody : main.body.toList =
      (code.body.map (·.mapSymbols (shiftTemp (.ofNat (tempCount g.decls))))).toList ++
        g.body.toList := by
    rw [hmain, Array.toList_append]
  have hdecls : g.decls ⊆ main.decls := by
    rw [hmain]
    exact subset_append_left _ _
  have hpres := h.preserves hsituated hbody hdecls
  rwa [Array.length_toList, Array.size_map] at hpres

theorem ProgramLaw.nodup_of_mem
    (h : ProgramLaw signatures sources program) (hf : f ∈ program.code) :
    (setLabels f.body.toList).Nodup ∧
      (declaredVars program.globals ++ declaredVars f.decls).Nodup := by
  refine ⟨h.labels.sublist ?_, h.vars.sublist (List.Sublist.append_left ?_ _)⟩
  · exact sublist_flatten_of_mem (mem_map_of_mem hf)
  · exact sublist_flatten_of_mem (mem_map_of_mem hf)

theorem getElem_append_cons_of_ne {α : Type} {front back : List α} {i : Nat} {a c : α}
    (h : i ≠ front.length) (ha : i < (front ++ a :: back).length)
    (hc : i < (front ++ c :: back).length) : (front ++ a :: back)[i] = (front ++ c :: back)[i] := by
  rcases Nat.lt_or_gt_of_ne h with hlt | hgt
  · rw [getElem_append_left hlt, getElem_append_left hlt]
  · rw [getElem_append_right (by omega), getElem_append_right (by omega),
      getElem_cons, getElem_cons, dif_neg (by omega), dif_neg (by omega)]

theorem written_generate (h : (generate tree).result = .ok program) :
    ∃ signatures code main main' front back, InitLaw signatures code ∧
      initialInstructions tree = code.body.size ∧ main.name = "main" ∧
      relocate code main = .ok (program.globals, main') ∧ program.code = front ++ main' :: back ∧
      List.Forall₂ (WrittenAt signatures program.globals)
        (placedFunctions (some .empty) 0 tree.items) (front ++ main :: back) := by
  obtain ⟨signatures, w, main, main', hsigs, hitems, hfind, hrel, hcode⟩ := generate_eq_ok h
  have hinit := (itemsLaw_items (itemsLaw_empty signatures) hitems).init
  have hsz : initialInstructions tree = w.globals.body.size := by
    rw [initialInstructions, hsigs]
    dsimp only
    rw [hitems]
  have hname : main.name = "main" := by simpa using find?_some hfind
  have henv : ∀ e, some Environment.empty = some e → Builder.empty.scopes.find? = e := by
    rintro _ ⟨⟩
    rfl
  obtain ⟨_, new, hnew, hwr⟩ := writtenAt_items (itemsLaw_empty signatures) hitems henv rfl
  obtain rfl : w.functions.toList = new := hnew
  rw [← (relocate_eq_ok hrel).1] at hwr
  obtain ⟨front, back, hspl, hrep⟩ := replaceFirst_eq main' hfind
  rw [hspl] at hwr
  exact ⟨signatures, w.globals, main, main', front, back, hinit, hsz, hname, hrel,
    hcode.trans hrep, hwr⟩

theorem nodup_names_placedFunctions (h : (generate tree).result = .ok program) :
    ((placedFunctions (some .empty) 0 tree.items).map (·.function.name.value)).Nodup := by
  obtain ⟨signatures, hsigs, _⟩ := law_generate h
  have hnd := (nodup_of_collectSignatures hsigs).1
  rwa [show tree.functions = functionsOf tree.items from rfl,
    ← functions_placedFunctions (some .empty) 0, map_map] at hnd

/-- The code of every function does what the function does at its place in the program. -/
theorem generate_preserves {tree : Tree.Program} {program : Eeyore.Program}
    (h : (generate tree).result = .ok program) :
    List.Forall₂ (fun placed f =>
        Preserves program.globals (entry tree placed.function) placed f)
      (placedFunctions (some .empty) 0 tree.items) program.code := by
  obtain ⟨_, _, hprogram⟩ := law_generate h
  have hnames := nodup_names_placedFunctions h
  obtain ⟨signatures, code, main, main', front, back, hinit, hsize, hname, hrelocate, hcode,
    hwritten⟩ := written_generate h
  generalize placedFunctions (some .empty) 0 tree.items = placed at hnames hwritten ⊢
  have hlength : placed.length = front.length + (back.length + 1) := by
    simpa using hwritten.length_eq
  have hmain : front.length < placed.length := by omega
  have hwrittenMain : WrittenAt signatures program.globals placed[front.length] main := by
    simpa using hwritten.get hmain (by simp)
  have hnameMain : placed[front.length].function.name.value = "main" :=
    hwrittenMain.law.1.name.symm.trans hname
  refine List.forall₂_iff_get.2 ⟨by simp [hcode, hlength], fun i hi hi' => ?_⟩
  obtain ⟨hlabels, hdistinct⟩ := hprogram.nodup_of_mem (List.get_mem program.code ⟨i, hi'⟩)
  rw [List.get_eq_getElem, List.get_eq_getElem]
  by_cases hat : i = front.length
  · subst hat
    have hf : program.code[front.length] = main' := by simp [hcode]
    rw [List.get_eq_getElem, hf] at hlabels hdistinct
    rw [hf, entry, if_pos hnameMain, hsize]
    exact hwrittenMain.preserves_relocated hinit hrelocate hprogram.globals hlabels hdistinct
  · have hi₀ : i < (front ++ main :: back).length := by simpa [hcode] using hi'
    have hf : program.code[i] = (front ++ main :: back)[i] := by
      simp only [hcode]
      exact getElem_append_cons_of_ne hat _ _
    have hother : placed[i].function.name.value ≠ "main" := fun heq =>
      hat ((@List.Nodup.getElem_inj_iff _ _ hnames i (by simpa using hi) front.length
        (by simpa using hmain)).1 (by simp [heq, hnameMain]))
    have hwrittenHere : WrittenAt signatures program.globals placed[i] (front ++ main :: back)[i] :=
      hwritten.get hi hi₀
    rw [List.get_eq_getElem, hf] at hlabels hdistinct
    rw [hf, entry, if_neg hother]
    exact hwrittenHere.preserves (hwrittenHere.situated hprogram.globals hlabels hdistinct)
      (nil_append _).symm (List.Subset.refl _)

/-! ## An example -/

/-- Every call returns the same value and leaves memory alone. -/
def answering (v : Int32) : World where
  place _ := 0
  others := []
  byZero _ _ := none
  reply _ := ⟨v, fun _ => none, fun _ => 0⟩
  keeps _ _ := true

/-- The value that a function returns. -/
def returnedValue : Structured.Outcome → Option Int32
  | .returned value _ => value
  | _ => none

theorem eq_returned {outcome : Structured.Outcome} {v : Int32}
    (h : returnedValue outcome = some v) : ∃ final, outcome = .returned (some v) final := by
  cases outcome with
  | returned value final =>
    obtain rfl : value = some v := h
    exact ⟨final, rfl⟩
  | _ => cases h

theorem run_counting : ∃ placed,
    (placedFunctions (some .empty) 0 counting.items)[1]? = some placed ∧
      placed.function.name.value = "main" ∧
      ∀ fuel store, returnedValue (placed.run (answering 7) fuel store) = some 7 :=
  ⟨_, rfl, rfl, fun fuel store => by cbv⟩

theorem counting_returns : ∃ program f, (generate counting).result = .ok program ∧
    f ∈ program.code ∧ ∀ scalars memory, ∃ steps t,
      (answering 7).run program.globals f steps
        ((State.start scalars memory).at (initialInstructions counting)) =
        ⟨.returned (some 7), t⟩ := by
  obtain ⟨program, h⟩ := counting_accepted
  obtain ⟨placed, hplaced, hname, hrun⟩ := run_counting
  obtain ⟨hi, hget⟩ := List.getElem?_eq_some_iff.1 hplaced
  have hi' : 1 < program.code.length := (generate_preserves h).length_eq ▸ hi
  have hpreserves := (generate_preserves h).get hi hi'
  rw [List.get_eq_getElem, hget, entry, if_pos hname] at hpreserves
  refine ⟨program, _, h, List.get_mem program.code ⟨1, hi'⟩, fun scalars memory => ?_⟩
  have hdefined : ∀ fuel, placed.run (answering 7) fuel
      (shown ((State.start scalars memory).at (initialInstructions counting))) ≠ .undefined := by
    intro fuel hundefined
    have hvalue := hrun fuel (shown ((State.start scalars memory).at (initialInstructions counting)))
    rw [hundefined] at hvalue
    cases hvalue
  obtain ⟨final, hfinal⟩ := eq_returned (hrun 0 _)
  obtain ⟨steps, t, hsteps, _⟩ :=
    (hpreserves (answering 7) scalars memory hdefined (some 7) final).2 ⟨0, hfinal⟩
  exact ⟨steps, t, hsteps⟩

end SysY.Generation

import SysY.Proofs.Generation.Symbols
import SysY.Proofs.Tigger.Shape

/-!
# Control flow in all stages

Generated code obeys its laws, optimized code obeys them too, and register code has the same skeleton.
So in each of these forms of a program every label that is gone to is set exactly once, where it is
needed, and control never runs behind the end of a function.
-/

namespace SysY.Compiler

open Eeyore Generation Optimization List
open Control (Aimed Ended LabelsSound RunsOff)

variable {sigs : Signatures} {globals ds : List Decl} {source : Tree.Function} {f : Function}
  {sources : List Tree.Function} {functions : List Function} {program : Program}

/-! ## Optimized programs obey the laws -/

theorem operands_mapOperands (f : Value → Value) (i : Instruction) :
    (i.mapOperands f).operands = i.operands.map f := by
  cases i with
  | «return» value => cases value <;> rfl
  | _ => rfl

theorem lawful_mapOperands {f : Value → Value} {i : Instruction} (h : Lawful sigs ds i)
    (hkn : ∀ v, Known ds v → Known ds (f v)) (hconst : ∀ v c, f v = .const c → ∃ a, v = .const a) :
    Lawful sigs ds (i.mapOperands f) := by
  refine ⟨fun v hv => ?_, ?_, ?_, fun dest op a c heq => ?_, fun fn args output heq => ?_⟩
  · rw [operands_mapOperands] at hv
    obtain ⟨w, hw, rfl⟩ := List.mem_map.1 hv
    exact hkn w (h.operands w hw)
  · rw [definition_mapOperands]
    exact h.scalar
  · rw [base?_mapOperands]
    exact h.array
  · cases i with
    | binary dest' op' left right =>
      obtain ⟨-, -, hl, hr⟩ := Instruction.binary.inj heq
      obtain ⟨a', rfl⟩ := hconst left a hl
      obtain ⟨c', rfl⟩ := hconst right c hr
      exact h.folded dest' op' a' c' rfl
    | _ => cases heq
  · cases i <;> cases heq
    obtain ⟨signature, hsig, hlen⟩ := h.arguments _ _ _ rfl
    exact ⟨signature, hsig, by rw [length_map, hlen]⟩

theorem stable_lawful (sigs : Signatures) (ds : List Decl) : Stable (Lawful sigs ds) where
  propagated {i copies} h hcopies := by
    refine lawful_mapOperands h (fun v hv => ?_) fun v c hc => ?_
    · cases v with
      | const c => exact known_const c
      | symbol x =>
        refine known_symbol ?_
        cases hlook : copies.lookup x with
        | none => exact hv x rfl
        | some source =>
          obtain ⟨dest, hcopy⟩ := hcopies x source hlook
          exact hcopy.operands (.symbol source) mem_cons_self source rfl
    · cases v with
      | const a => exact ⟨a, rfl⟩
      | symbol x => cases hc
  repeated hi hcpn hj hprior :=
    .copy (hi.scalar _ (definition_of_computation hcpn)) (known_symbol ⟨none, hj.scalar _ hprior⟩)

theorem aimed_of_law (h : FunctionLaw sigs globals source f) : Aimed f.controls := by
  intro c hc l hl
  obtain ⟨i, hi, rfl⟩ := List.mem_map.1 hc
  rw [Function.controls, labels_map_control]
  exact h.aimed i hi l hl

theorem ended_of_law (h : FunctionLaw sigs globals source f) : Ended f.controls := by
  obtain ⟨i, hback, hstp⟩ := (Option.any_eq_true _ _).1 h.ended
  rw [← Array.getLast?_toList] at hback
  obtain ⟨front, hfro⟩ := List.getLast?_eq_some_iff.1 hback
  exact ⟨front.map (·.control), i.control, by simp [Function.controls, hfro], hstp⟩

/-- Functions with the same parameters and declarations. -/
structure SameSymbols (f g : Function) : Prop where
  parameters : g.parameters = f.parameters
  decls : g.decls = f.decls

theorem law_optimizeFunction (h : FunctionLaw sigs globals source f) :
    ∃ g, (optimizeFunction f).result = .ok g ∧ FunctionLaw sigs globals source g ∧
      SameSymbols f g ∧ (setLabels g.body.toList).Sublist (setLabels f.body.toList) := by
  obtain ⟨g, hg, honly, hshaped⟩ := optimizeFunction_shaped (aimed_of_law h) (ended_of_law h)
  have hname : g.name = f.name := by rw [honly]
  have hpars : g.parameters = f.parameters := by rw [honly]
  have hdecls : g.decls = f.decls := by rw [honly]
  refine ⟨g, hg, ⟨hname.trans h.name, hpars.trans h.parameters, hdecls ▸ h.declared, ?_, ?_,
    ?_⟩, ⟨hpars, hdecls⟩, hshaped.labels⟩
  · rw [hdecls]
    exact hshaped.keeps _ (stable_lawful _ _) h.lawful
  · intro i hi l hl
    rw [← labels_map_control]
    exact hshaped.aimed _ (mem_map_of_mem hi) l hl
  · obtain ⟨front, c, hcode, hstp⟩ := hshaped.ended
    obtain ⟨xs, ys, hspl, -, hys⟩ := List.map_eq_append_iff.1 hcode
    obtain ⟨i, rfl, rfl⟩ := List.map_eq_singleton_iff.1 hys
    rw [← Array.getLast?_toList, hspl, getLast?_concat]
    exact hstp

theorem law_optimizeFunctions
    (h : List.Forall₂ (FunctionLaw sigs globals) sources functions) :
    ∃ code, functions.mapM (fun f => (optimizeFunction f).result) = .ok code ∧
      List.Forall₂ (FunctionLaw sigs globals) sources code ∧
      (labelsOf code).Sublist (labelsOf functions) ∧
      List.Forall₂ SameSymbols functions code := by
  induction h with
  | nil => exact ⟨[], rfl, .nil, .slnil, .nil⟩
  | @cons source f sources functions hf _ ih =>
    obtain ⟨g, hg, hlaw, hsame, hlabs⟩ := law_optimizeFunction hf
    obtain ⟨code, hcode, hlaws, hsub, hsames⟩ := ih
    exact ⟨g :: code, mapM_eq_ok.2 (.cons hg (mapM_eq_ok.1 hcode)), .cons hlaw hlaws,
      hlabs.append hsub, .cons hsame hsames⟩

theorem varsOf_of_same {code : List Function}
    (h : List.Forall₂ SameSymbols functions code) : varsOf code = varsOf functions := by
  induction h with
  | nil => rfl
  | cons hsame _ ih =>
    rw [varsOf, flatMap_cons, hsame.decls]
    exact congrArg _ ih

theorem law_optimize (h : ProgramLaw sigs sources program) :
    ∃ optimized, (optimize program).result = .ok optimized ∧
      ProgramLaw sigs sources optimized ∧
      List.Forall₂ SameSymbols program.code optimized.code := by
  obtain ⟨code, hres, hlaws, hlabs, hsame⟩ := law_optimizeFunctions h.functions
  refine ⟨{ program with code := code }, ?_, ⟨hlaws, hlabs.nodup h.labels,
    varsOf_of_same hsame ▸ h.vars, h.globals, h.small⟩, hsame⟩
  simp only [optimize, Logged.result_bind, Logged.result_mapM, hres, ok_bind]
  rfl

/-! ## Skeletons of all forms -/

/-- The skeletons of the functions of a program have a property: those that are generated, those
that are optimized, and those of the register code of either. -/
structure Throughout (Φ : List (List Control) → Prop) (program : Program) : Prop where
  generated : Φ (program.code.map (·.controls))
  lowered : ∀ lowered, (Tigger.lower program).result = .ok lowered →
    Φ (lowered.code.map (·.controls))
  optimized : ∃ optimized, (optimize program).result = .ok optimized ∧
    Φ (optimized.code.map (·.controls)) ∧
    ∀ lowered, (Tigger.lower optimized).result = .ok lowered → Φ (lowered.code.map (·.controls))

theorem Throughout.imp {Φ Ψ : List (List Control) → Prop}
    (himp : ∀ functions, Φ functions → Ψ functions) (h : Throughout Φ program) :
    Throughout Ψ program := by
  obtain ⟨optimized, hres, hopt, hlwd⟩ := h.optimized
  exact ⟨himp _ h.generated, fun t ht => himp _ (h.lowered t ht),
    optimized, hres, himp _ hopt, fun t ht => himp _ (hlwd t ht)⟩

/-- Functions that set the labels they go to, no two of them the same, and do not go on at the end.
-/
structure Sound (functions : List (List Control)) : Prop where
  aimed : ∀ code ∈ functions, Aimed code
  ended : ∀ code ∈ functions, Ended code
  distinct : (functions.flatMap Control.labels).Nodup

theorem sound_of_law
    (h : ProgramLaw sigs sources program) : Sound (program.code.map (·.controls)) := by
  have hlaw : ∀ f ∈ program.code, Aimed f.controls ∧ Ended f.controls := by
    intro f hf
    obtain ⟨source, -, hlaw⟩ := exists_of_forall₂ h.functions hf
    exact ⟨aimed_of_law hlaw, ended_of_law hlaw⟩
  refine ⟨?_, ?_, ?_⟩
  · simpa using fun f hf => (hlaw f hf).1
  · simpa using fun f hf => (hlaw f hf).2
  · rw [flatMap_map]
    simp only [Function.controls, labels_map_control]
    exact h.labels

theorem flatMap_labels_lower {lowered : List Tigger.Function}
    (h : List.Forall₂ Tigger.SameControls functions lowered) :
    (lowered.map (·.controls)).flatMap Control.labels =
      (functions.map (·.controls)).flatMap Control.labels := by
  induction h with
  | nil => rfl
  | cons hft _ ih =>
    rw [map_cons, map_cons, flatMap_cons, flatMap_cons, ih,
      Control.labels_congr hft.significant]

theorem Sound.lower {lowered : Tigger.Program}
    (h : Sound (program.code.map (·.controls))) (hlow : (Tigger.lower program).result = .ok lowered) :
    Sound (lowered.code.map (·.controls)) := by
  have hsame := Tigger.sameControls_lower hlow
  refine ⟨?_, ?_, ?_⟩
  · intro code hcode
    obtain ⟨t, ht, rfl⟩ := List.mem_map.1 hcode
    obtain ⟨f, hf, hft⟩ := exists_of_forall₂ hsame ht
    exact (h.aimed _ (mem_map_of_mem hf)).congr hft.significant
  · intro code hcode
    obtain ⟨t, ht, rfl⟩ := List.mem_map.1 hcode
    obtain ⟨f, hf, hft⟩ := exists_of_forall₂ hsame ht
    exact hft.ended (h.ended _ (mem_map_of_mem hf))
  · rw [flatMap_labels_lower hsame]
    exact h.distinct

theorem throughout_sound {tree : Tree.Program}
    (h : (generate tree).result = .ok program) : Throughout Sound program := by
  obtain ⟨sigs, -, hlaw⟩ := law_generate h
  obtain ⟨optimized, hres, hopt, -⟩ := law_optimize hlaw
  exact ⟨sound_of_law hlaw, fun _ => (sound_of_law hlaw).lower,
    optimized, hres, sound_of_law hopt, fun _ => (sound_of_law hopt).lower⟩

/-! ## Labels and ends -/

/-- Every label that a function goes to is set exactly once, in this function, and no label is set
twice in the program. -/
theorem labels_throughout {tree : Tree.Program} {program : Program}
    (h : (generate tree).result = .ok program) : Throughout LabelsSound program :=
  (throughout_sound h).imp fun _ hsound =>
    Control.labelsSound_of_aimed hsound.aimed hsound.distinct

theorem counting_labels : ∃ program, (generate counting).result = .ok program ∧
    Throughout LabelsSound program := by
  obtain ⟨program, h⟩ := counting_accepted
  exact ⟨program, h, labels_throughout h⟩

/-- No way through a function leads behind its last instruction. -/
theorem never_runs_off {tree : Tree.Program} {program : Program}
    (h : (generate tree).result = .ok program) :
    Throughout (fun functions => ∀ code ∈ functions, ¬ RunsOff code) program :=
  (throughout_sound h).imp fun _ hsound code hcode => (hsound.ended code hcode).not_runsOff

theorem counting_never_runs_off : ∃ program, (generate counting).result = .ok program ∧
    Throughout (fun functions => ∀ code ∈ functions, ¬ RunsOff code) program := by
  obtain ⟨program, h⟩ := counting_accepted
  exact ⟨program, h, never_runs_off h⟩

end SysY.Compiler

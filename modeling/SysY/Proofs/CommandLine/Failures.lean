import SysY.CommandLine.Run
import SysY.Proofs.Compiler.Totality
import SysY.Proofs.Text.Lines

/-!
# Runs that fail

Whatever is wrong with the arguments, the files or the source is found before the output is opened.
What is left to fail is the writing of a program that has been accepted: a function with more than
eight parameters, or with more variables than a stack holds, has three-address code but nothing
beyond. A run on such a program leaves what it has written so far.
-/

namespace SysY.CommandLine

open Compiler Generation

variable {tokens : List (Located Token)} {tree : Tree.Program} {program improved : Eeyore.Program}
  {optimized : Bool} {log : List Record} {path : String} {error : FileError}

/-! ## Writing -/

/-- A program that can be too large to be written down. -/
def Oversized (tokens : List (Located Token)) (program : Eeyore.Program) : Prop :=
  2 ^ 28 ≤ tokens.length ∨ ∃ f ∈ program.code, 8 < f.parameters.toNat ∨ 2 ^ 28 ≤ localWords f

theorem compilable_of_not_oversized (hparse : Tree.Program.ofTokens tokens = .ok tree)
    (hgen : (generate tree).result = .ok program)
    (himp : (improve optimized program).result = .ok improved)
    (hsz : ¬ Oversized tokens program) : Compilable improved := by
  obtain ⟨hshort, hsm⟩ := not_or.1 hsz
  refine compilable_improve (Nat.lt_of_not_le hshort) hparse hgen himp fun f hf => ?_
  obtain ⟨hpars, hwords⟩ := not_or.1 fun h => hsm ⟨f, hf, h⟩
  exact ⟨Nat.le_of_not_lt hpars, Nat.lt_of_not_le hwords⟩

theorem fault_emission (h : Compilable program) (form : Form) :
    (emission form program).fault = none := by
  have hlogged : ∀ form, (Emission.ofLogged (emit form false program)).fault = none := by
    intro form
    obtain ⟨text, htext⟩ := h.write_ok form
    rw [Emission.ofLogged, htext]
  cases form with
  | eeyore => exact hlogged .eeyore
  | tigger => exact hlogged .tigger
  | assembly =>
    obtain ⟨lowered, hlwd, hglobs, hcode⟩ := h.lower_ok
    simp only [emission, hlwd]
    exact RiscV.whole_assemble hglobs hcode

/-! ## Runs -/

/-- A failure leaves no trace: no output, and the files as they were. -/
def Traceless (files : Files) (run : Outcome × Files) : Prop :=
  run.1.stdout = "" ∧ run.2 = files

theorem emissionOutcome_fails {options : Options} {stdout : String}
    {emission : Emission} (h : (emissionOutcome options stdout log emission).status ≠ .success) :
    (emissionOutcome options stdout log emission).status = .fault ∧ emission.fault ≠ none := by
  unfold emissionOutcome at h ⊢
  split
  · rename_i fault hflt
    exact ⟨rfl, by rw [hflt]; nofun⟩
  · rename_i hflt
    rw [hflt] at h
    exact absurd rfl h

theorem run_after {α β : Type} {x : StateM Files α} {f : α → StateM Files β} {a : α}
    {files files' : Files} (h : x.run files = (a, files')) :
    (x >>= f).run files = (f a).run files' := by
  rw [StateT.run_bind, h]
  rfl

theorem run_read (files : Files) (path : String) :
    (Files.access.read path).run files = (files.read path, files) := rfl

theorem run_create_error {files : Files} (h : files.write path "" = .error error) :
    (Files.access.create path).run files = (.error error, files) := by
  simp [Files.access, h]
  rfl

theorem run_create_ok {files opened : Files} (h : files.write path "" = .ok opened) :
    (Files.access.create path).run files = (.ok (), opened) := by
  simp [Files.access, h]
  rfl

theorem writeOutput_fails {options : Options} {files : Files}
    (h : ((writeOutput Files.access options log program).run files).1.status ≠ .success) :
    Traceless files ((writeOutput Files.access options log program).run files) ∨
      ((writeOutput Files.access options log program).run files).1.status = .fault ∧
        (emission options.form program).fault ≠ none := by
  unfold writeOutput at h ⊢
  split
  · rename_i hstdout
    rw [if_pos hstdout] at h
    exact .inr (emissionOutcome_fails h)
  · rename_i hfile
    rw [if_neg hfile] at h
    cases hw : files.write options.output "" with
    | error error =>
      rw [run_after (run_create_error hw)]
      exact .inl ⟨rfl, rfl⟩
    | ok opened =>
      rw [run_after (run_create_ok hw)] at h ⊢
      exact .inr (emissionOutcome_fails h)

theorem of_compileSource {source : String}
    (h : (compileSource optimized path source).result = .ok improved) :
    ∃ tokens tree program, Lexer.tokens (Stream.ofBytes path source.toUTF8.toList) = .ok tokens ∧
      Tree.Program.ofTokens tokens = .ok tree ∧ (generate tree).result = .ok program ∧
      (improve optimized program).result = .ok improved := by
  simp only [compileSource, generateCode, Logged.result_bind, Logged.result_ofExcept,
    Logged.mapError] at h
  obtain ⟨tree, htree, h⟩ := bind_eq_ok.1 h
  obtain ⟨program, hprog, h⟩ := bind_eq_ok.1 h
  obtain ⟨tokens, htokens, htree⟩ := bind_eq_ok.1 (mapError_eq_ok.1 htree)
  exact ⟨tokens, tree, program, mapError_eq_ok.1 htokens, mapError_eq_ok.1 htree,
    mapError_eq_ok.1 hprog, mapError_eq_ok.1 h⟩

section Compile

variable {options : Options} {files : Files} {source : String}

theorem run_compile_unread (hread : files.read options.input = .error error) :
    (compile Files.access options).run files =
      (⟨.fileFailure, "", fileReport "reading" options.input error⟩, files) := by
  rw [compile, run_after (run_read files _), hread]
  rfl

theorem run_compile_error {failure : Failure} (hread : files.read options.input = .ok source)
    (hcompi : (compileSource options.optimized options.input source).result = .error failure) :
    (compile Files.access options).run files = (failureOutcome options
      (compileSource options.optimized options.input source).log failure, files) := by
  rw [compile, run_after (run_read files _)]
  simp only [hread, hcompi]
  rfl

theorem run_compile_ok (hread : files.read options.input = .ok source)
    (hcompi : (compileSource options.optimized options.input source).result = .ok improved) :
    (compile Files.access options).run files = (writeOutput Files.access options
      ((compileSource options.optimized options.input source).log ++ [emitRecord options])
      improved).run files := by
  rw [compile, run_after (run_read files _)]
  simp only [hread, hcompi]

end Compile

/-- A run that fails leaves no trace, unless a program was accepted that is too large to be written
down. -/
theorem failure_is_traceless_unless_oversized (arguments : List String) (files : Files)
    (hstatus : (runInMemory arguments files).1.status ≠ .success) :
    Traceless files (runInMemory arguments files) ∨
      (runInMemory arguments files).1.status = .fault ∧
      ∃ options source tokens tree program, Options.parse arguments = .ok options ∧
        files.read options.input = .ok source ∧
        Lexer.tokens (Stream.ofBytes options.input source.toUTF8.toList) = .ok tokens ∧
        Tree.Program.ofTokens tokens = .ok tree ∧ (generate tree).result = .ok program ∧
        Oversized tokens program := by
  unfold runInMemory run at hstatus ⊢
  cases hoptions : Options.parse arguments with
  | error stop =>
    rw [hoptions] at hstatus
    cases stop with
    | misuse => exact .inl ⟨rfl, rfl⟩
    | version => exact absurd rfl hstatus
    | help => exact absurd rfl hstatus
  | ok options =>
    rw [hoptions] at hstatus
    dsimp only at hstatus ⊢
    cases hread : files.read options.input with
    | error error =>
      rw [run_compile_unread hread]
      exact .inl ⟨rfl, rfl⟩
    | ok source =>
      cases hcompile : (compileSource options.optimized options.input source).result with
      | error failure =>
        rw [run_compile_error hread hcompile]
        cases failure <;> exact .inl ⟨rfl, rfl⟩
      | ok improved =>
        rw [run_compile_ok hread hcompile] at hstatus ⊢
        refine (writeOutput_fails hstatus).imp_right fun ⟨hfault, hemission⟩ => ⟨hfault, ?_⟩
        obtain ⟨tokens, tree, program, htokens, htree, hprogram, himprove⟩ :=
          of_compileSource hcompile
        refine ⟨options, source, tokens, tree, program, rfl, hread, htokens, htree, hprogram, ?_⟩
        by_contra hsize
        exact hemission (fault_emission (compilable_of_not_oversized htree hprogram himprove hsize) _)

/-- A source that uses a name without a meaning, and an earlier output. -/
def undefinedName : Files :=
  [("a.sy", "int main() \x7b return x; \x7d"), ("out", "earlier")]

theorem undefined_name_is_traceless :
    (runInMemory ["a.sy", "-o", "out"] undefinedName).1.status = .meaningless ∧
      Traceless undefinedName (runInMemory ["a.sy", "-o", "out"] undefinedName) := by
  have hstatus : (runInMemory ["a.sy", "-o", "out"] undefinedName).1.status = .meaningless := by
    unfold runInMemory run compile compileSource Stream.ofBytes
    simp only [Text.decodeLines_toUTF8]
    decide +kernel
  refine ⟨hstatus, ?_⟩
  rcases failure_is_traceless_unless_oversized ["a.sy", "-o", "out"] undefinedName
    (by rw [hstatus]; nofun) with h | ⟨hfault, -⟩
  · exact h
  · rw [hstatus] at hfault
    cases hfault

def nineParameters : Files :=
  [("a.sy", "int f(int a,int b,int c,int d,int e,int g,int h,int i,int j)\x7breturn 0;\x7d" ++
    "int main()\x7breturn 0;\x7d")]

theorem nine_parameters_leave_an_empty_file :
    (runInMemory ["a.sy", "-O0", "-o", "out"] nineParameters).1.status = .fault ∧
      nineParameters.lookup "out" = none ∧
      (runInMemory ["a.sy", "-O0", "-o", "out"] nineParameters).2.lookup "out" = some "" := by
  unfold runInMemory run compile compileSource Stream.ofBytes
  simp only [Text.decodeLines_toUTF8]
  decide +kernel

end SysY.CommandLine

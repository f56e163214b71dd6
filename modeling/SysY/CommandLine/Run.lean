import SysY.CommandLine.Arguments
import SysY.CommandLine.Files

/-!
# A run of the compiler

The input is read and compiled before the output is opened, so that a program with mistakes leaves
the output as it was. Log records and reports go to the error stream. The exit status tells what
happened.
-/

namespace SysY.CommandLine

inductive Status
  | success
  | malformed
  | misuse
  | meaningless
  | fileFailure
  | fault
deriving DecidableEq, Repr

def Status.code : Status → UInt8
  | .success => 0
  | .malformed => 1
  | .misuse => 2
  | .meaningless => 3
  | .fileFailure => 4
  | .fault => 101

structure Outcome where
  status : Status
  stdout : String
  stderr : String
deriving DecidableEq

/-! ## Texts -/

def versionText : String := "SysY compiler 1.0.0\n"

def usageText : String := "USAGE:\n    compiler [OPTIONS] -o <FILE> <INPUT>\n"

def helpText : String :=
  versionText ++ "\n" ++ usageText ++ "\n" ++
  "ARGS:\n" ++
  "    <INPUT>    SysY source file\n\n" ++
  "OPTIONS:\n" ++
  "    -e               Emit Eeyore IR instead of assembly\n" ++
  "    -h, --help       Print help information\n" ++
  "    -o <FILE>        Output file ('-' for stdout)\n" ++
  "    -O <LEVEL>       Optimization level [default: 1] [possible values: 0, 1]\n" ++
  "    -S               Generate assembly (implied, kept for compatibility)\n" ++
  "    -t               Emit Tigger IR instead of assembly\n" ++
  "    -v               Log compiler stages to stderr (repeat for more detail)\n" ++
  "    -V, --version    Print version information\n"

def fileReport (purpose path : String) (error : FileError) : String :=
  s!"Error: Failed to open for {purpose}: {path}\n\nCaused by:\n    " ++ error.message ++ "\n"

/-! ## Stages -/

/-- What a form of a program is written as. A fault may come after a part of it. -/
structure Emission where
  log : List Record
  text : String
  fault : Option Fault
deriving DecidableEq

def Emission.ofLogged (result : Logged Fault String) : Emission :=
  match result.result with
  | .ok text => ⟨result.log, text, none⟩
  | .error fault => ⟨result.log, "", some fault⟩

/-- Writes a program down. Assembly is written line by line, up to a fault. -/
def emission (form : Form) (program : Eeyore.Program) : Emission :=
  match form with
  | .eeyore | .tigger => .ofLogged (emit form false program)
  | .assembly =>
    let lowered := Tigger.lower program
    match lowered.result with
    | .error fault => ⟨lowered.log, "", some fault⟩
    | .ok code =>
      let output := RiscV.assemble code
      ⟨lowered.log, output.text, output.fault⟩

/-- The program of a source, ready for its output. -/
def compileSource (optimized : Bool) (path source : String) : Logged Failure Eeyore.Program := do
  let stream := Stream.ofBytes path source.toUTF8.toList
  let tree ← Logged.ofExcept ((parseSource stream).mapError .report)
  (improve optimized (← generateCode tree)).mapError .fault

def logText (options : Options) (log : List Record) : String :=
  String.join ((Record.shown (.ofVerbosity options.verbosity) log).map (· ++ "\n"))

def emitRecord (options : Options) : Record :=
  ⟨.info, .commandLine, "Emitting " ++ options.form.text ++ " to " ++ options.output⟩

def faultOutcome (options : Options) (stdout : String) (log : List Record) (fault : Fault) :
    Outcome :=
  ⟨.fault, stdout, logText options log ++ (fault.message.getD "range check failed") ++ "\n"⟩

def failureOutcome (options : Options) (log : List Record) : Failure → Outcome
  | .fault cause => faultOutcome options "" log cause
  | .report diagnostics =>
    let status := match diagnostics.phase with
      | .lexical | .grammatical => .malformed
      | .semantic => .meaningless
    ⟨status, "", logText options log ++ diagnostics.text⟩

/-- The outcome of an emission; `stdout` is what of it went to the standard output. -/
def emissionOutcome (options : Options) (stdout : String) (log : List Record)
    (emission : Emission) : Outcome :=
  match emission.fault with
  | some fault => faultOutcome options stdout (log ++ emission.log) fault
  | none => ⟨.success, stdout, logText options (log ++ emission.log)⟩

/-! ## Runs -/

variable {m : Type → Type} [Monad m]

def writeOutput (files : FileAccess m) (options : Options) (log : List Record)
    (program : Eeyore.Program) : m Outcome := do
  if options.output = "-" then
    let emission := emission options.form program
    return emissionOutcome options emission.text log emission
  else
    match ← files.create options.output with
    | .error error =>
      return ⟨.fileFailure, "",
        logText options log ++ fileReport "writing" options.output error⟩
    | .ok () =>
      let emission := emission options.form program
      files.write options.output emission.text
      return emissionOutcome options "" log emission

def compile (files : FileAccess m) (options : Options) : m Outcome := do
  match ← files.read options.input with
  | .error error =>
    return ⟨.fileFailure, "", fileReport "reading" options.input error⟩
  | .ok source =>
    let compiled := compileSource options.optimized options.input source
    match compiled.result with
    | .error failure => return failureOutcome options compiled.log failure
    | .ok program => writeOutput files options (compiled.log ++ [emitRecord options]) program

def run (files : FileAccess m) (arguments : List String) : m Outcome := do
  match Options.parse arguments with
  | .ok options => compile files options
  | .error .version => return ⟨.success, versionText, ""⟩
  | .error .help => return ⟨.success, helpText, ""⟩
  | .error .misuse => return ⟨.misuse, "", usageText⟩

def runInMemory (arguments : List String) (files : Files) : Outcome × Files :=
  (run Files.access arguments).run files

end SysY.CommandLine

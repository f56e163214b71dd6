import SysY.Compiler

/-!
# Arguments of the command line

Flags are single letters behind a hyphen and can be joined. `-o` and `-O` take a value, which is
what follows the letter, with or without an equals sign between, or else the next argument, unless
that one begins like a flag. A lone hyphen is an ordinary value. Behind `--` there are only ordinary
values.

Arguments are read from left to right. The first one that asks for the help or the version, or that
cannot be understood, decides; everything else is checked at the end.
-/

namespace SysY.CommandLine

inductive Setting
  | output | level
deriving DecidableEq, Repr

inductive Argument
  | assembly | eeyore | tigger | verbose
  | value (setting : Setting) (text : String)
  | lacking (setting : Setting)
  | input (path : String)
deriving DecidableEq, Repr

inductive Stop
  | version | help | misuse
deriving DecidableEq, Repr

/-! ## Reading -/

/-- The value behind the letter of a setting; without one the setting has to wait. -/
def attached (setting : Setting) : List Char → List Argument × Option Setting
  | [] => ([], some setting)
  | '=' :: text => ([.value setting (String.ofList text)], none)
  | text => ([.value setting (String.ofList text)], none)

/-- The parts of joined letters, and the setting that waits for a value behind them. -/
def readLetters : List Char → Except Stop (List Argument × Option Setting)
  | [] => .ok ([], none)
  | 'S' :: rest => flag .assembly (readLetters rest)
  | 'e' :: rest => flag .eeyore (readLetters rest)
  | 't' :: rest => flag .tigger (readLetters rest)
  | 'v' :: rest => flag .verbose (readLetters rest)
  | 'o' :: rest => .ok (attached .output rest)
  | 'O' :: rest => .ok (attached .level rest)
  | 'V' :: _ => .error .version
  | 'h' :: _ => .error .help
  | _ :: _ => .error .misuse
where
  flag (argument : Argument) (rest : Except Stop (List Argument × Option Setting)) :
      Except Stop (List Argument × Option Setting) :=
    rest.map fun (arguments, waiting) => (argument :: arguments, waiting)

/-- Ordinary values that are no values of a setting: there can be one, the input. -/
def readInputs (hasInput : Bool) : List String → Except Stop (List Argument)
  | [] => .ok []
  | [path] => if hasInput then .error .misuse else .ok [.input path]
  | _ :: _ :: _ => .error .misuse

inductive Shape
  /-- `--` -/
  | divider
  | long (word : List Char)
  | joined (letters : List Char)
  | plain
deriving DecidableEq

def Shape.of (argument : String) : Shape :=
  match argument.toList with
  | ['-', '-'] => .divider
  | '-' :: '-' :: word => .long word
  | '-' :: c :: rest => .joined (c :: rest)
  | _ => .plain

/-- What a word behind two hyphens asks for. -/
def Stop.ofWord (word : List Char) : Stop :=
  if word = "help".toList then .help else if word = "version".toList then .version else .misuse

/-- The parts of a command line. `waiting` is a setting that takes the next ordinary value, and
`hasInput` tells whether there was an input before. -/
def readArguments (waiting : Option Setting) (hasInput : Bool) :
    List String → Except Stop (List Argument)
  | [] => .ok (waiting.toList.map .lacking)
  | argument :: rest =>
    match Shape.of argument with
    | .divider => do
      return waiting.toList.map .lacking ++ (← readInputs hasInput rest)
    | .long word => .error (.ofWord word)
    | .joined letters => do
      let (arguments, next) ← readLetters letters
      return waiting.toList.map .lacking ++ arguments ++ (← readArguments next hasInput rest)
    | .plain =>
      match waiting with
      | some setting => do
        return .value setting argument :: (← readArguments none hasInput rest)
      | none =>
        if hasInput then .error .misuse
        else do return .input argument :: (← readArguments none true rest)

/-! ## Checking -/

structure Options where
  form : Form
  optimized : Bool
  verbosity : Nat
  input : String
  output : String
deriving DecidableEq, Repr

def valuesOf (setting : Setting) (arguments : List Argument) : List String :=
  arguments.filterMap fun
    | .value other text => if other = setting then some text else none
    | _ => none

def inputs (arguments : List Argument) : List String :=
  arguments.filterMap fun
    | .input path => some path
    | _ => none

/-- The form of the output; at most one form is asked for, and each flag is given once. -/
def chooseForm (arguments : List Argument) : Option Form :=
  match arguments.count .assembly, arguments.count .eeyore, arguments.count .tigger with
  | 0, 0, 0 | 1, 0, 0 => some .assembly
  | 0, 1, 0 | 1, 1, 0 => some .eeyore
  | 0, 0, 1 | 1, 0, 1 => some .tigger
  | _, _, _ => none

/-- Whether to optimize, which is the default. -/
def chooseLevel : List String → Option Bool
  | [] => some true
  | ["0"] => some false
  | ["1"] => some true
  | _ => none

def isComplete (arguments : List Argument) : Bool :=
  arguments.all fun
    | .lacking _ => false
    | _ => true

/-- The options of a command line, if they are all there and agree. -/
def Options.ofArguments? (arguments : List Argument) : Option Options :=
  match chooseForm arguments, chooseLevel (valuesOf .level arguments), inputs arguments,
      valuesOf .output arguments with
  | some form, some optimized, [input], [output] =>
    if isComplete arguments then
      some ⟨form, optimized, arguments.count .verbose, input, output⟩
    else none
  | _, _, _, _ => none

def Options.parse (arguments : List String) : Except Stop Options := do
  match Options.ofArguments? (← readArguments none false arguments) with
  | some options => .ok options
  | none => .error .misuse

end SysY.CommandLine

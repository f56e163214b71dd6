import SysY.Text.Location

/-!
# Diagnostics

A rejected program is answered with a report: for every problem its wording, its location, the lines
it lies on and an underline below them, and at the end the number of problems. Only the first line
of a problem is underlined.
-/

namespace SysY

inductive Phase
  | lexical | grammatical | semantic
deriving DecidableEq, Repr

def Phase.text : Phase → String
  | .lexical => "Lexical error"
  | .grammatical => "Syntax error"
  | .semantic => "Semantic error"

/-- The problems that one stage found, each worded and located. -/
structure Diagnostics where
  phase : Phase := .semantic
  problems : List (Located String)
deriving DecidableEq

namespace Diagnostics

def repeated (c : Char) (n : Nat) : String := String.ofList (List.replicate n c)

def padded (width n : Nat) : String :=
  let digits := toString n
  repeated ' ' (width - digits.length) ++ digits

def quotedLines (location : Location) (width : Nat) : String :=
  let count := location.stop.line + 1 - location.start.line
  String.join ((List.range' location.start.line count).map fun number =>
    padded width number ++ " | " ++ location.source.line number ++ "\n")

/-- The marks below the first line of a location. -/
def underline (location : Location) : String :=
  let first := location.start.column
  let final :=
    if location.stop.line = location.start.line then max (location.stop.column - 1) first else first
  repeated ' ' (first - 1) ++ repeated '^' (final + 1 - first)

def problemText (phase : Phase) (problem : Located String) : String :=
  let location := problem.location
  let width := (toString location.stop.line).length
  let margin := repeated ' ' width ++ " |"
  phase.text ++ ": " ++ problem.value ++ "\n" ++
  " --> " ++ location.text ++ "\n" ++
  margin ++ "\n" ++
  quotedLines location width ++
  margin ++ " " ++ underline location ++ "\n" ++
  "\n"

def text (diagnostics : Diagnostics) : String :=
  if diagnostics.problems.isEmpty then "No errors were reported\n"
  else
    let count := diagnostics.problems.length
    String.join (diagnostics.problems.map (problemText diagnostics.phase)) ++
    "Build failed with " ++ toString count ++ (if count = 1 then " error" else " errors") ++ "\n"

end Diagnostics

end SysY

import SysY.Eeyore.Symbol
import SysY.Tigger.Register

/-!
# Faults

A fault is a defect of the compiler, or of hand-made intermediate code given to it, and never a
mistake in a source program. Most faults are assertions with a text of their own. Two have none:
machine arithmetic that leaves its range, and an index past the end of a sequence.
-/

namespace SysY

/-- Why a compilation stopped without an answer. -/
inductive Fault
  | overflow
  | outOfBounds
  | emptyExpression
  /-- A postfix sequence that ends in a term but holds more than the term. -/
  | danglingOperands
  /-- No suffix of a postfix sequence is the right operand of its last operator. -/
  | malformedPostfix
  | missingSplit
  | trailingSplit
  /-- A constant or a subarray is the target of an assignment. -/
  | notAssignable
  | leftGlobalScope
  /-- A jump goes to a label that its function does not set. -/
  | undefinedLabel (label : Label) (function : String)
  | unreachableInstruction (position : Nat)
  /-- A table was asked to go back to a state later than its own. -/
  | staleCheckpoint
  | computationWithoutResult
  | loadWithoutResult
  | globalNotVariable (symbol : Symbol)
  /-- A function has more parameters than there are argument registers. -/
  | tooManyParameters (function : String)
  /-- A call passes more arguments than there are argument registers. -/
  | tooManyArguments (function : String)
  | unfoldedConstants (function : String)
  | parameterIsArray (parameter : UInt32)
  | arrayAsScalar (symbol : Symbol)
  | paletteExhausted
  | scratchInMove
  | writtenTwice (register : Register)
  | noSuchRegister (number : Nat)
deriving DecidableEq, Repr

namespace Fault

private def unreachable (text : String) : String :=
  "internal error: entered unreachable code: " ++ text

/-- The text of an assertion; range checks have none. -/
def message : Fault → Option String
  | .overflow | .outOfBounds => none
  | .emptyExpression => some "empty expression"
  | .danglingOperands => some "dangling operands in expression"
  | .malformedPostfix => some "malformed postfix expression"
  | .missingSplit => some (unreachable "logical operator without split marker")
  | .trailingSplit => some (unreachable "split marker at end of expression")
  | .notAssignable => some (unreachable "non-assignable place")
  | .leftGlobalScope => some "attempted to leave the global scope"
  | .undefinedLabel label function => some s!"label {label} is not defined in f_{function}"
  | .unreachableInstruction position => some s!"instruction {position} is unreachable from entry"
  | .staleCheckpoint => some "checkpoint is newer than the undo log"
  | .computationWithoutResult => some "recorded computation has no destination"
  | .loadWithoutResult => some "recorded load has no destination"
  | .globalNotVariable symbol => some s!"global {symbol} is not a variable"
  | .tooManyParameters function => some s!"f_{function} takes more than {maxArguments} parameters"
  | .tooManyArguments function =>
    some s!"call to f_{function} passes more than {maxArguments} arguments"
  | .unfoldedConstants function => some s!"unfolded constant operation in f_{function}"
  | .parameterIsArray parameter =>
    some (unreachable s!"parameter {Symbol.param parameter} is a local array")
  | .arrayAsScalar symbol => some (unreachable s!"array {symbol} is assigned as a scalar")
  | .paletteExhausted => some "register palette exhausted"
  | .scratchInMove => some "scratch register in parallel move"
  | .writtenTwice register => some s!"{register} is written twice by a parallel move"
  | .noSuchRegister number => some s!"register x{number} does not exist"

end Fault

/-- The register with a given number; other numbers are a fault. -/
def Register.ofNumber (number : Nat) : Except Fault Register :=
  match Register.ofNumber? number with
  | some register => .ok register
  | none => .error (.noSuchRegister number)

end SysY

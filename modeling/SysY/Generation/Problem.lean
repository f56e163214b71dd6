import SysY.Diagnostic
import SysY.Fault

/-!
# Rejected programs

Why a program that the grammar accepts still has no meaning. The wording of each reason is
`SemanticError.message`.
-/

namespace SysY

inductive SemanticError
  | noMain
  | undefined (name : String)
  | redefinition (name : String)
  | notConstant
  | uninitializedConstant (name : String)
  | divisionByZero
  | badDimension (dimension : Int32)
  | arrayTooLarge
  | tooManyIndices (name : String)
  | indexOutOfBounds (name : String) (index : Int32)
  | assignToConstant (name : String)
  | assignToArray (name : String)
  | tooManyInitializers
  | bracesAroundScalar
  | expectedList
  | misalignedList
  | wrongArity (function : String) (expected found : Nat)
  | voidValue (function : String)
  | returnInVoid
  | missingReturnValue
  | breakOutsideLoop
  | continueOutsideLoop
deriving DecidableEq, Repr

def SemanticError.message : SemanticError → String
  | .noMain => "Entrypoint not found, define `int main()`"
  | .undefined name => s!"Symbol `{name}` is undefined"
  | .redefinition name => s!"Redefinition of `{name}` in the same scope"
  | .notConstant => "Expected a constant expression"
  | .uninitializedConstant name => s!"Constant `{name}` must be initialized"
  | .divisionByZero => "Division by zero in constant expression"
  | .badDimension dimension => s!"Array dimension must be positive, found {dimension.toInt}"
  | .arrayTooLarge => "Array is too large"
  | .tooManyIndices name => s!"Too many indices for `{name}`"
  | .indexOutOfBounds name index => s!"Constant index {index.toInt} is out of bounds for `{name}`"
  | .assignToConstant name => s!"Cannot assign to constant `{name}`"
  | .assignToArray name => s!"Cannot assign to array `{name}`, it is not fully indexed"
  | .tooManyInitializers => "Too many initializers"
  | .bracesAroundScalar => "Braces around scalar initializer"
  | .expectedList => "Array initializer must be a brace-enclosed list"
  | .misalignedList => "Nested initializer list does not start at a subarray boundary"
  | .wrongArity function expected found =>
    s!"Function `{function}` expects {expected} arguments, found {found}"
  | .voidValue function => s!"Function `{function}` returns void, its result cannot be used"
  | .returnInVoid => "A void function cannot return a value"
  | .missingReturnValue => "Expected a return value"
  | .breakOutsideLoop => "`break` outside of a loop"
  | .continueOutsideLoop => "`continue` outside of a loop"

inductive Rejection
  | semantic (error : Located SemanticError)
  | fault (cause : Fault)
deriving DecidableEq

end SysY

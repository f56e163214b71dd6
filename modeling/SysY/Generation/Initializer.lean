import SysY.Generation.Expression

/-!
# Definitions and their initializers

A nested initializer is first distributed over the elements of its array, in order; elements that it
leaves out are zero. Then the elements are evaluated and written one by one. Constants that are no
arrays need no memory. Global memory is zero from the beginning, and in local memory long runs of
zeros are written by a loop.
-/

namespace SysY.Generation

open Eeyore SysY.Tree

/-! ## Distribution -/

/-- A part of an array under initialization. -/
inductive Cell
  | value (expr : Expr)
  | blank (count : Nat)

def Cell.expand : Cell → List (Option Expr)
  | .value expr => [some expr]
  | .blank count => List.replicate count none

def extent : List Nat → Nat
  | [] => 1
  | dimension :: dimensions => dimension * extent dimensions

/-- The largest of some nested subarrays, the outermost one first, that begins at a position. -/
def subarrayAt? (position : Nat) : List Nat → Option (List Nat)
  | [] => none
  | dimension :: dimensions =>
    if position % extent (dimension :: dimensions) = 0 then some (dimension :: dimensions)
    else subarrayAt? position dimensions

/-- A list is not accepted at a position where no proper subarray begins. -/
def misplacedList (dimensions : List Nat) : SemanticError :=
  if dimensions.length = 1 then .bracesAroundScalar else .misalignedList

mutual

/-- The cells of an array, or of a scalar if there are no dimensions. -/
def distribute (dimensions : List Nat) :
    Initializer → Except (Located SemanticError) (List Cell)
  | .expr value =>
    if dimensions.isEmpty then .ok [.value value] else .error ⟨.expectedList, value.location⟩
  | .list items location =>
    if dimensions.isEmpty then .error ⟨.bracesAroundScalar, location⟩
    else distributeFrom dimensions 0 items

/-- The cells of an array from a position on. A list fills the largest proper subarray that begins
where it stands. -/
def distributeFrom (dimensions : List Nat) (position : Nat) :
    List Initializer → Except (Located SemanticError) (List Cell)
  | [] => .ok [.blank (extent dimensions - position)]
  | item :: rest =>
    if extent dimensions ≤ position then .error ⟨.tooManyInitializers, item.location⟩
    else match item with
      | .expr value => do
        return .value value :: (← distributeFrom dimensions (position + 1) rest)
      | .list items location =>
        match subarrayAt? position dimensions.tail with
        | none => .error ⟨misplacedList dimensions, location⟩
        | some subarray => do
          let cells ← distributeFrom subarray 0 items
          return cells ++ (← distributeFrom dimensions (position + extent subarray) rest)

end

/-! ## Writing -/

/-- Elements that are zero and not written yet. -/
structure ZeroRun where
  start : Nat
  length : Nat
deriving DecidableEq

namespace ZeroRun

def none : ZeroRun := ⟨0, 0⟩

def extend (run : ZeroRun) (position count : Nat) : ZeroRun :=
  if run.length = 0 then ⟨position, count⟩ else ⟨run.start, run.length + count⟩

end ZeroRun

/-- The fewest zeros that a loop writes. -/
def loopThreshold : Nat := 4

def elementOffset (position : Nat) : Build Int32 :=
  checked (signedMul (Int32.ofNat position) wordSize)

def writeElement (array : Symbol) (position : Nat) (value : Value) : Build Unit := do
  push (.store array (.const (← elementOffset position)) value)

def clearByLoop (array : Symbol) (run : ZeroRun) : Build Unit := do
  let cursor ← newTemp
  let top ← newLabel
  push (.copy cursor (.const (← elementOffset run.start)))
  push (.label top)
  push (.store array (.symbol cursor) (.const 0))
  push (.binary cursor .add (.symbol cursor) (.const wordSize))
  push (.branch (.symbol cursor) .lt (.const (← elementOffset (run.start + run.length))) top)

def clear (array : Symbol) (run : ZeroRun) : Build Unit :=
  if run.length < loopThreshold then
    (List.range' run.start run.length).forM fun position => writeElement array position (.const 0)
  else clearByLoop array run

structure Target where
  symbol : Symbol
  isArray : Bool
  isConstant : Bool
  isGlobal : Bool
deriving DecidableEq

structure Progress where
  position : Nat
  zeros : ZeroRun
  values : Array Int32
deriving DecidableEq

/-- Notes elements that are zero. Memory that is zero already needs no run. -/
def Progress.skip (target : Target) (progress : Progress) (count : Nat) : Progress :=
  if target.isGlobal then progress
  else { progress with zeros := progress.zeros.extend progress.position count }

def initializeElement (target : Target) (progress : Progress) (value : Value) : Build Progress :=
  if target.isConstant && !target.isArray then return progress
  else if value = .const 0 ∧ (target.isGlobal || target.isArray) then
    return progress.skip target 1
  else do
    clear target.symbol progress.zeros
    if target.isArray then writeElement target.symbol progress.position value
    else push (.copy target.symbol value)
    return { progress with zeros := .none }

def initializeCell (signatures : Signatures) (target : Target) (progress : Progress) :
    Cell → Build Progress
  | .value expr => do
    if target.isConstant then
      let value ← evalConstant signatures expr
      let progress ← initializeElement target progress (.const value)
      return { progress with
        position := progress.position + 1, values := progress.values.push value }
    else
      let progress ← initializeElement target progress (← evalExpr signatures expr)
      return { progress with position := progress.position + 1 }
  | .blank count =>
    let skipped := if count = 0 then progress else progress.skip target count
    let zeros := if target.isConstant then Array.replicate count 0 else #[]
    return { skipped with position := skipped.position + count, values := skipped.values ++ zeros }

/-- Initializes a variable or a constant; the result has the values of a constant. -/
def writeInitializer (signatures : Signatures) (target : Target) (dimensions : List Nat)
    (initializer : Initializer) : Build (Option (Array Int32)) := do
  let cells ← liftM ((distribute dimensions initializer).mapError Rejection.semantic)
  let progress ← cells.foldlM (initializeCell signatures target) ⟨0, .none, #[]⟩
  clear target.symbol progress.zeros
  return if target.isConstant then some progress.values else none

/-! ## Definitions -/

/-- The most elements of an array: its size in bytes has to be a signed word. -/
def maxElements : Nat := 536870911

/-- Evaluates the dimensions of an array, which have to be positive constants. -/
def evalDimensions (signatures : Signatures) : List Expr → Build (List Int32)
  | [] => return []
  | expr :: rest => do
    let dimension ← evalConstant signatures expr
    if 0 < dimension then return dimension :: (← evalDimensions signatures rest)
    else reject (.badDimension dimension) expr.location

def lengths (dimensions : List Int32) : List Nat := dimensions.map (·.toNatClampNeg)

def elementCount (dimensions : List Int32) (location : Location) : Build UInt32 :=
  let count := extent (lengths dimensions)
  if count ≤ maxElements then return UInt32.ofNat count else reject .arrayTooLarge location

/-- Writes one definition. Its own initializer does not see it. -/
def define (signatures : Signatures) (isConstant isGlobal : Bool) (definition : Definition) :
    Build Unit := do
  let dimensions ← evalDimensions signatures definition.dimensions
  let count ← elementCount dimensions definition.name.location
  let isArray := !dimensions.isEmpty
  let symbol ← newVar (if isArray then some count else none)
  let values ← match definition.initializer with
    | some initializer =>
      let target := ⟨symbol, isArray, isConstant, isGlobal⟩
      writeInitializer signatures target (lengths dimensions) initializer
    | none =>
      if isConstant then
        reject (.uninitializedConstant definition.name.value) definition.name.location
      else pure none
  defineName definition.name ⟨symbol, dimensions, values⟩

def declare (signatures : Signatures) (isGlobal : Bool) (declaration : Declaration) : Build Unit :=
  declaration.definitions.forM (define signatures declaration.constant isGlobal)

end SysY.Generation

import SysY.Generation.Initializer

/-!
# Statements

Blocks open a scope. A loop begins with its condition; `continue` goes there and `break` behind the
loop.
-/

namespace SysY.Generation

open Eeyore SysY.Tree

structure Loop where
  head : Label
  exit : Label
deriving DecidableEq

structure Surroundings where
  signatures : Signatures
  returns : ReturnType

/-- An assignment. Its target comes before its value. -/
def assign (signatures : Signatures) (target : Place) (value : Expr) : Build Unit := do
  match ← resolve signatures target.name (.ofExprs target.indices) true with
  | .scalar symbol => push (.copy symbol (← evalExpr signatures value))
  | .element array index => push (.store array index (← evalExpr signatures value))
  | .constant _ | .pointer _ => checked (.error .notAssignable)

/-- The end of a function, with a value exactly if the function returns one. -/
def returnValue (around : Surroundings) (value : Option Expr) (location : Location) : Build Unit :=
  match around.returns, value with
  | .int, some expr => do push (.return (some (← evalExpr around.signatures expr)))
  | .void, none => push (.return none)
  | .int, none => reject .missingReturnValue location
  | .void, some expr => reject .returnInVoid expr.location

mutual

def writeStatement (around : Surroundings) (loop : Option Loop) : Statement → Build Unit
  | .assign target _ value => assign around.signatures target value
  | .expr value => discard around.signatures value
  | .empty => return ()
  | .block body => do
    enterScope
    writeBlock around loop body
    leaveScope
  | .ifThen condition yes => do
    let skip ← newLabel
    let _ ← branchExpr around.signatures condition false skip
    writeStatement around loop yes
    push (.label skip)
  | .ifElse condition yes no => do
    let skip ← newLabel
    let _ ← branchExpr around.signatures condition false skip
    writeStatement around loop yes
    let done ← newLabel
    push (.jump done)
    push (.label skip)
    writeStatement around loop no
    push (.label done)
  | .while condition body => do
    let head ← newLabel
    let exit ← newLabel
    push (.label head)
    let _ ← branchExpr around.signatures condition false exit
    writeStatement around (some ⟨head, exit⟩) body
    push (.jump head)
    push (.label exit)
  | .break location =>
    match loop with
    | some loop => push (.jump loop.exit)
    | none => reject .breakOutsideLoop location
  | .continue location =>
    match loop with
    | some loop => push (.jump loop.head)
    | none => reject .continueOutsideLoop location
  | .return value location => returnValue around value location

def writeBlock (around : Surroundings) (loop : Option Loop) : Block → Build Unit
  | .nil => return ()
  | .declaration declaration rest => do
    declare around.signatures false declaration
    writeBlock around loop rest
  | .statement statement rest => do
    writeStatement around loop statement
    writeBlock around loop rest

end

/-! ## Functions -/

def parameterDimensions (signatures : Signatures) (parameter : Parameter) : Build (List Int32) :=
  match parameter.dimensions with
  | none => return []
  | some exprs => do
    let dimensions ← evalDimensions signatures exprs
    let _ ← elementCount dimensions parameter.name.location
    return 0 :: dimensions

/-- Defines parameters, numbered from `id` on. -/
def defineParameters (signatures : Signatures) (id : Nat) : List Parameter → Build Unit
  | [] => return ()
  | parameter :: rest => do
    let dimensions ← parameterDimensions signatures parameter
    defineName parameter.name ⟨.param (UInt32.ofNat id), dimensions, none⟩
    defineParameters signatures (id + 1) rest

/-- The return at the end of a function whose last instruction can go on. -/
def finish (returns : ReturnType) : Build Unit := do
  let last := (← get).code.body.back?
  if last.any (·.isTerminator) then return ()
  else match returns with
    | .int => push (.return (some (.const 0)))
    | .void => push (.return none)

def writeBody (signatures : Signatures) (function : Tree.Function) : Build Unit := do
  enterScope
  defineParameters signatures 0 function.parameters
  writeStatement ⟨signatures, function.returns⟩ none (.block function.body)
  leaveScope
  finish function.returns

def writeFunction (signatures : Signatures) (function : Tree.Function) : Build Eeyore.Function := do
  modify fun builder => { builder with code := .empty }
  writeBody signatures function
  let code := (← get).code
  return {
    name := function.name.value
    parameters := UInt32.ofNat function.parameters.length
    decls := code.decls.toList
    body := code.body }

end SysY.Generation

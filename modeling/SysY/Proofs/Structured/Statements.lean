import SysY.Generation.Initializer
import SysY.Proofs.Structured.Values

/-!
# The meaning of statements

What the statements of the source language do, told by recursion on their trees. A name means what
the innermost visible declaration says: a declaration is visible behind it, up to the end of its
block. The variables of a program are numbered in the order of their definitions in its text, so that
each definition has storage of its own, which it keeps when it is executed again.

Loops run on fuel: a run that has an outcome other than `outOfFuel` has it with more fuel, too.
-/

namespace SysY.Tree

mutual

/-- How many variables a statement defines. -/
def Statement.variables : Statement → Nat
  | .block body => body.variables
  | .ifThen _ yes => yes.variables
  | .ifElse _ yes no => yes.variables + no.variables
  | .while _ body => body.variables
  | _ => 0

def Block.variables : Block → Nat
  | .nil => 0
  | .declaration declaration rest => declaration.definitions.length + rest.variables
  | .statement statement rest => statement.variables + rest.variables

end

end SysY.Tree

namespace SysY.Structured

open Generation (Meaning Cell distribute lengths)
open Tree

/-! ## Definitions -/

/-- The elements of an initializer, each with its expression if it has one. -/
def initialElements (dimensions : List Int32) (initializer : Initializer) :
    Option (List (Option Expr)) :=
  match distribute (lengths dimensions) initializer with
  | .ok cells => some (cells.flatMap Cell.expand)
  | .error _ => none

/-- The value of an element that has to be constant; without an expression it is zero. -/
def constantElement? (env : Environment) : Option Expr → Option Int32
  | none => some 0
  | some expr => constant? env expr.formula

/-- What a definition makes of its name: a variable with a number, or a constant with values. -/
def meaning? (constant : Bool) (env : Environment) (number : Nat) (definition : Definition) :
    Option Meaning := do
  let dimensions ← definition.dimensions.mapM (constant? env ·.formula)
  let symbol := Symbol.var (UInt32.ofNat number)
  if constant then
    let initial ← initialElements dimensions (← definition.initializer)
    let values ← initial.mapM (constantElement? env)
    return ⟨symbol, dimensions, some values.toArray⟩
  else return ⟨symbol, dimensions, none⟩

def Store.assign (store : Store) (x : Symbol) (v : Int32) : Store :=
  { store with scalars := fun y => if y = x then some v else store.scalars y }

def Store.write (store : Store) (a : UInt32) (v : Int32) : Store :=
  { store with memory := store.memory.write a v }

namespace Site

variable (site : Site)

/-- The value of an element of an initializer. -/
def element (constant : Bool) (env : Environment) (hidden : Option Region) (initial : Option Expr)
    (store : Store) : Option (Int32 × Store) :=
  match initial with
  | none => some (0, store)
  | some expr =>
    if constant then (constant? env expr.formula).map (·, store)
    else site.expression env hidden expr store

/-- Evaluates and writes the elements of an array, one after the other. In the meantime the array is
hidden. -/
def fill (constant : Bool) (env : Environment) (array : Region) :
    Nat → List (Option Expr) → Store → Option Store
  | _, [], store => some store
  | k, initial :: rest, store => do
    let (v, store) ← site.element constant env (some array) initial store
    fill constant env array (k + 1) rest (store.write (array.start + UInt32.ofNat (4 * k)) v)

/-- Initializes what a definition defines. A constant that is no array needs no storage. -/
def setUp (constant : Bool) (env : Environment) (meaning : Meaning) (initializer : Initializer)
    (store : Store) : Option Store := do
  let initial ← initialElements meaning.dimensions initializer
  if meaning.dimensions.isEmpty then
    match initial with
    | [initial] =>
      let (v, store) ← site.element constant env none initial store
      return if constant then store else store.assign meaning.symbol v
    | _ => none
  else
    let array := ⟨site.world.place meaning.symbol, 4 * (elements meaning.dimensions).toNat⟩
    site.fill constant env array 0 initial store

/-- What a definition does; without an initializer it does nothing. -/
def prepare (constant : Bool) (env : Environment) (meaning : Meaning) :
    Option Initializer → Store → Option Store
  | none, store => some store
  | some initializer, store => site.setUp constant env meaning initializer store

/-- Executes definitions, numbered from `number` on. -/
def declare (constant : Bool) (env : Environment) (number : Nat) :
    List Definition → Store → Option (Environment × Store)
  | [], store => some (env, store)
  | definition :: rest, store => do
    let meaning ← meaning? constant env number definition
    let store ← site.prepare constant env meaning definition.initializer store
    declare constant (env.define definition.name.value meaning) (number + 1) rest store

end Site

/-! ## Statements -/

/-- How a statement ends. -/
inductive Outcome
  | normal (store : Store)
  | broke (store : Store)
  | continued (store : Store)
  | returned (value : Option Int32) (store : Store)
  /-- The statement has no meaning. -/
  | undefined
  /-- The fuel was not enough. -/
  | outOfFuel

/-- Goes on behind a statement that ends normally. -/
def Outcome.andThen (outcome : Outcome) (next : Store → Outcome) : Outcome :=
  match outcome with
  | .normal store => next store
  | outcome => outcome

namespace Site

variable (site : Site)

/-- An assignment. Its target comes before its value. -/
def assign (env : Environment) (target : Place) (value : Expr) (store : Store) : Option Store := do
  let meaning ← env target.name.value
  let (indices, m) ← site.values env none (.ofExprs target.indices) ⟨store, []⟩
  let (v, store) ← site.expression env none value m.store
  if meaning.dimensions.isEmpty then return store.assign meaning.symbol v
  else
    let a ← site.address store meaning indices
    if site.inBounds meaning indices a then return store.write a v else none

/-- The truth value of a condition. -/
def condition (env : Environment) (expr : Expr) (store : Store) : Option (Bool × Store) :=
  (site.expression env none expr store).map fun (v, store) => (v ≠ 0, store)

def loop (condition : Store → Option (Bool × Store)) (body : Store → Outcome) :
    Nat → Store → Outcome
  | 0, _ => .outOfFuel
  | fuel + 1, store =>
    match condition store with
    | none => .undefined
    | some (false, store) => .normal store
    | some (true, store) =>
      match body store with
      | .normal store | .continued store => loop condition body fuel store
      | .broke store => .normal store
      | outcome => outcome

mutual

/-- Executes a statement, whose variables are numbered from `number` on. -/
def execute (fuel : Nat) (env : Environment) (number : Nat) : Statement → Store → Outcome
  | .assign target _ value, store =>
    match site.assign env target value store with
    | some store => .normal store
    | none => .undefined
  | .expr value, store =>
    match site.expression env none value store with
    | some (_, store) => .normal store
    | none => .undefined
  | .empty, store => .normal store
  | .block body, store => executeBlock fuel env number body store
  | .ifThen condition yes, store =>
    match site.condition env condition store with
    | some (true, store) => execute fuel env number yes store
    | some (false, store) => .normal store
    | none => .undefined
  | .ifElse condition yes no, store =>
    match site.condition env condition store with
    | some (true, store) => execute fuel env number yes store
    | some (false, store) => execute fuel env (number + yes.variables) no store
    | none => .undefined
  | .while condition body, store =>
    loop (site.condition env condition) (execute fuel env number body) fuel store
  | .break _, store => .broke store
  | .continue _, store => .continued store
  | .return none _, store => .returned none store
  | .return (some value) _, store =>
    match site.expression env none value store with
    | some (v, store) => .returned (some v) store
    | none => .undefined

def executeBlock (fuel : Nat) (env : Environment) (number : Nat) : Block → Store → Outcome
  | .nil, store => .normal store
  | .declaration declaration rest, store =>
    match site.declare declaration.constant env number declaration.definitions store with
    | some (env, store) =>
      executeBlock fuel env (number + declaration.definitions.length) rest store
    | none => .undefined
  | .statement statement rest, store =>
    (execute fuel env number statement store).andThen
      (executeBlock fuel env (number + statement.variables) rest)

end

end Site

/-! ## Functions -/

/-- The dimensions of a parameter; the first one of an array is not known. -/
def parameterDimensions? (env : Environment) (parameter : Parameter) : Option (List Int32) :=
  match parameter.dimensions with
  | none => some []
  | some exprs => (exprs.mapM (constant? env ·.formula)).map (0 :: ·)

/-- The names of parameters, numbered from `id` on, as far as words can number them. -/
def bindParameters (env : Environment) (id : Nat) : List Parameter → Option Environment
  | [] => some env
  | parameter :: rest => do
    let dimensions ← parameterDimensions? env parameter
    if id + 1 < wordValues then
      bindParameters (env.define parameter.name.value ⟨.param (UInt32.ofNat id), dimensions, none⟩)
        (id + 1) rest
    else none

/-- The variables of a function: its parameters, and those that its body defines. -/
def ownVariables (function : Function) (number : Nat) (x : Symbol) : Bool :=
  match x.kind with
  | .temporary => true
  | .parameter => x.id < UInt32.ofNat function.parameters.length
  | .variable => number ≤ x.id.toNat && x.id.toNat < number + function.body.variables

/-- Runs a function whose variables are numbered from `number` on. A function that comes to its end
without a value returns zero, unless it returns nothing at all. -/
def runFunction (world : Eeyore.World) (env : Environment) (number : Nat) (function : Function)
    (fuel : Nat) (store : Store) : Outcome :=
  let site : Site := ⟨world, ownVariables function number⟩
  match bindParameters env 0 function.parameters with
  | none => .undefined
  | some env =>
    match site.executeBlock fuel env number function.body store with
    | .normal store => match function.returns with
      | .int => .returned (some 0) store
      | .void => .returned none store
    | outcome => outcome

/-! ## Programs -/

/-- The meanings of definitions, numbered from `number` on. -/
def bindDefinitions (constant : Bool) (env : Environment) (number : Nat) :
    List Definition → Option Environment
  | [] => some env
  | definition :: rest => do
    let meaning ← meaning? constant env number definition
    bindDefinitions constant (env.define definition.name.value meaning) (number + 1) rest

/-- A function at its place in a program. -/
structure Placed where
  function : Function
  /-- What names stand for in front of the function, if that has a meaning. -/
  env : Option Environment
  /-- The number of the first variable of the function. -/
  number : Nat

/-- Runs a function at its place. -/
def Placed.run (placed : Placed) (world : Eeyore.World) (fuel : Nat) (store : Store) : Outcome :=
  match placed.env with
  | none => .undefined
  | some env => runFunction world env placed.number placed.function fuel store

/-- The functions of a program, each at its place. -/
def placedFunctions (env : Option Environment) (number : Nat) : List Item → List Placed
  | [] => []
  | .declaration declaration :: rest =>
    placedFunctions (env.bind fun env =>
      bindDefinitions declaration.constant env number declaration.definitions)
      (number + declaration.definitions.length) rest
  | .function function :: rest =>
    ⟨function, env, number⟩ :: placedFunctions env (number + function.body.variables) rest

end SysY.Structured

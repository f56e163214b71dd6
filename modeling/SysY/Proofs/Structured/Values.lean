import SysY.Generation.Scope
import SysY.Proofs.Eeyore.Semantics
import SysY.Tree.Formula

/-!
# The values of expressions

What an expression of the source language means, told by recursion on its tree. Arithmetic is that of
32-bit words and wraps, division goes toward zero, operands are evaluated from left to right, and
`&&` and `||` evaluate their right operand only if the left one does not decide them. Arrays lie in
memory in row-major order. A call is opaque, as in three-address code.

An expression has no value if it divides by zero, accesses an array out of bounds, reads a variable
without a value, or if a call changes a global variable that the expression has read. Two more things
never happen unless memory is used behind the back of the language: an array is touched while it is
being initialized, or a constant array does not hold its values.
-/

namespace SysY.Structured

open Eeyore (World isTiming)
open Generation (Meaning)
open Tree

/-! ## Names -/

/-- What names stand for at a place of a program. -/
abbrev Environment := String → Option Meaning

namespace Environment

def empty : Environment := fun _ => none

/-- Gives a name a new meaning. -/
def define (env : Environment) (name : String) (meaning : Meaning) : Environment :=
  fun x => if x = name then some meaning else env x

end Environment

/-! ## Operators -/

/-- The value of an operator in front of its operand. -/
def unaryValue : UnaryOperator → Int32 → Int32
  | .plus, a => a
  | .minus, a => -a
  | .not, a => truth (a = 0)

/-- The value of an operator between its operands; a division by zero has none. -/
def binaryValue : BinaryOperator → Int32 → Int32 → Option Int32
  | .add, a, b => some (a + b)
  | .sub, a, b => some (a - b)
  | .mul, a, b => some (a * b)
  | .div, a, b => if b = 0 then none else some (a / b)
  | .rem, a, b => if b = 0 then none else some (a % b)
  | .less, a, b => some (truth (a < b))
  | .greater, a, b => some (truth (b < a))
  | .lessOrEqual, a, b => some (truth (a ≤ b))
  | .greaterOrEqual, a, b => some (truth (b ≤ a))
  | .equal, a, b => some (truth (a = b))
  | .notEqual, a, b => some (truth (a ≠ b))
  | .and, a, b => some (truth (a ≠ 0 ∧ b ≠ 0))
  | .or, a, b => some (truth (a ≠ 0 ∨ b ≠ 0))

/-- Whether the left operand of a connective decides it. -/
def decides : Connective → Int32 → Bool
  | .and, a => a = 0
  | .or, a => a ≠ 0

/-! ## Arrays -/

/-- The number of elements of an array. -/
def elements : List Int32 → Int
  | [] => 1
  | dimension :: dimensions => dimension.toInt * elements dimensions

/-- How many elements of an array lie in front of what indices select. -/
def elementIndex : List Int32 → List Int32 → Int
  | _ :: dimensions, index :: indices =>
    index.toInt * elements dimensions + elementIndex dimensions indices
  | _, _ => 0

/-! ## Constant expressions -/

mutual

/-- The value of an expression that does not depend on a state. -/
def constant? (env : Environment) : Formula → Option Int32
  | .literal value => some value
  | .read name indices => do
    let meaning ← env name.value
    let values ← meaning.values
    let indices ← constants? env indices
    let k := elementIndex meaning.dimensions indices
    if indices.length = meaning.dimensions.length ∧ 0 ≤ k ∧ k < elements meaning.dimensions then
      values[k.toNat]?
    else none
  | .call .. => none
  | .unary operator operand => (constant? env operand).map (unaryValue operator)
  | .binary operator left right => do
    binaryValue operator (← constant? env left) (← constant? env right)
  | .logic connective left right => do
    let a ← constant? env left
    if decides connective a then some (truth (a ≠ 0))
    else (constant? env right).map fun b => truth (b ≠ 0)
  | .malformed _ => none

/-- The values of expressions that do not depend on a state. -/
def constants? (env : Environment) : Formulas → Option (List Int32)
  | .nil => some []
  | .cons formula _ rest => do
    let value ← constant? env formula
    return value :: (← constants? env rest)

end

/-! ## States -/

/-- The contents of variables and arrays, and the calls so far. -/
structure Store where
  scalars : Symbol → Option Int32
  memory : Memory
  calls : List (String × List Int32)

/-- A state in the middle of an expression, with the global variables that it has read. -/
structure Moment where
  store : Store
  reads : List Symbol

/-- Where a function runs. -/
structure Site where
  world : World
  /-- The variables of the function itself, which no call changes. -/
  own : Symbol → Bool

namespace Site

variable (site : Site)

/-- Where an array begins. That of an array parameter is its value. -/
def base (store : Store) (meaning : Meaning) : Option UInt32 :=
  if meaning.symbol.kind = .parameter then (store.scalars meaning.symbol).map (·.toUInt32)
  else some (site.world.place meaning.symbol)

/-- The address of what indices select in an array. -/
def address (store : Store) (meaning : Meaning) (indices : List Int32) : Option UInt32 :=
  (site.base store meaning).map (· + .ofInt (4 * elementIndex meaning.dimensions indices))

/-- Whether an access to an element stays inside an array. -/
def inBounds (meaning : Meaning) (indices : List Int32) (a : UInt32) : Bool :=
  if meaning.symbol.kind = .parameter then site.world.others.any (·.holds a)
  else
    let k := elementIndex meaning.dimensions indices
    0 ≤ k && k < elements meaning.dimensions

/-- The value of an element, if the array is not hidden. -/
def load (hidden : Option Region) (store : Store) (meaning : Meaning) (indices : List Int32) :
    Option Int32 := do
  let a ← site.address store meaning indices
  if site.inBounds meaning indices a && !hidden.any (·.touches a) then
    let v := store.memory.word a
    match meaning.values with
    | none => some v
    | some values =>
      if values[(elementIndex meaning.dimensions indices).toNat]? = some v then some v else none
  else none

/-- The value of a name with indices: that of a variable or of an element, or the address of an
array. -/
def read (hidden : Option Region) (meaning : Meaning) (indices : List Int32) (m : Moment) :
    Option (Int32 × Moment) :=
  if indices.length < meaning.dimensions.length then
    (site.address m.store meaning indices).map fun a => (a.toInt32, m)
  else if meaning.dimensions.isEmpty then
    match meaning.values with
    | some values => values[0]?.map (·, m)
    | none => (m.store.scalars meaning.symbol).map fun v =>
      (v, if site.own meaning.symbol then m else { m with reads := meaning.symbol :: m.reads })
  else (site.load hidden m.store meaning indices).map (·, m)

/-- What a call leaves behind. -/
def afterCall (store : Store) (function : String) (arguments : List Int32) : Store :=
  let i := store.calls.length
  { scalars := fun x => if site.own x then store.scalars x else (site.world.reply i).globals x
    memory := fun b =>
      if site.world.keeps i b then store.memory b else (site.world.reply i).memory b
    calls := store.calls ++ [(function, arguments)] }

/-- The value of a call. The functions that measure time are also told the line. -/
def call (hidden : Option Region) (function : String) (arguments : List Int32)
    (location : Location) (m : Moment) : Option (Int32 × Moment) :=
  let i := m.store.calls.length
  let line := Int32.ofNat location.start.line
  let after := site.afterCall m.store function
    (if isTiming function then arguments ++ [line] else arguments)
  if m.reads.all (fun x => after.scalars x = m.store.scalars x) &&
      hidden.all (·.all (site.world.keeps i)) then
    some ((site.world.reply i).value, { m with store := after })
  else none

mutual

/-- The value of an expression. -/
def value (env : Environment) (hidden : Option Region) :
    Formula → Moment → Option (Int32 × Moment)
  | .literal v, m => some (v, m)
  | .read name indices, m => do
    let meaning ← env name.value
    let (indices, m) ← values env hidden indices m
    site.read hidden meaning indices m
  | .call function arguments location, m => do
    let (arguments, m) ← values env hidden arguments m
    site.call hidden function.value arguments location m
  | .unary operator operand, m => do
    let (a, m) ← value env hidden operand m
    return (unaryValue operator a, m)
  | .binary operator left right, m => do
    let (a, m) ← value env hidden left m
    let (b, m) ← value env hidden right m
    return (← binaryValue operator a b, m)
  | .logic connective left right, m => do
    let (a, m) ← value env hidden left m
    if decides connective a then return (truth (a ≠ 0), m)
    else
      let (b, m) ← value env hidden right m
      return (truth (b ≠ 0), m)
  | .malformed _, _ => none

def values (env : Environment) (hidden : Option Region) :
    Formulas → Moment → Option (List Int32 × Moment)
  | .nil, m => some ([], m)
  | .cons formula _ rest, m => do
    let (v, m) ← value env hidden formula m
    let (vs, m) ← values env hidden rest m
    return (v :: vs, m)

end

/-- The value of a whole expression. -/
def expression (env : Environment) (hidden : Option Region) (expr : Expr) (store : Store) :
    Option (Int32 × Store) :=
  (site.value env hidden expr.formula ⟨store, []⟩).map fun (v, m) => (v, m.store)

end Site

end SysY.Structured

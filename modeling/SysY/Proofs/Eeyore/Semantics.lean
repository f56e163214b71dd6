import SysY.Flow.Graph
import SysY.Flow.Slots
import SysY.Proofs.Memory

/-!
# Running three-address code

A function runs step by step on the values of its scalar symbols and on a memory that holds the
arrays. What it shows to the outside are events: its calls, its array writes and its writes to
global scalars. A call is opaque. It is answered by a reply, which may change every global scalar
and every array element, up to bytes that the callee is known to leave alone, but no local scalar.

A step has no meaning, and the run is stuck, where it reads a scalar without a value, accesses an
array out of bounds, assigns to an array as a whole or runs past the last instruction. What a
division by zero gives is a parameter.
-/

namespace SysY.Eeyore

open Flow

/-- What a function shows to the outside. -/
inductive Event
  | call (function : String) (arguments : List Int32)
  | store (address : UInt32) (value : Int32)
  | assign (global : Symbol) (value : Int32)
deriving DecidableEq

/-- What a call leaves behind. -/
structure Reply where
  value : Int32
  globals : Symbol → Option Int32
  memory : Memory

/-- What a function finds when it is called. -/
structure Activation where
  /-- The symbols that no call changes. -/
  isLocal : Symbol → Bool
  /-- The arrays that the function names. -/
  array? : Symbol → Option Region
  /-- The arrays that a pointer may point into. -/
  objects : List Region
  /-- The value of a division by zero, if it has one. -/
  byZero : BinaryOp → Int32 → Option Int32
  /-- The answers to the calls, one after the other. -/
  reply : Nat → Reply
  /-- The bytes that each call leaves alone. -/
  keeps : Nat → UInt32 → Bool

structure State where
  position : Nat
  scalars : Symbol → Option Int32
  memory : Memory
  calls : Nat
  events : List Event

/-- How far a run has come. -/
inductive Status
  | running
  | returned (value : Option Int32)
  | stuck
deriving DecidableEq

/-- A state, and whether it is the last one. -/
structure Outcome where
  status : Status
  state : State

/-! ## Values and effects -/

/-- The value of an operation at run time. -/
def runBinary (byZero : BinaryOp → Int32 → Option Int32) (op : BinaryOp) (a b : Int32) :
    Option Int32 :=
  match op.fold a b with
  | some c => some c
  | none => byZero op a

namespace Activation

variable (act : Activation)

/-- The value of an operand. That of an array is its address. -/
def value (s : State) : Value → Option Int32
  | .const c => some c
  | .symbol x =>
    match act.array? x with
    | some region => some region.start.toInt32
    | none => s.scalars x

/-- Whether an access through a base may touch a word. -/
def admits (base : Symbol) (a : UInt32) : Bool :=
  match act.array? base with
  | some region => region.holds a
  | none => act.objects.any (·.holds a)

def address (s : State) (base : Symbol) (index : Value) : Option UInt32 := do
  let start ← act.value s (.symbol base)
  let offset ← act.value s index
  let a := start.toUInt32 + offset.toUInt32
  if act.admits base a then some a else none

def assign (s : State) (x : Symbol) (v : Int32) : Option State :=
  match act.array? x with
  | some _ => none
  | none => some { s with
      scalars := fun y => if y = x then some v else s.scalars y
      events := if act.isLocal x then s.events else s.events ++ [.assign x v] }

def afterCall (s : State) (function : String) (arguments : List Int32) : State :=
  { s with
    scalars := fun x => if act.isLocal x then s.scalars x else (act.reply s.calls).globals x
    memory := fun b => if act.keeps s.calls b then s.memory b else (act.reply s.calls).memory b
    calls := s.calls + 1
    events := s.events ++ [.call function arguments] }

/-- What an instruction does to values and memory. -/
def effect (s : State) : Instruction → Option State
  | .unary dest op operand => do act.assign s dest (op.fold (← act.value s operand))
  | .binary dest op left right => do
    let a ← act.value s left
    let b ← act.value s right
    act.assign s dest (← runBinary act.byZero op a b)
  | .copy dest value => do act.assign s dest (← act.value s value)
  | .store array index value => do
    let a ← act.address s array index
    let v ← act.value s value
    return { s with memory := s.memory.write a v, events := s.events ++ [.store a v] }
  | .load dest array index => do
    act.assign s dest (s.memory.word (← act.address s array index))
  | .call function arguments output => do
    let arguments ← arguments.mapM (act.value s)
    match output with
    | none => return act.afterCall s function arguments
    | some dest => act.assign (act.afterCall s function arguments) dest (act.reply s.calls).value
  | .branch .. | .jump _ | .label _ | .return _ => some s

end Activation

/-! ## Control -/

/-- Where control goes. -/
inductive Direction
  | next
  | goto (label : Label)
  | return (value : Option Int32)
deriving DecidableEq

namespace Activation

variable (act : Activation) {n : Nat}

/-- Where an instruction leads. -/
def direction (s : State) : Instruction → Option Direction
  | .branch left relation right target => do
    let a ← act.value s left
    let b ← act.value s right
    return if relation.holds a b then .goto target else .next
  | .jump target => some (.goto target)
  | .return none => some (.return none)
  | .return (some value) => do return .return (some (← act.value s value))
  | _ => some .next

/-- Goes on from a state. -/
def follow (body : Vector Instruction n) (s : State) : Direction → Outcome
  | .next => ⟨.running, { s with position := s.position + 1 }⟩
  | .goto label =>
    match labelPosition? body label with
    | some p => ⟨.running, { s with position := p }⟩
    | none => ⟨.stuck, s⟩
  | .return value => ⟨.returned value, s⟩

def execute (body : Vector Instruction n) (s : State) (instruction : Instruction) : Outcome :=
  match act.effect s instruction, act.direction s instruction with
  | some s', some direction => follow body s' direction
  | _, _ => ⟨.stuck, s⟩

def step (body : Vector Instruction n) (s : State) : Outcome :=
  if h : s.position < n then act.execute body s (body.get ⟨s.position, h⟩) else ⟨.stuck, s⟩

/-- Up to so many steps. -/
def run (body : Vector Instruction n) : Nat → State → Outcome
  | 0, s => ⟨.running, s⟩
  | steps + 1, s =>
    match act.step body s with
    | ⟨.running, s'⟩ => run body steps s'
    | outcome => outcome

end Activation

def State.start (scalars : Symbol → Option Int32) (memory : Memory) : State :=
  ⟨0, scalars, memory, 0, []⟩

/-! ## Functions in their program -/

/-- Where a function runs: what surrounds an activation. -/
structure World where
  /-- Where the named arrays are. -/
  place : Symbol → UInt32
  /-- The arrays that the function does not name. -/
  others : List Region
  byZero : BinaryOp → Int32 → Option Int32
  reply : Nat → Reply
  keeps : Nat → UInt32 → Bool

/-- The declaration that a symbol has in a function: one of its own if there is one. -/
def declaration? (globals : List Decl) (function : Function) (x : Symbol) : Option Decl :=
  (slotDecls function ++ globals).find? (·.symbol = x)

def isArray (globals : List Decl) (function : Function) (x : Symbol) : Bool :=
  (declaration? globals function x).any (·.size.isSome)

namespace World

def array? (world : World) (globals : List Decl) (function : Function) (x : Symbol) :
    Option Region :=
  ((declaration? globals function x).bind (·.size)).map fun size =>
    ⟨world.place x, 4 * size.toNat⟩

/-- What a function of a program finds. -/
def activation (world : World) (globals : List Decl) (function : Function) : Activation where
  isLocal x := (slotDecls function).any (·.symbol = x)
  array? := world.array? globals function
  objects := world.others ++
    (slotDecls function ++ globals).filterMap fun decl => world.array? globals function decl.symbol
  byZero := world.byZero
  reply := world.reply
  keeps := world.keeps

/-- The arrays that a function names are disjoint. -/
def Separates (world : World) (globals : List Decl) (function : Function) : Prop :=
  ∀ x y r s, x ≠ y → world.array? globals function x = some r →
    world.array? globals function y = some s → r.Disjoint s

/-- Runs a function for up to so many steps. -/
def run (world : World) (globals : List Decl) (function : Function) (steps : Nat) (s : State) :
    Outcome :=
  (world.activation globals function).run function.body.toVector steps s

end World

end SysY.Eeyore

import SysY.Proofs.Eeyore.Semantics
import SysY.Proofs.Machine
import SysY.Tigger

/-!
# Running register code

A function of register code runs on the registers and on the memory, where its frame begins at the
stack pointer. What it shows to the outside are its calls, with the registers that carry arguments,
and its writes through registers. A call is opaque: its reply gives new contents to every register
that the callee need not preserve, and to every byte that the callee need not leave alone.
-/

namespace SysY.Tigger

variable {r : Register} {a : UInt32}

/-- What a function shows to the outside. -/
inductive Event
  | call (function : String) (arguments : List Int32)
  | store (address : UInt32) (value : Int32)
deriving DecidableEq

/-- What a call leaves behind. -/
structure Reply where
  registers : Register → Int32
  memory : Memory

/-- What a function finds when it is called. -/
structure Setting where
  /-- Where the frame begins. -/
  sp : UInt32
  /-- Where the global variables are. -/
  place : Global → UInt32
  /-- The bytes that a callee leaves alone. -/
  keeps : UInt32 → Bool
  /-- The bytes that no access through a register may touch. -/
  reserved : UInt32 → Bool
  /-- The value of a division by zero, if it has one. -/
  byZero : BinaryOp → Int32 → Option Int32
  /-- The answers to the calls, one after the other. -/
  reply : Nat → Reply

structure State where
  registers : Register → Int32
  memory : Memory
  calls : Nat
  events : List Event

namespace State

def value (s : State) (r : Register) : Int32 := if r = .zero then 0 else s.registers r

def set (s : State) (r : Register) (v : Int32) : State :=
  { s with registers := fun x => if x = r then v else s.registers x }

def write (s : State) (a : UInt32) (v : Int32) : State := { s with memory := s.memory.write a v }

def operand (s : State) : Operand → Int32
  | .register r => s.value r
  | .immediate v => v

/-- The contents of the registers that carry arguments. -/
def arguments (s : State) : List Int32 := Register.arguments.map s.value

@[simp] theorem value_zero (s : State) : s.value .zero = 0 := rfl

@[simp] theorem value_set_self (s : State) (v : Int32) (h : r ≠ .zero) :
    (s.set r v).value r = v := by
  simp [value, set, h]

theorem value_set_of_ne (s : State) {x : Register} (v : Int32) (h : x ≠ r) :
    (s.set r v).value x = s.value x := by
  simp [value, set, h]

@[simp] theorem memory_set (s : State) (r : Register) (v : Int32) :
    (s.set r v).memory = s.memory := rfl

@[simp] theorem calls_set (s : State) (r : Register) (v : Int32) :
    (s.set r v).calls = s.calls := rfl

@[simp] theorem events_set (s : State) (r : Register) (v : Int32) :
    (s.set r v).events = s.events := rfl

@[simp] theorem value_write (s : State) (a : UInt32) (v : Int32) :
    (s.write a v).value = s.value := rfl

@[simp] theorem memory_write (s : State) (a : UInt32) (v : Int32) :
    (s.write a v).memory = s.memory.write a v := rfl

@[simp] theorem calls_write (s : State) (a : UInt32) (v : Int32) :
    (s.write a v).calls = s.calls := rfl

@[simp] theorem events_write (s : State) (a : UInt32) (v : Int32) :
    (s.write a v).events = s.events := rfl

end State

namespace Setting

variable (setting : Setting)

def slot (i : UInt32) : UInt32 := setting.sp + 4 * i

/-- Whether an access through a register may touch a word. -/
def admits (a : UInt32) : Bool :=
  !(setting.reserved a || setting.reserved (a + 1) || setting.reserved (a + 2) ||
    setting.reserved (a + 3))

def afterCall (s : State) (function : String) : State where
  registers r := if r.isSaved then s.registers r else (setting.reply s.calls).registers r
  memory b := if setting.keeps b then s.memory b else (setting.reply s.calls).memory b
  calls := s.calls + 1
  events := s.events ++ [.call function s.arguments]

def effect (s : State) : Instruction → Option State
  | .binary dest op left right => do
    return s.set dest (← Eeyore.runBinary setting.byZero op (s.value left) (s.operand right))
  | .unary dest op operand => some (s.set dest (op.fold (s.value operand)))
  | .move dest source => some (s.set dest (s.value source))
  | .constant dest value => some (s.set dest value)
  | .store base offset value =>
    let a := (s.value base + offset).toUInt32
    if setting.admits a then
      some { s.write a (s.value value) with events := s.events ++ [.store a (s.value value)] }
    else none
  | .load dest base offset =>
    let a := (s.value base + offset).toUInt32
    if setting.admits a then some (s.set dest (s.memory.word a)) else none
  | .call function => some (setting.afterCall s function)
  | .stackStore value i => some (s.write (setting.slot i) (s.value value))
  | .stackLoad i dest => some (s.set dest (s.memory.word (setting.slot i)))
  | .stackAddress i dest => some (s.set dest (setting.slot i).toInt32)
  | .globalLoad global dest => some (s.set dest (s.memory.word (setting.place global)))
  | .globalAddress global dest => some (s.set dest (setting.place global).toInt32)
  | .branch .. | .jump _ | .label _ | .return => some s

def course (s : State) : Instruction → Course
  | .branch left relation right target =>
    if relation.holds (s.value left) (s.value right) then .jump target else .next
  | .jump target => .jump target
  | .return => .leave
  | _ => .next

def labelOf : Instruction → Option Label
  | .label l => some l
  | _ => none

def machine : Machine Instruction State := ⟨setting.effect, course, labelOf⟩

/-! ## Instructions after which control goes on -/

variable (s : State)

@[simp] theorem pass_binary (dest left : Register) (op : BinaryOp) (right : Operand) :
    setting.machine.pass s (.binary dest op left right) =
      (Eeyore.runBinary setting.byZero op (s.value left) (s.operand right)).map (s.set dest) := by
  show Option.bind _ _ = _
  cases Eeyore.runBinary setting.byZero op (s.value left) (s.operand right) <;> rfl

@[simp] theorem pass_unary (dest operand : Register) (op : UnaryOp) :
    setting.machine.pass s (.unary dest op operand) =
      some (s.set dest (op.fold (s.value operand))) := rfl

@[simp] theorem pass_move (dest source : Register) :
    setting.machine.pass s (.move dest source) = some (s.set dest (s.value source)) := rfl

@[simp] theorem pass_constant (dest : Register) (v : Int32) :
    setting.machine.pass s (.constant dest v) = some (s.set dest v) := rfl

@[simp] theorem pass_call (fn : String) :
    setting.machine.pass s (.call fn) = some (setting.afterCall s fn) := rfl

@[simp] theorem pass_stackStore (value : Register) (i : UInt32) :
    setting.machine.pass s (.stackStore value i) =
      some (s.write (setting.slot i) (s.value value)) := rfl

@[simp] theorem pass_stackLoad (i : UInt32) (dest : Register) :
    setting.machine.pass s (.stackLoad i dest) =
      some (s.set dest (s.memory.word (setting.slot i))) := rfl

@[simp] theorem pass_stackAddress (i : UInt32) (dest : Register) :
    setting.machine.pass s (.stackAddress i dest) =
      some (s.set dest (setting.slot i).toInt32) := rfl

@[simp] theorem pass_globalLoad (global : Global) (dest : Register) :
    setting.machine.pass s (.globalLoad global dest) =
      some (s.set dest (s.memory.word (setting.place global))) := rfl

@[simp] theorem pass_globalAddress (global : Global) (dest : Register) :
    setting.machine.pass s (.globalAddress global dest) =
      some (s.set dest (setting.place global).toInt32) := rfl

@[simp] theorem pass_label (l : Label) : setting.machine.pass s (.label l) = some s := rfl

theorem pass_store (base value : Register) (offset : Int32)
    (ha : (s.value base + offset).toUInt32 = a) (hadm : setting.admits a = true) :
    setting.machine.pass s (.store base offset value) =
      some { s.write a (s.value value) with events := s.events ++ [.store a (s.value value)] } := by
  subst ha
  exact if_pos hadm

theorem pass_load (dest base : Register) (offset : Int32)
    (ha : (s.value base + offset).toUInt32 = a) (hadm : setting.admits a = true) :
    setting.machine.pass s (.load dest base offset) = some (s.set dest (s.memory.word a)) := by
  subst ha
  exact if_pos hadm

end Setting

def State.start (registers : Register → Int32) (memory : Memory) : State := ⟨registers, memory, 0, []⟩

end SysY.Tigger

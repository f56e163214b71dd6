import SysY.Proofs.Machine
import SysY.Proofs.Memory
import SysY.RiscV.Selection

/-!
# Running assembly

The lines of a function run on the registers of a 32-bit RISC-V machine with multiplication and on its
memory. An instruction whose constant does not fit into its twelve bits, or whose shift is not shorter
than a word, has no meaning: an assembler refuses it. A call is opaque: the callee restores the stack
pointer and the `s` registers, and its reply gives new contents to everything else that it need not
leave alone. Lines that are no instructions do nothing.
-/

namespace SysY.RiscV

variable {offset : Int32}

/-! ## Operations -/

/-- The value of an operation. A division by zero gives minus one, and its remainder the dividend. -/
def RegisterOp.value : RegisterOp → Int32 → Int32 → Int32
  | .add, a, b => a + b
  | .sub, a, b => a - b
  | .mul, a, b => a * b
  | .div, a, b => if b = 0 then -1 else a / b
  | .rem, a, b => if b = 0 then a else a % b
  | .slt, a, b => truth (a < b)
  | .sgt, a, b => truth (b < a)
  | .xor, a, b => a ^^^ b
  | .or, a, b => a ||| b
  | .and, a, b => a &&& b

def SingleOp.value : SingleOp → Int32 → Int32
  | .mv, a => a
  | .neg, a => -a
  | .seqz, a => truth (a = 0)
  | .snez, a => truth (a ≠ 0)

/-- The value of an operation. A shift to the right fills up with zeros or with the sign. -/
def ImmediateOp.value : ImmediateOp → Int32 → Int32 → Int32
  | .addi, a, c => a + c
  | .slti, a, c => truth (a < c)
  | .andi, a, c => a &&& c
  | .slli, a, c => a <<< c
  | .srli, a, c => (a.toUInt32 >>> c.toUInt32).toInt32
  | .srai, a, c => a >>> c

/-- Whether an instruction can hold the constant. -/
def ImmediateOp.takes : ImmediateOp → Int32 → Bool
  | .addi, c | .slti, c | .andi, c => isImmediate c
  | .slli, c | .srli, c | .srai, c => 0 ≤ c && c < 32

/-- The lower twelve bits of an address, as a signed number. -/
def lowerPart (a : UInt32) : Int32 := .ofInt (Int.bmod a.toNat 4096)

/-- The upper twenty bits of an address, rounded so that the signed lower part remains. -/
def upperPart (a : UInt32) : Int32 := ((a + 2048) >>> 12 <<< 12).toInt32

theorem upperPart_add_lowerPart (a : UInt32) : upperPart a + lowerPart a = a.toInt32 := by
  have hlt := a.toNat_lt
  have hupper : ((a + 2048) >>> 12 <<< 12).toNat =
      (a.toNat + 2048) % 4294967296 / 4096 * 4096 := by
    simp only [UInt32.toNat_shiftLeft, UInt32.toNat_shiftRight, UInt32.toNat_add,
      UInt32.reduceToNat, Nat.reducePow, Nat.reduceMod, Nat.shiftRight_eq_div_pow, Nat.shiftLeft_eq]
    omega
  have hlow : (lowerPart a).toBitVec.toNat = (Int.bmod a.toNat 4096 % 4294967296).toNat := by
    unfold lowerPart
    simp [BitVec.toNat_ofInt]
  refine Int32.toBitVec_inj.1 (BitVec.eq_of_toNat_eq ?_)
  rw [Int32.toBitVec_add, BitVec.toNat_add, hlow]
  show (((a + 2048) >>> 12 <<< 12).toNat + _) % _ = a.toNat
  rw [hupper, Int.bmod]
  omega

/-! ## States -/

structure State where
  registers : Reg → Int32
  memory : Memory
  /-- The calls so far, in order, with the registers that carry arguments. -/
  calls : List (String × List Int32)

namespace State

def value (m : State) (x : Reg) : Int32 := if x = .file .zero then 0 else m.registers x

def set (m : State) (x : Reg) (v : Int32) : State :=
  { m with registers := fun y => if y = x then v else m.registers y }

def write (m : State) (a : UInt32) (v : Int32) : State := { m with memory := m.memory.write a v }

def address (m : State) (base : Reg) (offset : Int32) : UInt32 := (m.value base + offset).toUInt32

variable (m : State) {x y : Reg} (v : Int32)

@[simp] theorem value_zero : m.value (.file .zero) = 0 := rfl

@[simp] theorem value_set_self (h : x ≠ .file .zero) : (m.set x v).value x = v := by
  simp [value, set, h]

theorem value_set_of_ne (h : y ≠ x) : (m.set x v).value y = m.value y := by
  simp [value, set, h]

@[simp] theorem memory_set : (m.set x v).memory = m.memory := rfl

@[simp] theorem calls_set : (m.set x v).calls = m.calls := rfl

@[simp] theorem value_write (a : UInt32) : (m.write a v).value = m.value := rfl

@[simp] theorem memory_write (a : UInt32) : (m.write a v).memory = m.memory.write a v := rfl

@[simp] theorem calls_write (a : UInt32) : (m.write a v).calls = m.calls := rfl

end State

/-! ## Instructions -/

/-- What a call leaves behind. -/
structure Reply where
  registers : Reg → Int32
  memory : Memory

/-- What a function finds when it is called. -/
structure Setting where
  /-- Where the global variables are. -/
  place : Tigger.Global → UInt32
  /-- The bytes that a callee leaves alone. -/
  keeps : UInt32 → Bool
  /-- The answers to the calls, one after the other. -/
  reply : Nat → Reply

/-- Whether a callee restores a register. -/
def Reg.isRestored : Reg → Bool
  | .file r => r.isSaved
  | .sp => true
  | .ra => false

namespace Setting

variable (setting : Setting)

def afterCall (m : State) (function : String) : State where
  registers x := if x.isRestored then m.registers x else (setting.reply m.calls.length).registers x
  memory b := if setting.keeps b then m.memory b else (setting.reply m.calls.length).memory b
  calls := m.calls ++ [(function, Register.arguments.map fun r : Register => m.value r)]

def perform (m : State) : Instruction → Option State
  | .register op dest left right => some (m.set dest (op.value (m.value left) (m.value right)))
  | .single op dest source => some (m.set dest (op.value (m.value source)))
  | .immediate op dest source c =>
    if op.takes c then some (m.set dest (op.value (m.value source) c)) else none
  | .constant dest v => some (m.set dest v)
  | .loadWord dest offset base =>
    if isImmediate offset then some (m.set dest (m.memory.word (m.address base offset))) else none
  | .storeWord source offset base =>
    if isImmediate offset then some (m.write (m.address base offset) (m.value source)) else none
  | .upperPart dest global => some (m.set dest (RiscV.upperPart (setting.place global)))
  | .loadLower dest global base =>
    some (m.set dest (m.memory.word (m.address base (lowerPart (setting.place global)))))
  | .address dest global => some (m.set dest (setting.place global).toInt32)
  | .call function => some (setting.afterCall m function)
  | .branch .. | .jump _ | .ret => some m

def effect (m : State) : Line → Option State
  | .instruction i => setting.perform m i
  | _ => some m

def course (m : State) : Line → Course
  | .instruction (.branch relation left right target) =>
    if relation.holds (m.value left) (m.value right) then .jump target else .next
  | .instruction (.jump target) => .jump target
  | .instruction .ret => .leave
  | _ => .next

def labelOf : Line → Option Label
  | .label l => some l
  | _ => none

def machine : Machine Line State := ⟨setting.effect, course, labelOf⟩

/-- The effects of instructions without jumps, one after the other. -/
def exec (instructions : List Instruction) (m : State) : Option State :=
  setting.machine.exec (instructions.map .instruction) m

variable (m : State) {rest : List Instruction}

@[simp] theorem exec_nil : setting.exec [] m = some m := rfl

@[simp] theorem exec_register (op : RegisterOp) (dest left right : Reg) :
    setting.exec (.register op dest left right :: rest) m =
      setting.exec rest (m.set dest (op.value (m.value left) (m.value right))) := rfl

@[simp] theorem exec_single (op : SingleOp) (dest source : Reg) :
    setting.exec (.single op dest source :: rest) m =
      setting.exec rest (m.set dest (op.value (m.value source))) := rfl

@[simp] theorem exec_constant (dest : Reg) (v : Int32) :
    setting.exec (.constant dest v :: rest) m = setting.exec rest (m.set dest v) := rfl

@[simp] theorem exec_address (dest : Reg) (global : Tigger.Global) :
    setting.exec (.address dest global :: rest) m =
      setting.exec rest (m.set dest (setting.place global).toInt32) := rfl

@[simp] theorem exec_upperPart (dest : Reg) (global : Tigger.Global) :
    setting.exec (.upperPart dest global :: rest) m =
      setting.exec rest (m.set dest (RiscV.upperPart (setting.place global))) := rfl

@[simp] theorem exec_loadLower (dest base : Reg) (global : Tigger.Global) :
    setting.exec (.loadLower dest global base :: rest) m =
      setting.exec rest (m.set dest
        (m.memory.word (m.address base (lowerPart (setting.place global))))) := rfl

@[simp] theorem exec_call (fn : String) :
    setting.exec (.call fn :: rest) m = setting.exec rest (setting.afterCall m fn) := rfl

theorem exec_immediate {op : ImmediateOp} (dest source : Reg) {c : Int32} (h : op.takes c = true) :
    setting.exec (.immediate op dest source c :: rest) m =
      setting.exec rest (m.set dest (op.value (m.value source) c)) := by
  have hpass : setting.machine.pass m (.instruction (.immediate op dest source c)) =
      some (m.set dest (op.value (m.value source) c)) := if_pos h
  rw [exec, List.map_cons, Machine.exec_cons, hpass]
  rfl

theorem exec_loadWord (dest base : Reg) (h : isImmediate offset = true) :
    setting.exec (.loadWord dest offset base :: rest) m =
      setting.exec rest (m.set dest (m.memory.word (m.address base offset))) := by
  have hpass : setting.machine.pass m (.instruction (.loadWord dest offset base)) =
      some (m.set dest (m.memory.word (m.address base offset))) := if_pos h
  rw [exec, List.map_cons, Machine.exec_cons, hpass]
  rfl

theorem exec_storeWord (source base : Reg) (h : isImmediate offset = true) :
    setting.exec (.storeWord source offset base :: rest) m =
      setting.exec rest (m.write (m.address base offset) (m.value source)) := by
  have hpass : setting.machine.pass m (.instruction (.storeWord source offset base)) =
      some (m.write (m.address base offset) (m.value source)) := if_pos h
  rw [exec, List.map_cons, Machine.exec_cons, hpass]
  rfl

end Setting

def State.start (registers : Reg → Int32) (memory : Memory) : State := ⟨registers, memory, []⟩

end SysY.RiscV

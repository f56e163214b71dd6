import SysY.RiscV.Assembly
import SysY.Eeyore

/-!
# Choosing instructions

Every instruction of register code becomes a short sequence of machine instructions. Constants and
offsets of twelve bits fit into an instruction; others go through a scratch register, and where both
scratch registers are taken, `s0` is lent below the stack pointer.

A function keeps its return address in the word below its caller's stack pointer. Its frame begins
at its own stack pointer and is rounded up to sixteen bytes.
-/

namespace SysY.RiscV

open Tigger (Operand)

def isImmediate (value : Int32) : Bool := -2048 ≤ value && value < 2048

/-- The exponent of a power of two above one. -/
def exponent? (value : Int32) : Option Nat :=
  (List.range' 1 30).find? fun k => value == Int32.ofNat (1 <<< k)

/-! ## Arithmetic -/

def selectBinary (dest : Register) (op : BinaryOp) (a b : Register) : List Instruction :=
  match op with
  | .add => [.register .add dest a b]
  | .sub => [.register .sub dest a b]
  | .mul => [.register .mul dest a b]
  | .div => [.register .div dest a b]
  | .rem => [.register .rem dest a b]
  | .lt => [.register .slt dest a b]
  | .gt => [.register .sgt dest a b]
  | .le => [.register .sgt dest a b, .single .seqz dest dest]
  | .ge => [.register .slt dest a b, .single .seqz dest dest]
  | .eq => [.register .xor dest a b, .single .seqz dest dest]
  | .ne => [.register .xor dest a b, .single .snez dest dest]
  | .or => [.register .or dest a b, .single .snez dest dest]
  | .and =>
    -- the second operand is read after `dest` is written, so it must not be `dest`
    let (first, second) := if b = dest then (b, a) else (a, b)
    let scratch := dest.otherScratch
    [.single .snez dest first, .single .snez scratch second, .register .and dest dest scratch]

/-- An operation with a constant that no instruction takes as it is. -/
def selectLoaded (dest : Register) (op : BinaryOp) (a : Register) (b : Int32) : List Instruction :=
  .constant a.otherScratch b :: selectBinary dest op a a.otherScratch

/-- A division by a power of two. Negative dividends are biased, so that the shift rounds toward
zero. -/
def selectDivision (dest a : Register) (b : Int32) (shift : Nat) : List Instruction :=
  let bias := a.otherScratch
  [.immediate .srai bias a 31, .immediate .andi bias bias (b - 1), .register .add dest bias a,
    .immediate .srai dest dest (Int32.ofNat shift)]

/-- A remainder by a power of two, with the sign of the dividend. -/
def selectRemainder (dest a : Register) (b : Int32) (shift : Nat) : List Instruction :=
  let bias := a.otherScratch
  let biased := bias.otherScratch
  [.immediate .srai bias a 31, .immediate .srli bias bias (Int32.ofNat (32 - shift)),
    .register .add biased a bias, .immediate .andi biased biased (b - 1),
    .register .sub dest biased bias]

def selectImmediate (dest : Register) (op : BinaryOp) (a : Register) (b : Int32) :
    List Instruction :=
  match op, exponent? b with
  | .add, _ => if isImmediate b then [.immediate .addi dest a b] else selectLoaded dest op a b
  | .sub, _ => if isImmediate (-b) then [.immediate .addi dest a (-b)] else selectLoaded dest op a b
  | .lt, _ => if isImmediate b then [.immediate .slti dest a b] else selectLoaded dest op a b
  | .mul, some shift => [.immediate .slli dest a (Int32.ofNat shift)]
  | .div, some shift =>
    if b ≤ 2048 then selectDivision dest a b shift else selectLoaded dest op a b
  | .rem, some shift =>
    if b ≤ 2048 then selectRemainder dest a b shift else selectLoaded dest op a b
  | _, _ => selectLoaded dest op a b

/-! ## Memory -/

def selectStore (base : Register) (offset : Int32) (value : Register) : List Instruction :=
  if isImmediate offset then [.storeWord value offset base]
  else
    let first := base.otherScratch
    let address := if first = value then value.otherScratch else first
    if address ≠ base then
      [.constant address offset, .register .add address address base, .storeWord value 0 address]
    else
      let lent := Register.s0
      [.storeWord lent (-4) .sp, .constant lent offset, .register .add lent lent base,
        .storeWord value 0 lent, .loadWord lent (-4) .sp]

def selectLoad (dest base : Register) (offset : Int32) : List Instruction :=
  if isImmediate offset then [.loadWord dest offset base]
  else
    let address := if dest ≠ base then dest else base.otherScratch
    [.constant address offset, .register .add address address base, .loadWord dest 0 address]

def slotOffset (slot : UInt32) : Except Fault Int32 := signedMul 4 slot.toInt32

def selectStackStore (value : Register) (offset : Int32) : List Instruction :=
  if isImmediate offset then [.storeWord value offset .sp]
  else
    let address := value.otherScratch
    [.constant address offset, .register .add address address .sp, .storeWord value 0 address]

def selectStackLoad (dest : Register) (offset : Int32) : List Instruction :=
  if isImmediate offset then [.loadWord dest offset .sp]
  else [.constant dest offset, .register .add dest dest .sp, .loadWord dest 0 dest]

def selectStackAddress (dest : Register) (offset : Int32) : List Instruction :=
  if isImmediate offset then [.immediate .addi dest .sp offset]
  else [.constant dest offset, .register .add dest .sp dest]

def moveStackPointer (delta : Int32) : List Instruction :=
  if isImmediate delta then [.immediate .addi .sp .sp delta]
  else [.constant Register.t0 delta, .register .add .sp .sp Register.t0]

/-! ## Functions -/

def callee (function : String) : String :=
  if Eeyore.isTiming function then "_sysy_" ++ function else function

/-- The lines of an instruction, in a function with a frame of `stack` bytes. -/
def select (stack : Int32) : Tigger.Instruction → Except Fault (List Line)
  | .binary dest op a (.register b) => lines (selectBinary dest op a b)
  | .binary dest op a (.immediate b) => lines (selectImmediate dest op a b)
  | .unary dest .neg operand => lines [.single .neg dest operand]
  | .unary dest .not operand => lines [.single .seqz dest operand]
  | .move dest source => lines [.single .mv dest source]
  | .constant dest value => lines [.constant dest value]
  | .store base offset value => lines (selectStore base offset value)
  | .load dest base offset => lines (selectLoad dest base offset)
  | .branch left relation right target => lines [.branch relation left right target]
  | .jump target => lines [.jump target]
  | .label l => .ok [.label l]
  | .call function => lines [.call (callee function)]
  | .return => lines (moveStackPointer stack ++ [.loadWord .ra (-4) .sp, .ret])
  | .stackStore value slot => do lines (selectStackStore value (← slotOffset slot))
  | .stackLoad slot dest => do lines (selectStackLoad dest (← slotOffset slot))
  | .stackAddress slot dest => do lines (selectStackAddress dest (← slotOffset slot))
  | .globalLoad global dest => lines [.upperPart dest global, .loadLower dest global dest]
  | .globalAddress global dest => lines [.address dest global]
where
  lines (instructions : List Instruction) : Except Fault (List Line) :=
    .ok (instructions.map .instruction)

/-- The bytes of a frame, with room for the return address. -/
def stackSize (frame : UInt32) : Except Fault Int32 := signedMul (frame.toInt32 / 4 + 1) 16

/-- What has been written, and the fault that stopped the writing if there was one. -/
structure Output where
  lines : List Line
  fault : Option Fault
deriving DecidableEq

namespace Output

def ofLines (lines : List Line) : Output := ⟨lines, none⟩

def ofExcept : Except Fault (List Line) → Output
  | .ok lines => ⟨lines, none⟩
  | .error fault => ⟨[], some fault⟩

/-- Goes on writing unless a fault stopped it. -/
def andThen (first second : Output) : Output :=
  match first.fault with
  | some _ => first
  | none => ⟨first.lines ++ second.lines, second.fault⟩

def sequence (outputs : List Output) : Output := outputs.foldr andThen (ofLines [])

/-- All lines, if no fault stopped the writing. -/
def whole (output : Output) : Except Fault (List Line) :=
  match output.fault with
  | some fault => .error fault
  | none => .ok output.lines

def text (output : Output) : String := linesText output.lines

end Output

def globalOutput (decl : Tigger.GlobalDecl) : Output :=
  let name := decl.global.text
  match decl.size with
  | none => .ofLines [.global name, .smallData, .align, .objectType name, .objectSize name,
      .place name, .zeroWord]
  | some size => .ofExcept ((Tigger.byteSize size).map fun bytes => [.common name bytes])

def functionHeader (name : String) : List Line :=
  [.code, .align, .global name, .functionType name, .place name]

def functionOutput (function : Tigger.Function) : Output :=
  let name := function.name
  let saveReturn : Line := .instruction (.storeWord .ra (-4) .sp)
  Output.andThen (.ofLines (functionHeader name)) <|
  match stackSize function.frame with
  | .error fault => ⟨[], some fault⟩
  | .ok stack =>
    Output.sequence (
      .ofLines [saveReturn] ::
      .ofExcept ((signedNeg stack).map fun delta => (moveStackPointer delta).map .instruction) ::
      function.body.map (fun instruction => .ofExcept (select stack instruction)) ++
      [.ofLines [.functionSize name, .blank]])

def assemble (program : Tigger.Program) : Output :=
  Output.sequence (program.globals.map globalOutput ++ program.code.map functionOutput)

end SysY.RiscV

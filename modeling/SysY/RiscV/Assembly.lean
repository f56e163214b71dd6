import SysY.Tigger.Printer

/-!
# Assembly

Assembly text is a list of typed lines: instructions of a 32-bit RISC-V machine with multiplication,
pseudo-instructions included, labels and directives.
-/

namespace SysY.RiscV

/-- A machine register: one of the file, the stack pointer or the return address. -/
inductive Reg
  | file (r : Register)
  | sp
  | ra
deriving DecidableEq

instance : Coe Register Reg := ⟨.file⟩

inductive RegisterOp
  | add | sub | mul | div | rem | slt | sgt | xor | or | and
deriving DecidableEq

inductive SingleOp
  | mv | neg | seqz | snez
deriving DecidableEq

inductive ImmediateOp
  | addi | slti | andi | slli | srli | srai
deriving DecidableEq

inductive Instruction
  | register (op : RegisterOp) (dest left right : Reg)
  | single (op : SingleOp) (dest source : Reg)
  | immediate (op : ImmediateOp) (dest source : Reg) (value : Int32)
  /-- `li`: a constant. -/
  | constant (dest : Reg) (value : Int32)
  /-- `lw`: a word at an offset. -/
  | loadWord (dest : Reg) (offset : Int32) (base : Reg)
  /-- `sw`: a word at an offset. -/
  | storeWord (value : Reg) (offset : Int32) (base : Reg)
  /-- `lui`: the upper part of an address. -/
  | upperPart (dest : Reg) (global : Tigger.Global)
  /-- `lw` with the lower part of an address as offset. -/
  | loadLower (dest : Reg) (global : Tigger.Global) (base : Reg)
  /-- `la`: an address. -/
  | address (dest : Reg) (global : Tigger.Global)
  | branch (relation : Relation) (left right : Reg) (target : Label)
  | jump (target : Label)
  | call (function : String)
  | ret
deriving DecidableEq

inductive Line
  | instruction (i : Instruction)
  | label (l : Label)
  /-- The place that a name stands for. -/
  | place (name : String)
  | code
  | smallData
  | align
  | global (name : String)
  | objectType (name : String)
  | functionType (name : String)
  | objectSize (name : String)
  | functionSize (name : String)
  | zeroWord
  /-- Room for an array. -/
  | common (name : String) (bytes : UInt32)
  | blank
deriving DecidableEq

/-! ## Written form -/

def Reg.text : Reg → String
  | .file r => r.text
  | .sp => "sp"
  | .ra => "ra"

instance : ToString Reg := ⟨Reg.text⟩

def RegisterOp.text : RegisterOp → String
  | .add => "add"
  | .sub => "sub"
  | .mul => "mul"
  | .div => "div"
  | .rem => "rem"
  | .slt => "slt"
  | .sgt => "sgt"
  | .xor => "xor"
  | .or => "or"
  | .and => "and"

def SingleOp.text : SingleOp → String
  | .mv => "mv"
  | .neg => "neg"
  | .seqz => "seqz"
  | .snez => "snez"

def ImmediateOp.text : ImmediateOp → String
  | .addi => "addi"
  | .slti => "slti"
  | .andi => "andi"
  | .slli => "slli"
  | .srli => "srli"
  | .srai => "srai"

def branchText : Relation → String
  | .lt => "blt"
  | .gt => "bgt"
  | .le => "ble"
  | .ge => "bge"
  | .ne => "bne"
  | .eq => "beq"

def labelText (label : Label) : String := "." ++ label.text

/-- A line of an operation and its operands, which begin in one column. -/
def operation (name operands : String) : String :=
  "  " ++ name ++ String.ofList (List.replicate (6 - name.length) ' ') ++ " " ++ operands

def Instruction.text : Instruction → String
  | .register op dest left right => operation op.text s!"{dest}, {left}, {right}"
  | .single op dest source => operation op.text s!"{dest}, {source}"
  | .immediate op dest source value => operation op.text s!"{dest}, {source}, {value.toInt}"
  | .constant dest value => operation "li" s!"{dest}, {value.toInt}"
  | .loadWord dest offset base => operation "lw" s!"{dest}, {offset.toInt}({base})"
  | .storeWord value offset base => operation "sw" s!"{value}, {offset.toInt}({base})"
  | .upperPart dest global => operation "lui" s!"{dest}, %hi({global})"
  | .loadLower dest global base => operation "lw" s!"{dest}, %lo({global})({base})"
  | .address dest global => operation "la" s!"{dest}, {global}"
  | .branch relation left right target =>
    operation (branchText relation) (s!"{left}, {right}, " ++ labelText target)
  | .jump target => operation "j" (labelText target)
  | .call function => operation "call" function
  | .ret => "  ret"

def Line.text : Line → String
  | .instruction i => i.text
  | .label l => labelText l ++ ":"
  | .place name => name ++ ":"
  | .code => "  .text"
  | .smallData => operation ".section" ".sdata"
  | .align => operation ".align" "2"
  | .global name => operation ".global" name
  | .objectType name => operation ".type" (name ++ ", @object")
  | .functionType name => operation ".type" (name ++ ", @function")
  | .objectSize name => operation ".size" (name ++ ", 4")
  | .functionSize name => operation ".size" (name ++ ", .-" ++ name)
  | .zeroWord => operation ".word" "0"
  | .common name bytes => operation ".comm" s!"{name}, {bytes.toNat}, 4"
  | .blank => ""

def linesText (lines : List Line) : String :=
  String.join (lines.map fun line => line.text ++ "\n")

end SysY.RiscV

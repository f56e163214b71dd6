import SysY.Tigger
import SysY.Word

/-!
# Written register code

Instructions are indented by two blanks, labels are not. Arrays are declared with their size in
bytes, which has to be an unsigned machine word.
-/

namespace SysY.Tigger

def Operand.text : Operand → String
  | .register r => r.text
  | .immediate value => toString value.toInt

instance : ToString Operand := ⟨Operand.text⟩

def Global.text (global : Global) : String := "v" ++ toString global.id.toNat

instance : ToString Global := ⟨Global.text⟩

def byteSize (size : UInt32) : Except Fault UInt32 := checkedMul 4 size

def GlobalDecl.text (decl : GlobalDecl) : Except Fault String :=
  match decl.size with
  | none => .ok s!"{decl.global} = 0"
  | some size => do
    let bytes ← byteSize size
    return s!"{decl.global} = malloc {bytes.toNat}"

def Instruction.text : Instruction → String
  | .binary dest op left right => s!"{dest} = {left} {op} {right}"
  | .unary dest op operand => s!"{dest} = {op} {operand}"
  | .move dest source => s!"{dest} = {source}"
  | .constant dest value => s!"{dest} = {value.toInt}"
  | .store base offset value => s!"{base}[{offset.toInt}] = {value}"
  | .load dest base offset => s!"{dest} = {base}[{offset.toInt}]"
  | .branch left relation right target => s!"if {left} {relation} {right} goto {target}"
  | .jump target => s!"goto {target}"
  | .label l => s!"{l}:"
  | .call function => s!"call f_{function}"
  | .return => "return"
  | .stackStore value slot => s!"store {value} {slot.toNat}"
  | .stackLoad slot dest => s!"load {slot.toNat} {dest}"
  | .stackAddress slot dest => s!"loadaddr {slot.toNat} {dest}"
  | .globalLoad global dest => s!"load {global} {dest}"
  | .globalAddress global dest => s!"loadaddr {global} {dest}"

def Instruction.line (instruction : Instruction) : String :=
  match instruction with
  | .label _ => instruction.text ++ "\n"
  | _ => "  " ++ instruction.text ++ "\n"

def Function.text (function : Function) : String :=
  s!"f_{function.name} [{function.parameters.toNat}] [{function.frame.toNat}]\n" ++
  String.join (function.body.map Instruction.line) ++ s!"end f_{function.name}\n"

def Program.text (program : Program) : Except Fault String := do
  let globals ← program.globals.mapM GlobalDecl.text
  return String.join (globals.map (· ++ "\n")) ++ "\n" ++
    String.join (program.code.map (·.text ++ "\n"))

end SysY.Tigger

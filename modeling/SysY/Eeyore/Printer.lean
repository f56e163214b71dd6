import SysY.Eeyore
import SysY.Word

/-!
# Written three-address code

Instructions are indented by a tab, labels are not. Arrays are declared with their size in bytes,
which has to be a machine word. Calls of timing functions are left out.
-/

namespace SysY.Eeyore

def Value.text : Value → String
  | .const value => toString value.toInt
  | .symbol x => x.text

instance : ToString Value := ⟨Value.text⟩

def Decl.text (decl : Decl) : Except Fault String :=
  match decl.size with
  | none => .ok ("var " ++ decl.symbol.text)
  | some size => do
    let bytes ← signedMul size.toInt32 wordSize
    return "var " ++ toString bytes.toInt ++ " " ++ decl.symbol.text

/-- The written form of an instruction, without the end of its line. -/
def Instruction.text : Instruction → String
  | .unary dest op operand => s!"\t{dest} = {op}{operand}"
  | .binary dest op left right => s!"\t{dest} = {left} {op} {right}"
  | .copy dest value => s!"\t{dest} = {value}"
  | .store array index value => s!"\t{array}[{index}] = {value}"
  | .load dest array index => s!"\t{dest} = {array}[{index}]"
  | .branch left relation right target => s!"\tif {left} {relation} {right} goto {target}"
  | .jump target => s!"\tgoto {target}"
  | .label l => s!"{l}:"
  | .call function arguments output =>
    String.join (arguments.map fun argument => s!"\tparam {argument}\n") ++
    match output with
    | some output => s!"\t{output} = call f_{function}"
    | none => s!"\tcall f_{function}"
  | .return (some value) => s!"\treturn {value}"
  | .return none => "\treturn"

def Instruction.isShown : Instruction → Bool
  | .call function _ _ => !isTiming function
  | _ => true

def declText (decls : List Decl) : Except Fault String := do
  let lines ← decls.mapM Decl.text
  return String.join (lines.map (· ++ "\n"))

def Function.text (function : Function) : Except Fault String := do
  let decls ← declText function.decls
  let shown := function.body.toList.filter Instruction.isShown
  return s!"f_{function.name} [{function.parameters.toNat}]\n" ++ decls ++ "\n" ++
    String.join (shown.map (·.text ++ "\n")) ++ s!"end f_{function.name}\n"

def Program.text (program : Program) : Except Fault String := do
  let globals ← declText program.globals
  let functions ← program.code.mapM Function.text
  return globals ++ "\n" ++ String.join (functions.map (· ++ "\n"))

end SysY.Eeyore

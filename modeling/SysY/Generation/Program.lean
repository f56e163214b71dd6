import SysY.Generation.Statement
import SysY.Log

/-!
# Programs

The functions of a program are known everywhere in it, those of the library included. Global
variables are initialized by code at the beginning of `main`: its temporaries get numbers behind
those of `main`.
-/

namespace SysY.Generation

open Eeyore SysY.Tree

def library : Signatures :=
  [("getint", ⟨.int, 0⟩), ("getch", ⟨.int, 0⟩), ("getarray", ⟨.int, 1⟩), ("putint", ⟨.void, 1⟩),
   ("putch", ⟨.void, 1⟩), ("putarray", ⟨.void, 2⟩), ("starttime", ⟨.void, 0⟩),
   ("stoptime", ⟨.void, 0⟩)]

/-- Adds functions, whose names have to be new. -/
def collectSignatures (known : Signatures) :
    List Tree.Function → Except (Located SemanticError) Signatures
  | [] => .ok known
  | function :: rest =>
    let name := function.name.value
    if (known.lookup name).isSome then .error ⟨.redefinition name, function.name.location⟩
    else collectSignatures
      ((name, ⟨function.returns, function.parameters.length⟩) :: known) rest

/-! ## Initialization of globals -/

def tempCount (decls : List Decl) : Nat := (decls.filter (·.symbol.isTemp)).length

/-- Gives a temporary a number behind `offset` others. -/
def shiftTemp (offset : UInt32) (symbol : Symbol) : Symbol :=
  if symbol.isTemp then ⟨symbol.kind, symbol.id + offset⟩ else symbol

def canShift (offset : UInt32) (symbol : Symbol) : Bool :=
  !symbol.isTemp || symbol.id.toNat + offset.toNat < wordValues

/-- Puts code in front of `main`. The result has the global declarations and the new `main`. -/
def relocate (code : Code) (main : Eeyore.Function) : Except Fault (List Decl × Eeyore.Function) :=
  let offset := UInt32.ofNat (tempCount main.decls)
  let (temps, globals) := code.decls.toList.partition (·.symbol.isTemp)
  let occurring := temps.map (·.symbol) ++ code.body.toList.flatMap (·.symbols)
  if occurring.all (canShift offset) then
    let shifted := temps.map fun decl => { decl with symbol := shiftTemp offset decl.symbol }
    .ok (globals, { main with
      decls := main.decls ++ shifted
      body := code.body.map (·.mapSymbols (shiftTemp offset)) ++ main.body })
  else .error .overflow

/-! ## Items -/

structure Written where
  builder : Builder
  globals : Code
  functions : Array Eeyore.Function

def functionRecord (function : Eeyore.Function) : Record :=
  ⟨.debug, .generation, s!"f_{function.name}: {function.body.size} instructions, " ++
    s!"{function.decls.length} declarations"⟩

def writeItem (signatures : Signatures) (written : Written) : Item → Logged Rejection Written
  | .declaration declaration => do
    let start := { written.builder with code := written.globals }
    let ((), builder) ← Logged.ofExcept ((declare signatures true declaration).run start)
    return { written with builder := builder, globals := builder.code }
  | .function function => do
    let (function, builder) ←
      Logged.ofExcept ((writeFunction signatures function).run written.builder)
    Logged.tell [functionRecord function]
    return { written with builder := builder, functions := written.functions.push function }

def replaceFirst {α : Type} (p : α → Bool) (new : α) : List α → List α
  | [] => []
  | a :: rest => if p a then new :: rest else a :: replaceFirst p new rest

def generate (program : Tree.Program) : Logged Rejection Eeyore.Program := do
  let signatures ← Logged.ofExcept
    ((collectSignatures library program.functions).mapError .semantic)
  let written ← program.items.foldlM (writeItem signatures) ⟨.empty, .empty, #[]⟩
  let functions := written.functions.toList
  let isMain (function : Eeyore.Function) : Bool := function.name == "main"
  match functions.find? isMain with
  | none => Logged.ofExcept (.error (.semantic ⟨.noMain, program.stop⟩))
  | some main =>
    let (globals, main) ← Logged.ofExcept ((relocate written.globals main).mapError .fault)
    let labels := written.builder.lastLabel.toNat
    Logged.say .debug .generation
      (s!"Generated {functions.length} functions and {globals.length} globals, " ++
        s!"{labels} labels")
    return ⟨globals, replaceFirst isMain main functions⟩

end SysY.Generation

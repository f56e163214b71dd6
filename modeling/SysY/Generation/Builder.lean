import SysY.Eeyore
import SysY.Generation.Scope
import SysY.Word

/-!
# Code under construction

The builder has the scopes, the counters of the whole program and the code that is being written:
its instructions, its declarations and the number of its temporaries. Labels and variables have
numbers that are unique in the program, temporaries in their function.
-/

namespace SysY.Generation

open Eeyore

structure Code where
  body : Array Instruction
  decls : Array Decl
  temps : UInt32
deriving DecidableEq

def Code.empty : Code := ⟨#[], #[], 0⟩

structure Builder where
  scopes : Scopes
  lastLabel : UInt32
  nextVar : UInt32
  code : Code
deriving DecidableEq

def Builder.empty : Builder := ⟨.empty, 0, 0, .empty⟩

abbrev Build := StateT Builder (Except Rejection)

def reject {α : Type} (error : SemanticError) (location : Location) : Build α :=
  throw (.semantic ⟨error, location⟩)

/-- A step that can only fail by a fault. -/
def checked {α : Type} : Except Fault α → Build α
  | .ok a => pure a
  | .error fault => throw (.fault fault)

def newLabel : Build Label := do
  let builder ← get
  let id ← checked (checkedSucc builder.lastLabel)
  set { builder with lastLabel := id }
  return ⟨id⟩

def newTemp : Build Symbol := do
  let builder ← get
  let code := builder.code
  let temps ← checked (checkedSucc code.temps)
  let symbol := Symbol.temp code.temps
  set { builder with code := ⟨code.body, code.decls.push ⟨symbol, none⟩, temps⟩ }
  return symbol

def newVar (size : Option UInt32) : Build Symbol := do
  let builder ← get
  let next ← checked (checkedSucc builder.nextVar)
  let symbol := Symbol.var builder.nextVar
  let code := builder.code
  set { builder with
    nextVar := next, code := ⟨code.body, code.decls.push ⟨symbol, size⟩, code.temps⟩ }
  return symbol

def push (instruction : Instruction) : Build Unit :=
  modify fun builder =>
    let code := builder.code
    { builder with code := ⟨code.body.push instruction, code.decls, code.temps⟩ }

def enterScope : Build Unit :=
  modify fun builder => { builder with scopes := builder.scopes.enter }

def leaveScope : Build Unit := do
  let builder ← get
  let scopes ← checked builder.scopes.leave
  set { builder with scopes := scopes }

def defineName (name : Tree.Name) (meaning : Meaning) : Build Unit := do
  let builder ← get
  let scopes ← liftM (builder.scopes.define name meaning)
  set { builder with scopes := scopes }

def lookupName (name : Tree.Name) : Build Meaning := do
  liftM ((← get).scopes.lookup name)

end SysY.Generation

import SysY.Generation.Problem
import SysY.Tree

/-!
# Scopes

A name means what the innermost scope that defines it says. Every block has a scope, the parameters
of a function have one around it, and outside of all is the global scope.
-/

namespace SysY.Generation

structure Meaning where
  symbol : Symbol
  /-- The dimensions of an array. The first one of an array parameter is not known and is zero. -/
  dimensions : List Int32
  /-- The values of a constant, one for each element. -/
  values : Option (Array Int32)
deriving DecidableEq

abbrev Scope := List (String × Meaning)

/-- The scopes around a place in the program, the innermost one first, and the global one. -/
structure Scopes where
  inner : List Scope
  global : Scope
deriving DecidableEq

namespace Scopes

def empty : Scopes := ⟨[], []⟩

def enter (scopes : Scopes) : Scopes := { scopes with inner := [] :: scopes.inner }

/-- Closes the innermost scope; the global one stays open. -/
def leave (scopes : Scopes) : Except Fault Scopes :=
  match scopes.inner with
  | [] => .error .leftGlobalScope
  | _ :: inner => .ok { scopes with inner := inner }

def current (scopes : Scopes) : Scope := scopes.inner.headD scopes.global

def add (scopes : Scopes) (name : String) (meaning : Meaning) : Scopes :=
  match scopes.inner with
  | [] => { scopes with global := (name, meaning) :: scopes.global }
  | scope :: inner => { scopes with inner := ((name, meaning) :: scope) :: inner }

/-- Defines a name, once in each scope. -/
def define (scopes : Scopes) (name : Tree.Name) (meaning : Meaning) : Except Rejection Scopes :=
  if (scopes.current.lookup name.value).isSome then
    .error (.semantic ⟨.redefinition name.value, name.location⟩)
  else .ok (scopes.add name.value meaning)

def find? (scopes : Scopes) (name : String) : Option Meaning :=
  (scopes.inner ++ [scopes.global]).findSome? (·.lookup name)

def lookup (scopes : Scopes) (name : Tree.Name) : Except Rejection Meaning :=
  match scopes.find? name.value with
  | some meaning => .ok meaning
  | none => .error (.semantic ⟨.undefined name.value, name.location⟩)

end Scopes

end SysY.Generation

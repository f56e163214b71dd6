import Std.Data.HashMap
import SysY.Eeyore

/-!
# Slots

The symbols of a function that need a place of their own are numbered: the parameters first, then
the declared symbols in order. Such a number is a slot. Symbols without a slot are global.
-/

namespace SysY.Flow

open Eeyore

structure Slots (k : Nat) where
  decls : Vector Decl k
  index : Std.HashMap Symbol (Fin k)

/-- The declarations of a function, its parameters included. -/
def slotDecls (function : Function) : List Decl :=
  (List.range function.parameters.toNat).map (fun id => ⟨.param (UInt32.ofNat id), none⟩) ++
    function.decls

namespace Slots

variable {k : Nat}

/-- The slots of declarations; a symbol declared twice has the later slot. -/
def ofDecls (decls : Vector Decl k) : Slots k where
  decls := decls
  index := (List.finRange k).foldl (fun index slot => index.insert (decls.get slot).symbol slot) ∅

def ofFunction (function : Function) : Slots (slotDecls function).length :=
  ofDecls ⟨(slotDecls function).toArray, List.size_toArray⟩

/-- The slot of a symbol; a global symbol has none. -/
def find? (slots : Slots k) (symbol : Symbol) : Option (Fin k) := slots.index[symbol]?

def isArray (slots : Slots k) (slot : Fin k) : Bool := (slots.decls.get slot).size.isSome

end Slots

end SysY.Flow

/-!
# Symbols and labels

The operands of three-address code are named by symbols: variables of the source program (`T`),
temporaries of one function (`t`) and formal parameters (`p`). A number tells the symbols of one
kind apart. Local and global variables share one numbering.
-/

namespace SysY

inductive SymbolKind
  /-- A variable of the source program, local or global. -/
  | variable
  | temporary
  | parameter
deriving DecidableEq, Hashable, Repr

def SymbolKind.text : SymbolKind → String
  | .variable => "T"
  | .temporary => "t"
  | .parameter => "p"

structure Symbol where
  kind : SymbolKind
  id : UInt32
deriving DecidableEq, Hashable, Repr

namespace Symbol

def var (id : UInt32) : Symbol := ⟨.variable, id⟩

def temp (id : UInt32) : Symbol := ⟨.temporary, id⟩

def param (id : UInt32) : Symbol := ⟨.parameter, id⟩

def isTemp (symbol : Symbol) : Bool := symbol.kind == .temporary

/-- The written form: the letter of the kind, then the number. -/
def text (symbol : Symbol) : String := symbol.kind.text ++ toString symbol.id.toNat

instance : ToString Symbol := ⟨text⟩

end Symbol

/-- A jump target, numbered over the whole program. -/
structure Label where
  id : UInt32
deriving DecidableEq, Hashable, Repr

def Label.text (label : Label) : String := "l" ++ toString label.id.toNat

instance : ToString Label := ⟨Label.text⟩

end SysY

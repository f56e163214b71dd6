/-!
# Positions

A position is a line and a column of a text, both counted from one. Tabs advance to the next of the
columns 1, 5, 9, and so on.
-/

namespace SysY

def tabWidth : Nat := 4

structure Position where
  line : Nat := 1
  column : Nat := 1
deriving DecidableEq, Repr

namespace Position

def first : Position := {}

def advance (p : Position) : Position := { p with column := p.column + 1 }

/-- One column back, but not before the first. -/
def back (p : Position) : Position := { p with column := max (p.column - 1) 1 }

def newline (p : Position) : Position := { line := p.line + 1, column := 1 }

def tab (p : Position) : Position :=
  { p with column := 1 + ((p.column - 1) / tabWidth + 1) * tabWidth }

def after (p : Position) (c : Char) : Position :=
  if c = '\n' then p.newline else if c = '\t' then p.tab else p.advance

def text (p : Position) : String := s!"{p.line}:{p.column}"

end Position

end SysY

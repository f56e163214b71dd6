import SysY.Text.Position

/-!
# Locations

A location is a range of positions in a source, and a located value remembers where it was read. The
end of a range is the first position behind it.
-/

namespace SysY

/-- A source text: its name, and the lines that could be read. -/
structure Source where
  name : String
  lines : List String
deriving DecidableEq, Repr

namespace Source

def unknown : Source := ⟨"<unknown>", []⟩

/-- The text of a line, empty where there is none. Lines are counted from one. -/
def line (source : Source) (number : Nat) : String :=
  match number with
  | 0 => ""
  | n + 1 => source.lines.getD n ""

end Source

structure Location where
  source : Source
  start : Position
  stop : Position
deriving DecidableEq, Repr

namespace Location

def single (source : Source) (p : Position) : Location := ⟨source, p, p.advance⟩

def unknown : Location := single .unknown .first

def span (a b : Location) : Location := ⟨a.source, a.start, b.stop⟩

/-- The written form. A range of several columns of one line shows both ends. -/
def text (location : Location) : String :=
  let range :=
    if location.stop.line ≠ location.start.line ∨
        location.stop.column ≤ location.start.column + 1 then
      location.start.text
    else
      "[" ++ location.start.text ++ "-" ++ location.stop.back.text ++ "]"
  location.source.name ++ ":" ++ range

end Location

structure Located (α : Type) where
  value : α
  location : Location
deriving DecidableEq, Repr

end SysY

import SysY.Text.Line
import SysY.Text.Location

/-!
# Characters with locations

A source is read as a stream of characters, each with the location of the character behind it, so
that a reader always knows where it stands. Every line ends in a line feed, the last one too. A line
that cannot be decoded gives one error in place of its characters; it counts for the numbers of the
lines behind it but is not among the recorded lines.
-/

namespace SysY.Text

/-- One step of reading a source. -/
inductive Item
  /-- A character, and the location behind it. -/
  | char (c : Char) (next : Location)
  | unreadable
deriving DecidableEq, Repr

def lineItems (source : Source) : Position → List Char → List Item
  | _, [] => []
  | p, c :: rest => .char c (.single source (p.after c)) :: lineItems source (p.after c) rest

/-- The items of all lines; the first one has the given number. -/
def items (source : Source) : Nat → List (Option String) → List Item
  | _, [] => []
  | number, none :: rest => .unreadable :: items source (number + 1) rest
  | number, some line :: rest =>
    lineItems source { line := number } (line.toList ++ ['\n']) ++ items source (number + 1) rest

end SysY.Text

namespace SysY

structure Stream where
  source : Source
  items : List Text.Item

namespace Stream

def ofBytes (name : String) (bytes : List UInt8) : Stream :=
  let lines := Text.decodeLines bytes
  let source : Source := ⟨name, lines.filterMap id⟩
  ⟨source, Text.items source 1 lines⟩

def start (stream : Stream) : Location := .single stream.source .first

end Stream

end SysY

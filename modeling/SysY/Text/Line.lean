/-!
# Lines of a text

A text arrives as bytes. Lines end at a line feed; one carriage return directly in front of it
belongs to the line end. A last line without line feed counts if it holds anything. Each line is
decoded on its own, so that one line that is not valid UTF-8 spoils no other.
-/

namespace SysY.Text

def dropReturn (line : List UInt8) : List UInt8 :=
  if line.getLast? = some 13 then line.dropLast else line

/-- The lines of a text; `current` holds the bytes of the open line, the last one first. -/
def splitLines (current : List UInt8) : List UInt8 → List (List UInt8)
  | [] => if current.isEmpty then [] else [current.reverse]
  | byte :: rest =>
    if byte = 10 then dropReturn current.reverse :: splitLines [] rest
    else splitLines (byte :: current) rest

/-- The lines of a text, `none` for one that is not valid UTF-8. -/
def decodeLines (bytes : List UInt8) : List (Option String) :=
  (splitLines [] bytes).map fun line => String.fromUTF8? ⟨line.toArray⟩

end SysY.Text

import SysY.Text.Printable

/-!
# Quoted characters

How a message names one character: between single quotes, as itself where that is readable, and
otherwise as an escape.
-/

namespace SysY.Text

def hexDigits (code : Nat) : String := String.ofList (Nat.toDigits 16 code)

def escape (c : Char) : String :=
  match c with
  | '\x00' => "\\0"
  | '\t' => "\\t"
  | '\r' => "\\r"
  | '\n' => "\\n"
  | '\x27' => "\\'"
  | '\\' => "\\\\"
  | _ => if isPrintable c then c.toString else "\\u\x7b" ++ hexDigits c.toNat ++ "\x7d"

def quote (c : Char) : String := "'" ++ escape c ++ "'"

end SysY.Text

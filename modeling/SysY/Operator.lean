/-!
# Operations of the machine

The operators of the intermediate languages, with their values on constants. Arithmetic is that of
32-bit words in two's complement: it wraps, division goes toward zero, and the remainder has the
sign of the dividend. Only a division by zero has no value.
-/

namespace SysY

inductive UnaryOp
  | neg | not
deriving DecidableEq, Hashable, Repr

inductive Relation
  | eq | ne | lt | ge | le | gt
deriving DecidableEq, Hashable, Repr

inductive BinaryOp
  | add | sub | mul | div | rem | lt | gt | le | ge | eq | ne | and | or
deriving DecidableEq, Hashable, Repr

def truth (b : Bool) : Int32 := if b then 1 else 0

namespace UnaryOp

def fold (op : UnaryOp) (a : Int32) : Int32 :=
  match op with
  | .neg => -a
  | .not => truth (a == 0)

def text : UnaryOp → String
  | .neg => "-"
  | .not => "!"

instance : ToString UnaryOp := ⟨text⟩

end UnaryOp

namespace Relation

def holds (relation : Relation) (a b : Int32) : Bool :=
  match relation with
  | .eq => a == b
  | .ne => a != b
  | .lt => a < b
  | .ge => b ≤ a
  | .le => a ≤ b
  | .gt => b < a

/-- The relation that holds exactly where this one does not. -/
def negate : Relation → Relation
  | .eq => .ne
  | .ne => .eq
  | .lt => .ge
  | .ge => .lt
  | .le => .gt
  | .gt => .le

def text : Relation → String
  | .eq => "=="
  | .ne => "!="
  | .lt => "<"
  | .ge => ">="
  | .le => "<="
  | .gt => ">"

instance : ToString Relation := ⟨text⟩

end Relation

namespace BinaryOp

/-- The value on constants; a division by zero has none. -/
def fold (op : BinaryOp) (a b : Int32) : Option Int32 :=
  match op with
  | .add => some (a + b)
  | .sub => some (a - b)
  | .mul => some (a * b)
  | .div => if b = 0 then none else some (a / b)
  | .rem => if b = 0 then none else some (a % b)
  | .lt => some (truth (Relation.lt.holds a b))
  | .gt => some (truth (Relation.gt.holds a b))
  | .le => some (truth (Relation.le.holds a b))
  | .ge => some (truth (Relation.ge.holds a b))
  | .eq => some (truth (Relation.eq.holds a b))
  | .ne => some (truth (Relation.ne.holds a b))
  | .and => some (truth (a != 0 && b != 0))
  | .or => some (truth (a != 0 || b != 0))

/-- The relation whose truth value the operation computes, if there is one. -/
def relation? : BinaryOp → Option Relation
  | .lt => some .lt
  | .gt => some .gt
  | .le => some .le
  | .ge => some .ge
  | .eq => some .eq
  | .ne => some .ne
  | _ => none

/-- The operation with the same value on exchanged operands, if there is one. -/
def swapped? : BinaryOp → Option BinaryOp
  | .add => some .add
  | .mul => some .mul
  | .eq => some .eq
  | .ne => some .ne
  | .and => some .and
  | .or => some .or
  | .lt => some .gt
  | .gt => some .lt
  | .le => some .ge
  | .ge => some .le
  | .sub | .div | .rem => none

def text : BinaryOp → String
  | .add => "+"
  | .sub => "-"
  | .mul => "*"
  | .div => "/"
  | .rem => "%"
  | .lt => "<"
  | .gt => ">"
  | .le => "<="
  | .ge => ">="
  | .eq => "=="
  | .ne => "!="
  | .and => "&&"
  | .or => "||"

instance : ToString BinaryOp := ⟨text⟩

end BinaryOp

end SysY

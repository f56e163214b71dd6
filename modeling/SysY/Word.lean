import SysY.Fault

/-!
# Checked machine words

Constants of the compiled language are signed 32-bit words that wrap. The compiler's own counters
and sizes are 32-bit words too, but leaving their range is a fault. The operations here are the
checked ones: each returns the exact result, or `Fault.overflow` when it has no 32-bit
representation.
-/

namespace SysY

def wordSize : Int32 := 4

def wordValues : Nat := 4294967296

def checkedSucc (n : UInt32) : Except Fault UInt32 :=
  if n.toNat + 1 < wordValues then .ok (n + 1) else .error .overflow

def checkedPred (n : UInt32) : Except Fault UInt32 :=
  if n = 0 then .error .overflow else .ok (n - 1)

/-- Exact sum of unsigned words. -/
def checkedAdd (a b : UInt32) : Except Fault UInt32 :=
  if a.toNat + b.toNat < wordValues then .ok (a + b) else .error .overflow

def checkedMul (a b : UInt32) : Except Fault UInt32 :=
  if a.toNat * b.toNat < wordValues then .ok (a * b) else .error .overflow

def isSignedWord (n : Int) : Bool := -2147483648 ≤ n && n < 2147483648

def signedMul (a b : Int32) : Except Fault Int32 :=
  if isSignedWord (a.toInt * b.toInt) then .ok (a * b) else .error .overflow

def signedNeg (a : Int32) : Except Fault Int32 :=
  if isSignedWord (-a.toInt) then .ok (-a) else .error .overflow

def signedProduct (factors : List Int32) : Except Fault Int32 :=
  factors.foldlM signedMul 1

end SysY

import SysY.Proofs.RiscV.Emission

/-!
# Frames on the stack

The objects of a frame are apart from each other, and the code of a function accesses each of them at
its own place. On the stack the frame is rounded up to sixteen bytes, with the return address in the
word at the top: no object reaches up to there.
-/

namespace SysY.RiscV

open Allocation Flow Tigger Tigger.Context

variable {k : Nat} {slots : Slots k} {registers : Vector (Option Register) k} {hasCalls : Bool}
  {frame : Frame k} {place : Object k → Option UInt32}

end SysY.RiscV

import SysY.Allocation.Coloring
import SysY.Log

/-!
# Registers for colours

Every colour in use gets a register of its own. Registers that spare a copy come first: a parameter
likes to stay in the register it arrives in, an argument to be where the call wants it, and a result
to be in `a0`. The other colours take what is left, in a function without calls the registers that
need not be saved first, and in a function with calls those that survive them.
-/

namespace SysY.Allocation

open Eeyore SysY.Flow

variable {n k : Nat}

abbrev Palette := Vector (Option Register) colorCount

namespace Palette

def none : Palette := Vector.replicate colorCount .none

def uses (palette : Palette) (register : Register) : Bool := palette.contains (some register)

def prefer (palette : Palette) (color : Color) (register : Register) : Palette :=
  if (palette.get color).isNone && !palette.uses register then put palette color (some register)
  else palette

def fill (palette : Palette) : List Color → List Register → Except Fault Palette
  | [], _ => .ok palette
  | _ :: _, [] => .error .paletteExhausted
  | color :: colors, register :: registers =>
    fill (put palette color (some register)) colors registers

end Palette

/-- The registers for colours without a preference, in order. -/
def registerOrder (hasCalls : Bool) : List Register :=
  if hasCalls then Register.savedOnes ++ (Register.temporaries ++ Register.arguments)
  else (Register.temporaries ++ Register.arguments) ++ Register.savedOnes

def parameterHints (parameters : UInt32) : List (Symbol × Register) :=
  (Register.arguments.take parameters.toNat).zipIdx.map fun (register, id) =>
    (.param (UInt32.ofNat id), register)

def instructionHints : Instruction → List (Symbol × Register)
  | .call _ arguments output =>
    output.toList.map (·, Register.a0) ++
    (arguments.zip Register.arguments).filterMap fun (argument, register) =>
      argument.symbol?.map (·, register)
  | .return (some (.symbol x)) => [(x, Register.a0)]
  | _ => []

/-- All preferences of a function, the most important ones first. -/
def hints (parameters : UInt32) (body : List Instruction) : List (Symbol × Register) :=
  parameterHints parameters ++ body.flatMap instructionHints

/-- The registers that preferences give to colours. -/
def preferred (slots : Slots k) (colors : Vector (Option Color) k)
    (hints : List (Symbol × Register)) : Palette :=
  hints.foldl
    (fun palette (symbol, register) =>
      match (slots.find? symbol).bind colors.get with
      | some color => palette.prefer color register
      | none => palette)
    Palette.none

def unpainted (colors : Vector (Option Color) k) (palette : Palette) : List Color :=
  (List.finRange colorCount).filter fun color =>
    colors.contains (some color) && (palette.get color).isNone

def paint (parameters : UInt32) (body : List Instruction) (slots : Slots k)
    (colors : Vector (Option Color) k) : Except Fault (Vector (Option Register) k) := do
  let palette := preferred slots colors (hints parameters body)
  let free := (registerOrder (body.any (·.isCall))).filter (!palette.uses ·)
  let palette ← palette.fill (unpainted colors palette) free
  return colors.map fun color => color.bind palette.get

def candidateRecords (weights : Vector Nat k) (removals : List (Removal k)) : List Record :=
  (removals.filter (·.isCandidate)).map fun removal =>
    let weight := weights.get removal.slot
    ⟨.trace, .coloring, s!"slot {removal.slot.val} is a spill candidate (weight {weight})"⟩

/-- The register of each slot; arrays have none, nor have slots that are spilled. -/
def assign (parameters : UInt32) (body : Vector Instruction n) (graph : Graph n) (slots : Slots k)
    (interference : Interference k) : Logged Fault (Vector (Option Register) k) := do
  let colorable := Vector.ofFn fun slot => !slots.isArray slot
  let weights := weights graph body slots
  let removals ← Logged.ofExcept (simplify interference colorable weights)
  Logged.tell (candidateRecords weights removals)
  let colors := select interference (removals.map (·.slot))
  Logged.ofExcept (paint parameters body.toList slots colors)

end SysY.Allocation

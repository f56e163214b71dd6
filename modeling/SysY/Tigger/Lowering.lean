import Std.Data.HashSet
import SysY.Allocation.Frame
import SysY.Allocation.Palette
import SysY.Tigger.ParallelMove

/-!
# From three-address code to register code

Each instruction becomes a sequence over the registers where its symbols live. What lives in memory
is read into a scratch register in front of its use and written back after its definition. Arguments
travel in `a0` to `a7` and the result in `a0`. A function preserves the `s` registers it uses, and
around a call it preserves the other registers whose values are needed afterwards. Instructions
whose result nobody reads are left out, unless they have an effect beyond it.
-/

namespace SysY.Tigger

open Eeyore (Value)
open SysY.Flow (Graph Slots Liveness Interference)
open Allocation (Home Frame)

variable {n k : Nat}

structure Context (n k : Nat) where
  name : String
  parameters : UInt32
  body : Vector Eeyore.Instruction n
  graph : Graph n
  slots : Slots k
  liveness : Liveness n k
  frame : Frame k
  arrays : Std.HashSet Symbol

namespace Context

/-- Where a symbol lives; a global one has no home. -/
def home? (ctx : Context n k) (symbol : Symbol) : Option Home :=
  (ctx.slots.find? symbol).bind ctx.frame.homes.get

/-- Whether nobody reads what a position gives to a symbol. -/
def isDeadAfter (ctx : Context n k) (p : Fin n) (symbol : Symbol) : Bool :=
  match ctx.slots.find? symbol with
  | some slot => !ctx.liveness.isLiveOut ctx.graph p slot
  | none => false

/-! ## Values -/

/-- The register that holds a symbol, and what brings it there; what lives in memory goes to
`scratch`. Reading an array gives its address. -/
def readSymbol (ctx : Context n k) (symbol : Symbol) (scratch : Register) :
    List Instruction × Register :=
  match ctx.home? symbol with
  | some (.register r) => ([], r)
  | some (.stack offset) => ([.stackLoad offset scratch], scratch)
  | some (.array offset) => ([.stackAddress offset scratch], scratch)
  | none =>
    let global : Global := ⟨symbol.id⟩
    if ctx.arrays.contains symbol then ([.globalAddress global scratch], scratch)
    else ([.globalLoad global scratch], scratch)

def read (ctx : Context n k) (value : Value) (scratch : Register) : List Instruction × Register :=
  match value with
  | .const c => if c = 0 then ([], .zero) else ([.constant scratch c], scratch)
  | .symbol x => ctx.readSymbol x scratch

def readInto (ctx : Context n k) (value : Value) (dest : Register) : List Instruction :=
  match value with
  | .const c => [.constant dest c]
  | .symbol x =>
    let (code, source) := ctx.readSymbol x dest
    if source = dest then code else code ++ [.move dest source]

/-- The register in which a new value of a symbol is computed. -/
def target (ctx : Context n k) (symbol : Symbol) (scratch : Register) : Register :=
  match ctx.home? symbol with
  | some (.register r) => r
  | _ => scratch

/-- Brings a new value of a symbol from a register to its home. -/
def commit (ctx : Context n k) (symbol : Symbol) (source : Register) :
    Except Fault (List Instruction) :=
  match ctx.home? symbol with
  | some (.register _) => .ok []
  | some (.stack offset) => .ok [.stackStore source offset]
  | some (.array _) => .error (.arrayAsScalar symbol)
  | none =>
    let address := source.otherScratch
    .ok [.globalAddress ⟨symbol.id⟩ address, .store address 0 source]

def address (ctx : Context n k) (array : Symbol) (index : Value) :
    List Instruction × Register × Int32 :=
  let (code, base) := ctx.readSymbol array .t0
  match index with
  | .const offset => (code, base, offset)
  | .symbol x =>
    let (indexCode, register) := ctx.readSymbol x .t1
    (code ++ indexCode ++ [.binary .t0 .add base (.register register)], .t0, 0)

/-! ## Instructions -/

def lowerUnary (ctx : Context n k) (dest : Symbol) (op : UnaryOp) (operand : Value) :
    Except Fault (List Instruction) := do
  let register := ctx.target dest .t0
  let written ← ctx.commit dest register
  match operand with
  | .const c => return .constant register (op.fold c) :: written
  | .symbol x =>
    let (code, source) := ctx.readSymbol x .t0
    return code ++ .unary register op source :: written

/-- An operation in the order in which only its second operand may be a constant, if there is one.
-/
def orient (op : BinaryOp) (left right : Value) : BinaryOp × Value × Value :=
  match left, op.swapped? with
  | .const _, some swapped => (swapped, right, left)
  | _, _ => (op, left, right)

def lowerBinary (ctx : Context n k) (dest : Symbol) (op : BinaryOp) (left right : Value) :
    Except Fault (List Instruction) := do
  if left.symbol?.isNone && right.symbol?.isNone then .error (.unfoldedConstants ctx.name)
  else
    let (op, left, right) := orient op left right
    let (leftCode, a) := ctx.read left .t0
    let (rightCode, b) := match right with
      | .const c => ([], Operand.immediate c)
      | .symbol x => (ctx.readSymbol x .t1).map id .register
    let register := ctx.target dest .t0
    let written ← ctx.commit dest register
    return leftCode ++ rightCode ++ .binary register op a b :: written

def lowerCopy (ctx : Context n k) (dest : Symbol) (value : Value) :
    Except Fault (List Instruction) := do
  let register := ctx.target dest .t0
  match value with
  | .const c => return .constant register c :: (← ctx.commit dest register)
  | .symbol x =>
    let (code, source) := ctx.readSymbol x register
    match ctx.home? dest with
    | some (.register _) =>
      return if source = register then code else code ++ [.move register source]
    | _ => return code ++ (← ctx.commit dest source)

def lowerStore (ctx : Context n k) (array : Symbol) (index value : Value) : List Instruction :=
  let (code, base, offset) := ctx.address array index
  let (valueCode, source) := ctx.read value .t1
  code ++ valueCode ++ [.store base offset source]

def lowerLoad (ctx : Context n k) (dest array : Symbol) (index : Value) :
    Except Fault (List Instruction) := do
  let (code, base, offset) := ctx.address array index
  let register := ctx.target dest .t1
  return code ++ .load register base offset :: (← ctx.commit dest register)

def lowerBranch (ctx : Context n k) (left : Value) (relation : Relation) (right : Value)
    (target : Label) : List Instruction :=
  let (leftCode, a) := ctx.read left .t0
  let (rightCode, b) := ctx.read right .t1
  leftCode ++ rightCode ++ [.branch a relation b target]

def lowerReturn (ctx : Context n k) (value : Option Value) : List Instruction :=
  let result := match value with
    | some value => ctx.readInto value .a0
    | none => []
  result ++ ctx.frame.saved.map (fun (register, offset) => .stackLoad offset register) ++ [.return]

/-- The registers to preserve around a call, with their offsets in the frame. The register that
receives the result is not among them. -/
def preserved (ctx : Context n k) (p : Fin n) (result : Option Register) :
    List (Register × UInt32) :=
  (ctx.liveness.liveOut ctx.graph p).filterMap fun slot =>
    match ctx.frame.homes.get slot with
    | some (.register r) =>
      if result = some r then none else (ctx.frame.spared.lookup r).map (r, ·)
    | _ => none

/-- The register where an argument already is. -/
def argumentSource? (ctx : Context n k) (argument : Value) : Option Register :=
  match argument.symbol?.bind ctx.home? with
  | some (.register r) => some r
  | _ => none

/-- Brings the arguments of a call to their registers: first those in registers, at once, then the
others. -/
def passArguments (ctx : Context n k) (arguments : List Value) :
    Except Fault (List Instruction) := do
  let targets := Register.arguments.zip arguments
  let moves := targets.filterMap fun (dest, argument) =>
    (ctx.argumentSource? argument).map (⟨dest, ·⟩)
  let loads := targets.filter fun (_, argument) => (ctx.argumentSource? argument).isNone
  let moved ← parallelMove .t0 moves
  return moved ++ loads.flatMap fun (dest, argument) => ctx.readInto argument dest

def receive (ctx : Context n k) (output : Option Symbol) : Except Fault (List Instruction) :=
  match output with
  | none => .ok []
  | some symbol =>
    match ctx.home? symbol with
    | some (.register r) => .ok (if r = .a0 then [] else [.move r .a0])
    | _ => ctx.commit symbol .a0

def lowerCall (ctx : Context n k) (p : Fin n) (function : String) (arguments : List Value)
    (output : Option Symbol) : Except Fault (List Instruction) := do
  if maxArguments < arguments.length then .error (.tooManyArguments function)
  else
    let output := output.filter (!ctx.isDeadAfter p ·)
    let result := output.bind fun symbol => ctx.argumentSource? (.symbol symbol)
    let preserved := ctx.preserved p result
    let passed ← ctx.passArguments arguments
    let received ← ctx.receive output
    return preserved.map (fun (register, offset) => .stackStore register offset) ++ passed ++
      .call function :: received ++
      preserved.map (fun (register, offset) => .stackLoad offset register)

/-- The code of an instruction whose result is read. -/
def lowerLive (ctx : Context n k) (p : Fin n) : Except Fault (List Instruction) :=
  match ctx.body.get p with
  | .unary dest op operand => ctx.lowerUnary dest op operand
  | .binary dest op left right => ctx.lowerBinary dest op left right
  | .copy dest value => ctx.lowerCopy dest value
  | .store array index value => .ok (ctx.lowerStore array index value)
  | .load dest array index => ctx.lowerLoad dest array index
  | .branch left relation right target => .ok (ctx.lowerBranch left relation right target)
  | .jump target => .ok [.jump target]
  | .label l => .ok [.label l]
  | .call function arguments output => ctx.lowerCall p function arguments output
  | .return value => .ok (ctx.lowerReturn value)

/-- Whether an instruction does nothing but define a symbol that nobody reads. -/
def isUseless (ctx : Context n k) (p : Fin n) : Bool :=
  !(ctx.body.get p).isCall && (ctx.body.get p).definition.any (ctx.isDeadAfter p)

def lowerInstruction (ctx : Context n k) (p : Fin n) : Except Fault (List Instruction) :=
  if ctx.isUseless p then .ok [] else ctx.lowerLive p

/-! ## Functions -/

/-- The parameters that are read, with the registers they arrive in and their homes. -/
def arrivals (ctx : Context n k) : List (UInt32 × Register × Home) :=
  (Register.arguments.take ctx.parameters.toNat).zipIdx.filterMap fun (source, id) => do
    let parameter := UInt32.ofNat id
    let slot ← ctx.slots.find? (.param parameter)
    let first ← Graph.firstPosition?
    let home ← ctx.frame.homes.get slot
    if ctx.liveness.isLiveIn first slot then some (parameter, source, home) else none

def spillArrival : UInt32 × Register × Home → Except Fault (List Instruction)
  | (_, _, .register _) => .ok []
  | (_, source, .stack offset) => .ok [.stackStore source offset]
  | (parameter, _, .array _) => .error (.parameterIsArray parameter)

def arrivalMove? : UInt32 × Register × Home → Option Move
  | (_, source, .register r) => some ⟨r, source⟩
  | _ => none

/-- What happens in front of the first instruction: registers are saved, and parameters go to their
homes. -/
def entry (ctx : Context n k) : Except Fault (List Instruction) := do
  let arrivals := ctx.arrivals
  let spilled ← arrivals.mapM spillArrival
  let moved ← parallelMove .t0 (arrivals.filterMap arrivalMove?)
  return ctx.frame.saved.map (fun (register, offset) => .stackStore register offset) ++
    spilled.flatten ++ moved

def lowerBody (ctx : Context n k) : Except Fault (List Instruction) := do
  let first ← if n = 0 then .ok [] else ctx.entry
  let rest ← (List.finRange n).mapM ctx.lowerInstruction
  return first ++ rest.flatten

end Context

def frameRecord (name : String) (registers : Vector (Option Register) k) (frame : Frame k) :
    Record :=
  let inRegisters := (registers.toList.filter Option.isSome).length
  ⟨.debug, .lowering,
    s!"f_{name}: {k} slots, {inRegisters} in registers, {frame.saved.length} saved registers, " ++
    s!"frame of {frame.size.toNat} words"⟩

/-- The code of a function; `arrange` decides in which order the neighbours of a slot are listed. -/
def lowerFunctionBy (arrange : ∀ {k : Nat}, Interference k → Interference k)
    (arrays : Std.HashSet Symbol) (function : Eeyore.Function) : Logged Fault Function := do
  if maxArguments < function.parameters.toNat then
    Logged.ofExcept (.error (.tooManyParameters function.name))
  else
    let body := function.body.toVector
    let graph ← Logged.ofExcept (Graph.ofBody function.name body)
    let slots := Slots.ofFunction function
    let liveness := Liveness.ofBody graph body slots
    let interference := arrange (Interference.ofLiveness liveness)
    let registers ← Allocation.assign function.parameters body graph slots interference
    let hasCalls := body.any (·.isCall)
    let frame ← Logged.ofExcept (Frame.ofRegisters function.parameters slots registers hasCalls)
    Logged.tell [frameRecord function.name registers frame]
    let ctx : Context _ _ :=
      ⟨function.name, function.parameters, body, graph, slots, liveness, frame, arrays⟩
    let code ← Logged.ofExcept ctx.lowerBody
    return ⟨function.name, function.parameters, frame.size, code⟩

def lowerFunction (arrays : Std.HashSet Symbol) (function : Eeyore.Function) :
    Logged Fault Function :=
  lowerFunctionBy id arrays function

/-- The declaration of a global symbol, which has to be a variable. -/
def lowerGlobal (decl : Eeyore.Decl) : Except Fault GlobalDecl :=
  match decl.symbol.kind with
  | .variable => .ok ⟨⟨decl.symbol.id⟩, decl.size⟩
  | _ => .error (.globalNotVariable decl.symbol)

def lower (program : Eeyore.Program) : Logged Fault Program := do
  let arrays := Std.HashSet.ofList
    ((program.globals.filter (·.size.isSome)).map (·.symbol))
  let globals ← Logged.ofExcept (program.globals.mapM lowerGlobal)
  let code ← program.code.mapM (lowerFunction arrays)
  return ⟨globals, code⟩

end SysY.Tigger

import SysY.Generation.Builder
import SysY.Tree.Formula

/-!
# Expressions

An expression of constants is computed at once and leaves no code. Any other expression becomes
instructions over new temporaries, in the order of its operands. `&&` and `||` evaluate their right
operand only if the left one does not decide them. A condition of a jump is not computed as a value
if it can be split into jumps.
-/

namespace SysY.Generation

open Eeyore SysY.Tree

structure Signature where
  returns : ReturnType
  arity : Nat
deriving DecidableEq

abbrev Signatures := List (String × Signature)

/-- Where a named value is, after its indices are evaluated. -/
inductive Resolved
  | constant (value : Int32)
  | scalar (symbol : Symbol)
  | pointer (address : Value)
  | element (array : Symbol) (index : Value)
deriving DecidableEq

/-- What is known about a conditional jump. -/
inductive Jumping
  | always | never | maybe
deriving DecidableEq, Repr

def operation : BinaryOperator → BinaryOp
  | .add => .add
  | .sub => .sub
  | .mul => .mul
  | .div => .div
  | .rem => .rem
  | .less => .lt
  | .greater => .gt
  | .lessOrEqual => .le
  | .greaterOrEqual => .ge
  | .equal => .eq
  | .notEqual => .ne
  | .and => .and
  | .or => .or

/-! ## Operations -/

def applyUnary (op : UnaryOp) : Value → Build Value
  | .const c => return .const (op.fold c)
  | .symbol x => do
    let dest ← newTemp
    push (.unary dest op (.symbol x))
    return .symbol dest

def applyOperator (operator : UnaryOperator) (operand : Value) : Build Value :=
  match operator with
  | .plus => return operand
  | .minus => applyUnary .neg operand
  | .not => applyUnary .not operand

/-- The value of an operation on two operands; `location` is that of the whole expression. -/
def applyBinary (op : BinaryOp) (left right : Value) (location : Location) : Build Value :=
  match left, right with
  | .const a, .const b =>
    match op.fold a b with
    | some c => return .const c
    | none => reject .divisionByZero location
  | _, _ => do
    let dest ← newTemp
    push (.binary dest op left right)
    return .symbol dest

def scale (value : Value) (factor : Int32) (location : Location) : Build Value :=
  if factor = 1 then return value else applyBinary .mul value (.const factor) location

/-- Gives a symbol the truth value of a value. -/
def truthInto (dest : Symbol) : Value → Build Unit
  | .const c => push (.copy dest (.const (truth (c ≠ 0))))
  | .symbol x => push (.binary dest .ne (.symbol x) (.const 0))

/-- Writes a call. The functions that measure time get the line of the call as a further argument.
-/
def emitCall (function : String) (returns : ReturnType) (arguments : List Value)
    (location : Location) : Build (Option Symbol) := do
  let line : Value := .const (Int32.ofNat location.start.line)
  let arguments := if isTiming function then arguments ++ [line] else arguments
  match returns with
  | .int =>
    let output ← newTemp
    push (.call function arguments (some output))
    return some output
  | .void =>
    push (.call function arguments none)
    return none

/-- Calls a function, which has to exist and to take so many arguments, before it evaluates them.
The result is the symbol that receives the value, if there is one. -/
def callWith (signatures : Signatures) (function : Name) (count : Nat) (location : Location)
    (arguments : Build (List Value)) : Build (Option Symbol) :=
  match signatures.lookup function.value with
  | none => reject (.undefined function.value) function.location
  | some signature =>
    if count ≠ signature.arity then
      reject (.wrongArity function.value signature.arity count) location
    else do
      emitCall function.value signature.returns (← arguments) location

/-! ## Places -/

/-- Whether a name can be used with so many indices, and be written to. -/
def checkAccess (name : Name) (meaning : Meaning) (indices : Nat) (write : Bool) : Build Unit :=
  if meaning.dimensions.length < indices then reject (.tooManyIndices name.value) name.location
  else if write && meaning.values.isSome then reject (.assignToConstant name.value) name.location
  else if write && indices < meaning.dimensions.length then
    reject (.assignToArray name.value) name.location
  else return ()

/-- The element of a constant array at an offset in bytes. -/
def constantElement (name : Name) (values : Array Int32) (offset : Int32) : Build Resolved :=
  let index := offset / wordSize
  match if index < 0 then none else values[index.toNatClampNeg]? with
  | some value => return .constant value
  | none => reject (.indexOutOfBounds name.value index) name.location

def resolveName (meaning : Meaning) : Build Resolved :=
  if !meaning.dimensions.isEmpty then return .pointer (.symbol meaning.symbol)
  else match meaning.values with
    | none => return .scalar meaning.symbol
    | some values => match values[0]? with
      | some value => return .constant value
      | none => checked (.error .outOfBounds)

/-- The place of a name with so many indices, which give an offset in bytes. -/
def resolveOffset (name : Name) (meaning : Meaning) (indices : Nat) (offset : Value) :
    Build Resolved :=
  if indices < meaning.dimensions.length then
    return .pointer (← applyBinary .add (.symbol meaning.symbol) offset name.location)
  else match offset, meaning.values with
    | .const offset, some values => constantElement name values offset
    | _, _ => return .element meaning.symbol offset

/-- The bytes from one element to the next one that indices can select. -/
def stride (dimensions : List Int32) (indices : Nat) : Except Fault Int32 := do
  signedMul (← signedProduct (dimensions.drop indices)) wordSize

/-- Where a name with so many indices is; `position` evaluates the indices for given dimensions. -/
def resolveWith (name : Name) (indices : Nat) (write : Bool)
    (position : List Int32 → Build (Option Value)) : Build Resolved := do
  let meaning ← lookupName name
  checkAccess name meaning indices write
  match ← position meaning.dimensions with
  | none => resolveName meaning
  | some index =>
    let factor ← checked (stride meaning.dimensions indices)
    resolveOffset name meaning indices (← scale index factor name.location)

def readResolved : Resolved → Build Value
  | .constant value => return .const value
  | .scalar symbol => return .symbol symbol
  | .pointer address => return address
  | .element array index => do
    let dest ← newTemp
    push (.load dest array index)
    return .symbol dest

/-! ## Values -/

mutual

/-- The value of a formula; `location` is that of the whole expression. -/
def eval (signatures : Signatures) (location : Location) : Formula → Build Value
  | .literal value => return .const value
  | .read name indices => do
    readResolved (← resolveWith name indices.length false fun dimensions =>
      evalPosition signatures name.location dimensions indices)
  | .call function arguments place => do
    match ← callWith signatures function arguments.length place (evalAll signatures arguments) with
    | some output => return .symbol output
    | none => reject (.voidValue function.value) place
  | .unary operator operand => do
    applyOperator operator (← eval signatures location operand)
  | .binary operator left right => do
    let a ← eval signatures location left
    let b ← eval signatures location right
    applyBinary (operation operator) a b location
  | .logic connective left right => do
    match ← eval signatures location left with
    | .const c =>
      if decide (c ≠ 0) = decide (connective = .and) then
        applyBinary .ne (← eval signatures location right) (.const 0) location
      else return .const (truth (c ≠ 0))
    | .symbol x =>
      let result ← newTemp
      let done ← newLabel
      truthInto result (.symbol x)
      push (.branch (.symbol result) (if connective = .and then .eq else .ne) (.const 0) done)
      truthInto result (← eval signatures location right)
      push (.label done)
      return .symbol result
  | .malformed fault => checked (.error fault)

def evalAll (signatures : Signatures) : Formulas → Build (List Value)
  | .nil => return []
  | .cons formula location rest => do
    let value ← eval signatures location formula
    return value :: (← evalAll signatures rest)

/-- The position that indices select in an array, if there are any. -/
def evalPosition (signatures : Signatures) (location : Location) (dimensions : List Int32) :
    Formulas → Build (Option Value)
  | .nil => return none
  | .cons formula place rest => do
    let first ← eval signatures place formula
    return some (← addIndices signatures location (dimensions.drop 1) first rest)

/-- The position that further indices select: each dimension scales the position so far and adds its
own index. -/
def addIndices (signatures : Signatures) (location : Location) (dimensions : List Int32)
    (position : Value) : Formulas → Build Value
  | .nil => return position
  | .cons formula place rest =>
    match dimensions with
    | [] => return position
    | dimension :: dimensions => do
      let scaled ← scale position dimension location
      let index ← eval signatures place formula
      let position ← applyBinary .add scaled index location
      addIndices signatures location dimensions position rest

end

def call (signatures : Signatures) (function : Name) (arguments : Formulas) (location : Location) :
    Build (Option Symbol) :=
  callWith signatures function arguments.length location (evalAll signatures arguments)

def resolve (signatures : Signatures) (name : Name) (indices : Formulas) (write : Bool) :
    Build Resolved :=
  resolveWith name indices.length write fun dimensions =>
    evalPosition signatures name.location dimensions indices

def evalExpr (signatures : Signatures) (expr : Expr) : Build Value :=
  eval signatures expr.location expr.formula

def evalConstant (signatures : Signatures) (expr : Expr) : Build Int32 := do
  match ← evalExpr signatures expr with
  | .const c => return c
  | .symbol _ => reject .notConstant expr.location

/-- Evaluates an expression for its effects. A call that stands alone need not return a value. -/
def discard (signatures : Signatures) (expr : Expr) : Build Unit :=
  match expr.formula with
  | .call function arguments location => do
    let _ ← call signatures function arguments location
  | formula => do
    let _ ← eval signatures expr.location formula

/-! ## Jumps -/

/-- The comparison that the last instruction computes into a symbol. -/
def lastComparison? (code : Code) (symbol : Symbol) : Option (Value × Relation × Value) :=
  match code.body.back? with
  | some (.binary dest op left right) =>
    if dest = symbol then op.relation?.map fun relation => (left, relation, right) else none
  | _ => none

/-- Takes back the last instruction, and the declaration of its destination if that was the last
one. -/
def Code.takeBack (code : Code) (symbol : Symbol) : Except Fault Code :=
  if code.decls.back?.map (·.symbol) = some symbol then do
    let temps ← checkedPred code.temps
    return ⟨code.body.pop, code.decls.pop, temps⟩
  else return { code with body := code.body.pop }

/-- Jumps if a value has the truth value `wanted`. A comparison that was just computed becomes part
of the jump. -/
def jumpIf (value : Value) (wanted : Bool) (target : Label) : Build Jumping := do
  match value with
  | .const c =>
    if decide (c ≠ 0) = wanted then
      push (.jump target)
      return .always
    else return .never
  | .symbol x =>
    let builder ← get
    match lastComparison? builder.code x with
    | some (left, relation, right) =>
      let code ← checked (builder.code.takeBack x)
      set { builder with code := code }
      push (.branch left (if wanted then relation else relation.negate) right target)
    | none =>
      push (.branch (.symbol x) (if wanted then .ne else .eq) (.const 0) target)
    return .maybe

/-- Jumps if a condition has the truth value `wanted`. -/
def branch (signatures : Signatures) (location : Location) (wanted : Bool) (target : Label) :
    Formula → Build Jumping
  | .unary .not operand => branch signatures location (!wanted) target operand
  | .logic connective left right =>
    if decide (connective = .or) = wanted then do
      -- either operand may jump
      match ← branch signatures location wanted target left with
      | .always => return .always
      | .never => branch signatures location wanted target right
      | .maybe =>
        match ← branch signatures location wanted target right with
        | .always => return .always
        | _ => return .maybe
    else do
      -- both operands have to agree
      let skip ← newLabel
      let jumping ← do
        match ← branch signatures location (!wanted) skip left with
        | .always => pure Jumping.never
        | .never => branch signatures location wanted target right
        | .maybe =>
          match ← branch signatures location wanted target right with
          | .never => pure .never
          | _ => pure .maybe
      push (.label skip)
      return jumping
  | formula => do
    jumpIf (← eval signatures location formula) wanted target

def branchExpr (signatures : Signatures) (condition : Expr) (wanted : Bool) (target : Label) :
    Build Jumping :=
  branch signatures condition.location wanted target condition.formula

end SysY.Generation

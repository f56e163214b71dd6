import SysY.Generation.Program
import SysY.Optimization.Optimizer
import SysY.RiscV.Selection
import SysY.Tigger.Lowering
import SysY.Token.Lexer
import SysY.Tree.Parser

/-!
# The compiler

A source becomes tokens, a tree, three-address code, register code and assembly. Every stage can
reject it, and the problems of the first stage that does make up the report. The compiler can stop
at each of the last three languages and write the program down.
-/

namespace SysY

/-! ## Reports -/

namespace Diagnostics

def ofLexical (errors : List (Located LexicalError)) : Diagnostics :=
  ⟨.lexical, errors.map fun error => ⟨error.value.message, error.location⟩⟩

def ofGrammatical (error : Located GrammarError) : Diagnostics :=
  ⟨.grammatical, [⟨error.value.message, error.location⟩]⟩

def ofSemantic (error : Located SemanticError) : Diagnostics :=
  ⟨.semantic, [⟨error.value.message, error.location⟩]⟩

end Diagnostics

inductive Failure
  | report (diagnostics : Diagnostics)
  | fault (cause : Fault)
deriving DecidableEq

def Rejection.failure : Rejection → Failure
  | .semantic error => .report (.ofSemantic error)
  | .fault cause => .fault cause

/-! ## Stages -/

def parseSource (stream : Stream) : Except Diagnostics Tree.Program := do
  let tokens ← (Lexer.tokens stream).mapError .ofLexical
  (Tree.Program.ofTokens tokens).mapError .ofGrammatical

def generateCode (program : Tree.Program) : Logged Failure Eeyore.Program :=
  (Generation.generate program).mapError Rejection.failure

inductive Form
  | eeyore | tigger | assembly
deriving DecidableEq, Repr

def Form.text : Form → String
  | .eeyore => "Eeyore"
  | .tigger => "Tigger"
  | .assembly => "Assembly"

def improve (optimized : Bool) (program : Eeyore.Program) : Logged Fault Eeyore.Program :=
  if optimized then Optimization.optimize program else return program

def emit (form : Form) (optimized : Bool) (program : Eeyore.Program) : Logged Fault String := do
  let program ← improve optimized program
  match form with
  | .eeyore => Logged.ofExcept program.text
  | .tigger => Logged.ofExcept (← Tigger.lower program).text
  | .assembly =>
    let lines ← Logged.ofExcept (RiscV.assemble (← Tigger.lower program)).whole
    return RiscV.linesText lines

end SysY

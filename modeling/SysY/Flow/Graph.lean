import SysY.Eeyore
import SysY.Fault
import SysY.Flow.Search

/-!
# Flow graphs

The flow graph of a function has its positions as nodes. A jump leads to the position of its label,
and every instruction but an unconditional jump leads to the next position, too. The loop depth of a
position estimates how many loops enclose it: it is the number of edges that lead back over it.
-/

namespace SysY.Flow

open Eeyore

variable {n : Nat}

/-! ## Edges -/

/-- The position that sets a label; of several, the last one. -/
def labelPosition? (body : Vector Instruction n) (label : Label) : Option (Fin n) :=
  (List.finRange n).reverse.find? fun p => body.get p = .label label

def following (p : Fin n) : List (Fin n) :=
  if h : p.val + 1 < n then [⟨p.val + 1, h⟩] else []

def targets (body : Vector Instruction n) (p : Fin n) : List (Fin n) :=
  let jumps := ((body.get p).target?.bind (labelPosition? body)).toList
  match body.get p with
  | .jump _ => jumps
  | _ => jumps ++ following p

/-- The first label that a jump goes to and that no position sets. -/
def undefinedTarget? (body : Vector Instruction n) : Option Label :=
  body.toList.findSome? fun instruction =>
    instruction.target?.filter fun label => (labelPosition? body label).isNone

/-! ## Graphs -/

structure Graph (n : Nat) where
  successors : Vector (List (Fin n)) n
  predecessors : Vector (List (Fin n)) n
deriving DecidableEq

namespace Graph

/-- The edges in the order of the positions they leave. -/
def edgesOf (next : Fin n → List (Fin n)) : List (Fin n × Fin n) :=
  (List.finRange n).flatMap fun p => (next p).map fun q => (p, q)

def ofSuccessors (next : Fin n → List (Fin n)) : Graph n where
  successors := Vector.ofFn next
  predecessors := grouped ((edgesOf next).map fun edge => (edge.2, edge.1))

/-- The graph of a list of instructions, all of whose jumps have to find their labels. -/
def ofBody (name : String) (body : Vector Instruction n) : Except Fault (Graph n) :=
  match undefinedTarget? body with
  | some label => .error (.undefinedLabel label name)
  | none => .ok (ofSuccessors (targets body))

def edges (graph : Graph n) : List (Fin n × Fin n) := edgesOf graph.successors.get

def firstPosition? : Option (Fin n) := if h : 0 < n then some ⟨0, h⟩ else none

/-- The positions that can be reached from the entry, in the order of a depth-first search. -/
def preorder (graph : Graph n) : List (Fin n) := visit graph.successors.get firstPosition?.toList

def reachable (graph : Graph n) : NodeSet n := .ofList graph.preorder

/-! ## Loops -/

def backEdges (graph : Graph n) : List (Fin n × Fin n) :=
  graph.edges.filter fun edge => edge.2 < edge.1

def addAt (row : Vector Int n) (p : Fin n) (amount : Int) : Vector Int n :=
  put row p (row.get p + amount)

/-- By how much the loop depth of each position differs from that of the one in front of it. -/
def depthChanges (graph : Graph n) : Vector Int (n + 1) :=
  graph.backEdges.foldl (fun changes edge =>
    addAt (addAt changes edge.2.castSucc 1) edge.1.succ (-1))
    (Vector.replicate (n + 1) 0)

/-- The sums of the beginnings of a list, from a first summand on. -/
def runningSums (total : Int) : List Int → List Int
  | [] => []
  | x :: xs => (total + x) :: runningSums (total + x) xs

/-- How many edges lead back over each position. -/
def loopDepths (graph : Graph n) : Vector Nat n :=
  let sums := (runningSums 0 graph.depthChanges.toList).toArray
  Vector.ofFn fun p => (sums.getD p.val 0).toNat

end Graph

end SysY.Flow

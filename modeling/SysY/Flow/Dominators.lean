import SysY.Flow.Graph

/-!
# Dominators

A position dominates another one if every way from the entry to the other one passes it. The
dominators of a position form a chain; the last of them in front of the position itself is its
immediate dominator, and the immediate dominators form a tree with the entry as root.

The tree is found by the method of Lengauer and Tarjan. A depth-first search numbers the positions.
Then the positions are swept against that order. For each one the sweep finds its semidominator, the
lowest position that leads to it through higher ones only, and leaves it waiting there until the
positions between the two have been swept, too. A forest over the swept positions answers which one
between a position and the unswept ones has the lowest semidominator.
-/

namespace SysY.Flow

variable {n : Nat}

/-! ## Numbering -/

/-- The nodes that a depth-first search comes to, in order and each with the one it comes from. The
stack holds the nodes on the way to where the search is, with the edges that they have left. -/
def spanFrom (next : Fin n → List (Fin n)) (stack : List (Fin n × List (Fin n))) (seen : NodeSet n) :
    List (Fin n × Fin n) :=
  match stack with
  | [] => []
  | (_, []) :: below => spanFrom next below seen
  | (p, q :: rest) :: below =>
    if _h : seen.get q = true then spanFrom next ((p, rest) :: below) seen
    else (q, p) :: spanFrom next ((q, next q) :: (p, rest) :: below) (seen.add q)
termination_by (seen.room, stack.length + (stack.map (·.2)).flatten.length)
decreasing_by
  · exact Prod.Lex.right _ (by simp)
  · exact Prod.Lex.right _ (by simp)
  · exact Prod.Lex.left _ _ (NodeSet.room_add_lt _h)

/-- A row with the elements of a list put in their places. -/
def putAll {α : Type} (row : Vector α n) (entries : List (Fin n × α)) : Vector α n :=
  entries.foldl (fun row entry => put row entry.1 entry.2) row

/-- The positions in the order of a depth-first search, with the place of each one in that order and
the position it is come to from. A position that is not come to has the number `n`. -/
structure Numbering (n : Nat) where
  order : List (Fin n)
  number : Vector Nat n
  parent : Vector (Fin n) n

def Graph.numberFrom (graph : Graph n) (root : Fin n) : Numbering n :=
  let found :=
    spanFrom graph.successors.get [(root, graph.successors.get root)] (NodeSet.none.add root)
  let order := root :: found.map (·.1)
  { order
    number := putAll (Vector.replicate n n) order.zipIdx
    parent := putAll (Vector.replicate n root) found }

/-! ## The forest of swept positions -/

/-- Trees over the positions. Every position but the roots has an ancestor; its label is the position
of least rank from it up to, but without, the ancestor. -/
structure Forest (n : Nat) where
  ancestor : Vector (Option (Fin n)) n
  label : Vector (Fin n) n

namespace Forest

def scattered : Forest n := ⟨Vector.replicate n none, Vector.ofFn id⟩

/-- Makes a root the child of another position. -/
def link (forest : Forest n) (parent child : Fin n) : Forest n :=
  { forest with ancestor := put forest.ancestor child (some parent) }

/-- The positions from `v` up whose ancestors are not roots, in at most so many steps. -/
def path (forest : Forest n) : (steps : Nat) → (v : Fin n) → List (Fin n)
  | 0, _ => []
  | steps + 1, v =>
    match forest.ancestor.get v with
    | none => []
    | some a => if (forest.ancestor.get a).isNone then [] else v :: forest.path steps a

/-- Replaces the ancestor of a position by its ancestor's. -/
def shorten (rank : Fin n → Nat) (v : Fin n) (forest : Forest n) : Forest n :=
  match forest.ancestor.get v with
  | none => forest
  | some a =>
    let best := if rank (forest.label.get a) < rank (forest.label.get v) then forest.label.get a
      else forest.label.get v
    { ancestor := put forest.ancestor v (forest.ancestor.get a)
      label := put forest.label v best }

/-- Makes a root the ancestor of `v` and of all positions on the way to it. -/
def compress (rank : Fin n → Nat) (forest : Forest n) (v : Fin n) : Forest n :=
  (forest.path n v).foldr (shorten rank) forest

/-- The position of least rank from `v` up to, but without, the root. A root gives itself. -/
def eval (rank : Fin n → Nat) (forest : Forest n) (v : Fin n) : Fin n × Forest n :=
  if (forest.ancestor.get v).isNone then (v, forest)
  else
    let compressed := forest.compress rank v
    (compressed.label.get v, compressed)

end Forest

/-! ## The sweep -/

/-- What a sweep has found: the semidominators of the swept positions, the positions that wait at
their semidominators, and of those that have waited the immediate dominator, or one in front of them
with the same immediate dominator. A position that is not swept counts as its own semidominator. -/
structure Sweep (n : Nat) where
  semi : Vector (Fin n) n
  forest : Forest n
  waiting : Vector (List (Fin n)) n
  idom : Vector (Option (Fin n)) n

namespace Sweep

def start : Sweep n :=
  { semi := Vector.ofFn id
    forest := .scattered
    waiting := Vector.replicate n []
    idom := Vector.replicate n none }

def rank (number : Vector Nat n) (sweep : Sweep n) (v : Fin n) : Nat := number.get (sweep.semi.get v)

/-- Lowers the semidominator of `w` as far as its predecessor `v` demands. -/
def lower (number : Vector Nat n) (w : Fin n) (sweep : Sweep n) (v : Fin n) : Sweep n :=
  let (u, forest) := sweep.forest.eval (sweep.rank number) v
  let semi := if sweep.rank number u < sweep.rank number w then sweep.semi.get u
    else sweep.semi.get w
  { sweep with forest, semi := put sweep.semi w semi }

/-- Lets `w` wait at its semidominator, and hangs it under its parent. -/
def enqueue (parent w : Fin n) (sweep : Sweep n) : Sweep n :=
  let semi := sweep.semi.get w
  { sweep with
    waiting := put sweep.waiting semi (sweep.waiting.get semi ++ [w])
    forest := sweep.forest.link parent w }

/-- Ends the waiting of `v` at a position. -/
def settle (number : Vector Nat n) (semi : Fin n) (sweep : Sweep n) (v : Fin n) : Sweep n :=
  let (u, forest) := sweep.forest.eval (sweep.rank number) v
  let dominator := if sweep.rank number u < sweep.rank number v then u else semi
  { sweep with forest, idom := put sweep.idom v (some dominator) }

def settleAll (number : Vector Nat n) (semi : Fin n) (sweep : Sweep n) : Sweep n :=
  (sweep.waiting.get semi).foldl (settle number semi)
    { sweep with waiting := put sweep.waiting semi [] }

def step (graph : Graph n) (numbering : Numbering n) (w : Fin n) (sweep : Sweep n) : Sweep n :=
  let parent := numbering.parent.get w
  let lowered := (graph.predecessors.get w).foldl (lower numbering.number w) sweep
  (lowered.enqueue parent w).settleAll numbering.number parent

/-- Takes over the immediate dominator of the position that stands for it. -/
def resolve (semi : Vector (Fin n) n) (idom : Vector (Option (Fin n)) n) (w : Fin n) :
    Vector (Option (Fin n)) n :=
  match idom.get w with
  | none => idom
  | some dominator =>
    if dominator = semi.get w then idom else put idom w (idom.get dominator)

end Sweep

/-! ## The tree -/

/-- The immediate dominator of every position but the entry, and the positions that each one
immediately dominates. -/
structure DominatorTree (n : Nat) where
  idom : Vector (Option (Fin n)) n
  children : Vector (List (Fin n)) n
deriving DecidableEq

namespace Graph

def immediateDominators (graph : Graph n) (numbering : Numbering n) : Vector (Option (Fin n)) n :=
  let swept := numbering.order.tail.foldr (Sweep.step graph numbering) .start
  numbering.order.tail.foldl (Sweep.resolve swept.semi) swept.idom

/-- The dominator tree. Every position has to be reachable. -/
def dominatorTree (graph : Graph n) : Except Fault (DominatorTree n) :=
  match firstPosition? with
  | none => .ok { idom := Vector.replicate n none, children := Vector.replicate n [] }
  | some root =>
    let numbering := graph.numberFrom root
    match (List.finRange n).find? fun p => numbering.number.get p = n with
    | some p => .error (.unreachableInstruction p)
    | none =>
      let idom := graph.immediateDominators numbering
      let pairs := numbering.order.filterMap fun p =>
        (idom.get p).map fun dominator => (dominator, p)
      .ok { idom := idom, children := grouped pairs }

end Graph

namespace DominatorTree

/-- Whether `a` is among the first `steps` positions of the chain from `b` to the root. -/
def dominatesWithin (tree : DominatorTree n) (a : Fin n) : (steps : Nat) → (b : Fin n) → Bool
  | 0, _ => false
  | steps + 1, b =>
    a == b || match tree.idom.get b with
      | none => false
      | some dominator => tree.dominatesWithin a steps dominator

/-- Whether `a` dominates `b`. A chain has no more positions than the function. -/
def dominates (tree : DominatorTree n) (a b : Fin n) : Bool := tree.dominatesWithin a n b

end DominatorTree

end SysY.Flow

/-!
# Searching a finite graph

The nodes of a graph are the numbers below `n`. `visit` is the one search that everything else here
is built on: it follows the edges given by `next` depth first and lists every node it meets once, in
the order of meeting. `grouped` files labelled values under their labels and keeps their order.
Whatever is known about every node is a row, a vector with an element for each of them.
-/

namespace SysY.Flow

variable {n : Nat} {α : Type}

def put (row : Vector α n) (p : Fin n) (a : α) : Vector α n := row.set p.val a p.isLt

theorem get_eq_getElem (row : Vector α n) (p : Fin n) : row.get p = getElem row p.val p.isLt := rfl

@[simp] theorem get_put_self (row : Vector α n) (p : Fin n) (a : α) : (put row p a).get p = a := by
  rw [get_eq_getElem, put, Vector.getElem_set_self]

theorem get_put_of_ne (row : Vector α n) {p q : Fin n} (a : α) (h : p ≠ q) :
    (put row p a).get q = row.get q := by
  rw [get_eq_getElem, put, Vector.getElem_set_ne _ _ fun hval => h (Fin.ext hval)]
  rfl

/-- A set of nodes, as the truth value of membership. -/
abbrev NodeSet (n : Nat) := Vector Bool n

namespace NodeSet

def none : NodeSet n := Vector.replicate n false

def add (set : NodeSet n) (p : Fin n) : NodeSet n := put set p true

def ofList (nodes : List (Fin n)) : NodeSet n := nodes.foldl add none

@[simp] theorem get_none (p : Fin n) : (none : NodeSet n).get p = false := by
  simp [none, get_eq_getElem]

theorem get_add (set : NodeSet n) (p q : Fin n) :
    (set.add p).get q = true ↔ q = p ∨ set.get q = true := by
  by_cases h : p = q
  · subst h
    simp [add]
  · rw [add, get_put_of_ne _ _ h]
    simp [Ne.symm h]

def room (set : NodeSet n) : Nat := set.count false

theorem room_add (set : NodeSet n) (p : Fin n) :
    (set.add p).room = set.room - if set.get p = true then 0 else 1 := by
  rw [get_eq_getElem, room, add, put, Vector.count_set, room]
  cases getElem set p.val p.isLt <;> rfl

theorem room_add_lt {set : NodeSet n} {p : Fin n} (h : ¬ set.get p = true) :
    (set.add p).room < set.room := by
  have hmem : false ∈ set := by
    have hget : set.get p = false := by
      cases hp : set.get p with
      | false => rfl
      | true => exact absurd hp h
    exact hget ▸ Vector.getElem_mem p.isLt
  have hpos : 0 < set.room := Vector.count_pos_iff.2 hmem
  rw [room_add, if_neg h]
  omega

theorem room_add_le (set : NodeSet n) (p : Fin n) : (set.add p).room ≤ set.room := by
  rw [room_add]
  exact Nat.sub_le _ _

end NodeSet

/-- The nodes met from `pending` on, depth first, without those in `seen`. -/
def visitFrom (next : Fin n → List (Fin n)) (pending : List (Fin n)) (seen : NodeSet n) :
    List (Fin n) :=
  match pending with
  | [] => []
  | p :: rest =>
    if _h : seen.get p = true then visitFrom next rest seen
    else p :: visitFrom next (next p ++ rest) (seen.add p)
termination_by (seen.room, pending.length)
decreasing_by
  · exact Prod.Lex.right _ (Nat.lt_succ_self _)
  · exact Prod.Lex.left _ _ (NodeSet.room_add_lt _h)

def visit (next : Fin n → List (Fin n)) (start : List (Fin n)) : List (Fin n) :=
  visitFrom next start .none

/-- Files a value in front of those with its label. -/
def file (pair : Fin n × α) (groups : Vector (List α) n) : Vector (List α) n :=
  put groups pair.1 (pair.2 :: groups.get pair.1)

def grouped (pairs : List (Fin n × α)) : Vector (List α) n :=
  pairs.foldr file (Vector.replicate n [])

theorem get_grouped (pairs : List (Fin n × α)) (i : Fin n) :
    (grouped pairs).get i = (pairs.filter (·.1 = i)).map (·.2) := by
  induction pairs with
  | nil => simp [grouped, get_eq_getElem]
  | cons pair pairs ih =>
    have hstep : grouped (pair :: pairs) = file pair (grouped pairs) := rfl
    by_cases h : pair.1 = i
    · subst h
      rw [hstep, file, get_put_self, ih, List.filter_cons_of_pos (by simp), List.map_cons]
    · rw [hstep, file, get_put_of_ne _ _ h, ih, List.filter_cons_of_neg (by simpa using h)]

end SysY.Flow

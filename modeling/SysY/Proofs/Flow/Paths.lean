import SysY.Proofs.Flow.Edges

/-!
# Paths

A path is told by its positions, each of which has an edge to the next one. Searches meet a position
exactly if some path leads to it.
-/

namespace SysY.Flow

variable {n : Nat}

/-- The positions of a path from the first to the last. -/
inductive Path (next : Fin n → List (Fin n)) : Fin n → Fin n → List (Fin n) → Prop
  | single (p : Fin n) : Path next p p [p]
  | cons {p q r : Fin n} {path : List (Fin n)} :
    q ∈ next p → Path next q r path → Path next p r (p :: path)

namespace Path

variable {next : Fin n → List (Fin n)} {p q r : Fin n} {path : List (Fin n)}

theorem ne_nil (h : Path next p q path) : path ≠ [] := by
  cases h <;> exact List.cons_ne_nil _ _

theorem first_mem (h : Path next p q path) : p ∈ path := by
  cases h <;> exact List.mem_cons_self

theorem concat (h : Path next p q path) (hr : r ∈ next q) : Path next p r (path ++ [r]) := by
  induction h with
  | single p => exact .cons hr (.single r)
  | cons hq _ ih => exact .cons hq (ih hr)

theorem forall_dropLast_cons (h : Path next q r path) {property : Fin n → Prop} :
    (∀ a ∈ (p :: path).dropLast, property a) ↔ property p ∧ ∀ a ∈ path.dropLast, property a := by
  rw [List.dropLast_cons_of_ne_nil h.ne_nil, List.forall_mem_cons]

end Path

end SysY.Flow

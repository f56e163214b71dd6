import SysY.Generation.Initializer
import SysY.Proofs.Generation.Pricing

/-!
# Distribution of initializers

The cells of an array make up the whole array, and their values are the expressions of the
initializer in order: a nested list fills exactly the subarray that begins where it stands, since
subarrays of one kind follow each other without a gap.
-/

namespace SysY.Generation

open SysY.Tree List

variable {dimensions subarray : List Nat} {position : Nat} {cells : List Cell}

/-! ## Subarrays -/

theorem extent_dvd {inner : List Nat} (h : inner <:+ dimensions) :
    extent inner ∣ extent dimensions := by
  obtain ⟨outer, rfl⟩ := h
  induction outer with
  | nil => exact Nat.dvd_refl _
  | cons dimension outer ih => exact Nat.dvd_trans ih (Nat.dvd_mul_left _ _)

theorem subarrayAt?_eq_some (h : subarrayAt? position dimensions = some subarray) :
    subarray ≠ [] ∧ subarray <:+ dimensions ∧ extent subarray ∣ position := by
  induction dimensions with
  | nil => cases h
  | cons dimension dimensions ih =>
    rw [subarrayAt?] at h
    split at h
    · rename_i hbegins
      cases h
      exact ⟨cons_ne_nil _ _, suffix_refl _, Nat.dvd_of_mod_eq_zero hbegins⟩
    · obtain ⟨hne, hsuf, hdvd⟩ := ih h
      exact ⟨hne, hsuf.trans (suffix_cons _ _), hdvd⟩

theorem subarray_le (h : subarrayAt? position dimensions.tail = some subarray)
    (hpos : position < extent dimensions) : position + extent subarray ≤ extent dimensions := by
  obtain ⟨_, hsuf, j, hj⟩ := subarrayAt?_eq_some h
  obtain ⟨k, hk⟩ := extent_dvd (hsuf.trans (tail_suffix _))
  rw [hj, hk] at hpos ⊢
  rw [← Nat.mul_succ]
  exact Nat.mul_le_mul_left _ (Nat.lt_of_mul_lt_mul_left hpos)

/-! ## Cells -/

theorem distributeFrom_cons {item : Initializer} {rest : List Initializer}
    (h : distributeFrom dimensions position (item :: rest) = .ok cells) :
    position < extent dimensions ∧
    ((∃ value cells', item = .expr value ∧
        distributeFrom dimensions (position + 1) rest = .ok cells' ∧ cells = .value value :: cells') ∨
      ∃ items loc subarray first second, item = .list items loc ∧
        subarrayAt? position dimensions.tail = some subarray ∧
        distributeFrom subarray 0 items = .ok first ∧
        distributeFrom dimensions (position + extent subarray) rest = .ok second ∧
        cells = first ++ second) := by
  rw [distributeFrom.eq_def] at h
  dsimp only at h
  split at h
  · cases h
  · rename_i hpos
    refine ⟨Nat.lt_of_not_le hpos, ?_⟩
    cases item with
    | expr value =>
      obtain ⟨cells', hrest, hlast⟩ := bind_eq_ok.1 h
      cases hlast
      exact .inl ⟨value, cells', rfl, hrest, rfl⟩
    | list items loc =>
      dsimp only at h
      split at h
      · cases h
      · rename_i subarray hsub
        obtain ⟨first, hfst, hnxt⟩ := bind_eq_ok.1 h
        obtain ⟨second, hsnd, hlast⟩ := bind_eq_ok.1 hnxt
        cases hlast
        exact .inr ⟨items, loc, subarray, first, second, rfl, hsub, hfst, hsnd, rfl⟩

/-- The elements of cells, one by one. -/
def expanded (cells : List Cell) : List (Option Expr) := cells.flatMap Cell.expand

theorem expanded_append (first second : List Cell) :
    expanded (first ++ second) = expanded first ++ expanded second := flatMap_append

/-- Cells for so many elements with the values of some expressions, in order. -/
structure Distributed (count : Nat) (exprs : List Expr) (cells : List Cell) : Prop where
  length : (expanded cells).length = count
  exprs : (expanded cells).filterMap id = exprs

theorem Distributed.append {m n : Nat} {es fs : List Expr} {first second : List Cell}
    (h : Distributed m es first) (h' : Distributed n fs second) :
    Distributed (m + n) (es ++ fs) (first ++ second) := by
  refine ⟨?_, ?_⟩
  · rw [expanded_append, length_append, h.length, h'.length]
  · rw [expanded_append, filterMap_append, h.exprs, h'.exprs]

theorem distributed_blank (n : Nat) : Distributed n [] [.blank n] := by
  refine ⟨by simp [expanded, Cell.expand], ?_⟩
  simp only [expanded, Cell.expand, flatMap_cons, flatMap_nil, append_nil]
  exact List.filterMap_eq_nil_iff.2 fun e he => eq_of_mem_replicate he

theorem distributed_value (expr : Expr) : Distributed 1 [expr] [.value expr] := ⟨rfl, rfl⟩

theorem distributed_distributeFrom : ∀ {items : List Initializer} {dimensions : List Nat}
    {position : Nat} {cells : List Cell}, distributeFrom dimensions position items = .ok cells →
    position ≤ extent dimensions →
    Distributed (extent dimensions - position) (items.flatMap Initializer.exprs) cells
  | [], dimensions, position, cells, h, _ => by
    rw [distributeFrom] at h
    cases h
    exact distributed_blank _
  | item :: rest, dimensions, position, cells, h, _ => by
    obtain ⟨hpos, hcas⟩ := distributeFrom_cons h
    rcases hcas with ⟨value, cells', rfl, hrest, rfl⟩ |
      ⟨items, loc, subarray, first, second, rfl, hsub, hfst, hsnd, rfl⟩
    · have htail := distributed_distributeFrom hrest hpos
      have hsum : extent dimensions - position = 1 + (extent dimensions - (position + 1)) := by
        omega
      rw [hsum, flatMap_cons, Initializer.exprs]
      exact (distributed_value value).append htail
    · have hle := subarray_le hsub hpos
      have hhead := distributed_distributeFrom hfst (Nat.zero_le _)
      have htail := distributed_distributeFrom hsnd hle
      have hsum : extent dimensions - position =
          (extent subarray - 0) + (extent dimensions - (position + extent subarray)) := by
        omega
      rw [hsum, flatMap_cons, Initializer.exprs]
      exact hhead.append htail

theorem distributed_distribute {init : Initializer} (h : distribute dimensions init = .ok cells) :
    Distributed (extent dimensions) init.exprs cells := by
  cases init with
  | expr value =>
    rw [distribute] at h
    split at h
    · rename_i hempty
      cases h
      rw [List.isEmpty_iff.1 hempty, Initializer.exprs]
      exact distributed_value value
    · cases h
  | list items loc =>
    rw [distribute] at h
    split at h
    · cases h
    · rw [Initializer.exprs]
      exact distributed_distributeFrom h (Nat.zero_le _)

end SysY.Generation

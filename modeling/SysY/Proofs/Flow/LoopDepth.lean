import Mathlib
import SysY.Proofs.Flow.Edges

/-!
# Loop depths

Every edge that leads back adds one where it arrives and takes it away behind where it left. So the
sum of all changes up to a position is the number of the edges that lead back over it.
-/

namespace SysY.Flow.Graph

open Eeyore

variable {n : Nat}

theorem getElem?_runningSums {xs : List Int} {i : Nat} (total : Int) (h : i < xs.length) :
    (runningSums total xs)[i]? = some (total + (xs.take (i + 1)).sum) := by
  induction xs generalizing total i with
  | nil => cases h
  | cons x xs ih =>
    cases i with
    | zero => simp [runningSums]
    | succ i =>
      rw [runningSums, List.getElem?_cons_succ, ih _ (Nat.lt_of_succ_lt_succ h), List.take_succ_cons,
        List.sum_cons, Int.add_assoc]

theorem length_runningSums (total : Int) (xs : List Int) :
    (runningSums total xs).length = xs.length := by
  induction xs generalizing total with
  | nil => rfl
  | cons x xs ih => rw [runningSums, List.length_cons, ih, List.length_cons]

theorem sum_take_addAt (row : Vector Int n) (p : Fin n) (amount : Int) (i : Nat) :
    ((addAt row p amount).toList.take i).sum =
      (row.toList.take i).sum + if p.val < i then amount else 0 := by
  have hset : (addAt row p amount).toList = row.toList.set p.val (row.get p + amount) :=
    Vector.toList_set p.isLt
  rw [hset, List.take_set, List.sum_set']
  have hlen : p.val < (row.toList.take i).length ↔ p.val < i := by
    simp [List.length_take]
  by_cases hp : p.val < i
  · rw [dif_pos (hlen.2 hp), if_pos hp]
    simp [get_eq_getElem]
  · rw [dif_neg (fun h => hp (hlen.1 h)), if_neg hp]

/-- An edge that leads back over the position in front of `i`. -/
def leadsOver (i : Nat) (edge : Fin n × Fin n) : Bool := edge.2.val < i ∧ i ≤ edge.1.val + 1

theorem sum_take_changes {edges : List (Fin n × Fin n)} (hback : ∀ edge ∈ edges, edge.2 < edge.1)
    (row : Vector Int (n + 1)) (i : Nat) :
    ((edges.foldl (fun changes edge =>
        addAt (addAt changes edge.2.castSucc 1) edge.1.succ (-1)) row).toList.take i).sum =
      (row.toList.take i).sum + edges.countP (leadsOver i) := by
  induction edges generalizing row with
  | nil => simp
  | cons edge edges ih =>
    obtain ⟨hedge, hedges⟩ := List.forall_mem_cons.1 hback
    have hlt : edge.2.val < edge.1.val := hedge
    rw [List.foldl_cons, ih hedges, sum_take_addAt, sum_take_addAt, List.countP_cons]
    simp only [leadsOver, Fin.val_castSucc, Fin.val_succ, decide_eq_true_eq]
    split_ifs <;> omega

theorem sum_depthChanges (graph : Graph n) (i : Nat) :
    (graph.depthChanges.toList.take i).sum = graph.backEdges.countP (leadsOver i) := by
  have hback : ∀ edge ∈ graph.backEdges, edge.2 < edge.1 := fun edge hedge => by
    simpa using (List.mem_filter.1 hedge).2
  rw [depthChanges, sum_take_changes hback, Vector.toList_replicate, List.take_replicate,
    List.sum_replicate]
  simp

/-- If all jumps of a function find their labels, the loop depth of a position is the number of edges
that lead back over it, each as often as there is one, and no sum of changes is ever below zero. -/
theorem loopDepths_exact (function : Function) {graph : Graph function.body.size}
    (hgraph : Graph.ofBody function.name function.body.toVector = .ok graph) :
    (∀ i, graph.loopDepths.get i = (edgesOf (targets function.body.toVector)).countP
      fun (j, k) => k < j ∧ k ≤ i ∧ i ≤ j) ∧
    ∀ total ∈ runningSums 0 graph.depthChanges.toList, 0 ≤ total := by
  have hsums : ∀ i < function.body.size + 1, (runningSums 0 graph.depthChanges.toList)[i]? =
      some (graph.backEdges.countP (leadsOver (i + 1)) : Int) := by
    intro i hi
    rw [getElem?_runningSums 0 (by simpa using hi), sum_depthChanges, Int.zero_add]
  refine ⟨fun i => ?_, fun total htotal => ?_⟩
  · have hcount : graph.loopDepths.get i = graph.backEdges.countP (leadsOver (i.val + 1)) := by
      simp [loopDepths, get_eq_getElem, hsums i.val (by omega)]
    obtain rfl := Graph.eq_of_ofBody hgraph
    rw [hcount, backEdges, edges, successors_get, List.countP_filter]
    congr 1
    funext ⟨j, k⟩
    simp only [leadsOver, Nat.lt_succ_iff, Nat.succ_le_succ_iff, Bool.decide_and, Fin.le_def]
    exact Bool.and_comm ..
  · obtain ⟨i, hi, rfl⟩ := List.mem_iff_getElem.1 htotal
    have hget := hsums i (by simpa [length_runningSums] using hi)
    rw [List.getElem?_eq_getElem hi, Option.some.injEq] at hget
    rw [hget]
    exact Int.natCast_nonneg _

/-- A loop within a loop that has two ways back. -/
def nested : Function where
  name := "nested"
  parameters := 1
  decls := []
  body := #[
    .label ⟨0⟩,
    .label ⟨1⟩,
    .branch (.symbol (.param 0)) .lt (.const 0) ⟨1⟩,
    .branch (.symbol (.param 0)) .eq (.const 1) ⟨0⟩,
    .branch (.symbol (.param 0)) .ne (.const 2) ⟨0⟩,
    .return none]

theorem nested_depths :
    ∃ graph, Graph.ofBody nested.name nested.body.toVector = .ok graph ∧
      graph.loopDepths.get ⟨2, by decide⟩ = 3 ∧ graph.loopDepths.get ⟨4, by decide⟩ = 1 := by
  have hgraph := Graph.ofBody_eq nested.name (undefinedTarget?_eq_none.1
    (show undefinedTarget? nested.body.toVector = none by decide))
  obtain ⟨hdepths, -⟩ := loopDepths_exact nested hgraph
  exact ⟨_, hgraph, (hdepths _).trans (by decide), (hdepths _).trans (by decide)⟩

end SysY.Flow.Graph

import Mathlib
import SysY.Proofs.Optimization.Optimizer

/-!
# What pruning keeps

Pruning keeps exactly the instructions that a path from the entry leads to. The graph of what is left
has the edges of the original one between the positions kept, and no others: `Closed.map_targets`.
Passes leave the edges alone, so that all positions are reached in every round and a dominator tree is
always found.
-/

namespace SysY.Flow

variable {n : Nat} {next : Fin n → List (Fin n)} {p : Fin n}

theorem reached_entry (hpos : 0 < n) : Reached next ⟨0, hpos⟩ :=
  .start (by simp [Graph.firstPosition?, hpos])

theorem reached_iff_path : Reached next p ↔ ∃ path, Path next ⟨0, p.pos⟩ p path := by
  constructor
  · intro h
    induction h with
    | @start p hp =>
      have hfirst : p = ⟨0, p.pos⟩ := by simpa [Graph.firstPosition?, p.pos] using hp
      refine ⟨[p], ?_⟩
      rw [← hfirst]
      exact .single p
    | step _ hq ih =>
      obtain ⟨path, hpath⟩ := ih
      exact ⟨_, hpath.concat hq⟩
  · rintro ⟨path, hpath⟩
    exact reached_of_path hpath (reached_entry p.pos)

end SysY.Flow

namespace SysY.Optimization

open Eeyore SysY.Flow

variable {n : Nat} {body : Vector Instruction n} {kept : List (Fin n)} {function : Function}

/-! ## Edges between kept positions -/

namespace Closed

variable {i : Fin kept.length}

theorem map_labelPosition? (h : Closed body kept) {label : Label}
    (htarget : (body.get (kept.get i)).target? = some label) :
    (Flow.labelPosition? (restrict body kept) label).map kept.get =
      Flow.labelPosition? body label := by
  cases hlab : Flow.labelPosition? body label with
  | none => rw [labelPosition?_eq_none hlab, Option.map_none]
  | some q =>
    have hq : q ∈ kept := h.edge _ (List.get_mem kept i) _
      (Flow.mem_targets.2 (.inl ⟨label, htarget, hlab⟩))
    obtain ⟨j, rfl⟩ := List.mem_iff_get.1 hq
    rw [h.labelPosition? hlab, Option.map_some]

theorem map_following (h : Closed body kept) (hjump : ∀ label, body.get (kept.get i) ≠ .jump label) :
    (following i).map kept.get = following (kept.get i) := by
  by_cases hlast : (kept.get i).val + 1 = n
  · have hi := h.last hlast
    have hnone : ¬ (kept.get i).val + 1 < n := by omega
    have hnone' : ¬ i.val + 1 < kept.length := by omega
    rw [following, following, dif_neg hnone, dif_neg hnone', List.map_nil]
  · have hnext : (kept.get i).val + 1 < n := by
      have := (kept.get i).isLt
      omega
    have hmem : ⟨(kept.get i).val + 1, hnext⟩ ∈ kept := h.edge _ (List.get_mem kept i) _
      (Flow.mem_targets.2 (.inr ⟨hjump, rfl⟩))
    obtain ⟨j, hj⟩ := List.mem_iff_get.1 hmem
    have hj' : j.val = i.val + 1 := h.next (congrArg Fin.val hj)
    have hlt : i.val + 1 < kept.length := hj' ▸ j.isLt
    rw [following, following, dif_pos hnext, dif_pos hlt, List.map_singleton, ← hj]
    exact congrArg (fun k => [kept.get k]) (Fin.ext hj'.symm)

/-- Control leads from a kept position where it led before. -/
theorem map_targets (h : Closed body kept) (i : Fin kept.length) :
    (targets (restrict body kept) i).map kept.get = targets body (kept.get i) := by
  have hjumps : (((body.get (kept.get i)).target?.bind
      (Flow.labelPosition? (restrict body kept))).toList).map kept.get =
      ((body.get (kept.get i)).target?.bind (Flow.labelPosition? body)).toList := by
    cases htarget : (body.get (kept.get i)).target? with
    | none => rfl
    | some label =>
      rw [Option.bind_some, Option.bind_some, ← Option.toList_map, h.map_labelPosition? htarget]
  unfold targets
  rw [get_restrict]
  dsimp only
  split
  · exact hjumps
  · rename_i hjump
    rw [List.map_append, hjumps, h.map_following hjump]

end Closed

/-! ## Rounds -/

/-- The functions that the passes over a function go over: what is left of it after pruning, and what
each of the rounds makes of the one before. -/
inductive Entered (function : Function) : Function → Prop
  | first {pruned : Function} : (prune function).result = .ok pruned → Entered function pruned
  | next {entered other : Function} {number count : Nat} : Entered function entered →
    (round number entered).result = .ok (other, count) → Entered function other

theorem connected_of_entered (hpos : 0 < function.body.size)
    (hdefined : TargetsDefined function.body.toVector) {entered : Function}
    (h : Entered function entered) : Connected entered.body.toVector := by
  induction h with
  | first hpruned =>
    rw [prune_spec hpos hdefined] at hpruned
    cases hpruned
    exact (connected_restrict hpos hdefined).toVector
  | @next entered other number count _ hround ih =>
    obtain ⟨other', count', hround', -, hconnected⟩ := round_spec number ih
    cases hround'.symm.trans hround
    exact hconnected

theorem Connected.dominatorTree_ok (h : Connected body) :
    ∃ tree, (Graph.ofSuccessors (targets body)).dominatorTree = .ok tree := by
  obtain ⟨tree, htree, -⟩ := Graph.dominatorTree_eq_ok h.reached
  exact ⟨tree, htree⟩

/-! ## Pruning is exact -/

theorem map_cast_targets (body : Vector Instruction n) (i : Fin body.toArray.size) :
    (targets body.toArray.toVector i).map (Fin.cast body.size_toArray) =
      targets body (i.cast body.size_toArray) := by
  obtain ⟨instructions, rfl⟩ := body
  exact List.map_id _

theorem toArray_restrict (body : Vector Instruction n) (kept : List (Fin n)) :
    (restrict body kept).toArray = (kept.map body.get).toArray := by
  apply Array.ext
  · simp
  · intro i _ _
    simp [restrict]

/-- If every label that is gone to is set exactly once, then pruning keeps, in order, exactly the
instructions that some path leads to. What is left has a graph whose edges are those of the original
one between the positions kept, renumbered. In every round all positions are reached, there is a
dominator tree, and the round has a result; so has the optimizer. -/
theorem prune_exact (function : Function) (hbody : function.body ≠ #[])
    (htargets : ∀ i ∈ function.body, ∀ label, i.target? = some label →
      function.body.count (.label label) = 1) :
    ∃ (graph : Graph function.body.size) (kept : List (Fin function.body.size))
      (pruned : Function) (hsize : pruned.body.size = kept.length)
      (graph' : Graph pruned.body.size),
      Graph.ofBody function.name function.body.toVector = .ok graph ∧
      (kept.Pairwise (· < ·) ∧
        ∀ p, p ∈ kept ↔ ∃ path, Path graph.successors.get ⟨0, p.pos⟩ p path) ∧
      (prune function).result = .ok pruned ∧
      pruned = { function with body := (kept.map function.body.toVector.get).toArray } ∧
      Graph.ofBody pruned.name pruned.body.toVector = .ok graph' ∧
      (∀ i, (graph'.successors.get i).map (fun j => kept.get (j.cast hsize)) =
        graph.successors.get (kept.get (i.cast hsize))) ∧
      (∀ i j, j ∈ graph'.predecessors.get i ↔
        kept.get (j.cast hsize) ∈ graph.predecessors.get (kept.get (i.cast hsize))) ∧
      (∀ entered, Entered function entered → ∃ graph : Graph entered.body.size,
        Graph.ofBody entered.name entered.body.toVector = .ok graph ∧
        (∀ p : Fin entered.body.size, ∃ path, Path graph.successors.get ⟨0, p.pos⟩ p path) ∧
        (∃ tree, graph.dominatorTree = .ok tree) ∧
        ∀ number, ∃ other count, (round number entered).result = .ok (other, count)) ∧
      ∃ optimized, (optimizeFunction function).result = .ok optimized := by
  have hpos : 0 < function.body.size := Array.size_pos_iff.2 hbody
  have hdefined := TargetsDefined.of_count htargets
  let body := function.body.toVector
  let kept := reachedPositions body
  have hclosed := closed_reachedPositions body
  have hconnected := connected_restrict hpos hdefined
  have hsize : (restrict body kept).toArray.size = kept.length := (restrict body kept).size_toArray
  have hedges : ∀ i, (targets (restrict body kept).toArray.toVector i).map
      (fun j => kept.get (j.cast hsize)) = targets body (kept.get (i.cast hsize)) := by
    intro i
    rw [← hclosed.map_targets, ← map_cast_targets, List.map_map]
    rfl
  have hinjective : ∀ i j : Fin (restrict body kept).toArray.size,
      kept.get (i.cast hsize) = kept.get (j.cast hsize) → i = j := by
    intro i j hij
    have hnodup : kept.Nodup := hclosed.sorted.imp Fin.ne_of_lt
    exact Fin.cast_injective hsize (hnodup.injective_get hij)
  refine ⟨_, kept, _, hsize, _, Graph.ofBody_eq _ hdefined, ⟨hclosed.sorted, fun p => ?_⟩,
    prune_spec hpos hdefined, ?_, Graph.ofBody_eq _ hconnected.toVector.defined, fun i => ?_,
    fun i j => ?_, fun entered hentered => ?_, ?_⟩
  · rw [Graph.successors_get, mem_reachedPositions, reached_iff_path]
  · rw [toArray_restrict]
  · rw [Graph.get_successors, Graph.get_successors]
    exact hedges i
  · rw [Graph.mem_predecessors, Graph.mem_predecessors, ← hedges j, List.mem_map]
    constructor
    · intro hi
      exact ⟨i, hi, rfl⟩
    · rintro ⟨i', hi', heq⟩
      exact hinjective _ _ heq ▸ hi'
  · have hentered := connected_of_entered hpos hdefined hentered
    refine ⟨_, Graph.ofBody_eq _ hentered.defined, fun p => ?_, hentered.dominatorTree_ok,
      fun number => ?_⟩
    · rw [Graph.successors_get]
      exact reached_iff_path.1 (hentered.reached p)
    · obtain ⟨other, count, hround, -⟩ := round_spec number hentered
      exact ⟨other, count, hround⟩
  · obtain ⟨_, -, heq, optimized, hrounds, -⟩ := optimizeFunction_eq hpos hdefined
    exact ⟨optimized, heq.trans hrounds⟩

/-- A loop with instructions in front of it and behind it that nothing leads to, and a label among
them that only they go to. -/
def skipping : Function where
  name := "skip"
  parameters := 1
  decls := [⟨.temp 0, none⟩]
  body := #[
    .jump ⟨1⟩,
    .label ⟨0⟩,
    .copy (.temp 0) (.const 1),
    .label ⟨1⟩,
    .branch (.symbol (.param 0)) .lt (.const 3) ⟨1⟩,
    .jump ⟨2⟩,
    .jump ⟨0⟩,
    .label ⟨2⟩,
    .return none]

theorem skipping_pruned : skipping.body ≠ #[] ∧
    (∀ i ∈ skipping.body, ∀ label, i.target? = some label →
      skipping.body.count (.label label) = 1) ∧
    ∃ pruned, (prune skipping).result = .ok pruned ∧
      pruned.body = #[.jump ⟨1⟩, .label ⟨1⟩, .branch (.symbol (.param 0)) .lt (.const 3) ⟨1⟩,
        .jump ⟨2⟩, .label ⟨2⟩, .return none] ∧
      (∃ graph, Graph.ofBody pruned.name pruned.body.toVector = .ok graph) ∧
      ∃ optimized, (optimizeFunction skipping).result = .ok optimized := by
  have htargets : ∀ i ∈ skipping.body, ∀ label, i.target? = some label →
      skipping.body.count (.label label) = 1 := by
    simp [skipping, Instruction.target?]
  obtain ⟨_, _, pruned, _, graph, -, -, hpruned, -, hgraph, -, -, -, hoptimized⟩ :=
    prune_exact skipping (by decide) htargets
  have hbody : (prune skipping).result.toOption.map (·.body) = some #[.jump ⟨1⟩, .label ⟨1⟩,
      .branch (.symbol (.param 0)) .lt (.const 3) ⟨1⟩, .jump ⟨2⟩, .label ⟨2⟩, .return none] := by
    cbv
  rw [hpruned] at hbody
  exact ⟨by decide, htargets, pruned, hpruned, Option.some.inj hbody, ⟨graph, hgraph⟩, hoptimized⟩

end SysY.Optimization

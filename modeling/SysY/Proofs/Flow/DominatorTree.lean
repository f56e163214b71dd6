import SysY.Proofs.Flow.Paths
import SysY.Proofs.Flow.Sweep

/-!
# The dominator tree

If every position is reached, the tree exists and holds the immediate dominators
(`DominatorTree.Exact`). The chain from a position to the root then has all its dominators, so asking
the tree is asking whether every path from the entry passes a position
(`DominatorTree.Exact.dominates_iff`).
-/

namespace SysY.Flow

open Eeyore

variable {n : Nat} {next : Fin n → List (Fin n)}

/-! ## Paths from the entry -/

section
variable {root a b p : Fin n} {path : List (Fin n)}

theorem reached_of_path (h : Path next p b path) (hp : Reached next p) : Reached next b := by
  induction h with
  | single p => exact hp
  | cons hq _ ih => exact ih (.step hp hq)

theorem reachedAround_of_path (h : Path next p b path) (hp : ReachedAround next a p)
    (ha : a ∉ path) : ReachedAround next a b := by
  induction h with
  | single p => exact hp
  | cons hq hpath ih =>
    have hnot := List.not_mem_of_not_mem_cons ha
    refine ih (.edge hp hq ?_) hnot
    rintro rfl
    exact hnot hpath.first_mem

theorem reachedAround_iff_path (hfst : Graph.firstPosition? = some root) :
    ReachedAround next a b ↔ ∃ path, Path next root b path ∧ a ∉ path := by
  constructor
  · intro h
    induction h with
    | @start b hb =>
      obtain ⟨hmem, hne⟩ := List.mem_filter.1 hb
      obtain rfl : b = root := by simpa [hfst] using hmem
      have hne : b ≠ a := by simpa using hne
      exact ⟨[b], .single b, by simpa using hne.symm⟩
    | @step b c _ hc ih =>
      obtain ⟨path, hpath, hnot⟩ := ih
      obtain ⟨hc, hne⟩ := List.mem_filter.1 hc
      refine ⟨path ++ [c], hpath.concat hc, ?_⟩
      rw [List.mem_append, List.mem_singleton]
      rintro (hmem | rfl)
      · exact hnot hmem
      · simp at hne
  · rintro ⟨path, hpath, hnot⟩
    refine reachedAround_of_path hpath (.entry (by simp [hfst]) ?_) hnot
    rintro rfl
    exact hnot hpath.first_mem

end

/-! ## Exact trees -/

namespace DominatorTree

/-- A tree of the immediate dominators, in which the children of a position are listed once. -/
structure Exact (next : Fin n → List (Fin n)) (tree : DominatorTree n) : Prop where
  entry : ∀ p, Graph.firstPosition? = some p → tree.idom.get p = none
  others : ∀ p, Graph.firstPosition? ≠ some p →
    ∃ d, tree.idom.get p = some d ∧ ImmediatelyDominates next d p
  children : ∀ a p, (tree.children.get a).count p = if tree.idom.get p = some a then 1 else 0

namespace Exact

variable {tree : DominatorTree n} {a b d p : Fin n}

theorem immediatelyDominates (h : tree.Exact next) (hp : tree.idom.get p = some d) :
    ImmediatelyDominates next d p := by
  have hfst : Graph.firstPosition? ≠ some p := fun hfst => by
    rw [h.entry p hfst] at hp
    cases hp
  obtain ⟨d', hd', hdom⟩ := h.others p hfst
  rw [hp] at hd'
  cases hd'
  exact hdom

theorem strictlyDominates_of_mem_children (h : tree.Exact next) (hp : p ∈ tree.children.get a) :
    StrictlyDominates next a p := by
  have hcnt := h.children a p
  have hpos := List.count_pos_iff.2 hp
  split at hcnt
  · rename_i hidom
    exact (h.immediatelyDominates hidom).strictly
  · omega

theorem idom_eq_none_iff (h : tree.Exact next) :
    tree.idom.get p = none ↔ Graph.firstPosition? = some p := by
  refine ⟨fun hnone => ?_, h.entry p⟩
  by_contra hfst
  obtain ⟨d, hd, _⟩ := h.others p hfst
  rw [hnone] at hd
  cases hd

theorem dominatesWithin_iff (h : tree.Exact next) (hrch : ∀ p, Reached next p)
    (t : Spanning next) {steps : Nat} :
    ∀ {b}, t.number b < steps →
      (tree.dominatesWithin a steps b = true ↔ a = b ∨ StrictlyDominates next a b) := by
  induction steps with
  | zero => exact fun hb => absurd hb (Nat.not_lt_zero _)
  | succ steps ih =>
    intro b hb
    rw [dominatesWithin, Bool.or_eq_true, beq_iff_eq]
    refine or_congr Iff.rfl ?_
    cases hidom : tree.idom.get b with
    | none =>
      have hroot : b = t.root := by
        have hfst := (h.idom_eq_none_iff).1 hidom
        rw [t.first] at hfst
        exact (Option.some.inj hfst).symm
      refine ⟨nofun, fun hdom => absurd (Spanning.over_of_dominates t hdom).number_lt ?_⟩
      rw [hroot]
      exact Nat.not_lt.2 (Spanning.Above.number_le (Spanning.root_above a))
    | some d =>
      have hdom := h.immediatelyDominates hidom
      have hlt := (Spanning.over_of_dominates t hdom.strictly).number_lt
      refine (ih (b := d) (by omega)).trans ⟨?_, hdom.others a⟩
      rintro (rfl | hstrict)
      · exact hdom.strictly
      · exact hstrict.trans hdom.strictly (hrch d)

theorem dominates_iff (h : tree.Exact next) (hrch : ∀ p, Reached next p) (t : Spanning next) :
    tree.dominates a b = true ↔ ∀ path, Path next t.root b path → a ∈ path := by
  have harnd : a = b ∨ StrictlyDominates next a b ↔ ¬ ReachedAround next a b := by
    constructor
    · rintro (rfl | hdom) harnd
      · exact harnd.ne rfl
      · exact hdom.unavoidable harnd
    · intro hnot
      by_cases hab : a = b
      · exact .inl hab
      · exact .inr ⟨hab, hnot⟩
  rw [dominates, h.dominatesWithin_iff hrch t (t.number_lt b), harnd,
    reachedAround_iff_path t.first]
  simp only [not_exists, not_and, Decidable.not_not]

end Exact

end DominatorTree

/-! ## The tree of a graph -/

namespace Graph

theorem get_grouped_idom (order : List (Fin n)) (idom : Vector (Option (Fin n)) n) (a : Fin n) :
    (grouped (order.filterMap fun p => (idom.get p).map fun dominator => (dominator, p))).get a =
      order.filter (idom.get · = some a) := by
  rw [get_grouped, List.filter_filterMap, List.map_filterMap]
  induction order with
  | nil => rfl
  | cons p order ih =>
    rw [List.filterMap_cons, List.filter_cons, ← ih]
    cases hp : idom.get p with
    | none => simp
    | some d => by_cases hd : d = a <;> simp [hd, Option.filter]

theorem dominatorTree_of_reached (hrch : ∀ p, Reached next p) :
    ∃ tree, (ofSuccessors next).dominatorTree = .ok tree ∧ tree.Exact next := by
  unfold dominatorTree
  cases hfst : (firstPosition? : Option (Fin n)) with
  | none =>
    have hempty : n = 0 := by
      unfold firstPosition? at hfst
      split at hfst
      · cases hfst
      · omega
    subst hempty
    exact ⟨_, rfl, nofun, nofun, nofun⟩
  | some root =>
    have hsp := spans_numberFrom hfst hrch
    have hnmd : (List.finRange n).find?
        (fun p => ((ofSuccessors next).numberFrom root).number.get p = n) = none := by
      rw [List.find?_eq_none]
      intro p _
      have := (spanning hfst hrch).number_lt p
      rw [hsp.number p]
      simp only [decide_eq_true_eq]
      omega
    simp only [hnmd]
    obtain ⟨hent, hoths⟩ := immediateDominators_exact hsp
    refine ⟨_, rfl, fun p hp => ?_, fun p hp => hoths p ?_, fun a p => ?_⟩
    · rw [hfst] at hp
      cases hp
      exact hent
    · rintro rfl
      exact hp hfst
    · rw [get_grouped_idom]
      split
      · rename_i hp
        rw [List.count_filter (by simpa using hp)]
        exact List.count_eq_one_of_mem hsp.nodup (hsp.all p)
      · rename_i hp
        refine List.count_eq_zero.2 fun hmem => hp ?_
        simpa using (List.mem_filter.1 hmem).2

theorem dominatorTree_eq_ok (hrch : ∀ p, Reached next p) :
    ∃ tree, (ofSuccessors next).dominatorTree = .ok tree ∧
      ∀ p q, q ∈ tree.children.get p → StrictlyDominates next p q := by
  obtain ⟨tree, htree, hexact⟩ := dominatorTree_of_reached hrch
  exact ⟨tree, htree, fun _ _ => hexact.strictlyDominates_of_mem_children⟩

/-- If all positions of a function are reached from the first one, it has a dominator tree. By the
tree, a position dominates another one exactly if every path to that one passes it. All positions but
the first one have an immediate dominator, and each of them is listed once among the children, as a
child of its immediate dominator. -/
theorem dominatorTree_exact (function : Function) {graph : Graph function.body.size}
    (hgraph : Graph.ofBody function.name function.body.toVector = .ok graph)
    (hreached : ∀ p : Fin function.body.size,
      ∃ path, Path graph.successors.get ⟨0, p.pos⟩ p path) :
    ∃ tree, graph.dominatorTree = .ok tree ∧
      (∀ a b, tree.dominates a b = true ↔
        ∀ path, Path graph.successors.get ⟨0, b.pos⟩ b path → a ∈ path) ∧
      (∀ p, tree.idom.get p = none ↔ p.val = 0) ∧
      ∀ a p, (tree.children.get a).count p = if tree.idom.get p = some a then 1 else 0 := by
  obtain rfl := Graph.eq_of_ofBody hgraph
  rw [successors_get] at hreached ⊢
  have hfirst : ∀ p : Fin function.body.size, firstPosition? = some ⟨0, p.pos⟩ := fun p =>
    dif_pos p.pos
  have hreached : ∀ p, Reached (targets function.body.toVector) p := by
    intro p
    obtain ⟨path, hpath⟩ := hreached p
    exact reached_of_path hpath (.start (by simp [hfirst p]))
  obtain ⟨tree, htree, hexact⟩ := dominatorTree_of_reached hreached
  refine ⟨tree, htree, fun a b => ?_, fun p => ?_, hexact.children⟩
  · exact hexact.dominates_iff hreached (spanning (hfirst b) hreached)
  · rw [hexact.idom_eq_none_iff, hfirst p, Option.some.injEq, Fin.ext_iff]
    exact eq_comm

/-- A loop with two ways in: the first position jumps behind its head. -/
def crossing : Function where
  name := "crossing"
  parameters := 1
  decls := []
  body := #[
    .branch (.symbol (.param 0)) .lt (.const 0) ⟨1⟩,
    .label ⟨0⟩,
    .branch (.symbol (.param 0)) .eq (.const 1) ⟨2⟩,
    .label ⟨1⟩,
    .branch (.symbol (.param 0)) .ne (.const 2) ⟨0⟩,
    .label ⟨2⟩,
    .branch (.symbol (.param 0)) .gt (.const 3) ⟨2⟩,
    .return none]

/-- Neither way into the loop dominates the other one. -/
theorem crossing_dominance :
    ∃ graph, Graph.ofBody crossing.name crossing.body.toVector = .ok graph ∧
      (∀ p : Fin crossing.body.size, ∃ path, Path graph.successors.get ⟨0, p.pos⟩ p path) ∧
      ∃ tree, graph.dominatorTree = .ok tree ∧
        tree.dominates ⟨1, by decide⟩ ⟨3, by decide⟩ = false ∧
        tree.dominates ⟨3, by decide⟩ ⟨1, by decide⟩ = false ∧
        tree.dominates ⟨0, by decide⟩ ⟨7, by decide⟩ = true := by
  have hgraph := Graph.ofBody_eq crossing.name (undefinedTarget?_eq_none.1
    (show undefinedTarget? crossing.body.toVector = none by decide))
  have hnext : ∀ i : Fin 7, (⟨i.val + 1, Nat.succ_lt_succ i.isLt⟩ : Fin crossing.body.size) ∈
      targets crossing.body.toVector ⟨i.val, Nat.lt_succ_of_lt i.isLt⟩ := by decide
  -- control can always go on to the next position
  have hreached : ∀ i (hi : i < crossing.body.size),
      ∃ path, Path (targets crossing.body.toVector) ⟨0, by decide⟩ ⟨i, hi⟩ path := by
    intro i
    induction i with
    | zero => exact fun _ => ⟨_, .single _⟩
    | succ i ih =>
      intro hi
      obtain ⟨path, hpath⟩ := ih (Nat.lt_of_succ_lt hi)
      exact ⟨_, hpath.concat (hnext ⟨i, Nat.lt_of_succ_lt_succ hi⟩)⟩
  rw [← successors_get (targets crossing.body.toVector)] at hreached
  obtain ⟨tree, htree, hdominates, -, -⟩ :=
    dominatorTree_exact crossing hgraph fun p => hreached p.val p.isLt
  refine ⟨_, hgraph, fun p => hreached p.val p.isLt, tree, htree, ?_, ?_,
    (hdominates _ _).2 fun path hpath => hpath.first_mem⟩
  · refine Bool.eq_false_iff.2 fun htrue => ?_
    have hpath : Path (targets crossing.body.toVector) ⟨0, by decide⟩ ⟨3, by decide⟩ _ :=
      .cons (by decide) (.single _)
    rw [← successors_get (targets crossing.body.toVector)] at hpath
    exact absurd ((hdominates _ _).1 htrue _ hpath) (by decide)
  · refine Bool.eq_false_iff.2 fun htrue => ?_
    have hpath : Path (targets crossing.body.toVector) ⟨0, by decide⟩ ⟨1, by decide⟩ _ :=
      .cons (by decide) (.single _)
    rw [← successors_get (targets crossing.body.toVector)] at hpath
    exact absurd ((hdominates _ _).1 htrue _ hpath) (by decide)

end Graph

end SysY.Flow

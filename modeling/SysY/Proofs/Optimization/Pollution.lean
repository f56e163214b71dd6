import SysY.Optimization.Computation
import SysY.Proofs.Flow.Marking
import SysY.Proofs.Flow.Paths

/-!
# What pollutes

The search for a pollution calls at the positions that a walk with marks comes to, until one of them
pollutes (`clean_walkFrom`). So its answer is exact: it is that nothing pollutes on any path to the
later position that does not pass the earlier one (`unchanged_exact`).
-/

namespace SysY.Optimization

open Eeyore SysY.Flow Graph

variable {n : Nat} {graph : Graph n} {body : Vector Instruction n} {later earlier q : Fin n}
  {pollutes : Instruction → Bool}

/-! ## The search as a walk with marks -/

theorem callAll_spoiled (seen : NodeSet n) (called : List (Fin n)) :
    (inspecting body earlier pollutes).callAll ⟨false, false, seen⟩ called =
      ([], ⟨false, false, seen⟩) := by
  induction called with
  | nil => rfl
  | cons p rest ih => simp [Guide.callAll, inspecting, ← ih]

theorem walkFrom_spoiled (seen : NodeSet n) (queue : List (Fin n)) :
    graph.walkFrom (inspecting body earlier pollutes) queue ⟨false, false, seen⟩ =
      ⟨false, false, seen⟩ := by
  induction queue with
  | nil => rw [walkFrom]
  | cons p rest ih => rw [walkFrom, callAll_spoiled, List.append_nil, ih]

theorem call_inspecting (seen : NodeSet n) (p : Fin n) :
    (inspecting body earlier pollutes).call ⟨false, true, seen⟩ p =
      if (seen.get p || decide (p = earlier)) = true then (false, ⟨false, true, seen⟩)
      else (!pollutes (body.get p), ⟨false, !pollutes (body.get p), seen.add p⟩) := by
  rw [Bool.or_comm]
  rfl

/-- Either all that a walk would mark is clean and the search goes on with it, or the search is over.
-/
theorem callAll_inspecting (seen : NodeSet n) (called : List (Fin n)) :
    let marked := markFresh (· = earlier) seen called
    let found := (inspecting body earlier pollutes).callAll ⟨false, true, seen⟩ called
    (∀ p ∈ marked.1, pollutes (body.get p) = false) ∧ found = (marked.1, ⟨false, true, marked.2⟩) ∨
      (∃ p ∈ marked.1, pollutes (body.get p) = true) ∧ ∃ seen', found.2 = ⟨false, false, seen'⟩ := by
  induction called generalizing seen with
  | nil => exact .inl ⟨nofun, rfl⟩
  | cons p rest ih =>
    dsimp only
    rw [markFresh, Guide.callAll, call_inspecting]
    split
    · exact ih seen
    · cases hpol : pollutes (body.get p) with
      | true => exact .inr ⟨⟨p, List.mem_cons_self, hpol⟩, seen.add p, by simp [callAll_spoiled]⟩
      | false =>
        rcases ih (seen.add p) with ⟨hall, hfound⟩ | ⟨⟨q, hq, hqpol⟩, hfound⟩
        · refine .inl ⟨List.forall_mem_cons.2 ⟨hpol, hall⟩, ?_⟩
          simp [hfound]
        · exact .inr ⟨⟨q, List.mem_cons_of_mem _ hq, hqpol⟩, hfound⟩

theorem clean_walkFrom (queue : List (Fin n)) (seen : NodeSet n) :
    (graph.walkFrom (inspecting body earlier pollutes) queue ⟨false, true, seen⟩).clean = true ↔
      ∀ p ∈ (graph.markFrom (· = earlier) queue seen).1, pollutes (body.get p) = false := by
  induction queue, seen using markFrom.induct graph (· = earlier) with
  | case1 seen => simp [walkFrom, markFrom]
  | case2 seen p rest called ih =>
    rw [walkFrom, markFrom]
    rcases callAll_inspecting seen (graph.predecessors.get p) with
      ⟨hall, hfound⟩ | ⟨⟨q, hq, hpol⟩, seen', hfound⟩
    · rw [hfound, ih, List.forall_mem_append]
      exact ⟨fun h => ⟨hall, h⟩, And.right⟩
    · -- nothing is looked at any more
      rw [hfound, walkFrom_spoiled]
      refine ⟨fun h => absurd h Bool.false_ne_true, fun h => ?_⟩
      rw [h q (List.mem_append_left _ hq)] at hpol
      cases hpol

/-! ## Paths to the later position -/

theorem unchanged_iff_met :
    unchanged graph body later earlier pollutes = true ↔
      ∀ q, Met (graph.before (· = earlier)) (graph.before (· = earlier) later) q →
        pollutes (body.get q) = false := by
  have hmarked : ∀ q, q ∈ (graph.markFrom (· = earlier) [later] .none).1 ↔
      Met (graph.before (· = earlier)) (graph.before (· = earlier) later) q := by
    intro q
    have hmarks := graph.marks_markFrom (· = earlier) [later] .none
    refine ⟨fun h => by simpa using graph.markFrom_sound _ h, fun h => ?_⟩
    have hget : (graph.markFrom (· = earlier) [later] .none).2.get q = true := by
      induction h with
      | start hq => exact graph.markFrom_complete _ List.mem_cons_self hq
      | step _ hq ih => exact graph.markFrom_closed _ (by simp) _ ih _ hq
    simpa using (hmarks.final q).1 hget
  simp only [← hmarked]
  exact clean_walkFrom [later] .none

theorem met_iff_path {next : Fin n → List (Fin n)} (hne : later ≠ earlier) :
    Met ((Graph.ofSuccessors next).before (· = earlier))
        ((Graph.ofSuccessors next).before (· = earlier) later) q ↔
      ∃ path, Path next q later path ∧ 2 ≤ path.length ∧ earlier ∉ path := by
  have hbefore : ∀ {p q}, q ∈ (ofSuccessors next).before (· = earlier) p ↔
      p ∈ next q ∧ q ≠ earlier := by
    simp [mem_before, mem_predecessors]
  constructor
  · intro h
    induction h with
    | @start q hq =>
      obtain ⟨hedge, hq⟩ := hbefore.1 hq
      exact ⟨[q, later], .cons hedge (.single later), Nat.le_refl 2, by simp [hq.symm, hne.symm]⟩
    | @step p q _ hq ih =>
      obtain ⟨hedge, hq⟩ := hbefore.1 hq
      obtain ⟨path, hpath, hlen, havoid⟩ := ih
      exact ⟨q :: path, .cons hedge hpath, Nat.le_succ_of_le hlen, by simp [hq.symm, havoid]⟩
  · rintro ⟨path, hpath, hlen, havoid⟩
    induction hpath with
    | single p => exact absurd hlen (Nat.lt_irrefl 1)
    | @cons p q r path hedge hrest ih =>
      rw [List.mem_cons, not_or] at havoid
      have hp := hbefore.2 ⟨hedge, Ne.symm havoid.1⟩
      cases hrest with
      | single => exact .start hp
      | cons hedge' hrest' =>
        refine .step (ih hne ?_ havoid.2) hp
        have := List.length_pos_iff.2 hrest'.ne_nil
        rw [List.length_cons]
        omega

/-- The answer is yes exactly if no position from which a path of at least one edge leads to `later`
around `earlier` pollutes; `later` is such a position if it lies on a cycle around `earlier`. The
instructions looked at may have been rewritten since the graph was made. -/
theorem unchanged_exact {name : String} {code : Vector Instruction n}
    (hgraph : Graph.ofBody name code = .ok graph) (hne : later ≠ earlier)
    (body : Vector Instruction n) (pollutes : Instruction → Bool) :
    (unchanged graph body later earlier pollutes = true ↔
      ¬ ∃ q path, q ≠ earlier ∧ pollutes (body.get q) = true ∧
        Path graph.successors.get q later path ∧ 2 ≤ path.length ∧ earlier ∉ path) ∧
    ∀ path, Path graph.successors.get later later path → 2 ≤ path.length → earlier ∉ path →
      pollutes (body.get later) = true → unchanged graph body later earlier pollutes = false := by
  rw [eq_of_ofBody hgraph, successors_get]
  have hexact : unchanged (.ofSuccessors (targets code)) body later earlier pollutes = true ↔
      ¬ ∃ q path, q ≠ earlier ∧ pollutes (body.get q) = true ∧
        Path (targets code) q later path ∧ 2 ≤ path.length ∧ earlier ∉ path := by
    rw [unchanged_iff_met]
    constructor
    · rintro h ⟨q, path, _, hpol, hpath⟩
      rw [h q ((met_iff_path hne).2 ⟨path, hpath⟩)] at hpol
      cases hpol
    · intro h q hq
      obtain ⟨path, hpath, hlen, havoid⟩ := (met_iff_path hne).1 hq
      refine Bool.eq_false_iff.2 fun hpol => h ⟨q, path, ?_, hpol, hpath, hlen, havoid⟩
      exact fun heq => havoid (heq ▸ hpath.first_mem)
  refine ⟨hexact, fun path hpath hlen havoid hpol => Bool.eq_false_iff.2 fun hcln => ?_⟩
  exact hexact.1 hcln ⟨later, path, hne, hpol, hpath, hlen, havoid⟩

/-- A loop whose last write is carried to its beginning. -/
def carrying : Vector Instruction 5 :=
  #v[.copy (.temp 0) (.const 0), .label ⟨1⟩, .copy (.var 0) (.symbol (.temp 0)),
    .binary (.temp 0) .add (.symbol (.temp 0)) (.const 1), .jump ⟨1⟩]

theorem carried_write_pollutes :
    ∃ graph, Graph.ofBody "main" carrying = .ok graph ∧ (2 : Fin 5) ≠ 0 ∧
      unchanged graph carrying 2 0 (·.definition = some (.temp 0)) = false ∧
      unchanged graph carrying 2 0 (·.definition = some (.var 0)) = false ∧
      unchanged graph carrying 2 0 (·.definition = some (.var 1)) = true := by
  refine ⟨_, rfl, by decide, ?_⟩
  have hexact := @unchanged_exact 5 _ 2 0 "main" carrying rfl (by decide) carrying
  have hround : Path (ofSuccessors (targets carrying)).successors.get 3 2 [3, 4, 1, 2] :=
    .cons (by decide) (.cons (by decide) (.cons (by decide) (.single 2)))
  have hother : ∀ q : Fin 5, decide ((carrying.get q).definition = some (.var 1)) = false := by
    decide
  refine ⟨Bool.eq_false_iff.2 fun h => ?_, ?_, (hexact _).1.2 ?_⟩
  · exact (hexact _).1.1 h ⟨3, _, by decide, by decide, hround, by decide, by decide⟩
  · exact (hexact _).2 _ (.cons (by decide) hround) (by decide) (by decide) (by decide)
  · rintro ⟨q, _, _, hpol, _⟩
    rw [hother q] at hpol
    cases hpol

end SysY.Optimization

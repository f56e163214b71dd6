import SysY.Proofs.Flow.Slots
import SysY.Proofs.Optimization.Pass
import SysY.Proofs.Optimization.Pruning

/-!
# The optimizer preserves behavior

Pruning keeps the runs of a function up to the numbers of positions, and passes keep them as they
are. `optimize_preserves_behavior` puts this together: the optimizer succeeds on every well-formed
program, and each function of the result does the same as the one it comes from, step by step.
-/

namespace SysY.Optimization

open Eeyore SysY.Flow Logged

variable {n : Nat} {body : Vector Instruction n} {globals : List Decl} {act : Activation}
  {function : Function}

/-- What the optimizer relies on. -/
structure WellFormed (globals : List Decl) (function : Function) : Prop where
  nonempty : function.body ≠ #[]
  /-- Every label that is gone to is set exactly once. -/
  targets : ∀ i ∈ function.body, ∀ label, i.target? = some label →
    function.body.count (.label label) = 1
  /-- Array accesses go through arrays and parameters. -/
  bases : ∀ i ∈ function.body, ∀ base, i.base? = some base →
    isArray globals function base = true ∨ base.kind = .parameter
  /-- Nothing assigns to what an array access goes through. -/
  fixed : ∀ i ∈ function.body, ∀ base, i.base? = some base →
    ∀ j ∈ function.body, j.definition ≠ some base

/-- Functions that do the same in all surroundings, from every state and after any number of steps:
they have shown the same events, they have the same values and memory, and they are still running,
have returned the same value or are stuck alike. -/
structure SameBehavior (globals : List Decl) (function other : Function) : Prop where
  name : other.name = function.name
  parameters : other.parameters = function.parameters
  decls : other.decls = function.decls
  runs : ∀ world : World, world.Separates globals function → ∀ scalars memory steps,
    (world.run globals other steps (.start scalars memory)).unplaced =
      (world.run globals function steps (.start scalars memory)).unplaced

/-! ## Bodies as arrays and as vectors -/

theorem run_toVector (act : Activation) (body : Vector Instruction n) :
    act.run body.toArray.toVector = act.run body := by
  obtain ⟨instructions, rfl⟩ := body
  rfl

theorem basesFixed_toVector (h : BasesFixed act body) : BasesFixed act body.toArray.toVector := by
  obtain ⟨instructions, rfl⟩ := body
  exact h

/-- All jumps find their labels, and all positions are reached. -/
structure Connected (body : Vector Instruction n) : Prop where
  nonempty : 0 < n
  defined : TargetsDefined body
  reached : ∀ p, Reached (Flow.targets body) p

theorem Connected.toVector (h : Connected body) :
    Connected body.toArray.toVector := by
  obtain ⟨instructions, rfl⟩ := body
  exact h

/-! ## Passes -/

/-- A function with another body that has the same runs. -/
structure Improved (function other : Function) : Prop where
  only_body : other = { function with body := other.body }
  bases : ∀ act, BasesFixed act function.body.toVector → BasesFixed act other.body.toVector
  runs : ∀ act, SlotsLocal act (Slots.ofFunction function) →
    BasesFixed act function.body.toVector → ∀ s : State, s.position = 0 →
    ∀ steps, act.run other.body.toVector steps s = act.run function.body.toVector steps s

theorem Improved.refl (function : Function) : Improved function function :=
  ⟨rfl, fun _ h => h, fun _ _ _ _ _ _ => rfl⟩

theorem Improved.trans {f g h : Function} (hfg : Improved f g) (hgh : Improved g h) :
    Improved f h := by
  obtain ⟨body, hg⟩ : ∃ body, g = { f with body := body } := ⟨_, hfg.only_body⟩
  subst hg
  refine ⟨hgh.only_body, fun act hbases => hgh.bases act (hfg.bases act hbases),
    fun act hloc hbases s hs steps => ?_⟩
  rw [hgh.runs act hloc (hfg.bases act hbases) s hs steps, hfg.runs act hloc hbases s hs steps]

theorem Connected.of_improves {k : Nat} {slots : Slots k} {body' : Vector Instruction n}
    (h : Connected body) (himp : Improves slots body body') : Connected body' where
  nonempty := h.nonempty
  defined p label htgt := by
    rw [(himp.control p).target] at htgt
    rw [labelPosition?_congr fun q l => (himp.control q).label l]
    exact h.defined p label htgt
  reached := by
    rw [himp.targets_eq]
    exact h.reached

theorem round_spec (number : Nat) (h : Connected function.body.toVector) :
    ∃ other count, (round number function).result = .ok (other, count) ∧
      Improved function other ∧ Connected other.body.toVector := by
  obtain ⟨body, changes, hpass, himp⟩ :=
    onePass_spec (Slots.ofFunction function) h.nonempty h.reached
  refine ⟨{ function with body := body.toArray }, changes.length, ?_, ⟨rfl, fun act hbases => ?_,
    fun act hloc hbases s hs steps => ?_⟩, (h.of_improves himp).toVector⟩
  · simp only [round, result_bind, result_ofExcept, Graph.ofBody_eq _ h.defined,
      ok_bind, hpass]
    rfl
  · exact basesFixed_toVector (himp.bases act hbases)
  · rw [run_toVector]
    exact himp.runs act hloc hbases s hs steps

theorem rounds_spec (left : Nat) : ∀ (number : Nat) (function : Function),
    Connected function.body.toVector →
    ∃ other, (rounds number function left).result = .ok other ∧ Improved function other ∧
      Connected other.body.toVector := by
  induction left with
  | zero => exact fun _ function h => ⟨function, rfl, .refl function, h⟩
  | succ left ih =>
    intro number function h
    obtain ⟨other, count, hround, himpd, hconn⟩ := round_spec number h
    simp only [rounds, result_bind, hround, ok_bind]
    by_cases hcnt : count = 0
    · rw [if_pos hcnt]
      exact ⟨other, rfl, himpd, hconn⟩
    · rw [if_neg hcnt]
      obtain ⟨last, hrnds, hlast, hconn'⟩ := ih (number + 1) other hconn
      exact ⟨last, hrnds, himpd.trans hlast, hconn'⟩

/-! ## Pruning -/

def reachedPositions (body : Vector Instruction n) : List (Fin n) :=
  (List.finRange n).filter (Graph.ofSuccessors (Flow.targets body)).reachable.get

theorem mem_reachedPositions {p : Fin n} :
    p ∈ reachedPositions body ↔ Reached (Flow.targets body) p := by
  simp only [reachedPositions, List.mem_filter, List.mem_finRange, true_and, Graph.reachable,
    NodeSet.get_ofList, Graph.preorder, mem_visit, Reached]
  constructor
  · exact Met.mono (fun p q hq => by rwa [Graph.get_successors] at hq) fun _ h => h
  · exact Met.mono (fun p q hq => by rwa [Graph.get_successors]) fun _ h => h

theorem closed_reachedPositions (body : Vector Instruction n) :
    Closed body (reachedPositions body) where
  sorted := (List.pairwise_lt_finRange n).filter _
  entry hpos := mem_reachedPositions.2 (.start (by simp [Graph.firstPosition?, hpos]))
  edge p hp q hq := mem_reachedPositions.2 (.step (mem_reachedPositions.1 hp) hq)

theorem reachablePart_eq (body : Vector Instruction n) :
    reachablePart (.ofSuccessors (Flow.targets body)) body =
      (restrict body (reachedPositions body)).toArray := by
  apply Array.ext
  · simp [reachablePart, reachedPositions]
  · intro i h h'
    simp [reachablePart, reachedPositions, restrict]

theorem connected_restrict (hpos : 0 < n)
    (hdfd : TargetsDefined body) : Connected (restrict body (reachedPositions body)) where
  nonempty := List.length_pos_of_mem ((closed_reachedPositions body).entry hpos)
  defined i label htgt := by
    rw [get_restrict] at htgt
    obtain ⟨q, hq⟩ := Option.isSome_iff_exists.1 (hdfd _ label htgt)
    have hmem : q ∈ reachedPositions body := (closed_reachedPositions body).edge _ (List.get_mem _ i) _
      (Flow.mem_targets.2 (.inl ⟨label, htgt, hq⟩))
    obtain ⟨j, rfl⟩ := List.mem_iff_get.1 hmem
    rw [(closed_reachedPositions body).labelPosition? hq]
    rfl
  reached i := (closed_reachedPositions body).reached
    (mem_reachedPositions.1 (List.get_mem _ i)) i rfl

theorem basesFixed_restrict (h : BasesFixed act body)
    (kept : List (Fin n)) : BasesFixed act (restrict body kept) := by
  refine ⟨fun p b hb => ?_, fun p q b hb => ?_, h.separate⟩
  · rw [get_restrict] at hb
    exact h.array_or_parameter _ b hb
  · rw [get_restrict] at hb ⊢
    exact h.never_defined _ _ b hb

theorem prune_spec (hpos : 0 < function.body.size) (hdfd : TargetsDefined function.body.toVector) :
    (prune function).result = .ok { function with
      body := (restrict function.body.toVector (reachedPositions function.body.toVector)).toArray } := by
  have hempty : function.body.isEmpty = false := by
    rw [Array.isEmpty_eq_false_iff]
    exact Array.size_pos_iff.1 hpos
  simp only [prune, result_bind, result_ofExcept, Graph.ofBody_eq _ hdfd, ok_bind,
    hempty, Bool.false_eq_true, if_false, reachablePart_eq]
  split <;> rfl

/-! ## The optimizer -/

/-- The optimizer goes over what is left after pruning. -/
theorem optimizeFunction_eq (hpos : 0 < function.body.size)
    (hdfd : TargetsDefined function.body.toVector) :
    ∃ pruned : Function, pruned = { function with body :=
        (restrict function.body.toVector (reachedPositions function.body.toVector)).toArray } ∧
      (optimizeFunction function).result = (rounds 1 pruned maxRounds).result ∧
      ∃ other, (rounds 1 pruned maxRounds).result = .ok other ∧ Improved pruned other ∧
        Connected other.body.toVector := by
  refine ⟨_, rfl, ?_, rounds_spec _ _ _ (connected_restrict hpos hdfd).toVector⟩
  simp only [optimizeFunction, result_bind, prune_spec hpos hdfd, ok_bind]

theorem TargetsDefined.of_count (h : ∀ i ∈ function.body, ∀ label, i.target? = some label →
    function.body.count (.label label) = 1) : TargetsDefined function.body.toVector := by
  intro p label htgt
  have hcnt := h _ (Array.getElem_mem p.isLt) label htgt
  have hmem : .label label ∈ function.body := Array.count_pos_iff.1 (by omega)
  obtain ⟨i, hi, hlab⟩ := Array.getElem_of_mem hmem
  refine List.find?_isSome.2 ⟨⟨i, hi⟩, List.mem_reverse.2 (List.mem_finRange _), ?_⟩
  exact decide_eq_true hlab

theorem BasesFixed.of_wellFormed {world : World}
    (h : WellFormed globals function) (hworld : world.Separates globals function) :
    BasesFixed (world.activation globals function) function.body.toVector where
  array_or_parameter p b hb := by
    refine (h.bases _ (Array.getElem_mem p.isLt) b hb).imp_left fun harr => ?_
    obtain ⟨decl, hdecl, hsz⟩ := (Option.any_eq_true _ _).1 harr
    simp [World.activation, World.array?, hdecl, hsz]
  never_defined p q b hb := h.fixed _ (Array.getElem_mem p.isLt) b hb _ (Array.getElem_mem q.isLt)
  separate := hworld

theorem slotsLocal_activation (world : World) (globals : List Decl) (function : Function) :
    SlotsLocal (world.activation globals function) (Slots.ofFunction function) := by
  intro x hx
  obtain ⟨slot, hslot⟩ := Option.isSome_iff_exists.1 hx
  have hsym := Slots.symbol_of_find? hslot
  refine List.any_eq_true.2 ⟨_, ?_, decide_eq_true hsym⟩
  exact List.getElem_mem _

theorem optimizeFunction_spec (h : WellFormed globals function) :
    ∃ other, (optimizeFunction function).result = .ok other ∧
      SameBehavior globals function other := by
  have hpos : 0 < function.body.size := Array.size_pos_iff.2 h.nonempty
  have hdfd := TargetsDefined.of_count h.targets
  let pruned := restrict function.body.toVector (reachedPositions function.body.toVector)
  obtain ⟨_, rfl, heq, other, hrnds, himpd, -⟩ := optimizeFunction_eq hpos hdfd
  refine ⟨other, heq.trans hrnds, ?_⟩
  obtain ⟨body, hoth⟩ : ∃ body, other = { function with body := body } :=
    ⟨other.body, himpd.only_body⟩
  subst hoth
  refine ⟨rfl, rfl, rfl, fun world hworld scalars memory steps => ?_⟩
  have hbases := BasesFixed.of_wellFormed h hworld
  have hpruned : BasesFixed (world.activation globals function) pruned.toArray.toVector :=
    basesFixed_toVector (basesFixed_restrict hbases _)
  have hruns := himpd.runs (world.activation globals function)
    (slotsLocal_activation world globals function) hpruned (.start scalars memory) rfl steps
  have hclo := closed_reachedPositions function.body.toVector
  have hstart : Corresponds (reachedPositions function.body.toVector) (.start scalars memory)
      (.start scalars memory) := by
    obtain ⟨i, hi⟩ := List.mem_iff_get.1 (hclo.entry hpos)
    have hz : ((reachedPositions function.body.toVector).get i).val = 0 := by rw [hi]
    exact ⟨0, rfl, .inl ⟨i, (hclo.first hz).symm, hz.symm⟩⟩
  calc ((world.activation globals function).run body.toVector steps (.start scalars memory)).unplaced
    _ = ((world.activation globals function).run pruned.toArray.toVector steps
          (.start scalars memory)).unplaced := congrArg Outcome.unplaced hruns
    _ = ((world.activation globals function).run pruned steps (.start scalars memory)).unplaced :=
        by rw [run_toVector]
    _ = _ := hclo.run steps hstart

/-- The optimizer succeeds on every well-formed program and preserves what its functions do. -/
theorem optimize_preserves_behavior (program : Program)
    (h : ∀ function ∈ program.code, WellFormed program.globals function) :
    ∃ optimized, (optimize program).result = .ok optimized ∧
      optimized.globals = program.globals ∧
      List.Forall₂ (SameBehavior program.globals) program.code optimized.code := by
  have hcode : ∃ code, program.code.mapM (fun f => (optimizeFunction f).result) = .ok code ∧
      List.Forall₂ (SameBehavior program.globals) program.code code := by
    generalize program.code = functions at h
    induction functions with
    | nil => exact ⟨[], rfl, .nil⟩
    | cons function functions ih =>
      obtain ⟨other, hother, hsame⟩ := optimizeFunction_spec (h function List.mem_cons_self)
      obtain ⟨others, hothers, hsames⟩ := ih fun f hf => h f (List.mem_cons_of_mem _ hf)
      exact ⟨other :: others, mapM_eq_ok.2 (.cons hother (mapM_eq_ok.1 hothers)), .cons hsame hsames⟩
  obtain ⟨code, hresult, hsame⟩ := hcode
  refine ⟨{ program with code := code }, ?_, rfl, hsame⟩
  simp only [optimize, result_bind, result_mapM, hresult, ok_bind]
  rfl

/-- A function with a loop that adds an element of the global array `T0` to itself, keeps the sum
in the global `T1` and adds the element again, the other way around, in front of its return. -/
def doubling : Program where
  globals := [⟨.var 0, some 4⟩, ⟨.var 1, none⟩]
  code := [{
    name := "double"
    parameters := 1
    decls := [⟨.temp 0, none⟩, ⟨.temp 1, none⟩, ⟨.temp 2, none⟩]
    body := #[
      .label ⟨0⟩,
      .load (.temp 0) (.var 0) (.const 4),
      .load (.temp 1) (.var 0) (.const 4),
      .binary (.temp 2) .add (.symbol (.temp 0)) (.symbol (.temp 1)),
      .copy (.var 1) (.symbol (.temp 2)),
      .branch (.symbol (.temp 2)) .lt (.const 10) ⟨0⟩,
      .binary (.temp 2) .add (.symbol (.temp 1)) (.symbol (.temp 0)),
      .store (.param 0) (.const 0) (.symbol (.temp 2)),
      .return (some (.symbol (.temp 2)))] }]

theorem doubling_optimized :
    (∀ function ∈ doubling.code, WellFormed doubling.globals function) ∧
      ∃ optimized, (optimize doubling).result = .ok optimized ∧
        optimized.globals = doubling.globals ∧
        List.Forall₂ (SameBehavior doubling.globals) doubling.code optimized.code := by
  have hwell : ∀ function ∈ doubling.code, WellFormed doubling.globals function := by
    intro function hfunction
    obtain rfl := List.mem_singleton.1 hfunction
    refine ⟨by decide, ?_, ?_, ?_⟩
    · simp [Instruction.target?]
    · simp [Instruction.base?]
      decide
    · simp [Instruction.base?, Instruction.definition]
      decide
  exact ⟨hwell, optimize_preserves_behavior doubling hwell⟩

end SysY.Optimization

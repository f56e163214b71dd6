import SysY.Proofs.Compiler.Definitions
import SysY.Proofs.Optimization.Reachability

/-!
# Dead code after returns

A flow graph lets a return go on to the next position, and so does pruning. What is left after it is
reached in this graph. When it runs, a return ends the function; an instruction of the optimized code
that cannot run then is one that only returns lead to, and `unexecuted_iff_behind_return` says where
it stands: behind a return that can run, in a stretch of code that nothing else leads into.
-/

namespace SysY.Flow

open Eeyore

variable {n : Nat} {body : Vector Instruction n} {p q : Fin n}

/-- Where control goes when it runs: from a return, nowhere. -/
def continuations (body : Vector Instruction n) (p : Fin n) : List (Fin n) :=
  match body.get p with
  | .return _ => []
  | _ => targets body p

/-- Control can come to a position. -/
def Executed (body : Vector Instruction n) (p : Fin n) : Prop :=
  ∃ path, Path (continuations body) ⟨0, p.pos⟩ p path

theorem executed_entry (hpos : 0 < n) : Executed body ⟨0, hpos⟩ := ⟨_, .single _⟩

theorem Executed.step (h : Executed body p) (hq : q ∈ continuations body p) : Executed body q := by
  obtain ⟨path, hpath⟩ := h
  exact ⟨_, hpath.concat hq⟩

theorem return_of_not_mem_continuations (hq : q ∈ targets body p) (hnot : q ∉ continuations body p) :
    (∃ value, body.get p = .return value) ∧ q.val = p.val + 1 := by
  unfold continuations at hnot
  split at hnot
  · rename_i value hreturn
    refine ⟨⟨value, hreturn⟩, ?_⟩
    rcases mem_targets.1 hq with ⟨label, htarget, -⟩ | ⟨-, hnext⟩
    · rw [hreturn] at htarget
      cases htarget
    · exact hnext
  · exact absurd hq hnot

/-- A stretch of code that control cannot come to, from the position behind a return to another one.
-/
structure BehindReturn (body : Vector Instruction n) (r q p : Fin n) (path : List (Fin n)) :
    Prop where
  returns : ∃ value, body.get r = .return value
  next : q.val = r.val + 1
  executed : Executed body r
  leads : Path (targets body) q p path
  unexecuted : ∀ a ∈ path, ¬ Executed body a

theorem exists_behindReturn (h : Reached (targets body) p) (hnot : ¬ Executed body p) :
    ∃ r q path, BehindReturn body r q p path := by
  induction h with
  | @start p hp =>
    have hfirst : p = ⟨0, p.pos⟩ := by simpa [Graph.firstPosition?, p.pos] using hp
    exact absurd (hfirst ▸ executed_entry p.pos) hnot
  | @step p q _ hq ih =>
    by_cases hp : Executed body p
    · obtain ⟨hreturns, hnext⟩ :=
        return_of_not_mem_continuations hq fun hmem => hnot (hp.step hmem)
      exact ⟨p, q, [q], hreturns, hnext, hp, .single q, by simpa using hnot⟩
    · obtain ⟨r, first, path, hbehind⟩ := ih hp
      refine ⟨r, first, path ++ [q], hbehind.returns, hbehind.next, hbehind.executed,
        hbehind.leads.concat hq, fun a ha => ?_⟩
      rcases List.mem_append.1 ha with ha | ha
      · exact hbehind.unexecuted a ha
      · rw [List.mem_singleton.1 ha]
        exact hnot

theorem Path.last_mem {next : Fin n → List (Fin n)} {path : List (Fin n)}
    (h : Path next p q path) : q ∈ path := by
  induction h with
  | single p => exact List.mem_cons_self
  | cons _ _ ih => exact List.mem_cons_of_mem _ ih

end SysY.Flow

namespace SysY.Optimization

open Eeyore SysY.Flow

theorem optimize_eq_ok {program optimized : Program}
    (h : (optimize program).result = .ok optimized) :
    List.Forall₂ (fun f g => (optimizeFunction f).result = .ok g) program.code optimized.code := by
  simp only [optimize, Logged.result_bind, Logged.result_mapM] at h
  obtain ⟨code, hcode, h⟩ := bind_eq_ok.1 h
  cases h
  exact mapM_eq_ok.1 hcode

end SysY.Optimization

namespace SysY.Compiler

open Eeyore Generation Optimization SysY.Flow

theorem connected_of_optimize {tree : Tree.Program} {program optimized : Program}
    (h : (generate tree).result = .ok program) (hopt : (optimize program).result = .ok optimized) :
    ∀ g ∈ optimized.code, Connected g.body.toVector := by
  intro g hg
  obtain ⟨sigs, -, hlaw⟩ := law_generate h
  obtain ⟨f, hf, hfg⟩ := exists_of_forall₂ (optimize_eq_ok hopt) hg
  obtain ⟨source, -, hlaw⟩ := exists_of_forall₂ hlaw.functions hf
  have hpos : 0 < f.body.size := by
    simpa [Function.controls] using (ended_of_law hlaw).length_pos
  obtain ⟨_, -, heq, other, hother, -, hconnected⟩ :=
    optimizeFunction_eq hpos (targetsDefined_of_aimed (aimed_of_law hlaw))
  cases hfg.symm.trans (heq.trans hother)
  exact hconnected

/-- The optimizer succeeds on the code of every program. In the result, the flow graph leads to every
position, and control cannot come to a position exactly if it stands behind a return that can run, in
a stretch of code to which control cannot come. -/
theorem unexecuted_iff_behind_return {tree : Tree.Program} {program : Program}
    (h : (generate tree).result = .ok program) :
    ∃ optimized, (optimize program).result = .ok optimized ∧
      ∀ g ∈ optimized.code, ∀ p : Fin g.body.size,
        (∃ path, Path (targets g.body.toVector) ⟨0, p.pos⟩ p path) ∧
        (¬ Executed g.body.toVector p ↔
          ∃ r q path, BehindReturn g.body.toVector r q p path) := by
  obtain ⟨sigs, -, hlaw⟩ := law_generate h
  obtain ⟨optimized, hopt, -, -⟩ := law_optimize hlaw
  refine ⟨optimized, hopt, fun g hg p => ?_⟩
  have hreached := (connected_of_optimize h hopt g hg).reached p
  refine ⟨reached_iff_path.1 hreached, exists_behindReturn hreached, ?_⟩
  rintro ⟨r, q, path, hbehind⟩
  exact hbehind.unexecuted p hbehind.leads.last_mem

theorem counting_executed : ∃ program optimized, (generate counting).result = .ok program ∧
    (optimize program).result = .ok optimized ∧
    ∀ g ∈ optimized.code, ∀ p : Fin g.body.size,
      Executed g.body.toVector p ∨ ∃ r q path, BehindReturn g.body.toVector r q p path := by
  obtain ⟨program, h⟩ := counting_accepted
  obtain ⟨optimized, hopt, hall⟩ := unexecuted_iff_behind_return h
  refine ⟨program, optimized, h, hopt, fun g hg p => ?_⟩
  by_cases hp : Executed g.body.toVector p
  · exact .inl hp
  · exact .inr ((hall g hg p).2.1 hp)

/-- The bodies of the optimized functions of a program. -/
def optimizedBodies (tree : Tree.Program) : Option (List (Array Instruction)) := do
  let program ← (generate tree).result.toOption
  let optimized ← (optimize program).result.toOption
  return optimized.code.map (·.body)

/-- A function that returns twice. -/
def returningTwice : Tree.Program where
  items := [
    .function ⟨.int, unplaced "main", [],
      .statement (.return (some (exprOf [.literal 0 .unknown])) .unknown)
      (.statement (.return (some (exprOf [.literal 1 .unknown])) .unknown) .nil)⟩]
  stop := .unknown

theorem second_return_stays : ∃ program optimized,
    (generate returningTwice).result = .ok program ∧ (optimize program).result = .ok optimized ∧
      ∃ g ∈ optimized.code, ∃ p : Fin g.body.size, ¬ Executed g.body.toVector p := by
  have hbodies : optimizedBodies returningTwice =
      some [#[.return (some (.const 0)), .return (some (.const 1))]] := by cbv
  obtain ⟨program, hprogram, hbodies⟩ := Option.bind_eq_some_iff.1 hbodies
  obtain ⟨optimized, hoptimized, hbodies⟩ := Option.bind_eq_some_iff.1 hbodies
  obtain ⟨⟨name, parameters, decls, body⟩, hcode, rfl⟩ :=
    List.map_eq_singleton_iff.1 (Option.some.inj hbodies)
  have hmem := hcode ▸ List.mem_cons_self
  refine ⟨program, optimized, eq_ok_of_toOption hprogram, eq_ok_of_toOption hoptimized, _, hmem,
    ⟨1, Nat.lt_succ_self 1⟩, ?_⟩
  rintro ⟨path, hpath⟩
  cases hpath with
  | cons hq _ => cases hq

end SysY.Compiler

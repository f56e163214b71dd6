import SysY.Proofs.Flow.Control
import SysY.Proofs.Generation.Growth
import SysY.Proofs.Optimization.Optimizer

/-!
# The shape of optimized code

A pass replaces instructions one at a time, and it never makes up a symbol: an operand becomes a
symbol that the body copies somewhere, and a computation becomes a copy of a symbol that the body
defines somewhere. A property of instructions that survives this is `Stable`, and it holds of
optimized code if it held of the code before. Labels, jumps and returns stay where they are.

Pruning takes whole instructions out. The label of a jump that stays is reached, so it stays too, and
what is left ends with a jump or a return if the whole did.
-/

namespace SysY.Eeyore

/-- What an instruction means for the flow of control. -/
def Instruction.control (i : Instruction) : Control := ⟨i.label?, i.target?, i.isTerminator⟩

/-- The skeleton of a function. -/
def Function.controls (f : Function) : List Control := f.body.toList.map (·.control)

theorem labels_map_control (xs : List Instruction) :
    Control.labels (xs.map (·.control)) = setLabels xs := List.filterMap_map ..

end SysY.Eeyore

namespace SysY.Optimization

open Eeyore SysY.Flow
open Control (Aimed Ended)

variable {n k : Nat} {i j : Instruction} {xs ys zs : List Instruction} {body : Vector Instruction n}
  {f : Function} {computation : Computation}

/-! ## What a pass does to an instruction -/

/-- A property of instructions that a pass keeps, as long as all instructions of the body have it. -/
structure Stable (P : Instruction → Prop) : Prop where
  propagated : ∀ {i : Instruction} {copies : List (Symbol × Symbol)}, P i →
    (∀ x source, copies.lookup x = some source → ∃ dest, P (.copy dest (.symbol source))) →
    P (Pass.propagate copies i)
  repeated : ∀ {i j : Instruction} {dest prior : Symbol} {computation : Computation}, P i →
    Computation.ofInstruction? i = some (dest, computation) → P j → j.definition = some prior →
    P (.copy dest (.symbol prior))

/-- Code with the same skeleton and all the stable properties. -/
structure Reworked (xs ys : List Instruction) : Prop where
  control : ys.map (·.control) = xs.map (·.control)
  keeps : ∀ P, Stable P → (∀ i ∈ xs, P i) → ∀ i ∈ ys, P i

theorem Reworked.refl (xs : List Instruction) : Reworked xs xs := ⟨rfl, fun _ _ h => h⟩

theorem Reworked.trans (h1 : Reworked xs ys) (h2 : Reworked ys zs) : Reworked xs zs :=
  ⟨h2.control.trans h1.control, fun P hstb h => h2.keeps P hstb (h1.keeps P hstb h)⟩

theorem control_propagate (copies : List (Symbol × Symbol)) (i : Instruction) :
    (Pass.propagate copies i).control = i.control := by
  cases i <;> rfl

theorem control_of_computation {dest : Symbol} (value : Value)
    (h : Computation.ofInstruction? i = some (dest, computation)) :
    (Instruction.copy dest value).control = i.control := by
  cases i <;> first | rfl | cases h

theorem reworked_put {p : Fin n} (hctl : i.control = (body.get p).control)
    (hkps : ∀ P, Stable P → (∀ q, P (body.get q)) → P i) :
    Reworked body.toList (put body p i).toList := by
  refine ⟨List.ext_getElem (by simp) fun q hq hq' => ?_, fun P hstb h => ?_⟩
  · have hlt : q < n := by simpa using hq
    have hget := get_put body p i ⟨q, hlt⟩
    simp only [List.getElem_map, Vector.getElem_toList]
    rw [← get_eq_getElem _ ⟨q, hlt⟩, ← get_eq_getElem _ ⟨q, hlt⟩, hget]
    split
    · rename_i heq
      rw [heq, hctl]
    · rfl
  · have hall : ∀ q, P (body.get q) := fun q => h _ (by
      rw [get_eq_getElem, ← Vector.getElem_toList (by simp)]
      exact List.getElem_mem _)
    intro j hj
    obtain ⟨q, hq, rfl⟩ := List.getElem_of_mem hj
    have hlt : q < n := by simpa using hq
    rw [Vector.getElem_toList, ← get_eq_getElem _ ⟨q, hlt⟩, get_put]
    split
    · exact hkps P hstb hall
    · exact hall _

/-! ## Passes -/

section Passes

variable {pass pass' : Pass n} {graph : Graph n} {slots : Slots k} {p : Fin n} {x source : Symbol}

theorem copySource?_eq_some (h : pass.copySource? graph slots p x = some source) :
    ∃ q dest, pass.body.get q = .copy dest (.symbol source) := by
  obtain ⟨q, -, h⟩ := Option.bind_eq_some_iff.1 h
  split at h
  · rename_i dest other hcopy
    split at h
    · cases h
      exact ⟨q, dest, hcopy⟩
    · cases h
  · cases h

theorem lookup_copies (h : (pass.copies graph slots p).lookup x = some source) :
    ∃ q dest, pass.body.get q = .copy dest (.symbol source) := by
  have hmem : (x, source) ∈ pass.copies graph slots p := by
    obtain ⟨front, back, heq, -⟩ := List.lookup_eq_some_iff.1 h
    rw [heq]
    exact List.mem_append_right _ List.mem_cons_self
  obtain ⟨symbol, -, hsym⟩ := List.mem_filterMap.1 hmem
  obtain ⟨_, hsrc, ⟨⟩⟩ := Option.map_eq_some_iff.1 hsym
  exact copySource?_eq_some hsrc

theorem holder?_eq_ok_some {prior : Symbol}
    (h : pass.holder? graph slots p computation = .ok (some prior)) :
    ∃ q, (pass.body.get q).definition = some prior := by
  unfold Pass.holder? at h
  split at h
  · cases h
  · rename_i q _
    split at h
    · cases h
    · rename_i other hdef
      split at h
      · cases h
        exact ⟨q, hdef⟩
      · cases h

theorem reworked_improveAt (h : pass.improveAt graph slots p = .ok pass') :
    Reworked pass.body.toList pass'.body.toList := by
  have hpropagated : ∀ P, Stable P → (∀ q, P (pass.body.get q)) →
      P (Pass.propagate (pass.copies graph slots p) (pass.body.get p)) := by
    intro P hstb hall
    refine hstb.propagated (hall p) fun x source hsrc => ?_
    obtain ⟨q, dest, hcopy⟩ := lookup_copies hsrc
    exact ⟨dest, hcopy ▸ hall q⟩
  have hpln := reworked_put (control_propagate (pass.copies graph slots p) (pass.body.get p))
    hpropagated
  unfold Pass.improveAt at h
  dsimp only at h
  split at h
  · cases h
    exact hpln
  · rename_i dest computation hcpn
    obtain ⟨holder, hholder, h⟩ := bind_eq_ok.1 h
    cases holder with
    | none =>
      cases h
      exact hpln
    | some prior =>
      cases h
      refine reworked_put ?_ fun P hstb hall => ?_
      · rw [control_of_computation _ hcpn, control_propagate]
      · obtain ⟨q, hprior⟩ := holder?_eq_ok_some hholder
        exact hstb.repeated (hpropagated P hstb hall) hcpn (hall q) hprior

theorem reworked_foldlM {visit : Pass n → Fin n → Except Fault (Pass n)}
    (hvisit : ∀ {pass pass' q}, visit pass q = .ok pass' →
      Reworked pass.body.toList pass'.body.toList) {children : List (Fin n)}
    (h : children.foldlM visit pass = .ok pass') : Reworked pass.body.toList pass'.body.toList := by
  induction children generalizing pass with
  | nil =>
    cases h
    exact .refl _
  | cons q children ih =>
    obtain ⟨next, hnxt, hrest⟩ := bind_eq_ok.1 h
    exact (hvisit hnxt).trans (ih hrest)

theorem reworked_run {tree : DominatorTree n} {depth : Nat}
    (h : Pass.run graph slots tree depth p pass = .ok pass') :
    Reworked pass.body.toList pass'.body.toList := by
  induction depth generalizing p pass pass' with
  | zero =>
    cases h
    exact .refl _
  | succ depth ih =>
    obtain ⟨first, hfst, hrest⟩ := bind_eq_ok.1 h
    obtain ⟨last, hlast, hrst⟩ := bind_eq_ok.1 hrest
    obtain ⟨facts, -, hres⟩ := bind_eq_ok.1 hrst
    cases hres
    have hch : Reworked first.body.toList last.body.toList :=
      reworked_foldlM (fun hvisit => ih hvisit) hlast
    exact (reworked_improveAt hfst).trans hch

theorem reworked_onePass {result : Vector Instruction n × List Change}
    (h : onePass graph slots body = .ok result) : Reworked body.toList result.1.toList := by
  obtain ⟨tree, -, h⟩ := bind_eq_ok.1 h
  split at h
  · cases h
  · obtain ⟨pass, hrun, h⟩ := bind_eq_ok.1 h
    cases h
    exact reworked_run hrun

end Passes

/-! ## Rounds -/

theorem reworked_round {number count : Nat} {g : Function}
    (h : (round number f).result = .ok (g, count)) : Reworked f.body.toList g.body.toList := by
  simp only [round, Logged.result_bind, Logged.result_ofExcept] at h
  obtain ⟨graph, -, h⟩ := bind_eq_ok.1 h
  obtain ⟨result, hpass, h⟩ := bind_eq_ok.1 h
  obtain ⟨_, -, h⟩ := bind_eq_ok.1 h
  obtain ⟨_, -, h⟩ := bind_eq_ok.1 h
  cases h
  exact reworked_onePass hpass

theorem reworked_rounds {left : Nat} : ∀ {number : Nat} {f g : Function},
    (rounds number f left).result = .ok g → Reworked f.body.toList g.body.toList := by
  induction left with
  | zero =>
    intro number f g h
    cases h
    exact .refl _
  | succ left ih =>
    intro number f g h
    simp only [rounds, Logged.result_bind] at h
    obtain ⟨⟨next, count⟩, hround, h⟩ := bind_eq_ok.1 h
    dsimp only at h
    split at h
    · cases h
      exact reworked_round hround
    · exact (reworked_round hround).trans (ih h)

/-! ## Functions -/

/-- Code in good shape that comes from other code. -/
structure Shaped (xs ys : List Instruction) : Prop where
  aimed : Aimed (ys.map (·.control))
  ended : Ended (ys.map (·.control))
  labels : (setLabels ys).Sublist (setLabels xs)
  keeps : ∀ P, Stable P → (∀ i ∈ xs, P i) → ∀ i ∈ ys, P i

theorem Shaped.rework (h : Shaped xs ys) (hreworked : Reworked ys zs) : Shaped xs zs where
  aimed := hreworked.control ▸ h.aimed
  ended := hreworked.control ▸ h.ended
  labels := by
    rw [← labels_map_control zs, hreworked.control, labels_map_control]
    exact h.labels
  keeps P hstb hall := hreworked.keeps P hstb (h.keeps P hstb hall)

theorem targetsDefined_of_aimed (h : Aimed f.controls) :
    TargetsDefined f.body.toVector := by
  intro p label htgt
  have hlab := h _ (List.mem_map_of_mem (Array.getElem_mem_toList p.isLt)) label htgt
  rw [Function.controls, labels_map_control] at hlab
  obtain ⟨i, hi, hlab⟩ := List.mem_filterMap.1 hlab
  have hi' : i = .label label := by
    cases i <;> cases hlab
    rfl
  obtain ⟨q, hq, hget⟩ := List.getElem_of_mem hi
  refine List.find?_isSome.2 ⟨⟨q, by simpa using hq⟩, List.mem_reverse.2 (List.mem_finRange _), ?_⟩
  exact decide_eq_true (hget.trans hi')

theorem toList_restrict (body : Vector Instruction n) (kept : List (Fin n)) :
    (restrict body kept).toList = kept.map body.get := by
  refine List.ext_getElem (by simp) fun i hi hi' => ?_
  have hlt : i < kept.length := by simpa using hi
  rw [Vector.getElem_toList, ← get_eq_getElem _ ⟨i, hlt⟩, get_restrict, List.getElem_map]
  rfl

theorem map_get_finRange (body : Vector Instruction n) :
    (List.finRange n).map body.get = body.toList :=
  List.ext_getElem (by simp) fun i hi hi' => by
    rw [List.getElem_map, Vector.getElem_toList, List.getElem_finRange]
    rfl

theorem isTerminator_of_ended (h : Ended (body.toList.map (·.control))) {p : Fin n}
    (hp : p.val + 1 = n) : (body.get p).isTerminator = true := by
  obtain ⟨front, c, hcode, hstp⟩ := h
  have hlen := congrArg List.length hcode
  simp only [List.length_map, Vector.length_toList, List.length_append, List.length_singleton]
    at hlen
  have hget : (body.toList.map (·.control))[p.val]? = some c := by
    rw [hcode, show p.val = front.length by omega, List.getElem?_concat_length]
  rw [List.getElem?_map, List.getElem?_eq_getElem (by simp), Vector.getElem_toList,
    ← get_eq_getElem _ p] at hget
  cases hget
  exact hstp

theorem ended_reachedPositions (hpos : 0 < n) (hended : Ended (body.toList.map (·.control))) :
    Ended (((reachedPositions body).map body.get).map (·.control)) := by
  have hclo := closed_reachedPositions body
  have hne : reachedPositions body ≠ [] := List.ne_nil_of_mem (hclo.entry hpos)
  obtain ⟨front, p, hfro⟩ : ∃ front p, reachedPositions body = front ++ [p] :=
    ⟨_, _, (List.dropLast_concat_getLast hne).symm⟩
  have hmem : p ∈ reachedPositions body := by simp [hfro]
  have hmax : ∀ q ∈ reachedPositions body, q ≤ p := by
    intro q hq
    have hsorted := hclo.sorted
    rw [hfro, List.pairwise_append] at hsorted
    rw [hfro, List.mem_append, List.mem_singleton] at hq
    rcases hq with hq | rfl
    · exact Nat.le_of_lt (hsorted.2.2 q hq p List.mem_cons_self)
    · exact Nat.le_refl _
  refine ⟨(front.map body.get).map (·.control), (body.get p).control, by simp [hfro], ?_⟩
  by_contra hgoes
  by_cases hnxt : p.val + 1 < n
  · have hedge : (⟨p.val + 1, hnxt⟩ : Fin n) ∈ Flow.targets body p := by
      refine Flow.mem_targets.2 (.inr ⟨fun l hjump => hgoes ?_, rfl⟩)
      rw [hjump]
      rfl
    have hle : p.val + 1 ≤ p.val := hmax _ (hclo.edge p hmem _ hedge)
    omega
  · exact hgoes (isTerminator_of_ended hended (by omega))

theorem shaped_restrict (hpos : 0 < n) (hdfd : TargetsDefined body)
    (hended : Ended (body.toList.map (·.control))) :
    Shaped body.toList (restrict body (reachedPositions body)).toList := by
  have hclo := closed_reachedPositions body
  have hsub : ((reachedPositions body).map body.get).Sublist body.toList := by
    rw [← map_get_finRange]
    exact List.filter_sublist.map _
  rw [toList_restrict]
  refine ⟨fun c hc l hl => ?_, ended_reachedPositions hpos hended, hsub.filterMap _,
    fun P _ hall i hi => hall i (hsub.subset hi)⟩
  obtain ⟨i, hi, rfl⟩ := List.mem_map.1 hc
  obtain ⟨p, hp, rfl⟩ := List.mem_map.1 hi
  obtain ⟨q, hq⟩ := Option.isSome_iff_exists.1 (hdfd p l hl)
  have hrch : q ∈ reachedPositions body := hclo.edge p hp q (Flow.mem_targets.2 (.inl ⟨l, hl, hq⟩))
  rw [labels_map_control]
  refine List.mem_filterMap.2 ⟨_, List.mem_map_of_mem hrch, ?_⟩
  rw [(Flow.labelPosition?_eq_some.1 hq).1]
  rfl

theorem optimizeFunction_shaped (haimed : Aimed f.controls) (hended : Ended f.controls) :
    ∃ g, (optimizeFunction f).result = .ok g ∧ g = { f with body := g.body } ∧
      Shaped f.body.toList g.body.toList := by
  have hpos : 0 < f.body.size := by simpa [Function.controls] using hended.length_pos
  have hdfd := targetsDefined_of_aimed haimed
  obtain ⟨_, rfl, heq, g, hrnds, himpd, -⟩ := optimizeFunction_eq hpos hdfd
  exact ⟨g, heq.trans hrnds, himpd.only_body,
    (shaped_restrict hpos hdfd hended).rework (reworked_rounds hrnds)⟩

end SysY.Optimization

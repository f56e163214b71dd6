import SysY.Flow.Liveness
import SysY.Proofs.Flow.Marking
import SysY.Proofs.Flow.Paths
import SysY.Proofs.Flow.Slots

/-!
# What liveness means

A slot is live into every position that reads it, and it is live into a position if it is live into
one that follows and is not written in between. So it is live into a position exactly if some path
leads from there to a read, and no position before the read writes it: `liveness_exact`. Two slots
interfere exactly if they are live into one position.
-/

namespace SysY.Flow

open Eeyore Graph

variable {n k : Nat} {row : Array (Fin k)} {member slot a b : Fin k} {slots : Slots k}

/-! ## Rows in order -/

theorem foundBetween_iff (hrow : row.toList.Pairwise (· < ·))
    {low high : Nat} (h : high ≤ row.size) :
    foundBetween row member low high h = true ↔
      ∃ i, low ≤ i ∧ i < high ∧ row[i]? = some member := by
  have hlt : ∀ {i j : Nat} {a b : Fin k}, row[i]? = some a → row[j]? = some b → a < b → i < j := by
    intro i j a b ha hb hab
    obtain ⟨hi, rfl⟩ := Array.getElem?_eq_some_iff.1 ha
    obtain ⟨hj, rfl⟩ := Array.getElem?_eq_some_iff.1 hb
    rcases Nat.lt_trichotomy i j with hij | rfl | hij
    · exact hij
    · exact absurd hab (Fin.lt_irrefl _)
    · have := List.pairwise_iff_getElem.1 hrow j i hj hi hij
      exact absurd hab (Fin.not_lt.2 (Fin.le_of_lt this))
  fun_induction foundBetween row member low high h with
  | case1 low high h hlow middle hmid heq =>
    refine iff_of_true rfl ⟨middle, by omega, by omega, ?_⟩
    rw [Array.getElem?_eq_getElem hmid, heq]
  | case2 low high h hlow middle hmid hne hless ih =>
    -- what lies up to the middle is too small
    refine Iff.trans ih (exists_congr fun i => ⟨fun ⟨hi, hrest⟩ => ⟨by omega, hrest⟩, ?_⟩)
    rintro ⟨hi, hhigh, hget⟩
    exact ⟨hlt (Array.getElem?_eq_getElem hmid) hget hless, hhigh, hget⟩
  | case3 low high h hlow middle hmid hne hless ih =>
    refine Iff.trans ih (exists_congr fun i => ⟨fun ⟨hi, hhigh, hget⟩ => ⟨hi, by omega, hget⟩, ?_⟩)
    rintro ⟨hi, hhigh, hget⟩
    have hgreater : member < row[middle] :=
      Nat.lt_of_le_of_ne (Fin.not_lt.1 hless) fun heq => hne (Fin.ext heq.symm)
    exact ⟨hi, hlt hget (Array.getElem?_eq_getElem hmid) hgreater, hget⟩
  | case4 low high h hlow =>
    refine iff_of_false Bool.false_ne_true ?_
    rintro ⟨i, hi, hhigh, -⟩
    omega

theorem found_iff (hrow : row.toList.Pairwise (· < ·)) :
    found row member = true ↔ member ∈ row := by
  rw [found, foundBetween_iff hrow, Array.mem_iff_getElem?]
  refine exists_congr fun i => ⟨fun h => h.2.2, fun h => ⟨Nat.zero_le i, ?_, h⟩⟩
  exact (Array.getElem?_eq_some_iff.1 h).1

/-! ## Liveness -/

theorem mem_usePositions {body : Vector Instruction n} {p : Fin n} :
    p ∈ (usePositions body slots).get slot ↔
      slots.isArray slot = false ∧ ∃ x ∈ (body.get p).uses, slots.find? x = some slot := by
  rw [usePositions, mem_get_grouped, List.mem_flatMap]
  constructor
  · rintro ⟨q, -, hmem⟩
    obtain ⟨x, hx, hmap⟩ := List.mem_filterMap.1 hmem
    obtain ⟨found, hfnd, heq⟩ := Option.map_eq_some_iff.1 hmap
    obtain ⟨hfind, harr⟩ := Option.filter_eq_some_iff.1 hfnd
    cases heq
    exact ⟨by simpa using harr, x, hx, hfind⟩
  · rintro ⟨harr, x, hx, hfind⟩
    refine ⟨p, List.mem_finRange p, List.mem_filterMap.2 ⟨x, hx, Option.map_eq_some_iff.2 ?_⟩⟩
    exact ⟨slot, Option.filter_eq_some_iff.2 ⟨hfind, by simp [harr]⟩, rfl⟩

namespace Liveness

variable {next : Fin n → List (Fin n)} {body : Vector Instruction n} {decls : Vector Decl k}
  {graph : Graph n} {p : Fin n} {liveness : Liveness n k}

theorem mem_liveIn :
    slot ∈ (ofBody graph body slots).liveIn.get p ↔
      Met (graph.before fun q => (body.get q).definition = some (slots.decls.get slot).symbol)
        ((usePositions body slots).get slot) p := by
  rw [ofBody, get_eq_getElem, Vector.getElem_map, List.mem_toArray, ← get_eq_getElem,
    mem_get_grouped, List.mem_flatMap]
  constructor
  · rintro ⟨found, -, hmem⟩
    obtain ⟨q, hq, heq⟩ := List.mem_map.1 hmem
    cases heq
    exact (graph.mem_markBack _).1 hq
  · intro hmet
    refine ⟨slot, List.mem_finRange slot, List.mem_map.2 ⟨p, ?_, rfl⟩⟩
    exact (graph.mem_markBack _).2 hmet

theorem mem_liveIn_of_use {x : Symbol} (hx : x ∈ (body.get p).uses)
    (hslot : slots.find? x = some slot)
    (harr : slots.isArray slot = false) : slot ∈ (ofBody graph body slots).liveIn.get p :=
  mem_liveIn.2 (.start (mem_usePositions.2 ⟨harr, x, hx, hslot⟩))

theorem mem_liveIn_of_target {q : Fin n}
    (hlive : slot ∈ (ofBody (.ofSuccessors next) body slots).liveIn.get q) (hq : q ∈ next p)
    (hdef : (body.get p).definition ≠ some (slots.decls.get slot).symbol) :
    slot ∈ (ofBody (.ofSuccessors next) body slots).liveIn.get p := by
  refine mem_liveIn.2 (.step (mem_liveIn.1 hlive) ((mem_before ..).2 ⟨?_, by simpa using hdef⟩))
  exact mem_predecessors.2 hq

theorem isArray_of_mem_liveIn
    (h : slot ∈ (ofBody graph body slots).liveIn.get p) : slots.isArray slot = false := by
  replace h := mem_liveIn.1 h
  induction h with
  | start hp => exact (mem_usePositions.1 hp).1
  | step _ _ ih => exact ih

theorem isLiveIn_iff :
    liveness.isLiveIn p slot = true ↔ slot ∈ liveness.liveIn.get p :=
  found_iff (liveness.ascending p)

theorem isLiveOut_iff :
    liveness.isLiveOut (.ofSuccessors next) p slot = true ↔
      ∃ q ∈ next p, slot ∈ liveness.liveIn.get q := by
  simp [isLiveOut, isLiveIn_iff]

theorem mem_liveOut :
    slot ∈ liveness.liveOut (.ofSuccessors next) p ↔
      ∃ q ∈ next p, slot ∈ liveness.liveIn.get q := by
  simp [liveOut]

theorem pairwise_liveOut (liveness : Liveness n k) (graph : Graph n) (p : Fin n) :
    (liveness.liveOut graph p).Pairwise (· < ·) := (List.pairwise_lt_finRange k).filter _

theorem mem_liveIn_iff_path (hdist : Slots.Distinct decls)
    (hsca : (Slots.ofDecls decls).isArray slot = false) :
    slot ∈ (ofBody (.ofSuccessors next) body (.ofDecls decls)).liveIn.get p ↔
      ∃ j path, Path next p j path ∧ (decls.get slot).symbol ∈ (body.get j).uses ∧
        ∀ q ∈ path.dropLast, (body.get q).definition ≠ some (decls.get slot).symbol := by
  rw [mem_liveIn]
  constructor
  · intro h
    induction h with
    | @start p hp =>
      obtain ⟨-, x, hx, hslot⟩ := mem_usePositions.1 hp
      rw [(Slots.find?_eq_some_iff hdist).1 hslot]
      exact ⟨p, [p], .single p, hx, by simp⟩
    | @step q p _ hp ih =>
      obtain ⟨j, path, hpath, huse, hkept⟩ := ih
      obtain ⟨hq, hdef⟩ := (mem_before ..).1 hp
      exact ⟨j, p :: path, .cons (mem_predecessors.1 hq) hpath, huse,
        hpath.forall_dropLast_cons.2 ⟨of_decide_eq_false hdef, hkept⟩⟩
  · rintro ⟨j, path, hpath, huse, hkept⟩
    induction hpath with
    | single p =>
      refine .start (mem_usePositions.2 ⟨hsca, _, huse, ?_⟩)
      exact (Slots.find?_eq_some_iff hdist).2 rfl
    | cons hq hpath ih =>
      obtain ⟨hdef, hkept⟩ := hpath.forall_dropLast_cons.1 hkept
      refine .step (ih huse hkept) ((mem_before ..).2 ⟨?_, decide_eq_false hdef⟩)
      exact mem_predecessors.2 hq

/-- Liveness is exact: a scalar is live into a position if and only if some path leads from there to a
read of it and no position before the read writes it. Arrays are live nowhere. The live slots of a
position are in ascending order, and searching them by halving, or gathering those of the following
positions, gives the same sets. -/
theorem liveness_exact (function : Function)
    (hdistinct : ((slotDecls function).map (·.symbol)).Nodup) {graph : Graph function.body.size}
    (hgraph : Graph.ofBody function.name function.body.toVector = .ok graph) :
    let body := function.body.toVector
    let slots := Slots.ofFunction function
    let liveness := ofBody graph body slots
    (∀ slot p, slots.isArray slot = false →
      (slot ∈ liveness.liveIn.get p ↔
        ∃ j path, Path graph.successors.get p j path ∧
          (slots.decls.get slot).symbol ∈ (body.get j).uses ∧
          ∀ q ∈ path.dropLast, (body.get q).definition ≠ some (slots.decls.get slot).symbol)) ∧
    (∀ slot p, slots.isArray slot = true → slot ∉ liveness.liveIn.get p) ∧
    (∀ p, (liveness.liveIn.get p).toList.Pairwise (· < ·)) ∧
    (∀ p slot, liveness.isLiveIn p slot = true ↔ slot ∈ liveness.liveIn.get p) ∧
    ∀ p, (liveness.liveOut graph p).Pairwise (· < ·) ∧ ∀ slot,
      (slot ∈ liveness.liveOut graph p ↔
        ∃ q ∈ graph.successors.get p, slot ∈ liveness.liveIn.get q) ∧
      (liveness.isLiveOut graph p slot = true ↔ slot ∈ liveness.liveOut graph p) := by
  intro body slots liveness
  obtain rfl := eq_of_ofBody hgraph
  refine ⟨fun slot p hscalar => ?_, fun slot p harray hlive => ?_, liveness.ascending,
    fun p slot => isLiveIn_iff, fun p => ⟨pairwise_liveOut .., fun slot => ⟨?_, ?_⟩⟩⟩
  · rw [successors_get]
    exact mem_liveIn_iff_path (Slots.distinct_ofFunction hdistinct) hscalar
  · have hscalar : slots.isArray slot = false := isArray_of_mem_liveIn hlive
    rw [harray] at hscalar
    cases hscalar
  · rw [get_successors]
    exact mem_liveOut
  · rw [mem_liveOut]
    exact isLiveOut_iff

/-- A loop that adds up an array: the sum is read by the instruction that writes it, and the counter
by the jump back. -/
def summing : Function where
  name := "sum"
  parameters := 1
  decls := [⟨.temp 0, none⟩, ⟨.temp 1, none⟩, ⟨.temp 2, none⟩]
  body := #[
    .copy (.temp 0) (.const 0),
    .copy (.temp 1) (.const 0),
    .label ⟨0⟩,
    .load (.temp 2) (.param 0) (.symbol (.temp 1)),
    .binary (.temp 0) .add (.symbol (.temp 0)) (.symbol (.temp 2)),
    .binary (.temp 1) .add (.symbol (.temp 1)) (.const 4),
    .branch (.symbol (.temp 1)) .lt (.const 12) ⟨0⟩,
    .return (some (.symbol (.temp 0)))]

/-- The sum is live behind its last read in the text, since the jump leads back to that read. -/
theorem summing_live_around :
    ((slotDecls summing).map (·.symbol)).Nodup ∧
      ∃ graph, Graph.ofBody summing.name summing.body.toVector = .ok graph ∧
        (ofBody graph summing.body.toVector (Slots.ofFunction summing)).isLiveIn
          ⟨5, by decide⟩ ⟨1, by decide⟩ = true := by
  have hdistinct : ((slotDecls summing).map (·.symbol)).Nodup := by decide
  have hgraph := ofBody_eq summing.name (undefinedTarget?_eq_none.1
    (show undefinedTarget? summing.body.toVector = none by decide))
  obtain ⟨hexact, -, -, hfound, -⟩ := liveness_exact summing hdistinct hgraph
  refine ⟨hdistinct, _, hgraph, (hfound _ _).2 ((hexact _ _ (by decide)).2 ?_)⟩
  rw [successors_get]
  exact ⟨⟨4, by decide⟩, [⟨5, by decide⟩, ⟨6, by decide⟩, ⟨2, by decide⟩, ⟨3, by decide⟩, ⟨4, by decide⟩],
    .cons (by decide) (.cons (by decide) (.cons (by decide) (.cons (by decide) (.single _)))),
    by decide, by decide⟩

end Liveness

/-! ## Interference -/

namespace Interference

variable {liveness : Liveness n k}

theorem mem_positions {p : Fin n} :
    p ∈ liveness.positions.get slot ↔ slot ∈ liveness.liveIn.get p := by
  simp only [Liveness.positions, mem_get_grouped, List.mem_flatMap, List.mem_map]
  constructor
  · rintro ⟨q, -, found, hmem, heq⟩
    cases heq
    exact Array.mem_toList_iff.1 hmem
  · intro hmem
    exact ⟨p, List.mem_finRange p, slot, Array.mem_toList_iff.2 hmem, rfl⟩

theorem mem_neighbors :
    b ∈ (ofLiveness liveness).neighbors.get a ↔
      b ≠ a ∧ ∃ p, a ∈ liveness.liveIn.get p ∧ b ∈ liveness.liveIn.get p := by
  have hget : (ofLiveness liveness).neighbors.get a =
      neighborsAt liveness a (liveness.positions.get a) := by
    simp [ofLiveness, get_eq_getElem]
  simp [hget, neighborsAt, mem_positions]

theorem mem_neighbors_symm (h : b ∈ (ofLiveness liveness).neighbors.get a) :
    a ∈ (ofLiveness liveness).neighbors.get b := by
  obtain ⟨hne, p, ha, hb⟩ := mem_neighbors.1 h
  exact mem_neighbors.2 ⟨hne.symm, p, hb, ha⟩

theorem nodup_neighbors (liveness : Liveness n k) (slot : Fin k) :
    ((ofLiveness liveness).neighbors.get slot).Nodup := by
  simp only [ofLiveness, get_eq_getElem, Vector.getElem_ofFn, neighborsAt]
  exact (List.nodup_finRange k).filter _

end Interference

end SysY.Flow

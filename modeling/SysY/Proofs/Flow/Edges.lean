import SysY.Flow.Graph
import SysY.Proofs.Flow.Search

/-!
# Edges

The edges of a flow graph lead where control can go, and its two directions agree.
-/

namespace SysY.Flow

open Eeyore Option

variable {n : Nat} {body : Vector Instruction n} {p : Fin n} {next : Fin n → List (Fin n)}
  {q : Fin n}

namespace Graph

@[simp] theorem get_successors (next : Fin n → List (Fin n)) (p : Fin n) :
    (ofSuccessors next).successors.get p = next p := by
  simp [ofSuccessors, get_eq_getElem]

theorem successors_get (next : Fin n → List (Fin n)) : (ofSuccessors next).successors.get = next :=
  funext (get_successors next)

theorem mem_edgesOf : (p, q) ∈ edgesOf next ↔ q ∈ next p := by
  simp [edgesOf]

theorem mem_predecessors : q ∈ (ofSuccessors next).predecessors.get p ↔ p ∈ next q := by
  rw [ofSuccessors, mem_get_grouped, List.mem_map]
  constructor
  · rintro ⟨⟨r, s⟩, hmem, heq⟩
    cases heq
    exact mem_edgesOf.1 hmem
  · intro hmem
    exact ⟨(q, p), mem_edgesOf.2 hmem, rfl⟩

end Graph

theorem labelPosition?_eq_some {label : Label} :
    labelPosition? body label = some p ↔
      body.get p = .label label ∧ ∀ q, p < q → body.get q ≠ .label label := by
  have hsorted : (List.finRange n).reverse.Pairwise (· > ·) :=
    List.pairwise_reverse.2 (List.pairwise_lt_finRange n)
  have hlast : ∀ q, labelPosition? body label = some q →
      body.get q = .label label ∧ ∀ r, q < r → body.get r ≠ .label label := by
    intro q hq
    obtain ⟨hlab, as, bs, hspl, has⟩ := List.find?_eq_some_iff_append.1 hq
    refine ⟨by simpa using hlab, fun r hr => ?_⟩
    have hmem : r ∈ as ++ q :: bs := hspl ▸ List.mem_reverse.2 (List.mem_finRange r)
    rcases List.mem_append.1 hmem with hmem | hmem
    · simpa using has r hmem
    · rw [hspl] at hsorted
      rcases List.mem_cons.1 hmem with rfl | hmem
      · exact absurd hr (Fin.lt_irrefl _)
      · have := List.rel_of_pairwise_cons (List.pairwise_append.1 hsorted).2.1 hmem
        exact absurd hr (Fin.not_lt.2 (Fin.le_of_lt this))
  refine ⟨hlast p, fun ⟨hlab, habv⟩ => ?_⟩
  cases hfind : labelPosition? body label with
  | none =>
    have := List.find?_eq_none.1 hfind p (List.mem_reverse.2 (List.mem_finRange p))
    simp [hlab] at this
  | some q =>
    obtain ⟨hq, hq'⟩ := hlast q hfind
    rcases Nat.lt_trichotomy p.val q.val with h | h | h
    · exact absurd hq (habv q h)
    · rw [Fin.ext h]
    · exact absurd hlab (hq' p h)

theorem mem_following : q ∈ following p ↔ q.val = p.val + 1 := by
  unfold following
  split
  · rw [List.mem_singleton, Fin.ext_iff]
  · have := q.isLt
    simp only [List.not_mem_nil, false_iff]
    omega

theorem mem_targets :
    q ∈ targets body p ↔
      (∃ label, (body.get p).target? = some label ∧ labelPosition? body label = some q) ∨
      ((∀ l, body.get p ≠ .jump l) ∧ q.val = p.val + 1) := by
  have hjs : q ∈ ((body.get p).target?.bind (labelPosition? body)).toList ↔
      ∃ label, (body.get p).target? = some label ∧ labelPosition? body label = some q := by
    rw [mem_toList]
    exact bind_eq_some_iff
  rw [← hjs]
  unfold targets
  dsimp only
  split
  · rename_i l hl
    simp [hl]
  · rename_i hl
    rw [List.mem_append, mem_following]
    exact or_congr Iff.rfl ⟨fun h => ⟨hl, h⟩, fun h => h.2⟩

/-- Every label that an instruction goes to has a position. -/
def TargetsDefined (body : Vector Instruction n) : Prop :=
  ∀ p label, (body.get p).target? = some label → (labelPosition? body label).isSome

theorem undefinedTarget?_eq_none :
    undefinedTarget? body = none ↔ TargetsDefined body := by
  rw [undefinedTarget?, List.findSome?_eq_none_iff]
  constructor
  · intro h p label htgt
    have hmem : body.get p ∈ body.toList := by
      rw [Vector.mem_toList_iff]
      exact Vector.getElem_mem p.isLt
    have hfilter := h _ hmem
    rw [htgt, filter_eq_none_iff] at hfilter
    exact Option.isSome_iff_ne_none.2 (by simpa using hfilter label rfl)
  · intro h instruction hmem
    obtain ⟨i, hi, rfl⟩ := List.mem_iff_getElem.1 hmem
    rw [filter_eq_none_iff]
    intro label htgt
    have hi' : i < n := by simpa using hi
    have := h ⟨i, hi'⟩ label (by rw [get_eq_getElem, ← Vector.getElem_toList]; exact htgt)
    simpa [isNone_iff_eq_none, isSome_iff_ne_none] using this

theorem Graph.eq_of_ofBody {name : String} {graph : Graph n}
    (h : Graph.ofBody name body = .ok graph) : graph = .ofSuccessors (targets body) := by
  unfold Graph.ofBody at h
  split at h
  · cases h
  · exact (Except.ok.inj h).symm

theorem Graph.ofBody_eq (name : String) (h : TargetsDefined body) :
    Graph.ofBody name body = .ok (.ofSuccessors (targets body)) := by
  rw [Graph.ofBody, undefinedTarget?_eq_none.2 h]

end SysY.Flow

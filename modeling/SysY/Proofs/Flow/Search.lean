import SysY.Flow.Search

/-!
# What a search meets

`Met next start p` says that the edges of `next` lead from one of the nodes of `start` to `p`.
`mem_visit` is the one fact about searches that everything else uses: `visit` lists exactly the
nodes that are met.
-/

namespace SysY.Flow

open List

variable {n : Nat} {α : Type} {next : Fin n → List (Fin n)} {start : List (Fin n)} {p : Fin n}

/-- The nodes that edges lead to from some nodes. -/
inductive Met (next : Fin n → List (Fin n)) (start : List (Fin n)) : Fin n → Prop
  | start {p : Fin n} : p ∈ start → Met next start p
  | step {p q : Fin n} : Met next start p → q ∈ next p → Met next start q

theorem Met.mono {next' : Fin n → List (Fin n)} {start' : List (Fin n)}
    (hnxt : ∀ p q, q ∈ next p → q ∈ next' p) (hstart : ∀ p ∈ start, p ∈ start')
    (h : Met next start p) : Met next' start' p := by
  induction h with
  | start hp => exact .start (hstart _ hp)
  | step _ hq ih => exact .step ih (hnxt _ _ hq)

theorem Met.trans {middle : List (Fin n)}
    (hmid : ∀ p ∈ middle, Met next start p) (h : Met next middle p) :
    Met next start p := by
  induction h with
  | start hp => exact hmid _ hp
  | step _ hq ih => exact .step ih hq

/-! ## Sets of nodes -/

namespace NodeSet

theorem get_foldl_add (nodes : List (Fin n)) (set : NodeSet n) (p : Fin n) :
    (nodes.foldl add set).get p = true ↔ p ∈ nodes ∨ set.get p = true := by
  induction nodes generalizing set with
  | nil => simp
  | cons q nodes ih =>
    rw [foldl_cons, ih, get_add, mem_cons]
    grind

@[simp] theorem get_ofList (nodes : List (Fin n)) (p : Fin n) :
    (ofList nodes).get p = true ↔ p ∈ nodes := by
  simp [ofList, get_foldl_add]

end NodeSet

/-! ## Searches -/

theorem visitFrom_sound {pending : List (Fin n)} {seen : NodeSet n} (h : p ∈ visitFrom next pending seen) : Met next pending p := by
  induction pending, seen using visitFrom.induct next with
  | case1 seen => simp [visitFrom] at h
  | case2 seen q rest hseen ih =>
    rw [visitFrom, dif_pos hseen] at h
    exact (ih h).mono (fun _ _ hq => hq) fun r hr => mem_cons_of_mem _ hr
  | case3 seen q rest hseen ih =>
    rw [visitFrom, dif_neg hseen, mem_cons] at h
    have hq : Met next (q :: rest) q := .start mem_cons_self
    rcases h with rfl | h
    · exact hq
    · refine (ih h).trans fun r hr => ?_
      rcases List.mem_append.1 hr with hr | hr
      · exact .step hq hr
      · exact .start (mem_cons_of_mem _ hr)

theorem visitFrom_closed (next : Fin n → List (Fin n)) (pending : List (Fin n)) (seen : NodeSet n) :
    (∀ q ∈ pending, seen.get q = true ∨ q ∈ visitFrom next pending seen) ∧
    ∀ p ∈ visitFrom next pending seen, ∀ q ∈ next p,
      seen.get q = true ∨ q ∈ visitFrom next pending seen := by
  induction pending, seen using visitFrom.induct next with
  | case1 seen => simp [visitFrom]
  | case2 seen p rest hseen ih =>
    rw [visitFrom, dif_pos hseen]
    refine ⟨fun q hq => ?_, ih.2⟩
    rcases List.mem_cons.1 hq with rfl | hq
    · exact .inl hseen
    · exact ih.1 q hq
  | case3 seen p rest hseen ih =>
    rw [visitFrom, dif_neg hseen]
    have hlift : ∀ q, (seen.add p).get q = true ∨
        q ∈ visitFrom next (next p ++ rest) (seen.add p) →
        seen.get q = true ∨ q ∈ p :: visitFrom next (next p ++ rest) (seen.add p) := by
      intro q hq
      rw [NodeSet.get_add] at hq
      rw [mem_cons]
      grind
    refine ⟨fun q hq => ?_, fun r hr q hq => hlift q ?_⟩
    · rcases List.mem_cons.1 hq with rfl | hq
      · exact .inr mem_cons_self
      · exact hlift q (ih.1 q (List.mem_append.2 (.inr hq)))
    · rcases List.mem_cons.1 hr with rfl | hr
      · exact ih.1 q (List.mem_append.2 (.inl hq))
      · exact ih.2 r hr q hq

theorem mem_visit :
    p ∈ visit next start ↔ Met next start p := by
  refine ⟨visitFrom_sound, fun h => ?_⟩
  have hclo := visitFrom_closed next start .none
  simp only [NodeSet.get_none, Bool.false_eq_true, false_or] at hclo
  induction h with
  | start hp => exact hclo.1 _ hp
  | step _ hq ih => exact hclo.2 _ ih _ hq

theorem mem_get_grouped {pairs : List (Fin n × α)} {i : Fin n} {a : α} :
    a ∈ (grouped pairs).get i ↔ (i, a) ∈ pairs := by
  rw [get_grouped, mem_map]
  constructor
  · rintro ⟨⟨j, b⟩, hfiled, rfl⟩
    obtain ⟨hmem, hj⟩ := List.mem_filter.1 hfiled
    obtain rfl : j = i := by simpa using hj
    exact hmem
  · intro hmem
    exact ⟨(i, a), List.mem_filter.2 ⟨hmem, by simp⟩, rfl⟩

end SysY.Flow

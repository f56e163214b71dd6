import SysY.Proofs.Flow.Forest

/-!
# The sweep for dominators

`Sweep.Covers` is what the sweep keeps: every swept position has its semidominator, and it waits
there, or it is settled: it has its immediate dominator, or a lower position with the same one. After
the sweep nothing waits, and resolving the positions in their order leaves the immediate dominators
(`Graph.immediateDominators_exact`).
-/

namespace SysY.Flow

open Spanning.Above

variable {n : Nat} {next : Fin n → List (Fin n)} {t : Spanning next} {number : Vector Nat n}
  {k m : Nat} {vs : List (Fin n)} {semi : Vector (Fin n) n} {v : Fin n}

namespace Sweep

/-- A position that has waited has its immediate dominator, or a lower position with the same one. -/
def Settled (t : Spanning next) (semi : Vector (Fin n) n) (idom : Vector (Option (Fin n)) n)
    (v : Fin n) : Prop :=
  (idom.get v = some (semi.get v) ∧ ImmediatelyDominates next (semi.get v) v) ∨
  ∃ u, idom.get v = some u ∧ u ≠ semi.get v ∧ u ≠ t.root ∧ t.number u < t.number v ∧
    ∀ d, ImmediatelyDominates next d u → ImmediatelyDominates next d v

/-- What a sweep knows when it has come down to the number `k`. What waits at a position lies below a
child of it with a number below `m`, and the pending positions are neither settled nor wait. -/
structure Covers (t : Spanning next) (number : Vector Nat n) (k m : Nat) (pending : List (Fin n))
    (sweep : Sweep n) : Prop where
  linked : sweep.forest.Linked t k (sweep.rank number)
  unswept : ∀ v, t.number v < k → sweep.semi.get v = v ∧ sweep.idom.get v = none
  semi : ∀ v, k ≤ t.number v → t.Semidominator (sweep.semi.get v) v
  waiting : ∀ s, ∀ v ∈ sweep.waiting.get s, k ≤ t.number v ∧ sweep.semi.get v = s ∧
    ∃ c, c ≠ t.root ∧ t.parent c = s ∧ t.Above c v ∧ t.number c < m
  settled : ∀ v, k ≤ t.number v →
    Settled t sweep.semi sweep.idom v ∨ v ∈ sweep.waiting.get (sweep.semi.get v) ∨ v ∈ pending

theorem rank_eq (hnum : ∀ v, number.get v = t.number v) (sweep : Sweep n) (v : Fin n) :
    sweep.rank number v = t.number (sweep.semi.get v) := hnum _

theorem Covers.start (hk : ∀ v, t.number v < k) : Covers t number k m [] start where
  linked := .scattered hk
  unswept v _ := by simp [Sweep.start, get_eq_getElem]
  semi v hv := absurd (hk v) (Nat.not_lt.2 hv)
  waiting s v hv := by simp [Sweep.start, get_eq_getElem] at hv
  settled v hv := absurd (hk v) (Nat.not_lt.2 hv)

/-! ## Semidominators -/

variable {before sweep : Sweep n} {w : Fin n} {seen : List (Fin n)}

/-- What is known of the semidominator of `w` after some of its predecessors. -/
structure Lowered (t : Spanning next) (number : Vector Nat n) (before : Sweep n) (w : Fin n)
    (seen : List (Fin n)) (sweep : Sweep n) : Prop where
  linked : sweep.forest.Linked t (t.number w + 1) (sweep.rank number)
  others : ∀ v, w ≠ v → sweep.semi.get v = before.semi.get v
  waiting : sweep.waiting = before.waiting
  idom : sweep.idom = before.idom
  road : sweep.semi.get w = w ∨ t.HighRoad w (sweep.semi.get w)
  le_self : t.number (sweep.semi.get w) ≤ t.number w
  le_unswept : ∀ v ∈ seen, t.number v ≤ t.number w → t.number (sweep.semi.get w) ≤ t.number v
  le_swept : ∀ v ∈ seen, ∀ u, t.number w < t.number u → t.Above u v →
    t.number (sweep.semi.get w) ≤ t.number (before.semi.get u)

theorem Covers.lowered (h : Covers t number (t.number w + 1) m [] before) :
    Lowered t number before w [] before where
  linked := h.linked
  others _ _ := rfl
  waiting := rfl
  idom := rfl
  road := .inl (h.unswept w (Nat.lt_succ_self _)).1
  le_self := by rw [(h.unswept w (Nat.lt_succ_self _)).1]
  le_unswept v hv := nomatch hv
  le_swept v hv := nomatch hv

theorem Lowered.lower (hnum : ∀ v, number.get v = t.number v)
    (hbef : Covers t number (t.number w + 1) m [] before)
    (h : Lowered t number before w seen sweep) {v : Fin n} (hv : w ∈ next v) :
    Lowered t number before w (v :: seen) (sweep.lower number w v) := by
  obtain ⟨hlnk, hself, hlst⟩ := h.linked.eval v
  obtain ⟨evaluated, hevl⟩ : ∃ e, sweep.forest.eval (sweep.rank number) v = e := ⟨_, rfl⟩
  obtain ⟨u, forest⟩ := evaluated
  rw [hevl] at hlnk hself hlst
  dsimp only at hlnk hself hlst
  obtain ⟨semi, hsemi⟩ : ∃ semi, (if sweep.rank number u < sweep.rank number w
      then sweep.semi.get u else sweep.semi.get w) = semi := ⟨_, rfl⟩
  have heq : sweep.lower number w v = { sweep with forest, semi := put sweep.semi w semi } := by
    simp only [Sweep.lower, hevl, hsemi]
  have hoths : ∀ y, w ≠ y → (put sweep.semi w semi).get y = sweep.semi.get y := fun y hy =>
    get_put_of_ne _ _ hy
  -- the new value is the lower one of two
  have hle_u : t.number semi ≤ t.number (sweep.semi.get u) := by
    rw [← hsemi, rank_eq hnum, rank_eq hnum]
    split <;> omega
  have hle_w : t.number semi ≤ t.number (sweep.semi.get w) := by
    rw [← hsemi, rank_eq hnum, rank_eq hnum]
    split <;> omega
  have hswept : ∀ y, t.number w < t.number y → w ≠ y := by
    rintro y hy rfl
    exact Nat.lt_irrefl _ hy
  -- and there is a high road from it
  have hroad : u ≠ w → t.HighRoad w (sweep.semi.get u) := by
    intro hne
    rw [h.others u hne.symm]
    rcases Nat.lt_or_ge (t.number v) (t.number w + 1) with hlt | hge
    · obtain rfl : u = v := hself hlt
      rw [(hbef.unswept u hlt).1]
      exact .edge hv
    · obtain ⟨r, _, hlst⟩ := hlst hge
      have hu := hlst.swept u hlst.below hlst.above
      exact (hbef.semi u hu).road.trans (.of_above (.edge hv) hlst.above hu) hu
  rw [heq]
  refine ⟨hlnk.congr fun y hy => ?_, fun y hy => (hoths y hy).trans (h.others y hy), h.waiting,
    h.idom, ?_, ?_, fun y hy hle => ?_, fun y hy z hz hzy => ?_⟩
  · rw [rank_eq hnum, rank_eq hnum]
    exact congrArg t.number (hoths y (hswept y hy))
  · rw [get_put_self, ← hsemi]
    split
    · rename_i hlt
      refine .inr (hroad ?_)
      rintro rfl
      exact Nat.lt_irrefl _ hlt
    · exact h.road
  · rw [get_put_self]
    exact Nat.le_trans hle_w h.le_self
  · rw [get_put_self]
    rcases List.mem_cons.1 hy with rfl | hy
    · obtain rfl : u = y := hself (Nat.lt_succ_of_le hle)
      by_cases hne : w = u
      · subst hne
        exact Nat.le_trans hle_w h.le_self
      · rwa [h.others u hne, (hbef.unswept u (Nat.lt_succ_of_le hle)).1] at hle_u
    · exact Nat.le_trans hle_w (h.le_unswept y hy hle)
  · rw [get_put_self]
    rcases List.mem_cons.1 hy with rfl | hy
    · have hge : t.number w + 1 ≤ t.number y := Nat.le_trans hz (number_le hzy)
      obtain ⟨r, hr, hlst⟩ := hlst hge
      have hrz : t.number r < t.number z := Nat.lt_of_lt_of_le hr hz
      have hover := over_of_lt
        (of_number_le hlst.top.1 hzy (Nat.le_of_lt hrz)) hrz
      have hrank := hlst.least z hover hzy
      rw [rank_eq hnum, rank_eq hnum, h.others z (hswept z hz)] at hrank
      exact Nat.le_trans hle_u hrank
    · exact Nat.le_trans hle_w (h.le_swept y hy z hz hzy)

theorem Lowered.run (hnum : ∀ v, number.get v = t.number v)
    (hbef : Covers t number (t.number w + 1) m [] before)
    (hvs : ∀ v ∈ vs, w ∈ next v) (h : Lowered t number before w seen sweep) :
    Lowered t number before w (vs.reverse ++ seen) (vs.foldl (Sweep.lower number w) sweep) := by
  induction vs generalizing sweep seen with
  | nil => exact h
  | cons v vs ih =>
    obtain ⟨hv, hvs⟩ := List.forall_mem_cons.1 hvs
    rw [List.reverse_cons, List.append_assoc, List.foldl_cons]
    exact ih hvs (h.lower hnum hbef hv)

theorem Lowered.semidominator (hbef : Covers t number (t.number w + 1) m [] before)
    (hw : w ≠ t.root) (hseen : ∀ v, w ∈ next v → v ∈ seen)
    (h : Lowered t number before w seen sweep) : t.Semidominator (sweep.semi.get w) w := by
  have hprt := h.le_unswept _ (hseen _ (t.edge hw)) (Nat.le_of_lt (t.parent_lt hw))
  refine ⟨h.road.resolve_left fun heq => ?_, fun x hroad => ?_⟩
  · rw [heq] at hprt
    exact absurd (t.parent_lt hw) (Nat.not_lt.2 hprt)
  · obtain ⟨v, hv, rfl | ⟨u, hu, huv, hroad⟩⟩ := hroad.split
    · rcases Nat.le_total (t.number v) (t.number w) with hle | hge
      · exact h.le_unswept v (hseen v hv) hle
      · exact Nat.le_trans h.le_self hge
    · exact Nat.le_trans (h.le_swept v (hseen v hv) u hu huv) ((hbef.semi u hu).least x hroad)

/-! ## Waiting -/

theorem Settled.congr {semi' : Vector (Fin n) n} {idom idom' : Vector (Option (Fin n)) n} (hsemi : semi'.get v = semi.get v) (hidom : idom'.get v = idom.get v)
    (h : Settled t semi idom v) : Settled t semi' idom' v := by
  unfold Settled
  rw [hsemi, hidom]
  exact h

theorem exists_child {a : Fin n} (h : t.Over a v) :
    ∃ c, c ≠ t.root ∧ t.parent c = a ∧ t.Above c v := by
  obtain ⟨habv, hne⟩ := h
  induction habv with
  | refl => exact absurd rfl hne
  | @step v hv _ ih =>
    by_cases heq : a = t.parent v
    · exact ⟨v, hv, heq.symm, .refl⟩
    · obtain ⟨c, hc, hprt, habv⟩ := ih heq
      exact ⟨c, hc, hprt, .step hv habv⟩

theorem child_unique {c : Fin n} (hc : c ≠ t.root)
    (hprt : t.parent c = t.parent w) (hcv : t.Above c v) (hcw : t.number c ≤ t.number w)
    (hwv : t.number w ≤ t.number v) : c = w := by
  by_contra hne
  have habv := (Spanning.Over.above_parent ⟨t.contiguous hcv hcw hwv, hne⟩).2
  rw [← hprt] at habv
  exact absurd (t.parent_lt hc) (Nat.not_lt.2 (number_le habv))

theorem Lowered.enqueue (hbef : Covers t number (t.number w + 1) (t.number w + 1) [] before)
    (hw : w ≠ t.root) (hseen : ∀ v, w ∈ next v → v ∈ seen)
    (h : Lowered t number before w seen sweep) :
    Covers t number (t.number w) (t.number w + 1) [] (sweep.enqueue (t.parent w) w) := by
  have hsemi := h.semidominator hbef hw hseen
  have hswept : ∀ {v}, t.number w ≤ t.number v → w ≠ v → t.number w + 1 ≤ t.number v :=
    fun hle hne => Nat.lt_of_le_of_ne hle fun heq => hne (t.injective heq)
  have hne : ∀ {v}, t.number w + 1 ≤ t.number v → w ≠ v := by
    rintro v hv rfl
    exact Nat.lt_irrefl _ hv
  have hwaiting : ∀ s v, v ∈ (sweep.enqueue (t.parent w) w).waiting.get s ↔
      v ∈ before.waiting.get s ∨ v = w ∧ s = sweep.semi.get w := by
    intro s v
    rw [Sweep.enqueue, ← h.waiting]
    by_cases hs : sweep.semi.get w = s
    · subst hs
      simp
    · rw [get_put_of_ne _ _ hs]
      simp [Ne.symm hs]
  refine ⟨h.linked.link hw rfl, fun v hv => ?_, fun v hv => ?_, fun s v hv => ?_, fun v hv => ?_⟩
  · have hne : w ≠ v := by
      rintro rfl
      exact Nat.lt_irrefl _ hv
    rw [Sweep.enqueue, h.others v hne, h.idom]
    exact hbef.unswept v (Nat.lt_succ_of_lt hv)
  · by_cases heq : w = v
    · exact heq ▸ hsemi
    · rw [Sweep.enqueue, h.others v heq]
      exact hbef.semi v (hswept hv heq)
  · rcases (hwaiting s v).1 hv with hv | ⟨rfl, rfl⟩
    · obtain ⟨hle, hs, hchild⟩ := hbef.waiting s v hv
      exact ⟨Nat.le_of_lt hle, (h.others v (hne hle)).trans hs, hchild⟩
    · obtain ⟨c, hc, hprt, habv⟩ := exists_child (hsemi.isOver hw)
      exact ⟨Nat.le_refl _, rfl, c, hc, hprt, habv,
        Nat.lt_succ_of_le (number_le habv)⟩
  · by_cases heq : w = v
    · subst heq
      exact .inr (.inl ((hwaiting _ _).2 (.inr ⟨rfl, rfl⟩)))
    · have hoth := h.others v heq
      rcases hbef.settled v (hswept hv heq) with hset | hwait | hpend
      · exact .inl (hset.congr hoth (by rw [Sweep.enqueue, h.idom]))
      · refine .inr (.inl ((hwaiting _ _).2 (.inl ?_)))
        rwa [Sweep.enqueue, hoth]
      · cases hpend

theorem Covers.above_of_waiting (h : Covers t number (t.number w) (t.number w + 1) [] sweep) (hv : v ∈ sweep.waiting.get (t.parent w)) :
    t.number w ≤ t.number v ∧ sweep.semi.get v = t.parent w ∧ t.Above w v := by
  obtain ⟨hle, hs, c, hc, hprt, hcv, hcw⟩ := h.waiting _ v hv
  obtain rfl := child_unique hc hprt hcv (Nat.le_of_lt_succ hcw) hle
  exact ⟨hle, hs, hcv⟩

theorem Covers.release (h : Covers t number (t.number w) (t.number w + 1) [] sweep) :
    Covers t number (t.number w) (t.number w) (sweep.waiting.get (t.parent w))
      { sweep with waiting := put sweep.waiting (t.parent w) [] } where
  linked := h.linked
  unswept := h.unswept
  semi := h.semi
  waiting s v hv := by
    by_cases hs : t.parent w = s
    · subst hs
      simp at hv
    · rw [get_put_of_ne _ _ hs] at hv
      obtain ⟨hle, hsemi, c, hc, hprt, hcv, hcw⟩ := h.waiting s v hv
      refine ⟨hle, hsemi, c, hc, hprt, hcv, Nat.lt_of_le_of_ne (Nat.le_of_lt_succ hcw) ?_⟩
      intro heq
      exact hs (t.injective heq ▸ hprt)
  settled v hv := by
    rcases h.settled v hv with hset | hwait | hpend
    · exact .inl hset
    · by_cases hs : t.parent w = sweep.semi.get v
      · exact .inr (.inr (hs ▸ hwait))
      · exact .inr (.inl (by rwa [get_put_of_ne _ _ hs]))
    · cases hpend

theorem Covers.settle (hnum : ∀ v, number.get v = t.number v)
    (h : Covers t number (t.number w) (t.number w) (v :: vs) sweep) (hw : w ≠ t.root)
    (hsemi : sweep.semi.get v = t.parent w) (hwv : t.Above w v) :
    Covers t number (t.number w) (t.number w) vs (sweep.settle number (t.parent w) v) := by
  have hle : t.number w ≤ t.number v := number_le hwv
  have hroot : v ≠ t.root := (Spanning.Over.trans_above (Spanning.over_parent hw) hwv).above_parent.1
  have hsv : t.Semidominator (t.parent w) v := hsemi ▸ h.semi v hle
  -- everything below the parent and above the position is swept
  have hswept : ∀ y, t.Over (t.parent w) y → t.Above y v → t.number w ≤ t.number y := by
    intro y hy hyv
    by_contra hlt
    have hyw : t.Over y w := over_of_lt
      (of_number_le hyv hwv (by omega)) (by omega)
    exact absurd hy.number_lt (Nat.not_lt.2 (number_le hyw.above_parent.2))
  obtain ⟨hlnk, _, hlst⟩ := h.linked.eval v
  obtain ⟨r, hr, hlst⟩ := hlst hle
  obtain rfl : r = t.parent w := hlst.top_unique hr (hsv.isOver hroot).1 (t.parent_lt hw) hswept
  obtain ⟨evaluated, hevl⟩ : ∃ e, sweep.forest.eval (sweep.rank number) v = e := ⟨_, rfl⟩
  obtain ⟨u, forest⟩ := evaluated
  rw [hevl] at hlnk hlst
  dsimp only at hlnk hlst
  have hsu := h.semi u (hlst.swept u hlst.below hlst.above)
  obtain ⟨dominator, hdominator⟩ : ∃ d, (if sweep.rank number u < sweep.rank number v then u
      else t.parent w) = d := ⟨_, rfl⟩
  have heq : sweep.settle number (t.parent w) v =
      { sweep with forest, idom := put sweep.idom v (some dominator) } := by
    simp only [Sweep.settle, hevl, hdominator]
  have hroads : ∀ y, t.Over (t.parent w) y → t.Above y v → ∀ x, t.HighRoad y x →
      t.number (sweep.semi.get u) ≤ t.number x := by
    intro y hy hyv x hroad
    have hrank := hlst.least y hy hyv
    rw [rank_eq hnum, rank_eq hnum] at hrank
    exact Nat.le_trans hrank ((h.semi y (hswept y hy hyv)).least x hroad)
  have hset : Settled t sweep.semi (put sweep.idom v (some dominator)) v := by
    unfold Settled
    rw [get_put_self, hsemi, ← hdominator, rank_eq hnum, rank_eq hnum, hsemi]
    split
    · rename_i hlt
      have hne : u ≠ v := by
        rintro rfl
        rw [hsemi] at hlt
        exact Nat.lt_irrefl _ hlt
      refine .inr ⟨u, rfl, hlst.below.2.symm, hlst.below.above_parent.1,
        Spanning.Over.number_lt ⟨hlst.above, hne⟩, fun d hd => ?_⟩
      exact Spanning.immediatelyDominates_of_lower hsv hroot hsu hlst.below hlst.above hroads hd
    · rename_i hge
      refine .inl ⟨rfl, Spanning.immediatelyDominates_of_least hsv hroot fun y hy hyv x hroad => ?_⟩
      exact Nat.le_trans (Nat.not_lt.1 hge) (hroads y hy hyv x hroad)
  rw [heq]
  refine ⟨hlnk, fun y hy => ?_, h.semi, h.waiting, fun y hy => ?_⟩
  · have hne : v ≠ y := by
      rintro rfl
      omega
    exact ⟨(h.unswept y hy).1, (get_put_of_ne _ _ hne).trans (h.unswept y hy).2⟩
  · by_cases hvy : v = y
    · exact .inl (hvy ▸ hset)
    · rcases h.settled y hy with hy | hy | hy
      · exact .inl (hy.congr rfl (get_put_of_ne _ _ hvy))
      · exact .inr (.inl hy)
      · exact .inr (.inr ((List.mem_cons.1 hy).resolve_left (Ne.symm hvy)))

theorem Covers.settleAll (hnum : ∀ v, number.get v = t.number v)
    (h : Covers t number (t.number w) (t.number w + 1) [] sweep) (hw : w ≠ t.root) :
    Covers t number (t.number w) (t.number w) [] (sweep.settleAll number (t.parent w)) := by
  have hrun : ∀ vs sweep, Covers t number (t.number w) (t.number w) vs sweep →
      (∀ v ∈ vs, sweep.semi.get v = t.parent w ∧ t.Above w v) →
      Covers t number (t.number w) (t.number w) []
        (vs.foldl (Sweep.settle number (t.parent w)) sweep) := by
    intro vs
    induction vs with
    | nil => exact fun sweep hsweep _ => hsweep
    | cons v vs ih =>
      intro sweep hsweep hvs
      obtain ⟨hv, hvs⟩ := List.forall_mem_cons.1 hvs
      exact ih _ (hsweep.settle hnum hw hv.1 hv.2) hvs
  exact hrun _ _ h.release fun v hv => (h.above_of_waiting hv).2

/-! ## The whole sweep -/

variable {numbering : Numbering n}

theorem Covers.step (hsp : numbering.Spans t) (hw : w ≠ t.root)
    (h : Covers t numbering.number (t.number w + 1) (t.number w + 1) [] sweep) :
    Covers t numbering.number (t.number w) (t.number w) []
      (sweep.step (.ofSuccessors next) numbering w) := by
  have hlwd := h.lowered.run hsp.number h fun v hv => Graph.mem_predecessors.1 hv
  have hqueued := hlwd.enqueue h hw fun v hv =>
    List.mem_append_left _ (List.mem_reverse.2 (Graph.mem_predecessors.2 hv))
  unfold Sweep.step
  rw [hsp.parent]
  exact hqueued.settleAll hsp.number hw

theorem ne_root_of_append (hsp : numbering.Spans t) {before after : List (Fin n)}
    (hspl : numbering.order = before ++ w :: after) (hbef : before ≠ []) : w ≠ t.root := by
  obtain ⟨first, rest, rfl⟩ := List.exists_cons_of_ne_nil hbef
  have hhead := hsp.head
  have hnd := hsp.nodup
  rw [hspl, List.cons_append, List.head?_cons, Option.some.injEq] at hhead
  rw [hspl, List.cons_append, List.nodup_cons] at hnd
  rintro rfl
  exact hnd.1 (hhead ▸ List.mem_append_right _ List.mem_cons_self)

theorem covers_foldr (hsp : numbering.Spans t) (after : List (Fin n)) :
    ∀ before, numbering.order = before ++ after → before ≠ [] →
      Covers t numbering.number before.length before.length []
        (after.foldr (Sweep.step (.ofSuccessors next) numbering) .start) := by
  induction after with
  | nil =>
    intro before hspl _
    refine .start fun v => ?_
    obtain ⟨xs, ys, hv⟩ := List.append_of_mem (hsp.all v)
    have hlen := congrArg List.length (hspl.symm.trans hv)
    rw [hsp.place xs v ys hv]
    simp only [List.append_nil, List.length_append, List.length_cons] at hlen
    omega
  | cons w after ih =>
    intro before hspl hbef
    have hnum := hsp.place before w after hspl
    have hcov := ih (before ++ [w]) (by simpa using hspl) (by simp)
    rw [List.length_append, List.length_singleton, ← hnum] at hcov
    rw [List.foldr_cons, ← hnum]
    exact hcov.step hsp (ne_root_of_append hsp hspl hbef)

theorem Covers.all_settled (h : Covers t number 1 1 [] sweep) (hv : v ≠ t.root) :
    Settled t sweep.semi sweep.idom v := by
  have hpos : ∀ c, c ≠ t.root → 1 ≤ t.number c := fun c hc =>
    Nat.lt_of_le_of_lt (Nat.zero_le _) (t.parent_lt hc)
  rcases h.settled v (hpos v hv) with hset | hwait | hpend
  · exact hset
  · obtain ⟨_, _, c, hc, _, _, hlt⟩ := h.waiting _ v hwait
    exact absurd (hpos c hc) (Nat.not_le.2 hlt)
  · cases hpend

/-! ## Resolution -/

/-- The positions with numbers below `k` have their immediate dominators, and the others are settled.
-/
structure Resolved (t : Spanning next) (semi : Vector (Fin n) n) (k : Nat)
    (idom : Vector (Option (Fin n)) n) : Prop where
  root : idom.get t.root = none
  resolved : ∀ v, v ≠ t.root → t.number v < k →
    ∃ d, idom.get v = some d ∧ ImmediatelyDominates next d v
  settled : ∀ v, k ≤ t.number v → Settled t semi idom v

theorem Resolved.resolve {semi : Vector (Fin n) n} {idom : Vector (Option (Fin n)) n}
    (h : Resolved t semi (t.number w) idom) (hw : w ≠ t.root) :
    Resolved t semi (t.number w + 1) (resolve semi idom w) := by
  -- one position may change, and gets its immediate dominator
  have hstep : (∃ d, (Sweep.resolve semi idom w).get w = some d ∧ ImmediatelyDominates next d w) ∧
      ∀ v, w ≠ v → (Sweep.resolve semi idom w).get v = idom.get v := by
    unfold Sweep.resolve
    rcases h.settled w (Nat.le_refl _) with ⟨hget, hdom⟩ | ⟨u, hget, hne, hroot, hlt, hsame⟩
    · simp only [hget, if_true]
      exact ⟨⟨_, rfl, hdom⟩, fun _ _ => trivial⟩
    · obtain ⟨d, hd, hdom⟩ := h.resolved u hroot hlt
      simp only [hget, if_neg hne, get_put_self]
      exact ⟨⟨d, hd, hsame d hdom⟩, fun v hv => get_put_of_ne _ _ hv⟩
  obtain ⟨hself, hoths⟩ := hstep
  refine ⟨(hoths _ hw).trans h.root, fun v hv hlt => ?_, fun v hv => ?_⟩
  · by_cases heq : w = v
    · exact heq ▸ hself
    · rw [hoths v heq]
      refine h.resolved v hv (Nat.lt_of_le_of_ne (Nat.le_of_lt_succ hlt) fun hnum => ?_)
      exact heq (t.injective hnum.symm)
  · have hne : w ≠ v := by
      rintro rfl
      exact Nat.lt_irrefl _ hv
    exact (h.settled v (Nat.le_of_lt hv)).congr rfl (hoths v hne)

theorem Resolved.run (hsp : numbering.Spans t) (after : List (Fin n)) :
    ∀ before idom, numbering.order = before ++ after → before ≠ [] →
      Resolved t semi before.length idom →
      Resolved t semi numbering.order.length (after.foldl (Sweep.resolve semi) idom) := by
  induction after with
  | nil =>
    intro before idom hspl _ h
    rwa [hspl, List.append_nil]
  | cons w after ih =>
    intro before idom hspl hbef h
    have hnum := hsp.place before w after hspl
    refine ih (before ++ [w]) _ (by simpa using hspl) (by simp) ?_
    rw [List.length_append, List.length_singleton, ← hnum]
    rw [← hnum] at h
    exact h.resolve (ne_root_of_append hsp hspl hbef)

end Sweep

namespace Graph

variable {numbering : Numbering n}

theorem immediateDominators_exact (hsp : numbering.Spans t) :
    ((ofSuccessors next).immediateDominators numbering).get t.root = none ∧
    ∀ v, v ≠ t.root → ∃ d, ((ofSuccessors next).immediateDominators numbering).get v = some d ∧
      ImmediatelyDominates next d v := by
  obtain ⟨rest, horder⟩ : ∃ rest, numbering.order = t.root :: rest :=
    List.head?_eq_some_iff.1 hsp.head
  have hcov := Sweep.covers_foldr hsp rest [t.root] horder (by simp)
  have hroot : t.number t.root < 1 := by simp [hsp.place [] t.root rest horder]
  obtain ⟨swept, hswept⟩ : ∃ swept,
      rest.foldr (Sweep.step (ofSuccessors next) numbering) .start = swept := ⟨_, rfl⟩
  rw [hswept] at hcov
  have hstart : Sweep.Resolved t swept.semi 1 swept.idom := by
    refine ⟨(hcov.unswept _ hroot).2, fun v hv hlt => ?_, fun v hv => hcov.all_settled ?_⟩
    · exact absurd (t.injective (by omega)) hv
    · rintro rfl
      omega
  have hresolved := Sweep.Resolved.run hsp rest [t.root] _ horder (by simp) hstart
  unfold immediateDominators
  rw [horder, List.tail_cons, hswept]
  refine ⟨hresolved.root, fun v hv => hresolved.resolved v hv ?_⟩
  obtain ⟨xs, ys, hspl⟩ := List.append_of_mem (hsp.all v)
  rw [hsp.place xs v ys hspl, hspl]
  simp

end Graph

end SysY.Flow

import Mathlib.Tactic.ByContra
import SysY.Proofs.Flow.Dominance

/-!
# Semidominators

A depth-first search spans a graph: it numbers the positions in the order in which it comes to them
and has a tree of the edges along which it does so. All that is needed of the tree and the numbers is
in `Spanning`: edges to higher numbers lead down the tree, and the positions below one of them have
consecutive numbers.

A high road to a position is a path on which all positions in between have higher numbers. The
semidominator of a position is the lowest one with a high road to it. It lies above the position in
the tree, and no dominator of the position lies between them (`Semidominator.above_of_dominates`). If
no position in between has a lower semidominator, it is the immediate dominator
(`immediatelyDominates_of_least`), and otherwise the one of them with the lowest semidominator has the
same immediate dominator (`immediatelyDominates_of_lower`).
-/

namespace SysY.Flow

variable {n : Nat} {next : Fin n → List (Fin n)}

/-- The immediate dominator of a position: it strictly dominates the position, and all others that do
so strictly dominate it. -/
structure ImmediatelyDominates (next : Fin n → List (Fin n)) (a b : Fin n) : Prop where
  strictly : StrictlyDominates next a b
  others : ∀ d, StrictlyDominates next d b → d = a ∨ StrictlyDominates next d a

/-! ## Spanning trees -/

/-- One position lies above another one in a tree, or is the same. -/
inductive Above (root : Fin n) (parent : Fin n → Fin n) (a : Fin n) : Fin n → Prop
  | refl : Above root parent a a
  | step {b : Fin n} : b ≠ root → Above root parent a (parent b) → Above root parent a b

/-- What a depth-first search makes of a graph: a tree and the order in which it meets the positions.
-/
structure Spanning (next : Fin n → List (Fin n)) where
  root : Fin n
  first : Graph.firstPosition? = some root
  number : Fin n → Nat
  parent : Fin n → Fin n
  number_lt : ∀ v, number v < n
  injective : ∀ {a b}, number a = number b → a = b
  parent_lt : ∀ {v}, v ≠ root → number (parent v) < number v
  edge : ∀ {v}, v ≠ root → v ∈ next (parent v)
  /-- Edges to higher numbers lead down the tree. -/
  forward : ∀ {v w}, w ∈ next v → number v < number w → Above root parent v w
  /-- What lies below a position has consecutive numbers. -/
  contiguous : ∀ {a b c}, Above root parent a b → number a ≤ number c → number c ≤ number b →
    Above root parent a c

namespace Spanning

variable (t : Spanning next) {a b c d u v w x y : Fin n}

/-- `a` lies above `b` or is `b`. -/
abbrev Above (a b : Fin n) : Prop := Flow.Above t.root t.parent a b

/-- `a` lies above `b`. -/
def Over (a b : Fin n) : Prop := t.Above a b ∧ a ≠ b

variable {t}

theorem Above.trans (hab : t.Above a b) (hbc : t.Above b c) : t.Above a c := by
  induction hbc with
  | refl => exact hab
  | step hne _ ih => exact .step hne ih

theorem Above.number_le (h : t.Above a b) : t.number a ≤ t.number b := by
  induction h with
  | refl => exact Nat.le_refl _
  | step hne _ ih => exact Nat.le_trans ih (Nat.le_of_lt (t.parent_lt hne))

theorem Over.number_lt (h : t.Over a b) : t.number a < t.number b :=
  Nat.lt_of_le_of_ne (Above.number_le h.1) fun heq => h.2 (t.injective heq)

theorem Over.trans_above (hab : t.Over a b) (hbc : t.Above b c) : t.Over a c := by
  refine ⟨Above.trans hab.1 hbc, fun heq => ?_⟩
  subst heq
  exact absurd (Above.number_le hbc) (Nat.not_le.2 hab.number_lt)

theorem Above.over_of_lt (h : t.Above a b) (hlt : t.number a < t.number b) : t.Over a b :=
  ⟨h, fun heq => absurd hlt (heq ▸ Nat.lt_irrefl _)⟩

theorem over_parent (h : v ≠ t.root) : t.Over (t.parent v) v :=
  Above.over_of_lt (.step h .refl) (t.parent_lt h)

theorem Over.above_parent (h : t.Over a b) : b ≠ t.root ∧ t.Above a (t.parent b) := by
  obtain ⟨habv, hne⟩ := h
  cases habv with
  | refl => exact absurd rfl hne
  | step hroot habv => exact ⟨hroot, habv⟩

theorem Above.of_number_le (ha : t.Above a c) (hb : t.Above b c) (h : t.number a ≤ t.number b) :
    t.Above a b := t.contiguous ha h (Above.number_le hb)

theorem root_above (v : Fin n) : t.Above t.root v := by
  induction hnum : t.number v using Nat.strongRecOn generalizing v with
  | _ number ih =>
    by_cases hroot : v = t.root
    · subst hroot
      exact .refl
    · exact .step hroot (ih _ (hnum ▸ t.parent_lt hroot) _ rfl)

/-! ### Ways around a position -/

theorem reachedAround_root (h : d ≠ t.root) : ReachedAround next d t.root :=
  .entry (by simp [t.first]) h.symm

theorem ReachedAround.down (h : ReachedAround next d u) (hv : t.Above u v)
    (hbtw : ∀ z, t.Above u z → t.Above z v → z ≠ d) : ReachedAround next d v := by
  induction hv with
  | refl => exact h
  | @step v hroot hu ih =>
    have hprt := ih fun z huz hz => hbtw z huz (Above.trans hz (.step hroot .refl))
    exact .edge hprt (t.edge hroot) (hbtw v (.step hroot hu) .refl)

theorem ReachedAround.down_of_lt (h : ReachedAround next d u) (hv : t.Above u v)
    (hlt : t.number d < t.number u) : ReachedAround next d v := by
  refine ReachedAround.down h hv fun z huz _ heq => ?_
  subst heq
  exact absurd (Above.number_le huz) (Nat.not_le.2 hlt)

theorem reachedAround_of_not_above (h : ¬ t.Above d v) : ReachedAround next d v := by
  refine ReachedAround.down (t := t) (reachedAround_root ?_) (root_above v) fun z _ hz heq => ?_
  · rintro rfl
    exact h (root_above v)
  · subst heq
    exact h hz

theorem over_of_dominates (t : Spanning next) (h : StrictlyDominates next d v) : t.Over d v := by
  by_contra hnot
  exact h.unavoidable (reachedAround_of_not_above fun habv => hnot ⟨habv, h.ne⟩)

theorem dominates_between (h : StrictlyDominates next d w) (hd : t.Over d u) (hu : t.Above u w) :
    StrictlyDominates next d u :=
  ⟨hd.2, fun harnd => h.unavoidable (ReachedAround.down_of_lt harnd hu hd.number_lt)⟩

/-! ## High roads -/

variable (t) in
/-- A path from a position to `w` on which all positions in between have higher numbers than `w`. -/
inductive HighRoad (w : Fin n) : Fin n → Prop
  | edge {v : Fin n} : w ∈ next v → HighRoad w v
  | step {v u : Fin n} : u ∈ next v → t.number w < t.number u → HighRoad w u → HighRoad w v

theorem highRoad_parent (h : w ≠ t.root) : t.HighRoad w (t.parent w) := .edge (t.edge h)

theorem HighRoad.above_of_above (h : t.HighRoad w u) (hu : t.number w < t.number u)
    (ha : t.Above a u) (hw : t.number a ≤ t.number w) : t.Above a w := by
  induction h with
  | edge _ => exact t.contiguous ha hw (Nat.le_of_lt hu)
  | @step v u hvu huw _ ih =>
    refine ih huw ?_
    rcases Nat.le_total (t.number u) (t.number v) with hle | hle
    · exact t.contiguous ha (by omega) hle
    · rcases Nat.lt_or_eq_of_le hle with hlt | heq
      · exact Above.trans ha (t.forward hvu hlt)
      · exact t.injective heq ▸ ha

theorem HighRoad.above (h : t.HighRoad w v) (hv : t.number v < t.number w) : t.Above v w := by
  cases h with
  | edge hvw => exact t.forward hvw hv
  | step hvu huw hroad =>
    exact hroad.above_of_above huw (t.forward hvu (by omega)) (Nat.le_of_lt hv)

theorem HighRoad.reachedAround (h : t.HighRoad w v) (hv : ReachedAround next d v)
    (hd : t.number d < t.number w) : ReachedAround next d w := by
  have hne : ∀ z, t.number w ≤ t.number z → z ≠ d := fun z hz heq => by
    subst heq
    omega
  induction h with
  | edge hvw => exact .edge hv hvw (hne w (Nat.le_refl _))
  | step hvu huw _ ih => exact ih (.edge hv hvu (hne _ (Nat.le_of_lt huw)))

theorem HighRoad.of_above (h : t.HighRoad w v) (hu : t.Above u v) (hw : t.number w < t.number u) :
    t.HighRoad w u := by
  induction hu with
  | refl => exact h
  | @step v hroot habv ih =>
    have huv : t.number u ≤ t.number v := Above.number_le (.step hroot habv)
    exact ih (.step (t.edge hroot) (by omega) h)

theorem HighRoad.trans (h : t.HighRoad u x) (hw : t.HighRoad w u) (hu : t.number w < t.number u) :
    t.HighRoad w x := by
  induction h with
  | edge hxu => exact .step hxu hu hw
  | step hxv huv _ ih => exact .step hxv (by omega) ih

theorem HighRoad.split (h : t.HighRoad w x) : ∃ v, w ∈ next v ∧
    (v = x ∨ ∃ u, t.number w < t.number u ∧ t.Above u v ∧ t.HighRoad u x) := by
  induction h with
  | @edge v hvw => exact ⟨v, hvw, .inl rfl⟩
  | @step x u0 hxu hu0 _ ih =>
    obtain ⟨v, hvw, hv | ⟨u, hu, huv, hroad⟩⟩ := ih
    · exact ⟨v, hvw, .inr ⟨u0, hu0, hv ▸ .refl, .edge hxu⟩⟩
    · refine ⟨v, hvw, .inr ?_⟩
      rcases Nat.lt_or_ge (t.number u) (t.number u0) with hlt | hge
      · exact ⟨u, hu, huv, .step hxu hlt hroad⟩
      · refine ⟨u0, hu0, ?_, .edge hxu⟩
        rcases Nat.lt_or_eq_of_le hge with hlt | heq
        · exact Above.trans (hroad.above hlt) huv
        · exact t.injective heq ▸ huv

theorem exists_highRoad_of_reachedAround (hw : t.Over d w) (h : ReachedAround next d w) :
    ∃ y x, t.Over d y ∧ t.Above y w ∧ t.HighRoad y x ∧ t.number x < t.number d := by
  by_contra hnone
  simp only [not_exists, not_and] at hnone
  -- Along the way, every high road to a position between begins at a lower number if it is followed
  -- back far enough, and the way does not come to a position between.
  have hinv : ∀ v, ReachedAround next d v → ¬ (t.Over d v ∧ t.Above v w) ∧
      ∀ y, t.Over d y → t.Above y w → t.HighRoad y v →
        ∃ x, t.number x < t.number d ∧ t.HighRoad y x := by
    intro v hv
    induction hv with
    | @start v hv =>
      obtain ⟨hfst, hne⟩ := List.mem_filter.1 hv
      obtain rfl : v = t.root := by simpa [t.first] using hfst
      have hlt : t.number t.root < t.number d :=
        (Above.over_of_lt (root_above d) (Nat.lt_of_le_of_ne (Above.number_le (root_above d))
          fun heq => (by simpa using hne : t.root ≠ d) (t.injective heq))).number_lt
      exact ⟨fun hbtw => absurd hbtw.1.number_lt (by omega), fun y _ _ hroad =>
        ⟨t.root, hlt, hroad⟩⟩
    | @step v v' hv hv' ih =>
      obtain ⟨hedge, hne⟩ := List.mem_filter.1 hv'
      have hne : v' ≠ d := by simpa using hne
      have hnot : ¬ (t.Over d v' ∧ t.Above v' w) := by
        rintro ⟨hover, habv⟩
        obtain ⟨x, hx, hroad⟩ := ih.2 v' hover habv (.edge hedge)
        exact hnone v' x hover habv hroad hx
      refine ⟨hnot, fun y hdy hyw hroad => ?_⟩
      rcases Nat.lt_or_ge (t.number v') (t.number d) with hlt | hge
      · exact ⟨v', hlt, hroad⟩
      · have hdv' : t.number d < t.number v' :=
          Nat.lt_of_le_of_ne hge fun heq => hne (t.injective heq.symm)
        -- otherwise the road would begin between
        have hyv' : t.number y < t.number v' := by
          by_contra hle
          rcases Nat.lt_or_eq_of_le (Nat.not_lt.1 hle) with hlt | heq
          · have hv'y := hroad.above hlt
            have hover := Above.over_of_lt (Above.of_number_le hdy.1 hv'y hge) hdv'
            exact hnot ⟨hover, Above.trans hv'y hyw⟩
          · exact hnot (t.injective heq ▸ ⟨hdy, hyw⟩)
        exact ih.2 y hdy hyw (.step hedge hyv' hroad)
  exact (hinv w h).1 ⟨hw, .refl⟩

/-! ## Semidominators -/

variable (t) in
/-- The lowest position with a high road to `w`. -/
structure Semidominator (s w : Fin n) : Prop where
  road : t.HighRoad w s
  least : ∀ v, t.HighRoad w v → t.number s ≤ t.number v

namespace Semidominator

variable {s r : Fin n}

theorem isOver (h : t.Semidominator s w) (hw : w ≠ t.root) : t.Over s w := by
  have hlt : t.number s < t.number w :=
    Nat.lt_of_le_of_lt (h.least _ (highRoad_parent hw)) (t.parent_lt hw)
  exact Above.over_of_lt (h.road.above hlt) hlt

theorem above_of_dominates (h : t.Semidominator s w) (hd : StrictlyDominates next d w) :
    t.Above d s := by
  by_contra hnot
  have hdw := over_of_dominates t hd
  refine hd.unavoidable (h.road.reachedAround (reachedAround_of_not_above hnot) hdw.number_lt)

end Semidominator

variable {s r : Fin n}

theorem immediatelyDominates_of_least (hs : t.Semidominator s w) (hw : w ≠ t.root)
    (hlst : ∀ y, t.Over s y → t.Above y w → ∀ x, t.HighRoad y x → t.number s ≤ t.number x) :
    ImmediatelyDominates next s w := by
  have hover := hs.isOver hw
  refine ⟨⟨hover.2, fun harnd => ?_⟩, fun d hd => ?_⟩
  · obtain ⟨y, x, hsy, hyw, hroad, hlt⟩ := exists_highRoad_of_reachedAround hover harnd
    exact absurd (hlst y hsy hyw x hroad) (Nat.not_le.2 hlt)
  · have habv := hs.above_of_dominates hd
    by_cases hds : d = s
    · exact .inl hds
    · exact .inr (dominates_between hd ⟨habv, hds⟩ hover.1)

theorem immediatelyDominates_of_lower (hs : t.Semidominator s w) (hw : w ≠ t.root)
    (hr : t.Semidominator r u) (hsu : t.Over s u) (huw : t.Above u w)
    (hlst : ∀ y, t.Over s y → t.Above y w → ∀ x, t.HighRoad y x → t.number r ≤ t.number x)
    (h : ImmediatelyDominates next d u) : ImmediatelyDominates next d w := by
  have hdu := over_of_dominates t h.strictly
  have hdw := hdu.trans_above huw
  refine ⟨⟨hdw.2, fun harnd => ?_⟩, fun e he => h.others e ?_⟩
  · obtain ⟨y, x, hdy, hyw, hroad, hlt⟩ := exists_highRoad_of_reachedAround hdw harnd
    have hdr := Above.number_le (hr.above_of_dominates h.strictly)
    have hsw := hs.isOver hw
    rcases Nat.lt_or_ge (t.number s) (t.number y) with hsy | hys
    · -- the road enters between the semidominator and the position
      have hover := Above.over_of_lt (Above.of_number_le hsw.1 hyw (Nat.le_of_lt hsy)) hsy
      have := hlst y hover hyw x hroad
      omega
    · -- the road enters above, and then it leads around to the position in between
      have hyu : t.Above y u := Above.trans (Above.of_number_le hyw hsw.1 hys) hsu.1
      have hx : ReachedAround next d x := reachedAround_of_not_above fun hdx =>
        absurd (Above.number_le hdx) (Nat.not_le.2 hlt)
      have hy := hroad.reachedAround hx hdy.number_lt
      exact h.strictly.unavoidable (ReachedAround.down_of_lt hy hyu hdy.number_lt)
  · have hes := hs.above_of_dominates he
    have hne : e ≠ u := by
      rintro rfl
      exact absurd (Above.number_le hes) (Nat.not_le.2 hsu.number_lt)
    exact dominates_between he ⟨Above.trans hes hsu.1, hne⟩ huw

end Spanning

end SysY.Flow

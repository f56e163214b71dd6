import SysY.Proofs.Flow.DepthFirst

/-!
# The forest of swept positions

A sweep goes through the positions against their numbers, so what is swept has the numbers from some
`k` on. The forest knows of every swept position another one above it, and the least rank between the
two (`Forest.Linked`). Compression keeps that and lets the position above be one that is not swept, so
that evaluation finds the least rank of all swept positions above (`Forest.Linked.eval`).
-/

namespace SysY.Flow

variable {n : Nat} {next : Fin n → List (Fin n)} {t : Spanning next} {k : Nat} {rank : Fin n → Nat}
  {rank' : Fin n → Nat} {steps : Nat}

/-! ## Least ranks -/

/-- The positions from `v` up to, but without, `a` have numbers from `k` on, and `u` is one of them and
has the least rank. -/
structure Spanning.Least (t : Spanning next) (k : Nat) (rank : Fin n → Nat) (a v u : Fin n) :
    Prop where
  top : t.Over a v
  swept : ∀ y, t.Over a y → t.Above y v → k ≤ t.number y
  below : t.Over a u
  above : t.Above u v
  least : ∀ y, t.Over a y → t.Above y v → rank u ≤ rank y

namespace Spanning.Least

variable {a r u u' v : Fin n}

theorem congr (h : t.Least k rank a v u)
    (hrank : ∀ y, k ≤ t.number y → rank' y = rank y) : t.Least k rank' a v u where
  top := h.top
  swept := h.swept
  below := h.below
  above := h.above
  least y hy hyv := by
    rw [hrank u (h.swept u h.below h.above), hrank y (h.swept y hy hyv)]
    exact h.least y hy hyv

theorem mono {l : Nat} (h : t.Least k rank a v u) (hl : l ≤ k) : t.Least l rank a v u :=
  { h with swept := fun y hy hyv => Nat.le_trans hl (h.swept y hy hyv) }

theorem single (rank : Fin n → Nat) (hv : v ≠ t.root) :
    t.Least (t.number v) rank (t.parent v) v v := by
  have honly : ∀ y, t.Over (t.parent v) y → t.Above y v → y = v := by
    intro y hy hyv
    by_contra hne
    have hle := Above.number_le (Over.above_parent ⟨hyv, hne⟩).2
    exact absurd hy.number_lt (Nat.not_lt.2 hle)
  refine ⟨over_parent hv, fun y hy hyv => ?_, over_parent hv, .refl, fun y hy hyv => ?_⟩
  · rw [honly y hy hyv]
  · rw [honly y hy hyv]

theorem join (hv : t.Least k rank a v u) (ha : t.Least k rank r a u') :
    t.Least k rank r v (if rank u' < rank u then u' else u) := by
  -- a position of the whole belongs to one of the two
  have hcas : ∀ y, t.Over r y → t.Above y v → t.Over r y ∧ t.Above y a ∨ t.Over a y := by
    intro y hy hyv
    rcases Nat.lt_or_ge (t.number a) (t.number y) with hlt | hge
    · exact .inr (Above.over_of_lt (Above.of_number_le hv.top.1 hyv (Nat.le_of_lt hlt)) hlt)
    · exact .inl ⟨hy, Above.of_number_le hyv hv.top.1 hge⟩
  refine ⟨ha.top.trans_above hv.top.1, fun y hy hyv => ?_, ?_, ?_, fun y hy hyv => ?_⟩
  · rcases hcas y hy hyv with ⟨hy, hya⟩ | hy
    · exact ha.swept y hy hya
    · exact hv.swept y hy hyv
  · split
    · exact ha.below
    · exact ha.top.trans_above hv.below.1
  · split
    · exact Above.trans ha.above hv.top.1
    · exact hv.above
  · rcases hcas y hy hyv with ⟨hy, hya⟩ | hy
    · have := ha.least y hy hya
      split <;> omega
    · have := hv.least y hy hyv
      split <;> omega

theorem top_unique (h : t.Least k rank a v u) (ha : t.number a < k) (hr : t.Above r v)
    (hrk : t.number r < k) (hswept : ∀ y, t.Over r y → t.Above y v → k ≤ t.number y) : a = r := by
  rcases Nat.lt_trichotomy (t.number a) (t.number r) with hlt | heq | hlt
  · have hover := Above.over_of_lt (Above.of_number_le h.top.1 hr (Nat.le_of_lt hlt)) hlt
    exact absurd (h.swept r hover hr) (Nat.not_le.2 hrk)
  · exact t.injective heq
  · have hover := Above.over_of_lt (Above.of_number_le hr h.top.1 (Nat.le_of_lt hlt)) hlt
    exact absurd (hswept a hover h.top.1) (Nat.not_le.2 ha)

end Spanning.Least

/-! ## The forest -/

namespace Forest

/-- The forest of the positions with numbers from `k` on. -/
structure Linked (t : Spanning next) (k : Nat) (rank : Fin n → Nat) (forest : Forest n) : Prop where
  roots : ∀ v, t.number v < k → forest.ancestor.get v = none ∧ forest.label.get v = v
  nodes : ∀ v, k ≤ t.number v →
    ∃ a, forest.ancestor.get v = some a ∧ t.Least k rank a v (forest.label.get v)

namespace Linked

variable {forest : Forest n} {a r v w : Fin n}

theorem congr (h : forest.Linked t k rank)
    (hrank : ∀ y, k ≤ t.number y → rank' y = rank y) : forest.Linked t k rank' where
  roots := h.roots
  nodes v hv := by
    obtain ⟨a, ha, hlst⟩ := h.nodes v hv
    exact ⟨a, ha, hlst.congr hrank⟩

theorem scattered (hk : ∀ v, t.number v < k) : (scattered : Forest n).Linked t k rank where
  roots v _ := by simp [Forest.scattered, get_eq_getElem]
  nodes v hv := absurd (hk v) (Nat.not_lt.2 hv)

theorem number_lt_of_none (h : forest.Linked t k rank) (hv : forest.ancestor.get v = none) :
    t.number v < k := by
  by_contra hge
  obtain ⟨a, ha, _⟩ := h.nodes v (Nat.not_lt.1 hge)
  rw [hv] at ha
  cases ha

theorem least_of_some (h : forest.Linked t k rank) (hv : forest.ancestor.get v = some a) :
    k ≤ t.number v ∧ t.Least k rank a v (forest.label.get v) := by
  rcases Nat.lt_or_ge (t.number v) k with hlt | hge
  · rw [(h.roots v hlt).1] at hv
    cases hv
  · obtain ⟨b, hb, hlst⟩ := h.nodes v hge
    rw [hv] at hb
    cases hb
    exact ⟨hge, hlst⟩

theorem link (h : forest.Linked t (k + 1) rank) (hw : w ≠ t.root) (hk : t.number w = k) :
    (forest.link (t.parent w) w).Linked t k rank where
  roots v hv := by
    have hne : w ≠ v := by
      rintro rfl
      omega
    rw [Forest.link, get_put_of_ne _ _ hne]
    exact h.roots v (by omega)
  nodes v hv := by
    by_cases heq : w = v
    · subst heq
      refine ⟨t.parent w, get_put_self _ _ _, ?_⟩
      rw [Forest.link, (h.roots w (by omega)).2, ← hk]
      exact Spanning.Least.single rank hw
    · have hlt : k + 1 ≤ t.number v := by
        rcases Nat.lt_or_eq_of_le hv with hlt | heq'
        · exact hlt
        · exact absurd (t.injective (hk.trans heq')) heq
      obtain ⟨a, ha, hlst⟩ := h.nodes v hlt
      exact ⟨a, (get_put_of_ne _ _ heq).trans ha, hlst.mono (Nat.le_succ k)⟩

/-! ### Compression -/

theorem shorten (h : forest.Linked t k rank) (hv : forest.ancestor.get v = some a)
    (ha : forest.ancestor.get a = some r) :
    (forest.shorten rank v).Linked t k rank ∧
      (forest.shorten rank v).ancestor.get v = some r := by
  obtain ⟨hvk, hlst⟩ := h.least_of_some hv
  obtain ⟨_, hlst'⟩ := h.least_of_some ha
  have heq : forest.shorten rank v =
      { ancestor := put forest.ancestor v (some r)
        label := put forest.label v (if rank (forest.label.get a) < rank (forest.label.get v)
          then forest.label.get a else forest.label.get v) } := by
    simp only [Forest.shorten, hv, ha]
  rw [heq]
  refine ⟨⟨fun y hy => ?_, fun y hy => ?_⟩, get_put_self _ _ _⟩
  · have hne : v ≠ y := by
      rintro rfl
      omega
    rw [get_put_of_ne _ _ hne, get_put_of_ne _ _ hne]
    exact h.roots y hy
  · by_cases hvy : v = y
    · subst hvy
      refine ⟨r, get_put_self _ _ _, ?_⟩
      rw [get_put_self]
      exact hlst.join hlst'
    · rw [get_put_of_ne _ _ hvy, get_put_of_ne _ _ hvy]
      exact h.nodes y hy

theorem number_le_of_mem_path (h : forest.Linked t k rank) :
    ∀ {v y}, y ∈ forest.path steps v → t.number y ≤ t.number v := by
  induction steps with
  | zero => exact fun hy => nomatch hy
  | succ steps ih =>
    intro v y hy
    rw [path] at hy
    split at hy
    · cases hy
    · rename_i a ha
      split at hy
      · cases hy
      · rcases List.mem_cons.1 hy with rfl | hy
        · exact Nat.le_refl _
        · have hlt := (h.least_of_some ha).2.top.number_lt
          exact Nat.le_trans (ih hy) (Nat.le_of_lt hlt)

end Linked

theorem ancestor_foldr_shorten {forest : Forest n} {path : List (Fin n)} {v : Fin n} (h : v ∉ path) :
    (path.foldr (shorten rank) forest).ancestor.get v = forest.ancestor.get v := by
  induction path with
  | nil => rfl
  | cons y path ih =>
    rw [List.foldr_cons, shorten, ← ih (List.not_mem_of_not_mem_cons h)]
    split
    · rfl
    · exact get_put_of_ne _ _ (List.ne_of_not_mem_cons h).symm

namespace Linked

variable {forest : Forest n} {v : Fin n}

theorem compress (h : forest.Linked t k rank) :
    ∀ {v}, t.number v < steps → k ≤ t.number v →
      ((forest.path steps v).foldr (Forest.shorten rank) forest).Linked t k rank ∧
      ∃ r, ((forest.path steps v).foldr (Forest.shorten rank) forest).ancestor.get v = some r ∧
        t.number r < k := by
  induction steps with
  | zero => exact fun hv => absurd hv (Nat.not_lt_zero _)
  | succ steps ih =>
    intro v hsteps hv
    obtain ⟨a, ha, hlst⟩ := h.nodes v hv
    rw [path, ha]
    dsimp only
    split
    · rename_i hnone
      exact ⟨h, a, ha, h.number_lt_of_none (Option.isNone_iff_eq_none.1 hnone)⟩
    · rename_i hsome
      have hav := hlst.top.number_lt
      have hak : k ≤ t.number a := by
        by_contra hlt
        exact hsome (by rw [(h.roots a (Nat.not_le.1 hlt)).1]; rfl)
      obtain ⟨hlnk, r, hr, hrk⟩ := ih (v := a) (by omega) hak
      have hv' : ((forest.path steps a).foldr (Forest.shorten rank) forest).ancestor.get v =
          some a := by
        rw [ancestor_foldr_shorten, ha]
        intro hmem
        exact absurd (h.number_le_of_mem_path hmem) (Nat.not_le.2 hav)
      obtain ⟨hlnk', hget⟩ := hlnk.shorten hv' hr
      exact ⟨hlnk', r, hget, hrk⟩

theorem eval (h : forest.Linked t k rank) (v : Fin n) :
    (forest.eval rank v).2.Linked t k rank ∧
    (t.number v < k → (forest.eval rank v).1 = v) ∧
    (k ≤ t.number v → ∃ r, t.number r < k ∧ t.Least k rank r v (forest.eval rank v).1) := by
  unfold Forest.eval
  rcases Nat.lt_or_ge (t.number v) k with hlt | hge
  · rw [if_pos (by rw [(h.roots v hlt).1]; rfl)]
    exact ⟨h, fun _ => rfl, fun hge => absurd hlt (Nat.not_lt.2 hge)⟩
  · obtain ⟨a, ha, _⟩ := h.nodes v hge
    rw [if_neg (by rw [ha]; simp)]
    obtain ⟨hlnk, r, hr, hrk⟩ := h.compress (t.number_lt v) hge
    exact ⟨hlnk, fun hlt => absurd hlt (Nat.not_lt.2 hge),
      fun _ => ⟨r, hrk, (hlnk.least_of_some hr).2⟩⟩

end Linked

end Forest

end SysY.Flow

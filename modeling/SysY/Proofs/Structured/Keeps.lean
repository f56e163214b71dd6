import SysY.Proofs.Structured.Values

/-!
# What the evaluation of an expression leaves alone

Only calls change anything while an expression is evaluated. They change no variable of the function
itself, and in an expression that has a value they change neither a global variable that it has read
nor the array that is being initialized.
-/

namespace SysY.Structured

open Tree Option

/-- What is the same in a later moment of an expression. -/
structure Keeps (site : Site) (hidden : Option Region) (m m' : Moment) : Prop where
  own : ∀ x, site.own x = true → m'.store.scalars x = m.store.scalars x
  reads : ∀ x ∈ m.reads, x ∈ m'.reads
  fixed : ∀ x ∈ m.reads, m'.store.scalars x = m.store.scalars x
  hidden : ∀ a, hidden.any (·.contains a) = true → m'.store.memory a = m.store.memory a

variable {site : Site} {hidden : Option Region} {meaning : Generation.Meaning}
  {indices args : List Int32} {v : Int32} {m m' : Moment} {fn : String}
  {loc : Location}

namespace Keeps

theorem refl (m : Moment) : Keeps site hidden m m :=
  ⟨fun _ _ => rfl, fun _ h => h, fun _ _ => rfl, fun _ _ => rfl⟩

theorem trans {m1 m2 m3 : Moment} (h1 : Keeps site hidden m1 m2) (h2 : Keeps site hidden m2 m3) :
    Keeps site hidden m1 m3 where
  own x hx := (h2.own x hx).trans (h1.own x hx)
  reads x hx := h2.reads x (h1.reads x hx)
  fixed x hx := (h2.fixed x (h1.reads x hx)).trans (h1.fixed x hx)
  hidden a ha := (h2.hidden a ha).trans (h1.hidden a ha)

end Keeps

namespace Site

theorem load_eq_some {store : Store} : site.load hidden store meaning indices = some v ↔
      ∃ a, site.address store meaning indices = some a ∧ site.inBounds meaning indices a = true ∧
        hidden.any (·.touches a) = false ∧ v = store.memory.word a ∧
        ∀ values, meaning.values = some values →
          values[(elementIndex meaning.dimensions indices).toNat]? = some v := by
  unfold load
  rw [bind_eq_bind, bind_eq_some_iff]
  refine exists_congr fun a => and_congr_right fun _ => ?_
  rw [ite_none_right_eq_some, Bool.and_eq_true, Bool.not_eq_true', and_assoc]
  refine and_congr_right fun _ => and_congr_right fun _ => ?_
  cases meaning.values with
  | none => simp [eq_comm]
  | some values =>
    dsimp only
    split
    · rename_i h
      simp only [Option.some.injEq, forall_eq']
      constructor
      · rintro rfl
        exact ⟨rfl, h⟩
      · exact fun h => h.1.symm
    · rename_i h
      simp only [reduceCtorEq, Option.some.injEq, forall_eq', false_iff, not_and]
      rintro rfl
      exact h

theorem read_cases (h : site.read hidden meaning indices m = some (v, m')) :
    (indices.length < meaning.dimensions.length ∧ m' = m ∧
      ∃ a, site.address m.store meaning indices = some a ∧ v = a.toInt32) ∨
    (meaning.dimensions = [] ∧ m' = m ∧
      ∃ values, meaning.values = some values ∧ values[0]? = some v) ∨
    (meaning.dimensions = [] ∧ meaning.values = none ∧ m.store.scalars meaning.symbol = some v ∧
      m'.store = m.store ∧ m'.reads = if site.own meaning.symbol then m.reads
        else meaning.symbol :: m.reads) ∨
    (meaning.dimensions ≠ [] ∧ ¬ indices.length < meaning.dimensions.length ∧ m' = m ∧
      site.load hidden m.store meaning indices = some v) := by
  unfold read at h
  split at h
  · rename_i hlt
    obtain ⟨a, ha, heq⟩ := Option.map_eq_some_iff.1 h
    cases heq
    exact .inl ⟨hlt, rfl, a, ha, rfl⟩
  · rename_i hlt
    split at h
    · rename_i hdims
      have hdims := List.isEmpty_iff.1 hdims
      split at h
      · rename_i values hvals
        obtain ⟨_, hv, heq⟩ := Option.map_eq_some_iff.1 h
        cases heq
        exact .inr (.inl ⟨hdims, rfl, values, hvals, hv⟩)
      · rename_i hvals
        obtain ⟨_, hv, heq⟩ := Option.map_eq_some_iff.1 h
        cases heq
        refine .inr (.inr (.inl ⟨hdims, hvals, hv, ?_⟩))
        cases site.own meaning.symbol <;> exact ⟨rfl, rfl⟩
    · rename_i hdims
      obtain ⟨_, hv, heq⟩ := Option.map_eq_some_iff.1 h
      cases heq
      exact .inr (.inr (.inr ⟨fun h => hdims (List.isEmpty_iff.2 h), hlt, rfl, hv⟩))

theorem read_keeps
    (h : site.read hidden meaning indices m = some (v, m')) : Keeps site hidden m m' := by
  rcases read_cases h with ⟨_, rfl, _⟩ | ⟨_, rfl, _⟩ | ⟨_, _, _, hsto, hreads⟩ | ⟨_, _, rfl, _⟩
  · exact .refl _
  · exact .refl _
  · refine ⟨fun _ _ => by rw [hsto], fun x hx => ?_, fun _ _ => by rw [hsto],
      fun _ _ => by rw [hsto]⟩
    rw [hreads]
    split
    · exact hx
    · exact List.mem_cons_of_mem _ hx
  · exact .refl _

theorem call_eq_some :
    site.call hidden fn args loc m = some (v, m') ↔
      v = (site.world.reply m.store.calls.length).value ∧
      m' = { m with store := site.afterCall m.store fn (if Eeyore.isTiming fn then
        args ++ [Int32.ofNat loc.start.line] else args) } ∧
      (∀ x ∈ m.reads, m'.store.scalars x = m.store.scalars x) ∧
      hidden.all (·.all (site.world.keeps m.store.calls.length)) = true := by
  simp only [call, ite_none_right_eq_some, Option.some.injEq, Prod.mk.injEq,
    Bool.and_eq_true, List.all_eq_true, decide_eq_true_eq]
  constructor
  · rintro ⟨⟨hreads, hhid⟩, rfl, rfl⟩
    exact ⟨rfl, rfl, hreads, hhid⟩
  · rintro ⟨rfl, rfl, hreads, hhid⟩
    exact ⟨⟨hreads, hhid⟩, rfl, rfl⟩

theorem call_keeps
    (h : site.call hidden fn args loc m = some (v, m')) : Keeps site hidden m m' := by
  obtain ⟨_, rfl, hreads, hhid⟩ := call_eq_some.1 h
  refine ⟨fun x hx => by simp [afterCall, hx], fun _ h => h, hreads, fun a ha => ?_⟩
  obtain ⟨region, rfl, ha⟩ := (any_eq_true _ _).1 ha
  simp [afterCall, Region.all_eq_true hhid a ha]

end Site

end SysY.Structured

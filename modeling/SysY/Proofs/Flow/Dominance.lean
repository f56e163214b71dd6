import SysY.Proofs.Flow.Edges

/-!
# Dominance

A position strictly dominates another one if no way from the entry leads to the other one around it.
Strict dominance is an order of the positions that are reached.
-/

namespace SysY.Flow

variable {n : Nat} {a p b : Fin n}

/-- A position that the entry leads to. -/
def Reached (next : Fin n → List (Fin n)) (p : Fin n) : Prop :=
  Met next Graph.firstPosition?.toList p

/-- A position that the entry leads to without passing `a`. -/
def ReachedAround (next : Fin n → List (Fin n)) (a p : Fin n) : Prop :=
  Met (fun p => (next p).filter (· ≠ a)) (Graph.firstPosition?.toList.filter (· ≠ a)) p

/-- Every way to `b` passes `a` in front of it. -/
structure StrictlyDominates (next : Fin n → List (Fin n)) (a b : Fin n) : Prop where
  ne : a ≠ b
  unavoidable : ¬ ReachedAround next a b

section
variable {next : Fin n → List (Fin n)} {c : Fin n}

theorem ReachedAround.entry (h : p ∈ (Graph.firstPosition? : Option (Fin n)).toList)
    (hne : p ≠ a) : ReachedAround next a p :=
  .start (List.mem_filter.2 ⟨h, by simpa using hne⟩)

theorem ReachedAround.edge {q : Fin n} (h : ReachedAround next a p) (hq : q ∈ next p)
    (hne : q ≠ a) : ReachedAround next a q :=
  .step h (List.mem_filter.2 ⟨hq, by simpa using hne⟩)

theorem ReachedAround.exchange (hab : ¬ ReachedAround next a b)
    (h : ReachedAround next a p) : ReachedAround next b p := by
  induction h with
  | @start p hp =>
    obtain ⟨hfst, hne⟩ := List.mem_filter.1 hp
    refine .entry hfst ?_
    rintro rfl
    exact hab (.start hp)
  | @step p q hpath hq ih =>
    refine .edge ih (List.mem_filter.1 hq).1 ?_
    rintro rfl
    exact hab (.step hpath hq)

theorem ReachedAround.ne (h : ReachedAround next a p) : p ≠ a := by
  cases h with
  | start hp => simpa using (List.mem_filter.1 hp).2
  | step _ hq => simpa using (List.mem_filter.1 hq).2

theorem StrictlyDominates.trans_unavoidable (hab : StrictlyDominates next a b)
    (hbc : StrictlyDominates next b c) : ¬ ReachedAround next a c := fun h =>
  hbc.unavoidable (h.exchange hab.unavoidable)

theorem StrictlyDominates.asymm (hab : StrictlyDominates next a b)
    (hrch : Reached next a) : ¬ StrictlyDominates next b a := by
  intro hba
  -- every position that is reached would be reached around `a`, and so would `a`
  have harnd : ∀ p, Reached next p → ReachedAround next a p := by
    intro p hp
    induction hp with
    | @start p hp =>
      by_cases hpa : p = a
      · subst hpa
        exact absurd (.entry hp hab.ne) hba.unavoidable
      · exact .entry hp hpa
    | @step p q _ hq ih =>
      by_cases hqa : q = a
      · subst hqa
        exact absurd (.edge (ih.exchange hab.unavoidable) hq hab.ne) hba.unavoidable
      · exact .edge ih hq hqa
  exact (harnd a hrch).ne rfl

theorem StrictlyDominates.trans (hab : StrictlyDominates next a b)
    (hbc : StrictlyDominates next b c) (hrch : Reached next b) : StrictlyDominates next a c := by
  refine ⟨?_, hab.trans_unavoidable hbc⟩
  rintro rfl
  exact hbc.asymm hrch hab

end

end SysY.Flow

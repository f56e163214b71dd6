import SysY.Proofs.Eeyore.Steps
import SysY.Proofs.Flow.Dominance
import SysY.Proofs.Optimization.Pollution

/-!
# Replacing one instruction

An instruction can be replaced by one that does the same in every state in which a run comes to it,
as long as labels and jumps stay (`run_put`). What is known about such states comes from an earlier
position that every way passes: a fact that the earlier instruction makes true, and that no
instruction on the way back to it spoils, holds (`holds_of_unchanged`).
-/

namespace SysY.Optimization

open Eeyore SysY.Flow Activation

variable {act : Activation} {n k : Nat} {body : Vector Instruction n} {s t : State} {x : Symbol}
  {slots : Slots k}

/-! ## Labels and edges stay -/

/-- Instructions that set and go to the same labels. -/
structure SameControl (i j : Instruction) : Prop where
  target : i.target? = j.target?
  label : ∀ l, i = .label l ↔ j = .label l
  jump : ∀ l, i = .jump l ↔ j = .jump l

section
variable {body body' : Vector Instruction n} {p : Fin n} {instr : Instruction}

theorem labelPosition?_congr (h : ∀ q l, body'.get q = .label l ↔ body.get q = .label l)
    (label : Label) :
    labelPosition? body' label = labelPosition? body label := by
  unfold labelPosition?
  congr 1
  funext q
  simp [h]

theorem targets_congr
    (h : ∀ q, SameControl (body'.get q) (body.get q)) : targets body' = targets body := by
  funext q
  have hlabs : labelPosition? body' = labelPosition? body :=
    funext (labelPosition?_congr fun q l => (h q).label l)
  unfold targets
  rw [hlabs, (h q).target]
  by_cases hjump : ∃ l, body.get q = .jump l
  · obtain ⟨l, hl⟩ := hjump
    rw [((h q).jump l).2 hl, hl]
  · have hjump' : ¬ ∃ l, body'.get q = .jump l := fun ⟨l, hl⟩ => hjump ⟨l, ((h q).jump l).1 hl⟩
    dsimp only
    split
    · rename_i l hl
      exact absurd ⟨l, hl⟩ hjump'
    · split
      · rename_i l hl
        exact absurd ⟨l, hl⟩ hjump
      · rfl

theorem get_put (body : Vector Instruction n) (p : Fin n) (instr : Instruction) (q : Fin n) :
    (put body p instr).get q = if q = p then instr else body.get q := by
  split
  · rename_i h
    rw [h, get_put_self]
  · rename_i h
    exact get_put_of_ne _ _ (Ne.symm h)

theorem sameControl_put (hsame : SameControl instr (body.get p)) (q : Fin n) :
    SameControl ((put body p instr).get q) (body.get q) := by
  rw [get_put]
  split
  · rename_i h
    rw [h]
    exact hsame
  · exact ⟨rfl, fun _ => Iff.rfl, fun _ => Iff.rfl⟩

theorem run_put (hsame : SameControl instr (body.get p))
    (h : ∀ t, act.Comes body s t → t.position = p.val →
      act.execute body t instr = act.execute body t (body.get p)) (steps : Nat) :
    act.run (put body p instr) steps s = act.run body steps s := by
  refine run_congr (fun t ht => ?_) steps
  have hexecute : ∀ i, act.execute (put body p instr) t i = act.execute body t i := by
    intro i
    unfold execute
    split
    · unfold follow
      split
      · rfl
      · rw [labelPosition?_congr fun q l => (sameControl_put hsame q).label l]
      · rfl
    · rfl
  unfold step
  split
  · rename_i hlt
    rw [hexecute, get_put]
    split
    · rename_i heq
      rw [h t ht (congrArg Fin.val heq), ← heq]
    · rfl
  · rfl

end

/-! ## Facts that hold on the way -/

theorem holds_of_unchanged {later earlier : Fin n} {pollutes : Instruction → Bool}
    (φ : State → Prop) (hdom : StrictlyDominates (targets body) earlier later)
    (hcln : unchanged (.ofSuccessors (targets body)) body later earlier pollutes = true)
    (hmake : ∀ t u, t.position = earlier.val → act.effect t (body.get earlier) = some u → φ u)
    (hkeep : ∀ t u q, pollutes (body.get q) = false → φ t → act.effect t (body.get q) = some u → φ u)
    (hmove : ∀ (u : State) q, φ u → φ { u with position := q }) (hs : s.position = 0)
    (ht : act.Comes body s t) (hp : t.position = later.val) :
    φ t := by
  let back := (Graph.ofSuccessors (targets body)).before (· = earlier)
  have hback : ∀ {p q : Fin n}, q ∈ back p ↔ p ∈ targets body q ∧ q ≠ earlier := by
    simp [back, Graph.mem_before, Graph.mem_predecessors]
  -- the positions from which `later` is still ahead, with `earlier` behind
  have hne : ∀ {q}, q = later ∨ Met back (back later) q → q ≠ earlier := by
    rintro q (rfl | hq)
    · exact hdom.ne.symm
    · cases hq with
      | start h => exact (hback.1 h).2
      | step _ h => exact (hback.1 h).2
  have hahd : ∀ {q}, q = later ∨ Met back (back later) q →
      ¬ ReachedAround (targets body) earlier q := by
    rintro q (rfl | hq) harnd
    · exact hdom.unavoidable harnd
    · induction hq with
      | start h => exact hdom.unavoidable (harnd.edge (hback.1 h).1 hdom.ne.symm)
      | step hr h ih => exact ih (harnd.edge (hback.1 h).1 (hne (.inr hr)))
  have hinv : ∀ t, act.Comes body s t →
      ∀ q : Fin n, t.position = q.val → q = later ∨ Met back (back later) q → φ t := by
    intro t ht
    induction ht with
    | refl =>
      intro q hq hq'
      refine absurd (ReachedAround.entry ?_ (hne hq')) (hahd hq')
      have hpos : 0 < n := by
        have := q.isLt
        omega
      rw [Graph.firstPosition?, dif_pos hpos, Option.mem_toList]
      exact congrArg some (Fin.ext (hs.symm.trans hq))
    | @tail t u _ hstep ih =>
      intro q hq hq'
      obtain ⟨p, u', hp, heff, hu, hedge⟩ := step_running hstep
      rw [hu]
      refine hmove _ _ ?_
      by_cases hpe : p = earlier
      · subst hpe
        exact hmake t u' hp heff
      · have hmem : p ∈ back q := hback.2 ⟨hedge q hq, hpe⟩
        have hmet : Met back (back later) p := by
          rcases hq' with rfl | hq'
          · exact .start hmem
          · exact .step hq' hmem
        exact hkeep t u' p (unchanged_iff_met.1 hcln p hmet) (ih p hp (.inr hmet)) heff
  exact hinv t ht later hp (.inl rfl)

/-! ## Values along the way -/

/-- What has a slot is local. -/
def SlotsLocal (act : Activation) (slots : Slots k) : Prop :=
  ∀ x, (slots.find? x).isSome = true → act.isLocal x = true

theorem scalars_of_not_writesAny (hloc : SlotsLocal act slots) {symbols : List Symbol}
    {instr : Instruction} {s' : State} (hcln : writesAny slots symbols instr = false)
    (heff : act.effect s instr = some s') (hx : x ∈ symbols) :
    s'.scalars x = s.scalars x := by
  have hfine := List.any_eq_false.1 hcln x hx
  simp only [Bool.or_eq_true, Bool.and_eq_true, decide_eq_true_eq, not_or, not_and] at hfine
  refine scalars_of_effect heff hfine.1 fun hcall => hloc x ?_
  have := hfine.2 hcall
  simpa [Option.isSome_iff_ne_none] using this

theorem value_of_copy (hloc : SlotsLocal act slots) {p d : Fin n} {y : Symbol} (hxy : y ≠ x)
    (hcopy : body.get d = .copy x (.symbol y)) (hdom : StrictlyDominates (targets body) d p)
    (hcln : unchanged (.ofSuccessors (targets body)) body p d (writesAny slots [x, y]) = true)
    (hs : s.position = 0) (ht : act.Comes body s t) (hp : t.position = p.val) :
    act.value t (.symbol y) = act.value t (.symbol x) := by
  refine holds_of_unchanged (fun t => act.value t (.symbol y) = act.value t (.symbol x))
    hdom hcln ?_ ?_ (fun _ _ h => h) hs ht hp
  · intro t u _ heff
    rw [hcopy] at heff
    obtain ⟨v, hv, hasg⟩ := Option.bind_eq_some_iff.1 heff
    obtain ⟨harr, rfl⟩ := assign_eq_some.1 hasg
    rw [value_congr (s := t) fun z hz => by
      cases hz
      exact if_neg hxy, hv]
    simp [value, harr]
  · intro t u q hfine hval heff
    have hkeep : ∀ z ∈ [x, y], act.value u (.symbol z) = act.value t (.symbol z) := fun z hz =>
      value_congr fun w hw => by
        cases hw
        exact scalars_of_not_writesAny hloc hfine heff hz
    rw [hkeep x (by simp), hkeep y (by simp), hval]

end SysY.Optimization

import SysY.Proofs.Eeyore.Steps

/-!
# Runs

How runs are put together: what a run comes to, how long it lasts and what it returns. A run that
returns has one result, however many steps it is given.
-/

namespace SysY.Eeyore

open Flow Option

variable {x : Symbol} {steps : Nat} {left right : Value}

def State.set (s : State) (x : Symbol) (v : Int32) : State :=
  { s with scalars := fun y => if y = x then some v else s.scalars y }

theorem State.set_self (s : State) (x : Symbol) (v : Int32) : (s.set x v).scalars x = some v :=
  if_pos rfl

theorem State.set_ne (s : State) {y : Symbol} (v : Int32) (h : y ≠ x) :
    (s.set x v).scalars y = s.scalars y := if_neg h

namespace Activation

variable {act : Activation} {n : Nat} {body : Vector Instruction n}

theorem Comes.trans {s t u : State} (h : Comes act body s t) (h' : Comes act body t u) :
    Comes act body s u := by
  induction h' with
  | refl => exact h
  | tail _ hstep ih => exact .tail ih hstep

/-- A run that goes on for so many steps. -/
def Lasts (act : Activation) (body : Vector Instruction n) (steps : Nat) (s : State) : Prop :=
  ∃ s', act.run body steps s = ⟨.running, s'⟩

theorem Lasts.zero (s : State) : Lasts act body 0 s := ⟨s, rfl⟩

theorem Lasts.succ {s t : State} (h : act.step body s = ⟨.running, t⟩)
    (ht : Lasts act body steps t) : Lasts act body (steps + 1) s := by
  obtain ⟨u, hu⟩ := ht
  exact ⟨u, by rw [run, h]; exact hu⟩

theorem Lasts.pred {s : State} (h : Lasts act body (steps + 1) s) :
    Lasts act body steps s := by
  induction steps generalizing s with
  | zero => exact .zero s
  | succ steps ih =>
    obtain ⟨u, hu⟩ := h
    rw [run] at hu
    cases hstep : act.step body s with
    | mk status t =>
      rw [hstep] at hu
      cases status with
      | running => exact .succ hstep (ih ⟨u, hu⟩)
      | returned value => cases hu
      | stuck => cases hu

theorem Comes.lasts {s t : State} (h : Comes act body s t)
    (ht : Lasts act body steps t) : Lasts act body steps s := by
  induction h with
  | refl => exact ht
  | tail _ hstep ih => exact ih (Lasts.pred (.succ hstep ht))

theorem step_of_get {s s1 : State} {p : Fin n} {direction : Direction} (hp : s.position = p.val)
    (heff : act.effect s (body.get p) = some s1)
    (hdir : act.direction s (body.get p) = some direction) :
    act.step body s = follow body s1 direction := by
  obtain ⟨position, scalars, memory, calls, events⟩ := s
  subst hp
  simp only [step, p.isLt, dif_pos, execute, heff, hdir]

theorem assign_local (s : State) (v : Int32) (harr : act.array? x = none)
    (hloc : act.isLocal x = true) :
    act.assign s x v = some (s.set x v) :=
  assign_eq_some.2 ⟨harr, by rw [hloc, if_pos rfl]; rfl⟩

theorem effect_binary {s : State} {dest : Symbol} {op : BinaryOp} {a c v : Int32}
    (hl : act.value s left = some a) (hr : act.value s right = some c) (hv : op.fold a c = some v) :
    act.effect s (.binary dest op left right) = act.assign s dest v := by
  simp only [effect, hl, hr, bind_eq_bind, bind_some, runBinary, hv]

theorem direction_branch {s : State} {relation : Relation} {target : Label}
    {a c : Int32} (hl : act.value s left = some a) (hr : act.value s right = some c) :
    act.direction s (.branch left relation right target) =
      some (if relation.holds a c then .goto target else .next) := by
  simp only [direction, hl, hr, bind_eq_bind, bind_some, pure_def]

/-! ## Results -/

variable {s t u : State} {value : Option Int32}

def Returns (act : Activation) (body : Vector Instruction n) (s : State) (value : Option Int32)
    (t : State) : Prop := ∃ steps, act.run body steps s = ⟨.returned value, t⟩

theorem Comes.returns (h : Comes act body s t) (ht : Returns act body t value u) :
    Returns act body s value u := by
  induction h with
  | refl => exact ht
  | tail _ hstep ih =>
    obtain ⟨steps, hrun⟩ := ht
    exact ih ⟨steps + 1, by rw [run, hstep]; exact hrun⟩

theorem run_of_returned (h : act.run body steps s = ⟨.returned value, t⟩) (more : Nat) :
    act.run body (steps + more) s = ⟨.returned value, t⟩ := by
  induction steps generalizing s with
  | zero => cases h
  | succ steps ih =>
    rw [Nat.add_right_comm, run]
    rw [run] at h
    cases hstep : act.step body s with
    | mk status s1 =>
      rw [hstep] at h
      cases status with
      | running => exact ih h
      | returned value => exact h
      | stuck => exact h

theorem Returns.unique {value' : Option Int32} (h : Returns act body s value t)
    (h' : Returns act body s value' u) : value' = value ∧ u = t := by
  obtain ⟨steps, hrun⟩ := h
  obtain ⟨steps', hrun'⟩ := h'
  have hmore := run_of_returned hrun steps'
  rw [Nat.add_comm, run_of_returned hrun' steps] at hmore
  cases hmore
  exact ⟨rfl, rfl⟩

theorem Lasts.mono {more : Nat} (h : Lasts act body more s) (hle : steps ≤ more) :
    Lasts act body steps s := by
  induction hle with
  | refl => exact h
  | step _ ih => exact ih h.pred

theorem Returns.exists_not_lasts (h : Returns act body s value t) :
    ∃ steps, ¬ Lasts act body steps s := by
  obtain ⟨steps, hrun⟩ := h
  refine ⟨steps, ?_⟩
  rintro ⟨s', hrun'⟩
  rw [hrun] at hrun'
  cases hrun'

end Activation

end SysY.Eeyore

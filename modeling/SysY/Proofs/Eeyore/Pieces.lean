import SysY.Proofs.Eeyore.Runs

/-!
# Pieces of code

What a piece of code does wherever it stands, if its jumps lead forward: `exec` goes through the
instructions one by one, and after a jump it passes over them until it meets the label. So code that
is written behind other code is executed after it. In a body that sets each label once, a run does
what `exec` says, and it gets stuck where `exec` has no result.
-/

namespace SysY.Eeyore

open Flow

/-- Where control is between two instructions: at the second one, on its way to a label, or out of the
function. -/
structure Point where
  direction : Direction
  state : State

namespace Activation

def pass (act : Activation) (c : Point) (i : Instruction) : Option Point :=
  match c.direction with
  | .next => do
    let s ← act.effect c.state i
    let direction ← act.direction c.state i
    return ⟨direction, s⟩
  | .goto l => some (if i = .label l then ⟨.next, c.state⟩ else c)
  | .return _ => some c

/-- Goes through a piece of code. -/
def exec (act : Activation) (code : List Instruction) (c : Point) : Option Point :=
  code.foldlM act.pass c

/-- The value of an operand behind a piece of code, and the state there. -/
def compute (act : Activation) (code : List Instruction) (x : Value) (s : State) :
    Option (Int32 × State) :=
  (act.exec code ⟨.next, s⟩).bind fun c => (act.value c.state x).map fun v => (v, c.state)

variable {act : Activation} {s s1 : State} {c c' : Point} {l : Label} {i : Instruction}
  {code first second : List Instruction}

/-! ## Going through code -/

theorem exec_cons : act.exec (i :: code) c = (act.pass c i).bind (act.exec code) :=
  List.foldlM_cons

theorem exec_append : act.exec (first ++ second) c = (act.exec first c).bind (act.exec second) :=
  List.foldlM_append

theorem exec_singleton : act.exec [i] c = act.pass c i := by
  rw [exec_cons]
  cases act.pass c i <;> rfl

theorem pass_effect (h : act.direction s i = some .next) :
    act.pass ⟨.next, s⟩ i = (act.effect s i).map fun s1 => ⟨.next, s1⟩ := by
  simp only [pass, h]
  cases act.effect s i <;> rfl

theorem pass_branch (s : State) (left right : Value) (relation : Relation) (l : Label) :
    act.pass ⟨.next, s⟩ (.branch left relation right l) = (act.value s left).bind fun a =>
      (act.value s right).map fun b => ⟨if relation.holds a b then .goto l else .next, s⟩ := by
  have heff : act.effect s (.branch left relation right l) = some s := rfl
  simp only [pass, heff, direction]
  cases act.value s left with
  | none => rfl
  | some a => cases act.value s right <;> rfl

theorem pass_goto (h : i ≠ .label l) : act.pass ⟨.goto l, s⟩ i = some ⟨.goto l, s⟩ := by
  simp [pass, h]

theorem pass_goto_label : act.pass ⟨.goto l, s⟩ (.label l) = some ⟨.next, s⟩ := by
  simp [pass]

theorem exec_goto (h : .label l ∉ code) : act.exec code ⟨.goto l, s⟩ = some ⟨.goto l, s⟩ := by
  induction code with
  | nil => rfl
  | cons i code ih =>
    rw [List.mem_cons, not_or] at h
    rw [exec_cons, pass_goto (Ne.symm h.1)]
    exact ih h.2

/-! ## Going through code as a part of a body -/

variable {n : Nat} {body : Vector Instruction n} {q : Nat} {t : State}

/-- A body has a piece of code, from a position on. -/
def Hosts (body : Vector Instruction n) (q : Nat) (code : List Instruction) : Prop :=
  ∀ k : Fin code.length, ∃ p : Fin n, p.val = q + k.val ∧ body.get p = code.get k

instance : Decidable (Hosts body q code) :=
  inferInstanceAs (Decidable (∀ k : Fin code.length, ∃ p : Fin n, p.val = q + k.val ∧ body.get p = code.get k))

def SetOnce (body : Vector Instruction n) : Prop :=
  ∀ p p' l, body.get p = .label l → body.get p' = .label l → p = p'

/-- A run is where control is: at a position, at that of a label, or in front of its last step. -/
def Reaches (act : Activation) (body : Vector Instruction n) (q : Nat) (c : Point) (t : State) :
    Prop :=
  match c.direction with
  | .next => t = c.state.at q
  | .goto l => ∃ p, labelPosition? body l = some p ∧ t = c.state.at p.val
  | .return value => ∃ p, act.step body t = ⟨.returned value, c.state.at p⟩

theorem Hosts.head (h : Hosts body q (i :: code)) : ∃ p : Fin n, p.val = q ∧ body.get p = i :=
  h ⟨0, Nat.zero_lt_succ _⟩

theorem Hosts.tail (h : Hosts body q (i :: code)) : Hosts body (q + 1) code := by
  intro k
  obtain ⟨p, hp, hget⟩ := h k.succ
  exact ⟨p, by rw [hp, Fin.val_succ]; omega, hget⟩

theorem SetOnce.labelPosition (hbody : SetOnce body) {p : Fin n} (h : body.get p = .label l) :
    labelPosition? body l = some p :=
  labelPosition?_eq_some.2 ⟨h, fun p' hlt hget => by
    rw [hbody p p' l h hget] at hlt
    exact absurd hlt (Fin.lt_irrefl p')⟩

theorem Hosts.labelPosition (h : Hosts body q code) (hbody : SetOnce body)
    (hl : .label l ∈ code) : ∃ p, labelPosition? body l = some p := by
  obtain ⟨k, hk⟩ := List.mem_iff_get.1 hl
  obtain ⟨p, _, hget⟩ := h k
  exact ⟨p, hbody.labelPosition (hget.trans hk)⟩

theorem step_at {p : Fin n} {direction : Direction} (hget : body.get p = i)
    (heff : act.effect s i = some s1) (hdir : act.direction s i = some direction) :
    act.step body (s.at p.val) = follow body (s1.at p.val) direction := by
  refine step_of_get rfl ?_ ?_
  · rw [hget, effect_at, heff]
    rfl
  · rw [hget]
    exact hdir

theorem comes_of_pass (hbody : SetOnce body) (hget : ∃ p : Fin n, p.val = q ∧ body.get p = i)
    (hpass : act.pass c i = some c')
    (hset : ∀ l, c'.direction = .goto l → ∃ p, labelPosition? body l = some p)
    (ht : Reaches act body q c t) : ∃ t', Comes act body t t' ∧ Reaches act body (q + 1) c' t' := by
  obtain ⟨p, rfl, hget⟩ := hget
  obtain ⟨direction, s⟩ := c
  cases direction with
  | next =>
    obtain rfl : t = s.at p.val := ht
    obtain ⟨s1, heff, hpass⟩ := Option.bind_eq_some_iff.1 hpass
    obtain ⟨direction, hdir, hpass⟩ := Option.bind_eq_some_iff.1 hpass
    cases hpass
    have hstep := step_at hget heff hdir
    cases direction with
    | next => exact ⟨_, .tail .refl hstep, rfl⟩
    | goto l =>
      obtain ⟨p', hp'⟩ := hset l rfl
      rw [follow, hp'] at hstep
      exact ⟨_, .tail .refl hstep, p', hp', rfl⟩
    | «return» value => exact ⟨_, .refl, p.val, hstep⟩
  | goto l =>
    obtain ⟨p', hp', rfl⟩ := ht
    by_cases hi : i = .label l
    · subst hi
      rw [pass_goto_label] at hpass
      cases hpass
      obtain rfl : p' = p := Option.some.inj (hp'.symm.trans (hbody.labelPosition hget))
      have hstep : act.step body (s.at p'.val) = follow body (s.at p'.val) .next :=
        step_at hget rfl rfl
      exact ⟨_, .tail .refl hstep, rfl⟩
    · rw [pass_goto hi] at hpass
      cases hpass
      exact ⟨_, .refl, p', hp', rfl⟩
  | «return» value =>
    cases hpass
    exact ⟨t, .refl, ht⟩

theorem set_of_exec (hhost : Hosts body q code) (hbody : SetOnce body)
    (hset : ∀ c', act.exec code c = some c' → ∀ l, c'.direction = .goto l →
      ∃ p, labelPosition? body l = some p) :
    ∀ l, c.direction = .goto l → ∃ p, labelPosition? body l = some p := by
  obtain ⟨direction, s⟩ := c
  rintro l ⟨⟩
  by_cases hl : .label l ∈ code
  · exact hhost.labelPosition hbody hl
  · exact hset _ (exec_goto hl) l rfl

theorem comes_of_exec (hbody : SetOnce body) (hhost : Hosts body q code)
    (hexec : act.exec code c = some c')
    (hset : ∀ l, c'.direction = .goto l → ∃ p, labelPosition? body l = some p)
    (ht : Reaches act body q c t) :
    ∃ t', Comes act body t t' ∧ Reaches act body (q + code.length) c' t' := by
  induction code generalizing q c t with
  | nil =>
    cases hexec
    exact ⟨t, .refl, ht⟩
  | cons i code ih =>
    rw [exec_cons] at hexec
    obtain ⟨c1, hpass, hexec⟩ := Option.bind_eq_some_iff.1 hexec
    have hset1 := set_of_exec hhost.tail hbody fun c2 hc2 => by
      rw [hexec] at hc2
      cases hc2
      exact hset
    obtain ⟨t1, hcom1, ht1⟩ := comes_of_pass hbody hhost.head hpass hset1 ht
    obtain ⟨t', hcom, ht'⟩ := ih hhost.tail hexec ht1
    refine ⟨t', hcom1.trans hcom, ?_⟩
    rwa [List.length_cons, Nat.add_comm code.length, ← Nat.add_assoc]

theorem step_stuck {p : Fin n} (hget : body.get p = i) (hpass : act.pass ⟨.next, s⟩ i = none) :
    act.step body (s.at p.val) = ⟨.stuck, s.at p.val⟩ := by
  have hlt : (s.at p.val).position < n := p.isLt
  have hexecute : act.step body (s.at p.val) = act.execute body (s.at p.val) i := by
    rw [step, dif_pos hlt, ← hget]
    rfl
  have hdir : act.direction (s.at p.val) i = act.direction s i := rfl
  rw [hexecute, execute, effect_at act s, hdir]
  cases heff : act.effect s i with
  | none => rfl
  | some s1 =>
    cases hnxt : act.direction s i with
    | none => rfl
    | some direction => simp [pass, heff, hnxt] at hpass

def Sticks (act : Activation) (body : Vector Instruction n) (s : State) : Prop :=
  ∃ t, Comes act body s t ∧ act.step body t = ⟨.stuck, t⟩

theorem sticks_of_exec (hbody : SetOnce body) (hhost : Hosts body q code)
    (hexec : act.exec code c = none) (ht : Reaches act body q c t) : Sticks act body t := by
  induction code generalizing q c t with
  | nil => cases hexec
  | cons i code ih =>
    rw [exec_cons] at hexec
    cases hpass : act.pass c i with
    | none =>
      obtain ⟨direction, s⟩ := c
      cases direction with
      | next =>
        obtain ⟨p, rfl, hget⟩ := hhost.head
        obtain rfl : t = s.at p.val := ht
        exact ⟨_, .refl, step_stuck hget hpass⟩
      | goto l => cases hpass
      | «return» value => cases hpass
    | some c1 =>
      rw [hpass] at hexec
      have hset1 := set_of_exec hhost.tail hbody fun c2 hc2 => by
        rw [show act.exec code c1 = none from hexec] at hc2
        cases hc2
      obtain ⟨t1, hcom1, ht1⟩ := comes_of_pass hbody hhost.head hpass hset1 ht
      obtain ⟨t', hcom, hstk⟩ := ih hhost.tail hexec ht1
      exact ⟨t', hcom1.trans hcom, hstk⟩

theorem comes_to_end (hbody : SetOnce body) (hhost : Hosts body q code)
    (hexec : act.exec code ⟨.next, s⟩ = some ⟨.next, s1⟩) :
    Comes act body (s.at q) (s1.at (q + code.length)) := by
  obtain ⟨_, hcom, rfl⟩ := comes_of_exec hbody hhost hexec nofun rfl
  exact hcom

theorem comes_to_label (hbody : SetOnce body) (hhost : Hosts body q code)
    (hexec : act.exec code ⟨.next, s⟩ = some ⟨.goto l, s1⟩) {p : Fin n}
    (hl : labelPosition? body l = some p) : Comes act body (s.at q) (s1.at p.val) := by
  have hset : ∀ l', Direction.goto l = .goto l' → ∃ p, labelPosition? body l' = some p := by
    rintro _ ⟨⟩
    exact ⟨p, hl⟩
  obtain ⟨_, hcom, p', hp', rfl⟩ := comes_of_exec hbody hhost hexec hset rfl
  obtain rfl : p = p' := Option.some.inj (hl.symm.trans hp')
  exact hcom

end Activation

end SysY.Eeyore

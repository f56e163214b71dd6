import SysY.Proofs.Generation.Folding
import SysY.Proofs.Generation.Mirroring

/-!
# The values of connectives

How the outcome of a connective comes about from the outcomes of its operands. The code of the
connective holds a temporary for the result, a test and a label; outside it none of this can be seen,
so that the right operand finds what the left one left behind. If the left operand is a constant, then
there is nothing of this, and one of the two operands has the value.
-/

namespace SysY.Generation

open Eeyore Eeyore.Activation Option
open Structured (decides)
open Tree (Connective Formula)

variable {n k m : Nat} {pairs pairs1 : Pairing} {act : Activation} {s s' t : State}
  {sigs : Signatures} {loc : Location} {b b1 b2 b3 c c1 c2 : Builder} {x y z : Value}
  {conn : Connective} {l : Symbol} {a : Int32}

/-! ## States that agree outside -/

/-- Temporaries with numbers below a bound, each one with itself. -/
def Pairing.upTo (k : Nat) : Pairing := fun i j => i = j ∧ i.toNat < k

theorem Pairing.upTo_below (k : Nat) : (upTo k).Below k k := by
  rintro i _ ⟨rfl, hi⟩
  exact ⟨hi, hi⟩

theorem Alike.refl (k : Nat) (s : State) : Alike (.upTo k) s s :=
  ⟨fun _ _ => rfl, fun i _ h => by rw [h.1], rfl, rfl, rfl⟩

theorem alike_set (s : State) (v : Int32) {i : UInt32} (hi : k ≤ i.toNat) :
    Alike (.upTo k) (s.set (.temp i) v) s := by
  refine ⟨fun x hx => State.set_ne s v ?_, ?_, rfl, rfl, rfl⟩
  · rintro rfl
    cases hx
  · rintro j _ ⟨rfl, hj⟩
    refine State.set_ne s v ?_
    rintro ⟨⟩
    omega

theorem Alike.of_outside (h : Alike (.upTo k) s' s) (hst : Alike pairs s t)
    (hbel : pairs.Below k m) : Alike pairs s' t where
  names x hx := (h.names x hx).trans (hst.names x hx)
  temps i j hij := (h.temps i i ⟨rfl, (hbel i j hij).1⟩).trans (hst.temps i j hij)
  memory := h.memory.trans hst.memory
  calls := h.calls.trans hst.calls
  events := h.events.trans hst.events

theorem Alike.to_outside (hst : Alike pairs s t) (h : Alike (.upTo m) t s')
    (hbel : pairs.Below k m) : Alike pairs s s' where
  names x hx := (hst.names x hx).trans (h.names x hx)
  temps i j hij := (hst.temps i j hij).trans (h.temps j j ⟨rfl, (hbel i j hij).2⟩)
  memory := hst.memory.trans h.memory
  calls := hst.calls.trans h.calls
  events := hst.events.trans h.events

theorem eval_runs_through {formula : Formula} (hn : n < wordValues)
    (h : Builds (eval sigs loc formula) b x b1) (hvld : ValidNames b.scopes.find?)
    (hown : b1.code.temps.toNat ≤ n) (hact : OwnsTemps act n) (s : State) :
    RunsThrough act (written b b1) s := by
  have hlab : b1.lastLabel.toNat < wordValues := b1.lastLabel.toNat_lt
  have hfc : Faces n (.upTo b.code.temps.toNat) b b1 b :=
    ⟨hn, hvld, rfl, Pairing.upTo_below _, hown, by omega, by omega⟩
  obtain ⟨_, _, _, _, htw, _⟩ := mirrors_eval formula h hfc
  exact (htw.parallel.runs_through hact (.refl _ s)).1

/-! ## The values of connectives -/

theorem compute_append {first second : List Instruction} (h : RunsThrough act first s) :
    act.compute (first ++ second) x s =
      (act.exec first ⟨.next, s⟩).bind fun d => act.compute second x d.state := by
  rw [compute, exec_append]
  cases hfst : act.exec first ⟨.next, s⟩ with
  | none => rfl
  | some d =>
    obtain ⟨direction, t⟩ := d
    obtain rfl : direction = .next := h _ hfst
    rfl

theorem compute_const (s : State) (v : Int32) : act.compute [] (.const v) s = some (v, s) := rfl

/-- How the outcome of a connective comes about from those of its operands; `k` is the number of
temporaries that are in use around it. -/
def Connects (connective : Connective) (k : Nat) (left whole : Option (Int32 × State))
    (right : State → Option (Int32 × State)) : Prop :=
  (left = none → whole = none) ∧ ∀ a s, left = some (a, s) → ∃ s1, Alike (.upTo k) s1 s ∧
    (decides connective a = true → whole = some (truth (a ≠ 0), s1)) ∧
    (decides connective a = false →
      (right s1 = none → whole = none) ∧
      ∀ v s2, right s1 = some (v, s2) →
        ∃ s3, Alike (.upTo k) s3 s2 ∧ whole = some (truth (v ≠ 0), s3))

theorem compute_connection {result : Symbol} {done : Label} {right : List Instruction}
    (hloc : act.isLocal result = true) (harr : act.array? result = none)
    (hdone : .label done ∉ right)
    (hr : ∀ a : Int32, RunsThrough act right (s.set result (truth (a ≠ 0)))) :
    act.compute (connection conn l result done right z) (.symbol result) s =
      (act.value s (.symbol l)).bind fun a =>
        if decides conn a then some (truth (a ≠ 0), s.set result (truth (a ≠ 0)))
        else (act.compute right z (s.set result (truth (a ≠ 0)))).map fun r =>
          (truth (r.1 ≠ 0), r.2.set result (truth (r.1 ≠ 0))) := by
  have hres : ∀ (t : State) v, act.value (t.set result v) (.symbol result) = some v := by
    intro t v
    simp only [Activation.value, harr, State.set_self]
  rw [compute, exec_connection hloc harr hdone hr]
  cases act.value s (.symbol l) with
  | none => rfl
  | some a =>
    simp only [bind_some]
    split
    · simp only [bind_some, hres, map_some]
    · cases act.compute right z (s.set result (truth (a ≠ 0))) with
      | none => rfl
      | some r => simp only [map_some, bind_some, hres]

theorem connected_join {right : Formula} (hn : n < wordValues)
    (htemp : b.code.temps.toNat + 1 < wordValues) (hvld : ValidNames b.scopes.find?)
    (h : Builds (eval sigs loc right) (b.connect conn l) z b1)
    (hown : b1.code.temps.toNat ≤ n) (hk : k ≤ b.code.temps.toNat) (hact : OwnsTemps act n)
    {code : List Instruction} (hcode : RunsThrough act code s) :
    Connects conn k (act.compute code (.symbol l) s)
      (act.compute (code ++ written b (b.join b1 z)) (.symbol (.temp b.code.temps)) s)
      (act.compute (written (b.connect conn l) b1) z) := by
  have htemps : (b.connect conn l).code.temps.toNat = b.code.temps.toNat + 1 := toNat_succ htemp
  have hgr := (emits_eval h).temps
  obtain ⟨hloc, harr⟩ := hact b.code.temps (by omega)
  have hdone : .label ⟨b.lastLabel + 1⟩ ∉ written (b.connect conn l) b1 :=
    label_not_written (emits_eval h).toGrows (Nat.le_refl _)
  have hr := eval_runs_through hn h hvld hown hact
  rw [compute_append hcode, written_join (emits_eval h).toGrows]
  cases hexec : act.exec code ⟨.next, s⟩ with
  | none => simp [Connects, compute, hexec]
  | some d =>
    rw [bind_some, compute_connection hloc harr hdone fun a => hr _, compute, hexec,
      bind_some]
    cases act.value d.state (.symbol l) with
    | none => exact ⟨fun _ => rfl, by simp⟩
    | some a =>
      refine ⟨by simp, ?_⟩
      rintro _ _ ⟨⟩
      refine ⟨_, alike_set d.state (truth (a ≠ 0)) hk, fun hdcd => ?_, fun hdcd => ?_⟩
      · rw [bind_some, if_pos hdcd]
      · rw [bind_some, if_neg (by simp [hdcd])]
        refine ⟨fun hnone => by rw [hnone]; rfl, fun v s2 hsome => ?_⟩
        exact ⟨_, alike_set s2 (truth (v ≠ 0)) hk, by rw [hsome]; rfl⟩

/-! ## The values of operations -/

/-- An outcome that comes about from another one by a function; `k` is the number of temporaries that
are in use around the code. -/
def Mapped (g : Int32 → Int32) (k : Nat) (inner whole : Option (Int32 × State)) : Prop :=
  Option.Rel (fun r r' => r'.1 = g r.1 ∧ Alike (.upTo k) r'.2 r.2) inner whole

section Mapped

variable {code : List Instruction} {g : Int32 → Int32}

theorem mapped_const (code : List Instruction) (a : Int32) :
    Mapped g k (act.compute code (.const a) s) (act.compute code (.const (g a)) s) := by
  unfold compute
  cases act.exec code ⟨.next, s⟩ with
  | none => exact .none
  | some d => exact .some ⟨rfl, .refl k d.state⟩

theorem mapped_compute {i : Instruction} {dest : UInt32} (hk : k ≤ dest.toNat)
    (harr : act.array? (.temp dest) = none) (hcode : RunsThrough act code s)
    (hpass : ∀ t, act.pass ⟨.next, t⟩ i =
      (act.value t y).map fun v => ⟨.next, t.set (.temp dest) (g v)⟩) :
    Mapped g k (act.compute code y s) (act.compute (code ++ [i]) (.symbol (.temp dest)) s) := by
  rw [compute_append hcode]
  unfold compute
  cases act.exec code ⟨.next, s⟩ with
  | none => exact .none
  | some d =>
    simp only [bind_some, exec_singleton, hpass]
    cases act.value d.state y with
    | none => exact .none
    | some v =>
      have hval : act.value (d.state.set (.temp dest) (g v)) (.symbol (.temp dest)) = some (g v) := by
        simp only [Activation.value, harr, State.set_self]
      simp only [map_some, bind_some, hval]
      exact .some ⟨rfl, alike_set d.state (g v) hk⟩

theorem mapped_applyUnary {op : UnaryOp} (h : Builds (applyUnary op y) b x b1)
    (hown : b1.code.temps.toNat ≤ n) (hk : k ≤ b.code.temps.toNat) (hact : OwnsTemps act n)
    (hcode : RunsThrough act code s) :
    Mapped op.fold k (act.compute code y s) (act.compute (code ++ written b b1) x s) := by
  rcases builds_applyUnary.1 h with ⟨a, rfl, rfl, rfl⟩ | ⟨l, dest, rfl, rfl, hcomp⟩
  · rw [written_self, List.append_nil]
    exact mapped_const code a
  · rw [written_of_computes hcomp]
    obtain ⟨hroom, rfl, rfl⟩ := hcomp
    have htemps : (b.addTemp.emit (.unary (.temp b.code.temps) op (.symbol l))).code.temps.toNat =
      b.code.temps.toNat + 1 := toNat_succ hroom
    obtain ⟨hloc, harr⟩ := hact b.code.temps (by omega)
    refine mapped_compute hk harr hcode fun t => ?_
    rw [pass_effect rfl, Activation.effect]
    cases act.value t (.symbol l) with
    | none => rfl
    | some v => simp only [bind_eq_bind, bind_some, assign_local t _ harr hloc,
        map_some]

theorem mapped_ne (h : Builds (applyBinary .ne y (.const 0) loc) b x b1)
    (hown : b1.code.temps.toNat ≤ n) (hk : k ≤ b.code.temps.toNat) (hact : OwnsTemps act n)
    (hcode : RunsThrough act code s) :
    Mapped (fun v => truth (v ≠ 0)) k (act.compute code y s)
      (act.compute (code ++ written b b1) x s) := by
  rcases builds_applyBinary.1 h with ⟨a, _, v, rfl, ⟨⟩, hv, rfl, rfl⟩ | ⟨hconst, dest, rfl, hcomp⟩
  · rw [written_self, List.append_nil]
    rw [fold_ne_zero] at hv
    cases hv
    exact mapped_const code a
  · rw [written_of_computes hcomp]
    obtain ⟨hroom, rfl, rfl⟩ := hcomp
    have htemps : (b.addTemp.emit (.binary (.temp b.code.temps) .ne y (.const 0))).code.temps.toNat =
      b.code.temps.toNat + 1 := toNat_succ hroom
    obtain ⟨hloc, harr⟩ := hact b.code.temps (by omega)
    obtain ⟨l, rfl⟩ : ∃ l, y = .symbol l := by
      cases y with
      | const a => exact absurd ⟨rfl, rfl⟩ (hconst a 0)
      | symbol l => exact ⟨l, rfl⟩
    exact mapped_compute hk harr hcode fun t => pass_truthInstruction hloc harr t (.symbol l)

end Mapped

theorem connected_const {whole : Option (Int32 × State)} {right : State → Option (Int32 × State)}
    (ha : decides conn a = false) (h : Mapped (fun v => truth (v ≠ 0)) k (right s) whole) :
    Connects conn k (some (a, s)) whole right := by
  refine ⟨nofun, ?_⟩
  rintro _ _ ⟨⟩
  refine ⟨s, .refl k s, by simp [ha], fun _ => ?_⟩
  generalize right s = inner at h
  cases h with
  | none => exact ⟨fun _ => rfl, nofun⟩
  | some hr =>
    refine ⟨nofun, ?_⟩
    rintro v s2 ⟨⟩
    have hv : _ = truth (v ≠ 0) := hr.1
    exact ⟨_, hr.2, by rw [← hv]⟩

theorem connected_decided (right : State → Option (Int32 × State))
    (ha : decides conn a = true) :
    Connects conn k (some (a, s)) (some (truth (a ≠ 0), s)) right := by
  refine ⟨nofun, ?_⟩
  rintro _ _ ⟨⟩
  exact ⟨s, .refl k s, fun _ => rfl, by simp [ha]⟩

/-- The operands of a connective: the left one has a value behind `b₂`, and the right one has a value
between `b₃` and `b₄`. -/
structure Operands (n : Nat) (connective : Connective) (b : Builder) (x : Value) (b₁ : Builder)
    (y : Value) (b₂ b₃ : Builder) (z : Value) (b₄ : Builder) : Prop where
  rest : Emits b₂ b₁
  between : Emits b₂ b₃
  temps : b₄.code.temps.toNat ≤ b₁.code.temps.toNat
  labels : b₄.lastLabel.toNat ≤ b₁.lastLabel.toNat
  static : ∀ v, x = .const v → ∃ a, y = .const a ∧
    (decides connective a = true → v = truth (a ≠ 0)) ∧
    (decides connective a = false → ∃ d, z = .const d ∧ v = truth (d ≠ 0))
  connected : ∀ act, OwnsTemps act n → ∀ s, Connects connective b.code.temps.toNat
    (act.compute (written b b₂) y s) (act.compute (written b b₁) x s) (act.compute (written b₃ b₄) z)

theorem logic_cases {left right : Formula} (hn : n < wordValues)
    (h : Builds (eval sigs loc (.logic conn left right)) b x b1)
    (hvld : ValidNames b.scopes.find?) (hown : b1.code.temps.toNat ≤ n) :
    ∃ y b2 b3 z b4, Builds (eval sigs loc left) b y b2 ∧
      ((∃ a, y = .const a ∧ decides conn a = true) ∨
        Builds (eval sigs loc right) b3 z b4) ∧
      Operands n conn b x b1 y b2 b3 z b4 := by
  obtain ⟨y, b2, hy, hr⟩ := builds_eval_logic.1 h
  have hl := emits_eval hy
  have hvld2 : ValidNames b2.scopes.find? := hl.sameScopes ▸ hvld
  rcases hr with ⟨a, rfl, ha, z, b4, hz, hx⟩ | ⟨a, rfl, ha, rfl, rfl⟩ |
    ⟨l, z, b4, rfl, htemp, hlab, rfl, hz, rfl⟩
  · obtain rfl := eval_to_const hy
    have hne := emits_applyBinary hx
    refine ⟨_, b2, b2, z, b4, hy, .inr hz,
      ⟨(emits_eval hz).trans hne, .refl b2, hne.temps, hne.labels, ?_, ?_⟩⟩
    · rintro v rfl
      obtain ⟨⟨d, rfl⟩, _, _⟩ := applyBinary_to_const hx
      obtain ⟨hv, _⟩ := applyBinary_const (fold_ne_zero d) hx
      exact ⟨a, rfl, by simp [decides_eq_false.2 ha], fun _ => ⟨d, rfl, Value.const.inj hv⟩⟩
    · intro act hact s
      have hown4 : b4.code.temps.toNat ≤ n := Nat.le_trans hne.temps hown
      rw [written_self, compute_const, (emits_eval hz).toGrows.written_trans hne.toGrows]
      exact connected_const (decides_eq_false.2 ha) (mapped_ne hx hown (emits_eval hz).temps hact
        (eval_runs_through hn hz hvld hown4 hact s))
  · have hdcd : decides conn a = true := by
      rw [← Bool.not_eq_false, decides_eq_false]
      exact ha
    obtain rfl := eval_to_const hy
    refine ⟨_, b1, b1, .const 0, b1, hy, .inl ⟨a, rfl, hdcd⟩,
      ⟨.refl _, .refl _, Nat.le_refl _, Nat.le_refl _, ?_, fun act _ s => ?_⟩⟩
    · rintro _ ⟨⟩
      exact ⟨a, rfl, fun _ => rfl, by simp [hdcd]⟩
    · rw [written_self, compute_const, compute_const]
      exact connected_decided _ hdcd
  · have hjoin : Emits b2 (b2.join b4 z) := emits_connect htemp hlab (emits_eval hz)
    have hhead : Emits b2.addTemp.addLabel (b2.connect conn l) :=
      (emits_truthInstruction _ _ _).trans (.emit _ rfl trivial)
    have hlabeled : Emits b2.addTemp b2.addTemp.addLabel := .addLabel hlab
    have hconnect := ((Emits.addTemp htemp).trans hlabeled).trans hhead
    refine ⟨_, b2, _, z, b4, hy, .inr hz,
      ⟨hjoin, hconnect, Nat.le_refl _, Nat.le_refl _, nofun, fun act hact s => ?_⟩⟩
    have hown2 : b2.code.temps.toNat ≤ n := Nat.le_trans hjoin.temps hown
    rw [hl.toGrows.written_trans hjoin.toGrows]
    exact connected_join hn htemp hvld2 hz hown hl.temps hact
      (eval_runs_through hn hy hvld hown2 hact s)

end SysY.Generation

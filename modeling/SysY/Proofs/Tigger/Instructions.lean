import SysY.Proofs.Tigger.Values

/-!
# What the code of an instruction does

The code of every instruction but calls and jumps has the effect of the instruction: it takes states
that match in front of it to states that match behind it.
-/

namespace SysY.Tigger

open Eeyore (Activation Decl Value)
open SysY.Flow Allocation Context Eeyore.Instruction Eeyore.Activation

variable {n k : Nat} {globals : List Decl} {ctx : Context n k}
  {regs : Vector (Option Register) k} {place : Object k → Option UInt32} {act : Activation}
  {setting : Setting} {entry : Register → Int32} {s s' : Eeyore.State} {t : State} {p : Fin n}
  {value left right left' right' : Value} {scratch : Register} {op' : BinaryOp} {array : Symbol}

/-- Every symbol that occurs has a slot or is declared as global. -/
def Declared (globals : List Decl) (ctx : Context n k) : Prop :=
  ∀ (p : Fin n) x, x ∈ (ctx.body.get p).uses ∨ (ctx.body.get p).definition = some x →
    ctx.slots.find? x = none → ctx.arrays.contains x = false → ⟨x, none⟩ ∈ globals

theorem readable_of_use (hp : Prepared ctx regs place) (hd : Declared globals ctx) {x : Symbol}
    (hx : x ∈ (ctx.body.get p).uses) : Readable globals ctx p x where
  live _ hslot harr := hp.live_of_use hx hslot harr
  declared := hd p x (.inl hx)

theorem readable_of_operand (hp : Prepared ctx regs place) (hd : Declared globals ctx) (hval : ∀ x, value.symbol? = some x → x ∈ (ctx.body.get p).uses) (x : Symbol)
    (hx : value = .symbol x) : Readable globals ctx p x :=
  readable_of_use hp hd (hval x (by rw [hx]; rfl))

variable {dest : Symbol} {v : Int32} {op : BinaryOp} {index : Value}

theorem declared_of_definition (hg : Grounds globals ctx place act setting)
    (hd : Declared globals ctx) (hdef : (ctx.body.get p).definition = some dest)
    (hsca : act.array? dest = none) (hslot : ctx.slots.find? dest = none) :
    ⟨dest, none⟩ ∈ globals := by
  refine hd p dest (.inr hdef) hslot (Bool.eq_false_iff.2 fun hcon => ?_)
  obtain ⟨bytes, hbyt⟩ := hg.globalArray dest hslot hcon
  cases hsca.symm.trans hbyt

theorem Matches.homes_next (hp : Prepared ctx regs place)
    (h : Matches globals ctx place act setting [] p entry s t)
    (hjump : ∀ l, ctx.body.get p ≠ .jump l) :
    HomesHold ctx setting [] (p + 1) (ctx.body.get p).definition s t := by
  intro slot home v hlive hdef hhome hv
  exact h.homes slot home v (hp.live_of_next hlive hjump hdef) (by simp) hhome hv

theorem Matches.ready (hp : Prepared ctx regs place)
    (hg : Grounds globals ctx place act setting) (hd : Declared globals ctx)
    (h : Matches globals ctx place act setting [] p entry s t)
    (hdef : (ctx.body.get p).definition = some dest) (hdead : ctx.isDeadAfter p dest = false)
    (hsca : act.array? dest = none) :
    Ready globals ctx place act setting [] (p + 1) entry dest s t := by
  have htgt : (ctx.body.get p).target? = none := by
    cases hi : ctx.body.get p <;> simp_all [definition, target?]
  refine ⟨?_, h.kept, fun slot hslot => hp.live_next_of_not_dead hslot hdead htgt,
    fun _ _ => rfl, declared_of_definition hg hd hdef hsca⟩
  rw [← hdef]
  refine h.homes_next hp fun l hl => ?_
  rw [hl] at hdef
  cases hdef

theorem matches_of_dead (hp : Prepared ctx regs place)
    (hg : Grounds globals ctx place act setting) {restore : List (Register × UInt32)}
    (hhomes : HomesHold ctx setting restore (p + 1) (some dest) s t)
    (hkept : Kept globals ctx place act setting entry s t) (hjump : ∀ l, ctx.body.get p ≠ .jump l)
    (hdead : ctx.isDeadAfter p dest = true) (hasg : act.assign s dest v = some s') :
    Matches globals ctx place act setting restore (p + 1) entry s' t := by
  obtain ⟨-, rfl⟩ := assign_eq_some.1 hasg
  unfold isDeadAfter at hdead
  cases hslot : ctx.slots.find? dest with
  | none => simp [hslot] at hdead
  | some slot =>
    simp only [hslot, Bool.not_eq_true'] at hdead
    have hloc : act.isLocal dest = true := by rw [hg.isLocal, hslot]; rfl
    refine ⟨fun other home w hlive _ hhome hw => ?_, hkept.memory, fun x a hx => ?_, hkept.saved,
      hkept.unsaved, hkept.calls, ?_⟩
    · have hne : ctx.symbol other ≠ dest := by
        rintro rfl
        obtain rfl : other = slot := Option.some.inj ((hp.find?_iff.2 rfl).symm.trans hslot)
        obtain ⟨hlt, hlive⟩ := hlive
        rw [hp.graph, ← Bool.not_eq_true, Liveness.isLiveOut_iff] at hdead
        exact hdead ⟨⟨p + 1, hlt⟩, mem_targets.2 (.inr ⟨hjump, rfl⟩), hlive⟩
      simp only [hne, if_false] at hw
      exact hhomes other home w hlive (fun heq => hne (Option.some.inj heq).symm) hhome hw
    · have hne : x ≠ dest := by
        rintro rfl
        cases hx with
        | global hnone _ => cases hslot.symm.trans hnone
      simp only [hne, if_false]
      exact hkept.globals x a hx
    · simp only [hloc, if_true]
      exact hkept.events

/-! ## Effects -/

/-- Code that has the effect of an instruction after which control goes on. -/
def Implements (globals : List Decl) (ctx : Context n k) (place : Object k → Option UInt32)
    (act : Activation) (setting : Setting) (p : Nat) (entry : Register → Int32)
    (s' : Eeyore.State) (t : State) (code : List Instruction) : Prop :=
  ∃ t', setting.machine.exec code t = some t' ∧
    Matches globals ctx place act setting [] p entry s' t'

theorem restorable_nil : Restorable place [] := fun _ _ h => by cases h

theorem target_ne_zero (hp : Prepared ctx regs place) (dest : Symbol)
    (hscr : scratch ≠ .zero) : ctx.target dest scratch ≠ .zero := by
  rw [target_eq]
  cases hhome : ctx.homeRegister? dest with
  | none => exact hscr
  | some r =>
    obtain ⟨slot, -, hhome⟩ := Option.bind_eq_some_iff.1 (homeRegister?_eq_some.1 hhome)
    exact (hp.allocatable_of_home hhome).1

theorem target_mem_changing (dest : Symbol)
    (hscr : scratch = .t0 ∨ scratch = .t1) : ctx.target dest scratch ∈ ctx.changing dest := by
  rw [target_eq]
  cases hhome : ctx.homeRegister? dest with
  | none => rcases hscr with rfl | rfl <;> simp [changing]
  | some r => simp [changing, hhome]

theorem runBinary_orient {a b : Int32}
    (hori : Context.orient op left right = (op', left', right')) (ha : act.value s left = some a)
    (hb : act.value s right = some b) (hv : Eeyore.runBinary act.byZero op a b = some v) :
    ∃ a' b', act.value s left' = some a' ∧ act.value s right' = some b' ∧
      Eeyore.runBinary act.byZero op' a' b' = some v := by
  unfold orient at hori
  split at hori
  · rename_i hswapped
    cases hori
    exact ⟨b, a, hb, ha, (Eeyore.runBinary_swapped hswapped a b).trans hv⟩
  · cases hori
    exact ⟨a, b, ha, hb, hv⟩

theorem exists_region_of_address (hg : Grounds globals ctx place act setting)
    {a : UInt32} (ha : act.address s array index = some a) :
    ∃ region ∈ act.objects, region.holds a = true := by
  obtain ⟨-, -, -, -, hadm, -⟩ := address_eq_some.1 ha
  unfold Activation.admits at hadm
  split at hadm
  · rename_i region hrgn
    exact ⟨region, hg.object array region hrgn, hadm⟩
  · exact List.any_eq_true.1 hadm

variable (hp : Prepared ctx regs place) (hg : Grounds globals ctx place act setting)
  (hd : Declared globals ctx) (h : Matches globals ctx place act setting [] p entry s t)
  {code : List Instruction}
include hp hg hd h

theorem implements_computing (hdef : (ctx.body.get p).definition = some dest)
    (hdead : ctx.isDeadAfter p dest = false) (hasg : act.assign s dest v = some s')
    {front : List Instruction} {last : Register → Instruction}
    (hcode : ctx.computing dest scratch front last = .ok code) (hscr : scratch = .t0 ∨ scratch = .t1)
    {t1 : State} (hfront : setting.machine.exec front t = some t1) (honly : Only [.t0, .t1] t t1)
    (hlast : ∀ r, setting.machine.pass t1 (last r) = some (t1.set r v)) :
    Implements globals ctx place act setting (p + 1) entry s' t code := by
  obtain ⟨written, hcmt, rfl⟩ := map_eq_ok.1 hcode
  have hrdy := h.ready hp hg hd hdef hdead (assign_eq_some.1 hasg).1
  have hz : scratch ≠ .zero := by rcases hscr with rfl | rfl <;> decide
  have honly' : Only (ctx.changing dest) t (t1.set (ctx.target dest scratch) v) :=
    (honly.mono (by simp [changing])).trans (.set t1 v (target_mem_changing dest hscr))
  obtain ⟨t2, hexec, hmat⟩ := hrdy.commit hp hg restorable_nil hasg honly'
    (State.value_set_self _ _ (target_ne_zero hp dest hz))
    (fun r hr => by rw [target_eq, hr]; rfl) hcmt
  refine ⟨t2, ?_, hmat⟩
  rw [Machine.exec_append_of_exec hfront, Machine.exec_cons, hlast]
  exact hexec

variable (heffect : act.effect s (ctx.body.get p) = some s')
include heffect

theorem implements_lowerUnary {op : UnaryOp} {operand : Value}
    (hi : ctx.body.get p = .unary dest op operand) (hdead : ctx.isDeadAfter p dest = false)
    (hcode : ctx.lowerUnary dest op operand = .ok code) :
    Implements globals ctx place act setting (p + 1) entry s' t code := by
  have hdef : (ctx.body.get p).definition = some dest := by rw [hi]; rfl
  rw [hi] at heffect
  obtain ⟨v, hv, hasg⟩ := Option.bind_eq_some_iff.1 heffect
  cases operand with
  | const c =>
    cases hv
    rw [lowerUnary_const] at hcode
    exact implements_computing hp hg hd h hdef hdead hasg hcode (.inl rfl) rfl (.refl _ t)
      fun _ => rfl
  | symbol x =>
    rw [lowerUnary_symbol] at hcode
    obtain ⟨-, t1, hexec, hval, honly⟩ := brings_readSymbol hp hg h
      (readable_of_use hp hd (by simp [hi, uses, Value.symbol?])) hv (.refl _ t)
      .t0 (by decide)
    exact implements_computing hp hg hd h hdef hdead hasg hcode (.inl rfl) hexec
      (honly.mono (by simp)) fun _ => by rw [Setting.pass_unary, hval]

theorem implements_lowerBinary
    (hi : ctx.body.get p = .binary dest op left right) (hdead : ctx.isDeadAfter p dest = false)
    (hcode : ctx.lowerBinary dest op left right = .ok code) :
    Implements globals ctx place act setting (p + 1) entry s' t code := by
  have hdef : (ctx.body.get p).definition = some dest := by rw [hi]; rfl
  rw [hi] at heffect
  obtain ⟨a, ha, heffect⟩ := Option.bind_eq_some_iff.1 heffect
  obtain ⟨b, hb, heffect⟩ := Option.bind_eq_some_iff.1 heffect
  obtain ⟨v, hv, hasg⟩ := Option.bind_eq_some_iff.1 heffect
  obtain ⟨op', left', right', hori, hcode⟩ := ctx.exists_of_lowerBinary hcode
  obtain ⟨a', b', ha', hb', hv'⟩ := runBinary_orient hori ha hb hv
  have huse : ∀ x, left'.symbol? = some x ∨ right'.symbol? = some x → x ∈ (ctx.body.get p).uses := by
    rw [hi]
    exact symbol?_orient hori
  have hl := brings_read hp hg h (readable_of_operand hp hd fun x hx => huse x (.inl hx)) ha'
    (.refl _ t) .t0 (by decide)
  have hbinary : ∃ t1, setting.machine.exec ((ctx.read left' .t0).1 ++ (ctx.readOperand right').1) t =
      some t1 ∧ t1.value (ctx.read left' .t0).2 = a' ∧
      t1.operand (ctx.readOperand right').2 = b' ∧ Only [.t0, .t1] t t1 := by
    cases right' with
    | const c =>
      obtain rfl : c = b' := by simpa [Activation.value] using hb'
      obtain ⟨-, t1, hexec, hval, honly⟩ := hl
      exact ⟨t1, by simpa [readOperand] using hexec, hval, rfl, honly.mono (by simp)⟩
    | symbol x =>
      exact hl.second fun t1 honly => brings_readSymbol hp hg h
        (readable_of_use hp hd (huse x (.inr rfl))) hb' honly .t1 (by decide)
  obtain ⟨t1, hexec, hval1, hval2, honly⟩ := hbinary
  refine implements_computing hp hg hd h hdef hdead hasg hcode (.inl rfl) hexec honly fun r => ?_
  rw [Setting.pass_binary, hval1, hval2, ← hg.byZero, hv']
  rfl

theorem implements_lowerCopy (hi : ctx.body.get p = .copy dest value)
    (hdead : ctx.isDeadAfter p dest = false) (hcode : ctx.lowerCopy dest value = .ok code) :
    Implements globals ctx place act setting (p + 1) entry s' t code := by
  have hdef : (ctx.body.get p).definition = some dest := by rw [hi]; rfl
  rw [hi] at heffect
  obtain ⟨v, hv, hasg⟩ := Option.bind_eq_some_iff.1 heffect
  cases value with
  | const c =>
    cases hv
    rw [lowerCopy_const] at hcode
    exact implements_computing hp hg hd h hdef hdead hasg hcode (.inl rfl) rfl (.refl _ t)
      fun _ => rfl
  | symbol x =>
    have hrdy := h.ready hp hg hd hdef hdead (assign_eq_some.1 hasg).1
    have hx : Readable globals ctx p x :=
      readable_of_use hp hd (by simp [hi, uses, Value.symbol?])
    rcases ctx.lowerCopy_cases hcode with ⟨r, hhome, rfl⟩ | ⟨hhome, written, hcmt, rfl⟩
    · -- The value is read into the home itself.
      have hreg := homeRegister?_eq_some.2 hhome
      have hz : r ≠ .zero := by
        obtain ⟨slot, -, hslot⟩ := Option.bind_eq_some_iff.1 hhome
        exact (hp.allocatable_of_home hslot).1
      have hread : ∀ y, Value.symbol x = .symbol y → Readable globals ctx p y := by
        rintro _ ⟨⟩
        exact hx
      obtain ⟨t1, hexec, hval, honly⟩ := exec_readInto hp hg h hread hv hz
      have hcmt : ctx.commit dest r = .ok [] := by simp [commit, hhome]
      obtain ⟨t2, hexec2, hmat⟩ := hrdy.commit hp hg restorable_nil hasg
        (honly.mono (by simp [changing, hreg])) hval
        (fun r' hr' => Option.some.inj (hreg.symm.trans hr')) hcmt
      cases hexec2
      exact ⟨_, hexec, hmat⟩
    · obtain ⟨-, t1, hexec, hval, honly⟩ := brings_readSymbol hp hg h hx hv (.refl _ t) .t0 (by decide)
      obtain ⟨t2, hexec2, hmat⟩ := hrdy.commit hp hg restorable_nil hasg
        (honly.mono (by simp [changing])) hval
        (fun r hr => absurd (homeRegister?_eq_some.1 hr) (hhome r)) hcmt
      exact ⟨t2, by rw [Machine.exec_append_of_exec hexec, hexec2], hmat⟩

theorem implements_lowerLoad (hi : ctx.body.get p = .load dest array index)
    (hdead : ctx.isDeadAfter p dest = false) (hcode : ctx.lowerLoad dest array index = .ok code) :
    Implements globals ctx place act setting (p + 1) entry s' t code := by
  rw [hi] at heffect
  obtain ⟨a, ha, hasg⟩ := Option.bind_eq_some_iff.1 heffect
  rw [lowerLoad_eq] at hcode
  have huse : ∀ x, x = array ∨ index.symbol? = some x → x ∈ (ctx.body.get p).uses := by
    intro x hx
    rw [hi]
    simpa [uses] using hx
  obtain ⟨t1, hexec, haddr, honly, -⟩ := exec_address hp hg h
    (readable_of_use hp hd (huse array (.inl rfl)))
    (readable_of_operand hp hd fun x hx => huse x (.inr hx)) ha
  obtain ⟨region, hrgn, hholds⟩ := exists_region_of_address hg ha
  have hword : t.memory.word a = s.memory.word a :=
    Memory.word_congr fun j hj => h.kept.memory region hrgn _ (Region.contains_of_holds hholds hj)
  refine implements_computing hp hg hd h (by rw [hi]; rfl) hdead hasg hcode (.inr rfl) hexec honly
    fun r => ?_
  rw [setting.pass_load _ _ _ _ haddr (hg.admitsObjects region hrgn a hholds), honly.memory, hword]

theorem implements_lowerStore (hi : ctx.body.get p = .store array index value) :
    Implements globals ctx place act setting (p + 1) entry s' t
      (ctx.lowerStore array index value) := by
  have hnxt := h.homes_next hp (p := p) fun l hl => by
    rw [hi] at hl
    cases hl
  rw [hi] at heffect hnxt
  obtain ⟨a, ha, heffect⟩ := Option.bind_eq_some_iff.1 heffect
  obtain ⟨v, hv, heffect⟩ := Option.bind_eq_some_iff.1 heffect
  cases heffect
  have huse : ∀ x, x = array ∨ index.symbol? = some x ∨ value.symbol? = some x →
      x ∈ (ctx.body.get p).uses := by
    intro x hx
    rw [hi]
    simpa [uses] using hx
  obtain ⟨t1, hexec1, haddr, honly1, hbase⟩ := exec_address hp hg h
    (readable_of_use hp hd (huse array (.inl rfl)))
    (readable_of_operand hp hd fun x hx => huse x (.inr (.inl hx))) ha
  obtain ⟨-, t2, hexec2, hval, honly2⟩ := brings_read hp hg h
    (readable_of_operand hp hd fun x hx => huse x (.inr (.inr hx))) hv honly1 .t1 (by decide)
  have honly : Only [.t0, .t1] t t2 := honly1.trans (honly2.mono (by simp))
  obtain ⟨region, hrgn, hholds⟩ := exists_region_of_address hg ha
  rw [← honly2.value _ (by simpa using hbase)] at haddr
  have hmat : Matches globals ctx place act setting [] (p + 1) entry s t2 :=
    Matches.scratch hp restorable_nil ⟨hnxt, h.kept⟩ honly
  refine ⟨_, ?_, hmat.write_element hp hg restorable_nil hrgn hholds v⟩
  rw [lowerStore_eq, Machine.exec_append, Machine.exec_append_of_exec hexec1, hexec2]
  simp only [Option.bind_some, Machine.exec_cons]
  rw [setting.pass_store _ _ _ _ haddr (hg.admitsObjects region hrgn a hholds), hval]
  rfl

end SysY.Tigger

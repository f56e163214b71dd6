import SysY.Proofs.Tigger.Code
import SysY.Proofs.Tigger.Homes

/-!
# Bringing values to registers and back

Reading a value puts it into a register and changes nothing but a scratch register; committing a new
value to its home makes the states match again behind the definition.
-/

namespace SysY.Tigger

open Eeyore (Activation Decl Value)
open SysY.Flow Allocation

variable {n k : Nat} {globals : List Decl} {ctx : Context n k}
  {regs : Vector (Option Register) k} {place : Object k → Option UInt32} {act : Activation}
  {setting : Setting} {restore : List (Register × UInt32)} {entry : Register → Int32}
  {s s' : Eeyore.State} {t t₁ : State} {p : Nat} {x : Symbol} {v : Int32} {r : Register}
  {a : UInt32} {slot : Fin k}

theorem t0_ne_t1 : Register.t0 ≠ .t1 := by decide

theorem otherScratch_ne (r : Register) : r.otherScratch ≠ r := by
  unfold Register.otherScratch
  split
  · rename_i h
    rw [h]
    decide
  · rename_i h
    exact Ne.symm h

theorem otherScratch_eq (r : Register) : r.otherScratch = .t0 ∨ r.otherScratch = .t1 := by
  unfold Register.otherScratch
  split
  · exact .inr rfl
  · exact .inl rfl

/-! ## Reading -/

/-- A symbol that may be read at a position: it is live there, or it is declared elsewhere. -/
structure Readable (globals : List Decl) (ctx : Context n k) (p : Nat) (x : Symbol) : Prop where
  live : ∀ slot, ctx.slots.find? x = some slot → ctx.slots.isArray slot = false → ctx.Live p slot
  declared : ctx.slots.find? x = none → ctx.arrays.contains x = false → ⟨x, none⟩ ∈ globals

/-- Code that brings a value to a register and changes nothing but a scratch register. -/
def Brings (setting : Setting) (t : State) (v : Int32) (scratch : Register)
    (code : List Instruction × Register) : Prop :=
  (code.2 = scratch ∨ code.2 ≠ .t0 ∧ code.2 ≠ .t1) ∧
    ∃ t', setting.machine.exec code.1 t = some t' ∧ t'.value code.2 = v ∧ Only [scratch] t t'

theorem Brings.second {v w : Int32} {first second : List Instruction × Register}
    (hfst : Brings setting t v .t0 first)
    (hsnd : ∀ t₁, Only [.t0, .t1] t t₁ → Brings setting t₁ w .t1 second) :
    ∃ t', setting.machine.exec (first.1 ++ second.1) t = some t' ∧ t'.value first.2 = v ∧
      t'.value second.2 = w ∧ Only [.t0, .t1] t t' := by
  obtain ⟨hreg, t₁, hexec1, hval1, honly1⟩ := hfst
  have honly1' : Only [.t0, .t1] t t₁ := honly1.mono (by simp)
  obtain ⟨-, t2, hexec2, hval2, honly2⟩ := hsnd t₁ honly1'
  refine ⟨t2, ?_, ?_, hval2, honly1'.trans (honly2.mono (by simp))⟩
  · rw [Machine.exec_append_of_exec hexec1, hexec2]
  · rw [honly2.value first.2, hval1]
    rcases hreg with hreg | ⟨-, hreg⟩
    · rw [hreg]
      decide
    · simpa using hreg

section

variable (hp : Prepared ctx regs place) (hg : Grounds globals ctx place act setting)
  (h : Matches globals ctx place act setting [] p entry s t)
include hp hg h

theorem exec_readSymbol_memory (hx : Readable globals ctx p x)
    (hv : act.value s (.symbol x) = some v) (hhome : ∀ r, ctx.home? x ≠ some (.register r))
    (hmemo : t₁.memory = t.memory) (scratch : Register) :
    (ctx.readSymbol x scratch).2 = scratch ∧
      setting.machine.exec (ctx.readSymbol x scratch).1 t₁ = some (t₁.set scratch v) := by
  unfold Activation.value at hv
  cases hslot : ctx.slots.find? x with
  | none =>
    have hnone : ctx.home? x = none := by simp [Context.home?, hslot]
    unfold Context.readSymbol
    cases harr : ctx.arrays.contains x with
    | true =>
      obtain ⟨bytes, hrgn⟩ := hg.globalArray x hslot harr
      simp only [hrgn, Option.some.injEq] at hv
      subst hv
      simp [hnone]
    | false =>
      simp only [hg.globalScalar x hslot harr] at hv
      rw [h.kept.globals x _ (.global hslot (hx.declared hslot harr))] at hv
      cases hv
      simp [hnone, hmemo]
  | some slot =>
    have hget : ctx.home? x = ctx.frame.homes.get slot := by simp [Context.home?, hslot]
    unfold Context.readSymbol
    cases harr : ctx.slots.isArray slot with
    | true =>
      rcases hp.layout.home slot with ⟨-, a, ha, hhome'⟩ | ⟨hfalse, -⟩ | ⟨hfalse, -⟩
      · obtain ⟨bytes, hrgn⟩ := hg.array x slot a hslot harr ha
        simp only [hrgn, Option.some.injEq] at hv
        subst hv
        simp [hget, hhome']
      · simp [harr] at hfalse
      · simp [harr] at hfalse
    | false =>
      simp only [hg.scalar x slot hslot harr] at hv
      rcases hp.home_cases harr with ⟨r, -, hhome'⟩ | ⟨a, -, hhome'⟩
      · exact absurd (hget.trans hhome') (hhome r)
      · have hsym := (hp.find?_iff).1 hslot
        have hword := h.homes slot _ v (hx.live slot hslot harr) (by simp) hhome' (by rw [hsym, hv])
        simp only [Holds] at hword
        simp [hget, hhome', hmemo, hword]

theorem value_of_register (hx : Readable globals ctx p x) (hv : act.value s (.symbol x) = some v)
    (hhome : ctx.home? x = some (.register r)) : t.value r = v ∧ r ≠ .zero ∧ r ≠ .t0 ∧ r ≠ .t1 := by
  obtain ⟨slot, hslot, hhome⟩ := Option.bind_eq_some_iff.1 hhome
  have harr : ctx.slots.isArray slot = false := hp.free.scalar slot r (hp.register_of_home hhome)
  simp only [Activation.value, hg.scalar x slot hslot harr] at hv
  have hsym := (hp.find?_iff).1 hslot
  exact ⟨h.homes slot _ v (hx.live slot hslot harr) (by simp) hhome (by rw [hsym, hv]),
    hp.allocatable_of_home hhome⟩

theorem brings_readSymbol (hx : Readable globals ctx p x)
    (hv : act.value s (.symbol x) = some v) (honly : Only [.t0, .t1] t t₁) (scratch : Register)
    (hscr : scratch ≠ .zero) : Brings setting t₁ v scratch (ctx.readSymbol x scratch) := by
  by_cases hhome : ∃ r, ctx.home? x = some (.register r)
  · obtain ⟨r, hhome⟩ := hhome
    obtain ⟨hval, -, ht0, ht1⟩ := value_of_register hp hg h hx hv hhome
    have hread : ctx.readSymbol x scratch = ([], r) := by simp [Context.readSymbol, hhome]
    rw [hread]
    refine ⟨.inr ⟨ht0, ht1⟩, t₁, rfl, ?_, .refl _ t₁⟩
    exact (honly.value r (by simp [ht0, ht1])).trans hval
  · obtain ⟨hreg, hexec⟩ := exec_readSymbol_memory hp hg h hx hv
      (fun r hr => hhome ⟨r, hr⟩) honly.memory scratch
    refine ⟨.inl hreg, _, hexec, ?_, .set t₁ v List.mem_cons_self⟩
    rw [hreg, State.value_set_self _ _ hscr]

theorem brings_read {value : Value}
    (hx : ∀ x, value = .symbol x → Readable globals ctx p x) (hv : act.value s value = some v)
    (honly : Only [.t0, .t1] t t₁) (scratch : Register) (hscr : scratch ≠ .zero) :
    Brings setting t₁ v scratch (ctx.read value scratch) := by
  cases value with
  | const c =>
    obtain rfl : c = v := by simpa [Activation.value] using hv
    unfold Context.read
    dsimp only
    split
    · rename_i hz
      subst hz
      exact ⟨.inr ⟨by decide, by decide⟩, t₁, rfl, rfl, .refl _ t₁⟩
    · exact ⟨.inl rfl, _, rfl, State.value_set_self _ _ hscr, .set t₁ c List.mem_cons_self⟩
  | symbol x => exact brings_readSymbol hp hg h (hx x rfl) hv honly scratch hscr

theorem exec_readInto {value : Value} (hx : ∀ x, value = .symbol x → Readable globals ctx p x)
    (hv : act.value s value = some v) {dest : Register} (hdest : dest ≠ .zero) :
    ∃ t', setting.machine.exec (ctx.readInto value dest) t = some t' ∧ t'.value dest = v ∧
      Only [dest] t t' := by
  cases value with
  | const c =>
    obtain rfl : c = v := Option.some.inj hv
    exact ⟨t.set dest c, rfl, State.value_set_self _ _ hdest, .set t c List.mem_cons_self⟩
  | symbol x =>
    obtain ⟨-, t₁, hexec, hval, honly⟩ :=
      brings_readSymbol hp hg h (hx x rfl) hv (.refl _ t) dest hdest
    simp only [Context.readInto]
    split
    · rename_i heq
      exact ⟨t₁, hexec, heq ▸ hval, honly⟩
    · refine ⟨t₁.set dest v, ?_, State.value_set_self _ _ hdest,
        honly.trans (.set t₁ v List.mem_cons_self)⟩
      rw [Machine.exec_append_of_exec hexec]
      simp [hval]

theorem exec_address {array : Symbol} {index : Value} (harr : Readable globals ctx p array)
    (hidx : ∀ x, index = .symbol x → Readable globals ctx p x)
    (ha : act.address s array index = some a) :
    ∃ t', setting.machine.exec (ctx.address array index).1 t = some t' ∧
      (t'.value (ctx.address array index).2.1 + (ctx.address array index).2.2).toUInt32 = a ∧
      Only [.t0, .t1] t t' ∧ (ctx.address array index).2.1 ≠ .t1 := by
  obtain ⟨start, offset, hstart, hoff, -, rfl⟩ := Eeyore.Activation.address_eq_some.1 ha
  have hbase := brings_readSymbol hp hg h harr hstart (.refl _ t) .t0 (by decide)
  cases index with
  | const c =>
    obtain rfl : c = offset := by simpa [Activation.value] using hoff
    obtain ⟨hreg, t₁, hexec, hval, honly⟩ := hbase
    rw [Context.address_const]
    refine ⟨t₁, hexec, ?_, honly.mono (by simp), ?_⟩
    · dsimp only
      rw [hval]
      exact Int32.toUInt32_add ..
    · rcases hreg with hreg | ⟨-, hreg⟩
      · rw [hreg]
        exact t0_ne_t1
      · exact hreg
  | symbol x =>
    obtain ⟨t2, hexec, hval1, hval2, honly⟩ := hbase.second fun t₁ honly =>
      brings_readSymbol hp hg h (hidx x rfl) hoff honly .t1 (by decide)
    rw [Context.address_symbol]
    refine ⟨t2.set .t0 (start + offset), ?_, ?_, honly.trans (.set t2 _ (by simp)), t0_ne_t1⟩
    · rw [Machine.exec_append_of_exec hexec]
      simp [State.operand, hval1, hval2, Eeyore.runBinary, BinaryOp.fold]
    · rw [State.value_set_self _ _ (by decide), Int32.add_zero]
      exact Int32.toUInt32_add ..

end

/-! ## Writing -/

namespace Context

/-- The register that a symbol lives in. -/
def homeRegister? (ctx : Context n k) (x : Symbol) : Option Register :=
  ctx.argumentSource? (.symbol x)

theorem homeRegister?_eq_some :
    ctx.homeRegister? x = some r ↔ ctx.home? x = some (.register r) := by
  simp only [homeRegister?, argumentSource?, Value.symbol?, Option.bind_some]
  split
  · rename_i r' hhome
    simp [hhome]
  · rename_i hhome
    simp only [reduceCtorEq, false_iff]
    exact fun h => hhome r h

theorem target_eq (ctx : Context n k) (x : Symbol) (scratch : Register) :
    ctx.target x scratch = (ctx.homeRegister? x).getD scratch := by
  simp only [target, homeRegister?, argumentSource?, Value.symbol?, Option.bind_some]
  split <;> rfl

end Context

/-- What an assignment finds: everything but the value of its destination is in place. -/
structure Ready (globals : List Decl) (ctx : Context n k) (place : Object k → Option UInt32)
    (act : Activation) (setting : Setting) (restore : List (Register × UInt32)) (p : Nat)
    (entry : Register → Int32) (dest : Symbol) (s : Eeyore.State) (t : State) : Prop where
  homes : HomesHold ctx setting restore p (some dest) s t
  kept : Kept globals ctx place act setting entry s t
  live : ∀ slot, ctx.slots.find? dest = some slot → ctx.Live p slot
  unrestored : ∀ r, ctx.homeRegister? dest = some r → restore.lookup r = none
  declared : ctx.slots.find? dest = none → ⟨dest, none⟩ ∈ globals

/-- Registers that may change on the way to a new value: the scratch registers and the home. -/
def Context.changing (ctx : Context n k) (dest : Symbol) : List Register :=
  .t0 :: .t1 :: (ctx.homeRegister? dest).toList

theorem Ready.only (hp : Prepared ctx regs place) (hrestore : Restorable place restore)
    {dest : Symbol} (h : Ready globals ctx place act setting restore p entry dest s t)
    (honly : Only (ctx.changing dest) t t₁) :
    Ready globals ctx place act setting restore p entry dest s t₁ where
  homes := by
    refine h.homes.only hp hrestore honly fun slot r hlive hne hhome hmem => ?_
    obtain ⟨-, ht0, ht1⟩ := hp.allocatable_of_home hhome
    simp only [Context.changing, List.mem_cons, ht0, ht1, Option.mem_toList, false_or] at hmem
    obtain ⟨other, hoth, hhome'⟩ := Option.bind_eq_some_iff.1 (Context.homeRegister?_eq_some.1 hmem)
    have hdist : other ≠ slot := fun heq => hne (by rw [← hp.find?_iff.1 hoth, heq])
    exact hp.register_ne (h.live other hoth) hlive hdist hhome' hhome
  kept := by
    refine h.kept.only honly fun r hmem hsav => ?_
    rcases List.mem_cons.1 hmem with rfl | hmem
    · cases hsav
    rcases List.mem_cons.1 hmem with rfl | hmem
    · cases hsav
    obtain ⟨slot, -, hhome⟩ :=
      Option.bind_eq_some_iff.1 (Context.homeRegister?_eq_some.1 (Option.mem_toList.1 hmem))
    exact hp.layout.saves slot r (hp.register_of_home hhome) hsav
  live := h.live
  unrestored := h.unrestored
  declared := h.declared

theorem Ready.assign_local (hp : Prepared ctx regs place)
    (hg : Grounds globals ctx place act setting) {dest : Symbol}
    (h : Ready globals ctx place act setting restore p entry dest s t)
    (hasg : act.assign s dest v = some s') (hslot : ctx.slots.find? dest = some slot)
    (hhome : ∀ home, ctx.frame.homes.get slot = some home → Holds setting restore t v home) :
    Matches globals ctx place act setting restore p entry s' t := by
  obtain ⟨-, rfl⟩ := Eeyore.Activation.assign_eq_some.1 hasg
  have hloc : act.isLocal dest = true := by rw [hg.isLocal, hslot]; rfl
  refine ⟨fun other home w hlive _ hoth hw => ?_, h.kept.memory, fun x a hx => ?_, h.kept.saved,
    h.kept.unsaved, h.kept.calls, ?_⟩
  · by_cases heq : dest = ctx.symbol other
    · obtain rfl : slot = other := Option.some.inj (hslot.symm.trans (hp.find?_iff.2 heq.symm))
      simp only [heq, if_true, Option.some.injEq] at hw
      exact hw ▸ hhome home hoth
    · simp only [Ne.symm heq, if_false] at hw
      exact h.homes other home w hlive (by simpa using heq) hoth hw
  · have hne : x ≠ dest := by
      rintro rfl
      cases hx with
      | global hnone _ => cases hslot.symm.trans hnone
    simp only [hne, if_false]
    exact h.kept.globals x a hx
  · simp only [hloc, if_true]
    exact h.kept.events

variable (hp : Prepared ctx regs place) (hg : Grounds globals ctx place act setting)
  (hrestore : Restorable place restore) {dest : Symbol}
  (h : Ready globals ctx place act setting restore p entry dest s t)
include hp hg hrestore h

theorem Ready.assign_global (hasg : act.assign s dest v = some s')
    (hslot : ctx.slots.find? dest = none) :
    Matches globals ctx place act setting restore p entry s' { t.write (setting.place ⟨dest.id⟩) v with
      events := t.events ++ [.store (setting.place ⟨dest.id⟩) v] } := by
  obtain ⟨-, rfl⟩ := Eeyore.Activation.assign_eq_some.1 hasg
  have hloc : act.isLocal dest = false := by rw [hg.isLocal, hslot]; rfl
  have hspot : Spot.At globals ctx place setting (.global dest) (setting.place ⟨dest.id⟩) :=
    .global hslot (h.declared hslot)
  have hsym : ∀ slot, ctx.symbol slot ≠ dest := fun slot heq => by
    cases (hp.find?_iff.2 heq).symm.trans hslot
  refine ⟨fun slot home w hlive _ hhome hw => ?_, fun region hrgn b hb => ?_, fun x a hx => ?_,
    fun r a hr => ?_, h.kept.unsaved, h.kept.calls, ?_⟩
  · simp only [hsym slot, if_false] at hw
    refine (h.homes slot home w hlive (by simpa using (hsym slot).symm) hhome hw).congr
      (fun _ _ _ => rfl) fun a ha => ?_
    rcases ha with rfl | ⟨r, -, hlook⟩
    · obtain ⟨hpl, harr⟩ := hp.layout.place_of_stack hhome
      exact word_write_spot hg hspot (.slot hpl harr) (by simp) v
    · exact word_write_spot hg hspot (.register (hrestore r a (mem_of_lookup hlook)).2) (by simp) v
  · exact (byte_write_spot hg hspot hrgn hb v).trans (h.kept.memory region hrgn b hb)
  · by_cases heq : x = dest
    · subst heq
      cases hx
      simp
    · simp only [heq, if_false]
      rw [show ({ t.write (setting.place ⟨dest.id⟩) v with
        events := t.events ++ [.store (setting.place ⟨dest.id⟩) v] } : State).memory.word a =
          t.memory.word a from word_write_spot hg hspot hx (by simpa using Ne.symm heq) v]
      exact h.kept.globals x a hx
  · refine (word_write_spot hg hspot (.register (hp.layout.saved r a hr).2) (by simp) v).trans ?_
    exact h.kept.saved r a hr
  · simp only [hloc, Bool.false_eq_true, if_false]
    exact List.rel_append h.kept.events (.cons (.assign dest v) .nil)

theorem Ready.write_home (hslot : ctx.slots.find? dest = some slot)
    (hhome : ctx.frame.homes.get slot = some (.stack a)) (v : Int32) :
    Ready globals ctx place act setting restore p entry dest s (t.write (setting.slot a) v) := by
  obtain ⟨hpl, harr⟩ := hp.layout.place_of_stack hhome
  have hspot : Spot.At globals ctx place setting (.object (.slot slot)) (setting.slot a) :=
    .slot hpl harr
  refine ⟨?_, h.kept.write_object hp hg hspot (by simp) v, h.live, h.unrestored, h.declared⟩
  refine h.homes.congr globals hp hrestore (fun _ _ => rfl) (fun _ _ _ _ _ => rfl)
    fun o b ho hoth _ => word_write_spot hg hspot ho ?_ v
  rintro heq
  cases heq
  exact hoth slot rfl (by rw [hp.find?_iff.1 hslot])

theorem Ready.commit (hasg : act.assign s dest v = some s')
    (honly : Only (ctx.changing dest) t t₁) {source : Register} (hsrc : t₁.value source = v)
    (hhome : ∀ r, ctx.homeRegister? dest = some r → source = r) {written : List Instruction}
    (hcmt : ctx.commit dest source = .ok written) :
    ∃ t2, setting.machine.exec written t₁ = some t2 ∧
      Matches globals ctx place act setting restore p entry s' t2 := by
  have h1 := h.only hp hrestore honly
  unfold Context.commit at hcmt
  cases hslot : ctx.slots.find? dest with
  | none =>
    have hnone : ctx.home? dest = none := by simp [Context.home?, hslot]
    simp only [hnone, Except.ok.injEq] at hcmt
    subst hcmt
    have hscr := otherScratch_eq source
    have hz : source.otherScratch ≠ .zero := by
      rcases hscr with h | h <;> rw [h] <;> decide
    let t' := t₁.set source.otherScratch (setting.place ⟨dest.id⟩).toInt32
    have honly' : Only (ctx.changing dest) t₁ t' :=
      .set t₁ _ (by rcases hscr with h | h <;> simp [Context.changing, h])
    have hval : t'.value source = v := by
      rw [State.value_set_of_ne _ _ (otherScratch_ne source).symm, hsrc]
    have haddr : (t'.value source.otherScratch + 0).toUInt32 = setting.place ⟨dest.id⟩ := by
      rw [State.value_set_self _ _ hz, Int32.add_zero]
      rfl
    have hsto := setting.pass_store t' source.otherScratch source 0 haddr
      (hg.admits dest _ (.global hslot (h.declared hslot)))
    rw [hval] at hsto
    refine ⟨_, ?_, (h1.only hp hrestore honly').assign_global hp hg hrestore hasg hslot⟩
    simp [hsto, t']
  | some slot =>
    have hget : ctx.home? dest = ctx.frame.homes.get slot := by simp [Context.home?, hslot]
    rw [hget] at hcmt
    rcases hp.layout.home slot with ⟨-, a, -, hkind⟩ | ⟨-, r, -, hkind⟩ | ⟨-, -, a, -, hkind⟩
    · simp [hkind] at hcmt
    · simp only [hkind, Except.ok.injEq] at hcmt
      subst hcmt
      have hreg : ctx.homeRegister? dest = some r :=
        Context.homeRegister?_eq_some.2 (hget.trans hkind)
      refine ⟨t₁, rfl, h1.assign_local hp hg hasg hslot fun home hhome' => ?_⟩
      cases hkind.symm.trans hhome'
      simp only [Holds, h.unrestored r hreg]
      rw [← hhome r hreg, hsrc]
    · simp only [hkind, Except.ok.injEq] at hcmt
      subst hcmt
      refine ⟨t₁.write (setting.slot a) v, by simp [hsrc], ?_⟩
      have h2 := h1.write_home hp hg hrestore hslot hkind v
      refine h2.assign_local hp hg hasg hslot fun home hhome' => ?_
      cases hkind.symm.trans hhome'
      simp [Holds]

end SysY.Tigger

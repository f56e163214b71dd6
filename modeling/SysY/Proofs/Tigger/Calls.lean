import SysY.Proofs.Tigger.Instructions

/-!
# Calls

Around a call, the registers that a callee may destroy and whose values are needed afterwards are
preserved in the frame. In between, the arguments are brought to their registers, and the result to
its home.
-/

namespace SysY.Tigger

open Eeyore (Activation Decl Value)
open SysY.Flow Allocation

variable {n k : Nat} {globals : List Decl} {ctx : Context n k}
  {regs : Vector (Option Register) k} {place : Object k → Option UInt32} {act : Activation}
  {setting : Setting} {restore : List (Register × UInt32)} {entry : Register → Int32}
  {s s' : Eeyore.State} {t t1 : State} {argument : Value} {v : Int32} {arguments : List Value}
  {code : List Instruction} {result : Option Register} {fn : String} {dest : Symbol}

/-! ## Preserving and restoring registers -/

variable {r : Register} {a : UInt32} {p : Nat} {vs : List Int32}

theorem Restorable.unique (h : Restorable place restore) {b : UInt32} (ha : (r, a) ∈ restore)
    (hb : (r, b) ∈ restore) : a = b :=
  Option.some.inj ((h r a ha).2.symm.trans (h r b hb).2)

/-- What writes to the frame leave alone. -/
structure Untouched (globals : List Decl) (ctx : Context n k) (place : Object k → Option UInt32)
    (act : Activation) (setting : Setting) (written : Object k → Prop) (t t' : State) : Prop where
  value : t'.value = t.value
  calls : t'.calls = t.calls
  events : t'.events = t.events
  spots : ∀ σ b, Spot.At globals ctx place setting σ b → (∀ o, written o → σ ≠ .object o) →
    t'.memory.word b = t.memory.word b
  objects : ∀ region ∈ act.objects, ∀ b, region.contains b = true → t'.memory b = t.memory b

theorem exec_stores (hg : Grounds globals ctx place act setting) (target : Register × UInt32 → Object k)
    {stores : List (Register × UInt32)}
    (hspot : ∀ e ∈ stores, Spot.At globals ctx place setting (.object (target e)) (setting.slot e.2))
    (huniq : ∀ e ∈ stores, ∀ f ∈ stores, target e = target f → e = f) (t : State) :
    ∃ t', setting.machine.exec (Context.preserving stores) t = some t' ∧
      (∀ e ∈ stores, t'.memory.word (setting.slot e.2) = t.value e.1) ∧
      Untouched globals ctx place act setting (fun o => ∃ e ∈ stores, o = target e) t t' := by
  induction stores generalizing t with
  | nil => exact ⟨t, rfl, by simp, rfl, rfl, rfl, fun _ _ _ _ => rfl, fun _ _ _ _ => rfl⟩
  | cons e rest ih =>
    rw [List.forall_mem_cons] at hspot
    obtain ⟨t', hexec, hwords, hval, hcalls, hevents, hspots, hobjs⟩ := ih hspot.2
      (fun f hf g hg => huniq f (List.mem_cons_of_mem _ hf) g (List.mem_cons_of_mem _ hg))
      (t.write (setting.slot e.2) (t.value e.1))
    refine ⟨t', hexec, List.forall_mem_cons.2 ⟨?_, hwords⟩, hval, hcalls, hevents,
      fun σ b hσ hne => ?_, fun region hrgn b hb => ?_⟩
    · by_cases hmem : e ∈ rest
      · exact hwords e hmem
      · rw [hspots _ _ hspot.1]
        · simp
        · rintro o ⟨f, hf, rfl⟩ heq
          cases huniq e List.mem_cons_self f (List.mem_cons_of_mem _ hf) (Spot.object.inj heq)
          exact hmem hf
    · rw [hspots σ b hσ fun o ⟨f, hf, heq⟩ => hne o ⟨f, List.mem_cons_of_mem _ hf, heq⟩]
      exact word_write_spot hg hspot.1 hσ (hne _ ⟨e, List.mem_cons_self, rfl⟩).symm _
    · rw [hobjs region hrgn b hb]
      exact byte_write_spot hg hspot.1 hrgn hb _

theorem exec_preserving (hp : Prepared ctx regs place)
    (hg : Grounds globals ctx place act setting) (hrst : Restorable place restore)
    (h : Matches globals ctx place act setting [] p entry s t) :
    ∃ t', setting.machine.exec (Context.preserving restore) t = some t' ∧ t'.value = t.value ∧
      Matches globals ctx place act setting [] p entry s t' ∧
      (∀ r a, (r, a) ∈ restore → t'.memory.word (setting.slot a) = t.value r) ∧
      ∀ o b, Spot.At globals ctx place setting (.object o) b →
        (∀ r, o = .register r → r.isVolatile = false) → t'.memory.word b = t.memory.word b := by
  obtain ⟨t', hexec, hwords, hunt⟩ := exec_stores hg (fun e => .register e.1)
    (fun e he => .register (hrst e.1 e.2 he).2)
    (fun e he f hf heq => by
      obtain ⟨r, a⟩ := e
      obtain ⟨r', b⟩ := f
      cases heq
      rw [hrst.unique he hf]) t
  have hoths : ∀ o b, Spot.At globals ctx place setting (.object o) b →
      (∀ r, o = .register r → r.isVolatile = false) → t'.memory.word b = t.memory.word b := by
    intro o b ho hvol
    refine hunt.spots _ b ho fun o' ⟨e, he, heq⟩ hspot => ?_
    have := hvol e.1 ((Spot.object.inj hspot).trans heq)
    rw [(hrst e.1 e.2 he).1] at this
    cases this
  refine ⟨t', hexec, hunt.value, ⟨?_, ?_⟩, fun r a => hwords (r, a), hoths⟩
  · refine h.homes.congr globals hp restorable_nil (fun _ _ => rfl)
      (fun _ _ _ _ _ => congrFun hunt.value _) fun o b ho _ hreg => hoths o b ho ?_
    rintro r rfl
    obtain ⟨b, hb⟩ := hreg r rfl
    cases hb
  · refine ⟨fun region hrgn b hb => ?_, fun x b hx => ?_, fun r b hr => ?_, ?_, ?_, ?_⟩
    · rw [hunt.objects region hrgn b hb, h.kept.memory region hrgn b hb]
    · rw [hunt.spots _ b hx (by simp), h.kept.globals x b hx]
    · obtain ⟨hsav, hpl⟩ := hp.layout.saved r b hr
      rw [hoths _ _ (.register hpl) fun r' hr' => ?_, h.kept.saved r b hr]
      cases hr'
      cases r <;> simp_all [Register.isVolatile, Register.isSaved]
    · rw [hunt.value]
      exact h.kept.unsaved
    · rw [hunt.calls, h.kept.calls]
    · rw [hunt.events]
      exact h.kept.events

theorem exec_restoring (setting : Setting) (restore : List (Register × UInt32))
    (hz : ∀ r a, (r, a) ∈ restore → r ≠ .zero)
    (huniq : ∀ r a b, (r, a) ∈ restore → (r, b) ∈ restore → a = b) (t : State) :
    ∃ t', setting.machine.exec (Context.restoring restore) t = some t' ∧
      Only (restore.map (·.1)) t t' ∧
      ∀ r a, (r, a) ∈ restore → t'.value r = t.memory.word (setting.slot a) := by
  induction restore generalizing t with
  | nil => exact ⟨t, rfl, .refl _ t, by simp⟩
  | cons entry' rest ih =>
    obtain ⟨r, a⟩ := entry'
    obtain ⟨t', hexec, honly, hvals⟩ := ih
      (fun x b hx => hz x b (List.mem_cons_of_mem _ hx))
      (fun x b c hb hc => huniq x b c (List.mem_cons_of_mem _ hb) (List.mem_cons_of_mem _ hc))
      (t.set r (t.memory.word (setting.slot a)))
    refine ⟨t', hexec, (Only.set t _ List.mem_cons_self).trans (honly.mono (List.subset_cons_self _ _)),
      fun x b hx => ?_⟩
    by_cases hmem : (x, b) ∈ rest
    · exact hvals x b hmem
    · obtain ⟨rfl, rfl⟩ : x = r ∧ b = a := by simpa [hmem] using hx
      rw [honly.value x, State.value_set_self _ _ (hz x b hx)]
      intro hx'
      obtain ⟨⟨y, c⟩, hy, rfl⟩ := List.mem_map.1 hx'
      exact hmem (huniq _ _ _ hx (List.mem_cons_of_mem _ hy) ▸ hy)

theorem Matches.restored (hrst : Restorable place restore)
    (h : Matches globals ctx place act setting restore p entry s t) :
    ∃ t', setting.machine.exec (Context.restoring restore) t = some t' ∧
      Matches globals ctx place act setting [] p entry s t' := by
  have hvol : ∀ r ∈ restore.map (·.1), r.isVolatile = true := by
    intro r hr
    obtain ⟨⟨x, a⟩, hx, rfl⟩ := List.mem_map.1 hr
    exact (hrst x a hx).1
  obtain ⟨t', hexec, honly, hvals⟩ := exec_restoring setting restore
    (fun r a hr heq => by
      have := (hrst r a hr).1
      rw [heq] at this
      cases this)
    (fun _ _ _ => hrst.unique) t
  refine ⟨t', hexec, fun slot home v hlive hbut hhome hv => ?_, h.kept.only honly fun r hr hsav => ?_⟩
  · have hholds := h.homes slot home v hlive hbut hhome hv
    cases home with
    | register r =>
      unfold Holds at hholds ⊢
      cases hlook : restore.lookup r with
      | some a =>
        simp only [hlook] at hholds
        exact (hvals r a (mem_of_lookup hlook)).trans hholds
      | none =>
        simp only [hlook] at hholds
        refine (honly.value r fun hmem => ?_).trans hholds
        obtain ⟨⟨x, a⟩, hx, rfl⟩ := List.mem_map.1 hmem
        simpa using List.lookup_eq_none_iff.1 hlook _ hx
    | stack a =>
      unfold Holds at hholds ⊢
      rwa [honly.memory]
    | array a => exact hholds
  · have := hvol r hr
    cases r <;> simp_all [Register.isVolatile, Register.isSaved]

/-! ## Arguments -/

theorem argumentSource?_eq_some (h : ctx.argumentSource? argument = some r) :
    ∃ x, argument = .symbol x ∧ ctx.home? x = some (.register r) := by
  cases argument with
  | const c => cases h
  | symbol x => exact ⟨x, rfl, Context.homeRegister?_eq_some.1 h⟩

section

variable {p : Nat} (hp : Prepared ctx regs place)
  (hg : Grounds globals ctx place act setting)
  (h : Matches globals ctx place act setting [] p entry s t)
include hp hg h

theorem exec_readInto_memory (hx : ∀ x, argument = .symbol x → Readable globals ctx p x)
    (hv : act.value s argument = some v) (hsrc : ctx.argumentSource? argument = none)
    (hmemo : t1.memory = t.memory) (dest : Register) :
    setting.machine.exec (ctx.readInto argument dest) t1 = some (t1.set dest v) := by
  cases argument with
  | const c =>
    cases hv
    rfl
  | symbol x =>
    have hhome : ∀ r, ctx.home? x ≠ some (.register r) := fun r hr => by
      have := Context.homeRegister?_eq_some.2 hr
      simp [Context.homeRegister?, hsrc] at this
    obtain ⟨hreg, hexec⟩ := exec_readSymbol_memory hp hg h (hx x rfl) hv hhome hmemo dest
    simpa only [Context.readInto, hreg, if_true] using hexec

theorem exec_readInto_all (loads : List (Register × Value))
    (hx : ∀ load ∈ loads, ∀ x, load.2 = .symbol x → Readable globals ctx p x)
    (hv : ∀ load ∈ loads, ∃ v, act.value s load.2 = some v)
    (hsrc : ∀ load ∈ loads, ctx.argumentSource? load.2 = none) (hnd : (loads.map (·.1)).Nodup)
    (hz : ∀ load ∈ loads, load.1 ≠ .zero) (hmemo : t1.memory = t.memory) :
    ∃ t2, setting.machine.exec (loads.flatMap fun load => ctx.readInto load.2 load.1) t1 = some t2 ∧
      Only (loads.map (·.1)) t1 t2 ∧
      ∀ load ∈ loads, act.value s load.2 = some (t2.value load.1) := by
  induction loads generalizing t1 with
  | nil => exact ⟨t1, rfl, .refl _ t1, by simp⟩
  | cons load loads ih =>
    obtain ⟨hnot, hnd⟩ := List.nodup_cons.1 hnd
    rw [List.forall_mem_cons] at hx hv hsrc hz
    obtain ⟨v, hval⟩ := hv.1
    have hexec := exec_readInto_memory hp hg h hx.1 hval hsrc.1 hmemo load.1
    obtain ⟨t2, hexec2, honly, hvals⟩ := ih hx.2 hv.2 hsrc.2 hnd hz.2
      (show (t1.set load.1 v).memory = t.memory from hmemo)
    refine ⟨t2, ?_, (Only.set t1 v List.mem_cons_self).trans (honly.mono (List.subset_cons_self _ _)),
      List.forall_mem_cons.2 ⟨?_, hvals⟩⟩
    · rw [List.flatMap_cons, Machine.exec_append_of_exec hexec, hexec2]
    · rw [honly.value load.1 hnot, State.value_set_self _ _ hz.1, hval]

end

def Context.argumentMoves (ctx : Context n k) (targets : List (Register × Value)) : List Move :=
  targets.filterMap fun (dest, argument) => (ctx.argumentSource? argument).map (⟨dest, ·⟩)

/-- The arguments of a call that are read from memory. -/
def Context.argumentLoads (ctx : Context n k) (targets : List (Register × Value)) :
    List (Register × Value) :=
  targets.filter fun (_, argument) => (ctx.argumentSource? argument).isNone

theorem dests_argumentMoves (ctx : Context n k) (targets : List (Register × Value)) :
    List.Sublist (Move.dests (ctx.argumentMoves targets)) (targets.map (·.1)) := by
  induction targets with
  | nil => exact .slnil
  | cons target targets ih =>
    unfold Context.argumentMoves at ih ⊢
    cases h : ctx.argumentSource? target.2 with
    | none => simpa [h] using ih.cons target.1
    | some r => simpa [h, Move.dests] using ih.cons_cons target.1

theorem mem_argumentMoves {targets : List (Register × Value)} {move : Move} :
    move ∈ ctx.argumentMoves targets ↔
      ∃ argument, (move.dest, argument) ∈ targets ∧
        ctx.argumentSource? argument = some move.source := by
  simp only [Context.argumentMoves, List.mem_filterMap, Option.map_eq_some_iff]
  constructor
  · rintro ⟨⟨dest, argument⟩, hmem, source, hsrc, rfl⟩
    exact ⟨argument, hmem, hsrc⟩
  · rintro ⟨argument, hmem, hsrc⟩
    exact ⟨_, hmem, move.source, hsrc, rfl⟩

theorem passArguments_eq (ctx : Context n k) (arguments : List Value) :
    ctx.passArguments arguments =
      (parallelMove .t0 (ctx.argumentMoves (Register.arguments.zip arguments))).map fun moved =>
        moved ++ (ctx.argumentLoads (Register.arguments.zip arguments)).flatMap fun load =>
          ctx.readInto load.2 load.1 := by
  simp only [Context.passArguments, Context.argumentMoves, Context.argumentLoads]
  cases parallelMove .t0 _ <;> rfl

theorem map_fst_zip_sublist {α β : Type} (as : List α) (bs : List β) :
    List.Sublist ((as.zip bs).map (·.1)) as := by
  induction as generalizing bs with
  | nil => simp
  | cons a as ih =>
    cases bs with
    | nil => simp
    | cons b bs => exact (ih bs).cons_cons a

theorem nodup_targets (arguments : List Value) :
    ((Register.arguments.zip arguments).map (·.1)).Nodup :=
  (map_fst_zip_sublist _ _).nodup (by decide)

theorem prefix_of_targets {rs : List Register}
    (hforall : List.Forall₂ (fun argument v => act.value s argument = some v) arguments vs)
    (hlen : arguments.length ≤ rs.length)
    (hval : ∀ target ∈ rs.zip arguments, act.value s target.2 = some (t.value target.1)) :
    vs <+: rs.map t.value := by
  induction hforall generalizing rs with
  | nil => exact List.nil_prefix
  | cons hhead _ ih =>
    cases rs with
    | nil => simp at hlen
    | cons r rs =>
      rw [List.zip_cons_cons, List.forall_mem_cons] at hval
      obtain rfl := Option.some.inj (hhead.symm.trans hval.1)
      exact (List.prefix_cons_inj _).2 (ih (by simpa using hlen) hval.2)

theorem parallelMove_arguments (hp : Prepared ctx regs place) (arguments : List Value) :
    ∃ code, parallelMove .t0 (ctx.argumentMoves (Register.arguments.zip arguments)) = .ok code ∧
      ∀ (setting : Setting) t, ∃ t', setting.machine.exec code t = some t' ∧
        (∀ move ∈ ctx.argumentMoves (Register.arguments.zip arguments),
          t'.value move.dest = t.value move.source) ∧
        Only (.t0 :: Move.dests (ctx.argumentMoves (Register.arguments.zip arguments))) t t' := by
  have harg : ∀ r ∈ Register.arguments, r ≠ .zero ∧ r ≠ .t0 := by decide
  have hmem : ∀ move ∈ ctx.argumentMoves (Register.arguments.zip arguments),
      move.dest ∈ Register.arguments := by
    intro move hmove
    obtain ⟨argument, hmem, -⟩ := mem_argumentMoves.1 hmove
    exact (List.of_mem_zip hmem).1
  refine parallelMove_spec (by decide)
    ((dests_argumentMoves ctx _).nodup (nodup_targets arguments))
    (fun move hmove => (harg _ (hmem move hmove)).1)
    (fun move hmove => ⟨(harg _ (hmem move hmove)).2, ?_⟩)
  obtain ⟨argument, -, hsrc⟩ := mem_argumentMoves.1 hmove
  obtain ⟨x, -, hhome⟩ := argumentSource?_eq_some hsrc
  obtain ⟨slot, -, hhome⟩ := Option.bind_eq_some_iff.1 hhome
  exact (hp.allocatable_of_home hhome).2.1

theorem exec_passArguments (hp : Prepared ctx regs place)
    (hg : Grounds globals ctx place act setting)
    (h : Matches globals ctx place act setting [] p entry s t)
    (hx : ∀ argument ∈ arguments, ∀ x, argument = .symbol x →
      Readable globals ctx p x) (hvs : arguments.mapM (act.value s) = some vs)
    (hlen : arguments.length ≤ maxArguments) (hcode : ctx.passArguments arguments = .ok code) :
    ∃ t', setting.machine.exec code t = some t' ∧ Only (.t0 :: Register.arguments) t t' ∧
      vs <+: t'.arguments := by
  have hforall := mapM_eq_some.1 hvs
  let targets := Register.arguments.zip arguments
  have htgt : ∀ target ∈ targets, target.1 ∈ Register.arguments ∧ target.2 ∈ arguments :=
    fun target htgt => List.of_mem_zip htgt
  have hval : ∀ argument ∈ arguments, ∃ v, act.value s argument = some v := by
    intro argument harg
    obtain ⟨i, hi, rfl⟩ := List.mem_iff_getElem.1 harg
    exact ⟨_, hforall.get hi (hforall.length_eq ▸ hi)⟩
  have hz : ∀ r ∈ Register.arguments, r ≠ .zero := by decide
  rw [passArguments_eq] at hcode
  obtain ⟨moved, hmvd, rfl⟩ := map_eq_ok.1 hcode
  obtain ⟨moved', hmvd', hmoves⟩ := parallelMove_arguments hp arguments
  obtain rfl : moved = moved' := Except.ok.inj (hmvd.symm.trans hmvd')
  obtain ⟨t1, hexec1, hvals1, honly1⟩ := hmoves setting t
  have hloads : ∀ load ∈ ctx.argumentLoads targets, load ∈ targets ∧
      ctx.argumentSource? load.2 = none := fun load hload => by
    simpa [Context.argumentLoads] using hload
  obtain ⟨t2, hexec2, honly2, hvals2⟩ := exec_readInto_all hp hg h (ctx.argumentLoads targets)
    (fun load hload => hx _ (htgt load (hloads load hload).1).2)
    (fun load hload => hval _ (htgt load (hloads load hload).1).2)
    (fun load hload => (hloads load hload).2)
    ((List.filter_sublist.map _).nodup (nodup_targets arguments))
    (fun load hload => hz _ (htgt load (hloads load hload).1).1) honly1.memory
  -- Every target has the value of its argument: it was copied and not read over, or it was read.
  have hall : ∀ target ∈ targets, act.value s target.2 = some (t2.value target.1) := by
    intro target hmem
    cases hsrc : ctx.argumentSource? target.2 with
    | none => exact hvals2 target (List.mem_filter.2 ⟨hmem, by simp [hsrc]⟩)
    | some r =>
      have hkept : target.1 ∉ (ctx.argumentLoads targets).map (·.1) := by
        intro hload
        obtain ⟨load, hload, heq⟩ := List.mem_map.1 hload
        obtain ⟨hload, hnone⟩ := hloads load hload
        rw [List.inj_on_of_nodup_map (nodup_targets arguments) hload hmem heq, hsrc] at hnone
        cases hnone
      rw [honly2.value _ hkept, hvals1 ⟨target.1, r⟩ (mem_argumentMoves.2 ⟨target.2, hmem, hsrc⟩)]
      obtain ⟨x, hsym, hhome⟩ := argumentSource?_eq_some hsrc
      obtain ⟨v, hv⟩ := hval target.2 (htgt target hmem).2
      rw [hsym] at hv ⊢
      rw [hv, (value_of_register hp hg h (hx _ (htgt target hmem).2 x hsym) hv hhome).1]
  refine ⟨t2, by rw [Machine.exec_append_of_exec hexec1, hexec2], ?_, ?_⟩
  · have hmoves : Move.dests (ctx.argumentMoves targets) ⊆ Register.arguments :=
      ((dests_argumentMoves ctx targets).trans (map_fst_zip_sublist _ _)).subset
    have hreads : (ctx.argumentLoads targets).map (·.1) ⊆ Register.arguments :=
      ((List.filter_sublist.map _).trans (map_fst_zip_sublist _ _)).subset
    exact (honly1.mono (List.cons_subset_cons _ hmoves)).trans
      (honly2.mono (List.subset_cons_of_subset _ hreads))
  · exact prefix_of_targets hforall hlen hall

/-! ## The call itself -/

variable {p : Fin n} {output : Option Symbol}

theorem mem_preserved :
    (r, a) ∈ ctx.preserved p result ↔ ctx.frame.spared.lookup r = some a ∧ result ≠ some r ∧
      ∃ slot ∈ ctx.liveness.liveOut ctx.graph p,
        ctx.frame.homes.get slot = some (.register r) := by
  simp only [Context.preserved, List.mem_filterMap]
  constructor
  · rintro ⟨slot, hslot, h⟩
    split at h
    · rename_i x hhome
      split at h
      · cases h
      · rename_i hres
        obtain ⟨b, hb, heq⟩ := Option.map_eq_some_iff.1 h
        cases heq
        exact ⟨hb, hres, slot, hslot, hhome⟩
    · cases h
  · rintro ⟨ha, hres, slot, hslot, hhome⟩
    refine ⟨slot, hslot, ?_⟩
    simp [hhome, hres, ha]

theorem restorable_preserved (hp : Prepared ctx regs place) (result : Option Register) :
    Restorable place (ctx.preserved p result) := fun r a h =>
  hp.layout.spared r a (mem_of_lookup (mem_preserved.1 h).1)

theorem word_afterCall (hg : Grounds globals ctx place act setting) {o : Object k}
    (ho : Spot.At globals ctx place setting (.object o) a) (fn : String) :
    (setting.afterCall t fn).memory.word a = t.memory.word a :=
  Memory.word_congr fun j hj => if_pos (hg.keeps o a ho j hj)

theorem value_afterCall (setting : Setting) (hr : r.isSaved = true)
    (fn : String) : (setting.afterCall t fn).value r = t.value r := by
  simp [State.value, Setting.afterCall, hr]

theorem Kept.afterCall (hp : Prepared ctx regs place)
    (hg : Grounds globals ctx place act setting) (h : Kept globals ctx place act setting entry s t)
    (hvs : vs <+: t.arguments) (fn : String) :
    Kept globals ctx place act setting entry (act.afterCall s fn vs)
      (setting.afterCall t fn) where
  memory region hrgn b hb := by
    simp [Setting.afterCall, Activation.afterCall, hg.changesObjects region hrgn b hb, hg.reply,
      hg.leaves, h.calls]
  globals x a hx := by
    have hword : (setting.afterCall t fn).memory.word a =
        (setting.reply t.calls).memory.word a :=
      Memory.word_congr fun j hj => if_neg (by simp [hg.changes x a hx j hj])
    cases hx with
    | global hnone _ =>
      have hloc : act.isLocal x = false := by rw [hg.isLocal, hnone]; rfl
      simp [Activation.afterCall, hloc, hg.reply, hword, h.calls]
  saved r a hr :=
    (word_afterCall hg (.register (hp.layout.saved r a hr).2) fn).trans (h.saved r a hr)
  unsaved r hr hnot := (value_afterCall setting hr fn).trans (h.unsaved r hr hnot)
  calls := congrArg (· + 1) h.calls
  events := List.rel_append h.events (.cons (.call fn hvs) .nil)

theorem HomesHold.afterCall (hp : Prepared ctx regs place)
    (hg : Grounds globals ctx place act setting)
    (hi : ctx.body.get p = .call fn arguments output)
    (hres : ∀ slot r, ctx.Live (p + 1) slot → output ≠ some (ctx.symbol slot) →
      ctx.frame.homes.get slot = some (.register r) → result ≠ some r)
    (h : HomesHold ctx setting [] (p + 1) output s t)
    (hpreserved : ∀ r a, (r, a) ∈ ctx.preserved p result →
      t1.memory.word (setting.slot a) = t.value r)
    (hwords : ∀ o b, Spot.At globals ctx place setting (.object o) b →
      (∀ r, o = .register r → r.isVolatile = false) → t1.memory.word b = t.memory.word b)
    (hsav : ∀ r, r.isSaved = true → t1.value r = t.value r) (vs : List Int32) :
    HomesHold ctx setting (ctx.preserved p result) (p + 1) output (act.afterCall s fn vs)
      (setting.afterCall t1 fn) := by
  have hrst := restorable_preserved (p := p) hp result
  intro slot home v hlive hne hhome hv
  have hloc : act.isLocal (ctx.symbol slot) = true := by
    rw [hg.isLocal, hp.find?_iff.2 rfl]
    rfl
  have hholds := h slot home v hlive hne hhome (by simpa [Activation.afterCall, hloc] using hv)
  cases home with
  | register r =>
    simp only [Holds, List.lookup_nil] at hholds
    simp only [Holds]
    have hreg := hp.register_of_home hhome
    cases hlook : (ctx.preserved p result).lookup r with
    | some a =>
      dsimp only
      have hmem := mem_of_lookup hlook
      rw [word_afterCall hg (.register (hrst r a hmem).2), hpreserved r a hmem, hholds]
    | none =>
      dsimp only
      have hkept : r.isSaved = true := by
        obtain ⟨hz, -⟩ := hp.allocatable_of_home hhome
        refine Decidable.byContradiction fun hnot => ?_
        have hvol : r.isVolatile = true := by
          cases r <;> simp_all [Register.isSaved, Register.isVolatile]
        have hcalls : ctx.body.any (·.isCall) = true := by
          refine Vector.any_eq_true.2 ⟨p.val, p.isLt, ?_⟩
          have hget : ctx.body.get p = getElem ctx.body p.val p.isLt := rfl
          rw [← hget, hi]
          rfl
        obtain ⟨a, ha⟩ := hp.layout.spares slot r hcalls hreg hvol
        obtain ⟨b, hb⟩ : ∃ b, ctx.frame.spared.lookup r = some b := by
          cases hb : ctx.frame.spared.lookup r with
          | some b => exact ⟨b, rfl⟩
          | none => simpa using List.lookup_eq_none_iff.1 hb _ ha
        have hout : slot ∈ ctx.liveness.liveOut ctx.graph p := by
          rw [hp.graph]
          obtain ⟨hlt, hlive⟩ := hlive
          refine Liveness.mem_liveOut.2 ⟨⟨p + 1, hlt⟩, mem_targets.2 (.inr ⟨?_, rfl⟩), hlive⟩
          simp [hi]
        have hmem := mem_preserved.2 ⟨hb, hres slot r hlive hne hhome, slot, hout, hhome⟩
        simpa using List.lookup_eq_none_iff.1 hlook _ hmem
      rw [value_afterCall setting hkept, hsav r hkept, hholds]
  | stack a =>
    obtain ⟨hpl, harr⟩ := hp.layout.place_of_stack hhome
    have hspot : Spot.At globals ctx place setting (.object (.slot slot)) (setting.slot a) :=
      .slot hpl harr
    simp only [Holds] at hholds ⊢
    rw [word_afterCall hg hspot, hwords _ _ hspot (by simp), hholds]
  | array a => exact hholds

theorem Ready.receive {q : Nat} (hp : Prepared ctx regs place)
    (hg : Grounds globals ctx place act setting) (hrst : Restorable place restore)
    (h : Ready globals ctx place act setting restore q entry dest s t)
    (hasg : act.assign s dest v = some s') (hval : t.value .a0 = v) (hcode : ctx.receive (some dest) = .ok code) :
    ∃ t', setting.machine.exec code t = some t' ∧
      Matches globals ctx place act setting restore q entry s' t' := by
  have hrefl : Only (ctx.changing dest) t t := .refl _ t
  unfold Context.receive at hcode
  by_cases hhome : ∃ r, ctx.home? dest = some (.register r)
  · obtain ⟨r, hhome⟩ := hhome
    have hreg := Context.homeRegister?_eq_some.2 hhome
    have hz : r ≠ .zero := by
      obtain ⟨slot, -, hslot⟩ := Option.bind_eq_some_iff.1 hhome
      exact (hp.allocatable_of_home hslot).1
    have hcmt : ctx.commit dest r = .ok [] := by simp [Context.commit, hhome]
    have huniq : ∀ r', ctx.homeRegister? dest = some r' → r = r' :=
      fun r' hr' => Option.some.inj (hreg.symm.trans hr')
    simp only [hhome, Except.ok.injEq] at hcode
    subst hcode
    split
    · rename_i ha0
      exact h.commit hp hg hrst hasg hrefl (ha0 ▸ hval) huniq hcmt
    · have honly : Only (ctx.changing dest) t (t.set r v) :=
        .set t v (by simp [Context.changing, hreg])
      obtain ⟨t', hexec, hmat⟩ := h.commit hp hg hrst hasg honly
        (State.value_set_self _ _ hz) huniq hcmt
      exact ⟨t', by simpa [hval] using hexec, hmat⟩
  · have hcmt : ctx.commit dest .a0 = .ok code := by
      revert hcode
      dsimp only
      split
      · rename_i r hr
        exact absurd ⟨r, hr⟩ hhome
      · exact id
    exact h.commit hp hg hrst hasg hrefl hval
      (fun r hr => absurd ⟨r, Context.homeRegister?_eq_some.1 hr⟩ hhome) hcmt

theorem received_eq_some :
    ctx.received p output = some dest ↔ output = some dest ∧ ctx.isDeadAfter p dest = false := by
  simp [Context.received, Option.filter_eq_some_iff]

theorem result_ne (hp : Prepared ctx regs place)
    (hi : ctx.body.get p = .call fn arguments output) {slot : Fin k}
    (hlive : ctx.Live (p + 1) slot) (hne : output ≠ some (ctx.symbol slot))
    (hhome : ctx.frame.homes.get slot = some (.register r)) :
    ((ctx.received p output).bind fun x => ctx.argumentSource? (.symbol x)) ≠ some r := by
  intro hres
  obtain ⟨dest, hdest, hsrc⟩ := Option.bind_eq_some_iff.1 hres
  obtain ⟨rfl, hdead⟩ := received_eq_some.1 hdest
  obtain ⟨other, hoth, hhome'⟩ := Option.bind_eq_some_iff.1 (Context.homeRegister?_eq_some.1 hsrc)
  have hlive' : ctx.Live (p + 1) other := hp.live_next_of_not_dead hoth hdead (by rw [hi]; rfl)
  refine hp.register_ne hlive' hlive (fun heq => hne ?_) hhome' hhome
  rw [← hp.find?_iff.1 hoth, heq]

theorem implements_lowerCall (hp : Prepared ctx regs place)
    (hg : Grounds globals ctx place act setting) (hd : Declared globals ctx)
    (h : Matches globals ctx place act setting [] p entry s t) (hi : ctx.body.get p = .call fn arguments output)
    (heff : act.effect s (ctx.body.get p) = some s')
    (hcode : ctx.lowerCall p fn arguments output = .ok code) :
    Implements globals ctx place act setting (p + 1) entry s' t code := by
  obtain ⟨hlen, passed, fetched, hpsd, hfet, rfl⟩ := ctx.lowerCall_eq_ok.1 hcode
  have hnxt : HomesHold ctx setting [] (p + 1) output s t := by
    have := h.homes_next hp (p := p) (by simp [hi])
    rwa [hi] at this
  have hdef : (ctx.body.get p).definition = output := by rw [hi]; rfl
  have huse : ∀ argument ∈ arguments, ∀ x, argument = .symbol x → Readable globals ctx p x := by
    rintro argument harg x rfl
    refine readable_of_use hp hd ?_
    rw [hi]
    exact List.mem_filterMap.2 ⟨.symbol x, harg, rfl⟩
  rw [hi] at heff
  obtain ⟨vs, hvs, heff⟩ := Option.bind_eq_some_iff.1 heff
  have hrst : Restorable place (ctx.spared p output) := restorable_preserved hp _
  obtain ⟨t1, hexec1, hval1, hmat1, hwords1, hoths1⟩ := exec_preserving hp hg hrst h
  obtain ⟨t2, hexec2, honly2, hprefix⟩ := exec_passArguments hp hg hmat1 huse hvs hlen hpsd
  have hsav : ∀ r : Register, r.isSaved = true → r ∉ Register.t0 :: Register.arguments := by
    intro r hr hmem
    have : ∀ x ∈ Register.t0 :: Register.arguments, x.isSaved = false := by decide
    simp [this r hmem] at hr
  have hkept := (hmat1.kept.only honly2 fun r hmem hr => absurd hmem (hsav r hr)).afterCall
    hp hg hprefix fn
  have hwords : ∀ o b, Spot.At globals ctx place setting (.object o) b →
      (∀ r, o = .register r → r.isVolatile = false) → t2.memory.word b = t.memory.word b := by
    rw [honly2.memory]
    exact hoths1
  have hhomes := hnxt.afterCall hp hg hi (fun _ _ => result_ne hp hi)
    (fun r a hmem => by rw [honly2.memory, hwords1 r a hmem]) hwords
    (fun r hr => by rw [honly2.value r (hsav r hr), hval1]) vs
  have hres : (setting.afterCall t2 fn).value .a0 = (act.reply s.calls).value := by
    rw [hg.reply, ← hmat1.kept.calls, ← honly2.calls]
    rfl
  -- Behind the call, only the result and the preserved regs are still to be put in place.
  have hreceived : ∃ t4, setting.machine.exec fetched (setting.afterCall t2 fn) = some t4 ∧
      Matches globals ctx place act setting (ctx.spared p output) (p + 1) entry s' t4 := by
    cases hout : output with
    | none =>
      subst hout
      cases heff
      cases hfet
      exact ⟨_, rfl, hhomes, hkept⟩
    | some dest =>
      subst hout
      have hasg : act.assign (act.afterCall s fn vs) dest (act.reply s.calls).value = some s' :=
        heff
      cases hdead : ctx.isDeadAfter p dest with
      | true =>
        have hnone : ctx.received p (some dest) = none := by
          simp [Context.received, Option.filter, hdead]
        rw [hnone] at hfet
        cases hfet
        exact ⟨_, rfl, matches_of_dead hp hg hhomes hkept (by simp [hi]) hdead hasg⟩
      | false =>
        rw [received_eq_some.2 ⟨rfl, hdead⟩] at hfet
        have hrdy : Ready globals ctx place act setting (ctx.spared p (some dest)) (p + 1) entry dest
            (act.afterCall s fn vs) (setting.afterCall t2 fn) := by
          refine ⟨hhomes, hkept, fun slot hslot => ?_, fun r hr => ?_, ?_⟩
          · exact hp.live_next_of_not_dead hslot hdead (by rw [hi]; rfl)
          · refine List.lookup_eq_none_iff.2 fun entry' hmem => ?_
            have := (mem_preserved.1 hmem).2.1
            rw [received_eq_some.2 ⟨rfl, hdead⟩] at this
            rw [bne_iff_ne]
            rintro rfl
            exact this hr
          · exact declared_of_definition hg hd hdef (Eeyore.Activation.assign_eq_some.1 hasg).1
        exact hrdy.receive hp hg hrst hasg hres hfet
  obtain ⟨t4, hexec4, hmat4⟩ := hreceived
  obtain ⟨t5, hexec5, hmat5⟩ := hmat4.restored hrst
  refine ⟨t5, ?_, hmat5⟩
  rw [List.append_assoc, Machine.exec_append, Machine.exec_append_of_exec hexec1, hexec2]
  simp only [Option.bind_some, List.cons_append, Machine.exec_cons, Setting.pass_call]
  rw [Machine.exec_append_of_exec hexec4, hexec5]

end SysY.Tigger

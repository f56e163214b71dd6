import SysY.Proofs.Tigger.Body

/-!
# The entry of a function

In front of its first instruction a function saves the registers that it has to preserve for its
caller, writes the parameters that live in the frame to their words, and then moves the others to
their registers, all at once. After that the states match.
-/

namespace SysY.Tigger

open Eeyore (Activation Decl)
open SysY.Flow Allocation Context Option

variable {n k : Nat} {globals : List Decl} {ctx : Context n k}
  {regs : Vector (Option Register) k} {place : Object k → Option UInt32} {act : Activation}
  {setting : Setting} {s : Eeyore.State} {t : State} {arrival : UInt32 × Register × Home}
  {code : List Instruction} {e : Register × UInt32}

namespace Context

/-! ## Parameters that arrive -/

theorem mem_arrivals :
    arrival ∈ ctx.arrivals ↔ ∃ (i : Fin 8) (slot : Fin k) (home : Home),
      arrival = (UInt32.ofNat i, .argument i, home) ∧ i.val < ctx.parameters.toNat ∧
        ctx.slots.find? (.param (UInt32.ofNat i)) = some slot ∧
        ctx.frame.homes.get slot = some home ∧ ctx.Live 0 slot := by
  have hsrc : ∀ (i : Nat) (r : Register),
      (r, i) ∈ (Register.arguments.take ctx.parameters.toNat).zipIdx ↔
        i < ctx.parameters.toNat ∧ ∃ h : i < 8, r = .argument ⟨i, h⟩ := by
    intro i r
    rw [List.mk_mem_zipIdx_iff_getElem?, List.getElem?_take]
    split
    · rename_i hlt
      simp only [hlt, true_and, Register.arguments, List.getElem?_map, map_eq_some_iff,
        List.getElem?_eq_some_iff, List.length_finRange, List.getElem_finRange]
      constructor
      · rintro ⟨j, ⟨hi, rfl⟩, rfl⟩
        exact ⟨hi, rfl⟩
      · rintro ⟨hi, rfl⟩
        exact ⟨⟨i, hi⟩, ⟨hi, rfl⟩, rfl⟩
    · rename_i hlt
      simp [hlt]
  have hlive : ∀ slot : Fin k,
      (∃ first, Graph.firstPosition? (n := n) = some first ∧
        ctx.liveness.isLiveIn first slot = true) ↔ ctx.Live 0 slot := by
    intro slot
    unfold Graph.firstPosition? Live
    by_cases hn : 0 < n
    · simp [hn, Liveness.isLiveIn_iff]
    · simp [hn]
  rw [arrivals, List.mem_filterMap]
  constructor
  · rintro ⟨⟨r, i⟩, hmem, h⟩
    obtain ⟨hi, h8, rfl⟩ := (hsrc i r).1 hmem
    simp only [bind_eq_bind, bind_eq_some_iff] at h
    obtain ⟨slot, hslot, first, hfst, home, hhome, h⟩ := h
    split at h
    · rename_i hin
      cases h
      exact ⟨⟨i, h8⟩, slot, home, rfl, hi, hslot, hhome, (hlive slot).1 ⟨first, hfst, hin⟩⟩
    · cases h
  · rintro ⟨i, slot, home, rfl, hi, hslot, hhome, h⟩
    obtain ⟨first, hfst, hin⟩ := (hlive slot).2 h
    refine ⟨(.argument i, i), (hsrc i _).2 ⟨hi, i.isLt, rfl⟩, ?_⟩
    simp only [hslot, hfst, hhome, bind_eq_bind, bind_some, hin, if_true]

theorem plain_entry (h : ctx.entry = .ok code) :
    ∀ i ∈ code, ctx.Plain none i := by
  obtain ⟨spilled, hspi, hrest⟩ := bind_eq_ok.1 h
  obtain ⟨moved, hmvd, hres⟩ := bind_eq_ok.1 hrest
  cases hres
  refine List.forall_mem_append.2 ⟨List.forall_mem_append.2
    ⟨List.forall_mem_map.2 fun _ hr => ⟨rfl, fun _ _ => ⟨_, .save hr⟩⟩, fun i hi => ?_⟩,
    plain_parallelMove hmvd⟩
  obtain ⟨code, hcode, hi⟩ := List.mem_flatten.1 hi
  obtain ⟨arrival, hava, hspill⟩ := exists_of_forall₂ (mapM_eq_ok.1 hspi) hcode
  obtain ⟨j, slot, home, rfl, -, hslot, hhome, -⟩ := mem_arrivals.1 hava
  cases home with
  | register r =>
    cases hspill
    cases hi
  | stack a =>
    cases hspill
    rw [List.mem_singleton.1 hi]
    exact ⟨rfl, fun _ _ => ⟨_, .arrive hslot hhome⟩⟩
  | array a => cases hspill

theorem pairwise_arrivals (ctx : Context n k) :
    ctx.arrivals.Pairwise fun a b => a.2.1 ≠ b.2.1 := by
  have hnd : ((Register.arguments.take ctx.parameters.toNat).zipIdx.map Prod.fst).Nodup := by
    rw [List.zipIdx_map_fst]
    exact (List.take_sublist _ _).nodup (by decide)
  rw [arrivals, List.pairwise_filterMap]
  refine (List.pairwise_map.1 hnd).imp fun {a b} hne x hx y hy => ?_
  obtain ⟨r, i⟩ := a
  obtain ⟨r', j⟩ := b
  simp only [bind_eq_bind, bind_eq_some_iff] at hx hy
  obtain ⟨_, _, _, _, _, _, hx⟩ := hx
  obtain ⟨_, _, _, _, _, _, hy⟩ := hy
  split at hx
  · split at hy
    · cases hx
      cases hy
      exact hne
    · cases hy
  · cases hx

/-- The write of a parameter to the frame if it lives there. -/
def arrivalStore? : UInt32 × Register × Home → Option (Register × UInt32)
  | (_, source, .stack offset) => some (source, offset)
  | _ => none

theorem spillArrival_eq (h : ∀ a, arrival.2.2 ≠ .array a) :
    spillArrival arrival = .ok (preserving (arrivalStore? arrival).toList) := by
  obtain ⟨param, source, home⟩ := arrival
  cases home with
  | register r => rfl
  | stack a => rfl
  | array a => exact absurd rfl (h a)

theorem mapM_spillArrival {arrivals : List (UInt32 × Register × Home)}
    (h : ∀ arrival ∈ arrivals, ∀ a, arrival.2.2 ≠ .array a) :
    ∃ spilled, arrivals.mapM spillArrival = .ok spilled ∧
      spilled.flatten = preserving (arrivals.filterMap arrivalStore?) := by
  induction arrivals with
  | nil => exact ⟨[], rfl, rfl⟩
  | cons arrival arrivals ih =>
    obtain ⟨hava, harrivals⟩ := List.forall_mem_cons.1 h
    obtain ⟨spilled, hspi, hflatten⟩ := ih harrivals
    refine ⟨preserving (arrivalStore? arrival).toList :: spilled, ?_, ?_⟩
    · rw [List.mapM_cons, spillArrival_eq hava, hspi]
      rfl
    · rw [List.flatten_cons, hflatten, List.filterMap_cons]
      cases arrivalStore? arrival <;> rfl

end Context

/-! ## Its code -/

/-- What a write in front of the first instruction is for: a parameter that arrives, or a register
that is saved. -/
def Context.entryObject (ctx : Context n k) : Register × UInt32 → Object k
  | (.argument i, _) =>
    ((ctx.slots.find? (.param (UInt32.ofNat i))).map .slot).getD (.register (.argument i))
  | (r, _) => .register r

theorem Context.entryObject_of_saved {r : Register} (h : r.isSaved = true) (a : UInt32) :
    ctx.entryObject (r, a) = .register r := by
  cases r <;> first | rfl | cases h

theorem Context.mem_arrivalMoves {move : Move}
    (h : move ∈ ctx.arrivals.filterMap Context.arrivalMove?) :
    ∃ (i : Fin 8) (slot : Fin k), move.source = .argument i ∧
      ctx.frame.homes.get slot = some (.register move.dest) := by
  obtain ⟨arrival, hava, h⟩ := List.mem_filterMap.1 h
  obtain ⟨i, slot, home, rfl, -, -, hhome, -⟩ := mem_arrivals.1 hava
  cases home with
  | register r =>
    cases h
    exact ⟨i, slot, rfl, hhome⟩
  | array a => cases h
  | stack a => cases h

section

variable (hp : Prepared ctx regs place)

include hp

theorem Prepared.not_array_of_arrival
    (h : arrival ∈ ctx.arrivals) (a : UInt32) : arrival.2.2 ≠ .array a := by
  obtain ⟨i, slot, home, rfl, -, -, hhome, hlive⟩ := mem_arrivals.1 h
  rintro rfl
  have := (hp.layout.place_of_array hhome).2
  rw [hp.isArray_of_live hlive] at this
  cases this

theorem Prepared.mem_arrivalStores (h : e ∈ ctx.arrivals.filterMap Context.arrivalStore?) :
    ∃ (i : Fin 8) (slot : Fin k), e.1 = .argument i ∧ ctx.symbol slot = .param (UInt32.ofNat i) ∧
      ctx.frame.homes.get slot = some (.stack e.2) ∧ ctx.entryObject e = .slot slot := by
  obtain ⟨arrival, hava, h⟩ := List.mem_filterMap.1 h
  obtain ⟨i, slot, home, rfl, -, hslot, hhome, -⟩ := mem_arrivals.1 hava
  cases home with
  | register r => cases h
  | array a => cases h
  | stack a =>
    cases h
    exact ⟨i, slot, rfl, hp.find?_iff.1 hslot, hhome, by simp [entryObject, hslot]⟩

theorem Prepared.nodup_arrivalMoves :
    (Move.dests (ctx.arrivals.filterMap Context.arrivalMove?)).Nodup := by
  rw [Move.dests, List.Nodup, List.pairwise_map, List.pairwise_filterMap]
  refine ctx.pairwise_arrivals.imp_of_mem fun {a b} ha hb hne move hmove other hoth hsame => ?_
  obtain ⟨i, slot, home, rfl, -, hslot, hhome, hlive⟩ := mem_arrivals.1 ha
  obtain ⟨j, slot', home', rfl, -, hslot', hhome', hlive'⟩ := mem_arrivals.1 hb
  cases home <;> cases hmove
  cases home' <;> cases hoth
  dsimp only at hsame
  subst hsame
  refine hp.register_ne hlive hlive' ?_ hhome hhome'
  rintro rfl
  have hsym : Symbol.param (UInt32.ofNat i) = .param (UInt32.ofNat j) :=
    (hp.find?_iff.1 hslot).symm.trans (hp.find?_iff.1 hslot')
  have hij : i.val = j.val := by
    have := congrArg (fun x : Symbol => x.id.toNat) hsym
    simp only [Symbol.param, UInt32.toNat_ofNat'] at this
    omega
  exact hne (congrArg Register.argument (Fin.ext hij))

theorem Prepared.parallelMove_arrivals :
    ∃ code, parallelMove .t0 (ctx.arrivals.filterMap Context.arrivalMove?) = .ok code ∧
      ∀ (setting : Setting) t, ∃ t', setting.machine.exec code t = some t' ∧
        (∀ move ∈ ctx.arrivals.filterMap Context.arrivalMove?,
          t'.value move.dest = t.value move.source) ∧
        Only (.t0 :: Move.dests (ctx.arrivals.filterMap Context.arrivalMove?)) t t' := by
  refine parallelMove_spec (by decide) hp.nodup_arrivalMoves (fun move hmove => ?_)
    fun move hmove => ?_
  · obtain ⟨i, slot, -, hhome⟩ := mem_arrivalMoves hmove
    exact (hp.allocatable_of_home hhome).1
  · obtain ⟨i, slot, hsrc, hhome⟩ := mem_arrivalMoves hmove
    refine ⟨(hp.allocatable_of_home hhome).2.1, ?_⟩
    rw [hsrc]
    exact fun h => by cases h

theorem Prepared.entryObject_inj {f : Register × UInt32}
    (he : e ∈ ctx.frame.saved ++ ctx.arrivals.filterMap Context.arrivalStore?)
    (hf : f ∈ ctx.frame.saved ++ ctx.arrivals.filterMap Context.arrivalStore?)
    (heq : ctx.entryObject e = ctx.entryObject f) : e = f := by
  obtain ⟨r, a⟩ := e
  obtain ⟨r', b⟩ := f
  rcases List.mem_append.1 he with he | he <;> rcases List.mem_append.1 hf with hf | hf
  · obtain ⟨hsav, hpl⟩ := hp.layout.saved r a he
    obtain ⟨hsav', hpl'⟩ := hp.layout.saved r' b hf
    rw [entryObject_of_saved hsav, entryObject_of_saved hsav'] at heq
    cases heq
    rw [Option.some.inj (hpl.symm.trans hpl')]
  · obtain ⟨_, _, -, -, -, hobj⟩ := hp.mem_arrivalStores hf
    rw [entryObject_of_saved (hp.layout.saved r a he).1, hobj] at heq
    cases heq
  · obtain ⟨_, _, -, -, -, hobj⟩ := hp.mem_arrivalStores he
    rw [entryObject_of_saved (hp.layout.saved r' b hf).1, hobj] at heq
    cases heq
  · obtain ⟨i, slot, hi, hsym, hhome, hobj⟩ := hp.mem_arrivalStores he
    obtain ⟨j, slot', hj, hsym', hhome', hobj'⟩ := hp.mem_arrivalStores hf
    rw [hobj, hobj'] at heq
    cases heq
    cases hhome.symm.trans hhome'
    have hij : i.val = j.val := by
      have := congrArg (fun x : Symbol => x.id.toNat) (hsym.symm.trans hsym')
      simp only [Symbol.param, UInt32.toNat_ofNat'] at this
      omega
    dsimp only at hi hj
    rw [hi, hj, Fin.ext hij]

theorem Prepared.entry_eq : ∃ moved,
    parallelMove .t0 (ctx.arrivals.filterMap Context.arrivalMove?) = .ok moved ∧
      ctx.entry = .ok (Context.preserving
        (ctx.frame.saved ++ ctx.arrivals.filterMap Context.arrivalStore?) ++ moved) := by
  obtain ⟨spilled, hspi, hflatten⟩ :=
    mapM_spillArrival fun arrival h => hp.not_array_of_arrival h
  obtain ⟨moved, hmvd, -⟩ := hp.parallelMove_arrivals
  refine ⟨moved, hmvd, ?_⟩
  simp only [entry, hspi, hmvd, ok_bind, hflatten]
  simp [preserving]
  rfl

end

theorem exec_entry (hp : Prepared ctx regs place) (hg : Grounds globals ctx place act setting)
    (hmemo : ∀ region ∈ act.objects, ∀ b, region.contains b = true → t.memory b = s.memory b)
    (hglobs : ∀ x a, Spot.At globals ctx place setting (.global x) a →
      s.scalars x = some (t.memory.word a))
    (hlocals : ∀ slot v, s.scalars (ctx.symbol slot) = some v → ∃ i : Fin 8,
      i.val < ctx.parameters.toNat ∧ ctx.symbol slot = .param (UInt32.ofNat i) ∧
        t.value (.argument i) = v)
    (hcalls : t.calls = s.calls) (hevents : List.Forall₂ (Event.Matches setting.place) s.events t.events) (hcode : ctx.entry = .ok code) :
    ∃ t', setting.machine.exec code t = some t' ∧
      Matches globals ctx place act setting [] 0 t.value s t' := by
  obtain ⟨moved, hmvd, heq⟩ := hp.entry_eq
  obtain rfl := Except.ok.inj (hcode.symm.trans heq)
  obtain ⟨moved', hmvd', hmoves⟩ := hp.parallelMove_arrivals
  obtain rfl := Except.ok.inj (hmvd.symm.trans hmvd')
  have hspot : ∀ e ∈ ctx.frame.saved ++ ctx.arrivals.filterMap arrivalStore?,
      Spot.At globals ctx place setting (.object (ctx.entryObject e)) (setting.slot e.2) := by
    rintro ⟨r, a⟩ he
    rcases List.mem_append.1 he with he | he
    · obtain ⟨hsav, hpl⟩ := hp.layout.saved r a he
      rw [entryObject_of_saved hsav]
      exact .register hpl
    · obtain ⟨i, slot, -, -, hhome, hobj⟩ := hp.mem_arrivalStores he
      obtain ⟨hpl, harr⟩ := hp.layout.place_of_stack hhome
      rw [hobj]
      exact .slot hpl harr
  obtain ⟨t1, hexec1, hwords, hunt⟩ := exec_stores hg ctx.entryObject hspot
    (fun e he f hf => hp.entryObject_inj he hf) t
  obtain ⟨t2, hexec2, hvals, honly⟩ := hmoves setting t1
  refine ⟨t2, by rw [Machine.exec_append_of_exec hexec1, hexec2], fun slot home v hlive _ hhome hv => ?_, ?_⟩
  · obtain ⟨i, hi, hsym, rfl⟩ := hlocals slot v hv
    have hava : (UInt32.ofNat i, .argument i, home) ∈ ctx.arrivals :=
      mem_arrivals.2 ⟨i, slot, home, rfl, hi, hp.find?_iff.2 hsym, hhome, hlive⟩
    cases home with
    | register r =>
      refine (hvals ⟨r, .argument i⟩ (List.mem_filterMap.2 ⟨_, hava, rfl⟩)).trans ?_
      rw [hunt.value]
    | stack a =>
      show t2.memory.word _ = _
      rw [honly.memory]
      exact hwords (.argument i, a) (List.mem_append_right _ (List.mem_filterMap.2 ⟨_, hava, rfl⟩))
    | array a => exact absurd rfl (hp.not_array_of_arrival hava a)
  · refine ⟨fun region hrgn b hb => ?_, fun x b hx => ?_, fun r b hr => ?_, fun r hr hnot => ?_,
      ?_, ?_⟩
    · rw [honly.memory, hunt.objects region hrgn b hb, hmemo region hrgn b hb]
    · rw [honly.memory, hunt.spots _ b hx (by simp), hglobs x b hx]
    · rw [honly.memory]
      exact hwords (r, b) (List.mem_append_left _ hr)
    · rw [honly.value r, hunt.value]
      intro hmem
      rcases List.mem_cons.1 hmem with rfl | hmem
      · cases hr
      · obtain ⟨move, hmove, rfl⟩ := List.mem_map.1 hmem
        obtain ⟨-, slot, -, hhome⟩ := mem_arrivalMoves hmove
        obtain ⟨a, ha⟩ := hp.layout.saves slot _ (hp.register_of_home hhome) hr
        exact hnot a ha
    · rw [honly.calls, hunt.calls, hcalls]
    · rw [honly.events, hunt.events]
      exact hevents

end SysY.Tigger

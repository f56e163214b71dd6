import SysY.Proofs.Tigger.Extent
import SysY.Proofs.Tigger.Scratch

/-!
# Disciplined register code

No symbol lives in a scratch register: the code of an instruction brings values there and uses them
up. So the code of every function is orderly: it awaits no scratch register at its beginning and is
tidy, and it never leaves its frame.
-/

namespace SysY.Tigger

open Instruction Register

open Eeyore (Value)
open Allocation (Home)

variable {n k : Nat} {ctx : Context n k} {read : List Instruction × Register} {scratch : Register}
  {args : List Value}

/-! ## Reading and writing symbols -/

/-- Code that brings a value to a given register, unless it is in a register already. -/
inductive Fetches (dest : Register) : List Instruction × Register → Prop
  | stays {r : Register} (h : r ∉ Register.scratchOnes) : Fetches dest ([], r)
  | fetched {i : Instruction} (hdest : i.dest? = some dest) (hreads : i.reads = [])
    (hdisturbs : i.disturbs = []) : Fetches dest ([i], dest)

namespace Context

variable {x : Symbol} {r : Register}

theorem Housed.home (h : ctx.Housed) (hx : ctx.home? x = some (.register r)) :
    r ≠ .zero ∧ r ∉ Register.scratchOnes := by
  obtain ⟨slot, -, hhome⟩ := Option.bind_eq_some_iff.1 hx
  have := h.homes slot r hhome
  simpa [isAllocatable, scratchOnes, and_assoc] using this

variable (h : ctx.Housed)
include h

theorem fetches_readSymbol (x : Symbol) (dest : Register) :
    Fetches dest (ctx.readSymbol x dest) := by
  unfold readSymbol
  split
  · rename_i r hhome
    exact .stays (h.home hhome).2
  · exact .fetched rfl rfl rfl
  · exact .fetched rfl rfl rfl
  · dsimp only
    split <;> exact .fetched rfl rfl rfl

theorem fetches_read (value : Value) (dest : Register) : Fetches dest (ctx.read value dest) := by
  cases value with
  | const c =>
    unfold read
    dsimp only
    split
    · exact .stays (by decide)
    · exact .fetched rfl rfl rfl
  | symbol x => exact fetches_readSymbol h x dest

end Context

section
variable {awaited awaited' : List Register} {code : List Instruction} {dest : Register}

theorem Orderly.bring (h : Orderly awaited code) (hread : Fetches dest read) (hz : dest ≠ .zero)
    (hawaited : ∀ r ∈ awaited, r ∈ Register.scratchOnes → r = read.2 ∨ r ∈ awaited') :
    Orderly awaited' (read.1 ++ code) := by
  cases hread with
  | stays hr =>
    refine h.drop fun x hx hscr => (hawaited x hx hscr).resolve_left ?_
    rintro rfl
    exact hr hscr
  | @fetched i hdest hreads hdis =>
    have hrest : Orderly (dest :: awaited') code := h.drop fun x hx hscr =>
      List.mem_cons.2 (hawaited x hx hscr)
    refine hrest.cons (by simp [hdis]) (by simp [hreads]) (fun x hx hkept => ?_) ?_
    · rcases List.mem_cons.1 hx with rfl | hx
      · rw [(overwrites_of_dest hdest x).2 rfl] at hkept
        cases hkept
      · exact hx
    · rw [hdest]
      simpa using hz

theorem Orderly.bring_only (h : Orderly [read.2] code)
    (hread : Fetches dest read) (hz : dest ≠ .zero) : Orderly [] (read.1 ++ code) :=
  h.bring hread hz fun _ hr _ => .inl (List.mem_singleton.1 hr)

end

namespace Context

variable (h : ctx.Housed)
include h

theorem orderly_readInto (value : Value) {dest : Register} (hz : dest ≠ .zero) :
    Orderly [] (ctx.readInto value dest) := by
  cases value with
  | const c =>
    exact .single rfl (by simpa [dest?] using hz)
  | symbol x =>
    have hfetches := fetches_readSymbol h x dest
    simp only [readInto]
    split
    · rw [← List.append_nil (ctx.readSymbol x dest).1]
      exact (Orderly.nil : Orderly [] []).bring hfetches hz (List.forall_mem_nil _)
    · have hmove : Orderly [(ctx.readSymbol x dest).2]
          [.move dest (ctx.readSymbol x dest).2] :=
        .single rfl (by simpa [dest?] using hz)
      exact hmove.bring_only hfetches hz

variable {x : Symbol}

theorem target_ne_zero (hscr : scratch ≠ .zero) :
    ctx.target x scratch ≠ .zero := by
  unfold target
  split
  · rename_i r hhome
    exact (h.home hhome).1
  · exact hscr

omit h in
theorem orderly_commit {source : Register} {code : List Instruction}
    (hcmt : ctx.commit x source = .ok code) : Orderly [source] code := by
  unfold commit at hcmt
  split at hcmt
  · cases hcmt
    exact .nil
  · cases hcmt
    exact .single rfl nofun
  · cases hcmt
  · cases hcmt
    have hsto : Orderly [source.otherScratch, source] [.store source.otherScratch 0 source] :=
      .single rfl nofun
    refine hsto.cons (by simp [disturbs]) (by simp [reads]) ?_ ?_
    · intro r hr hkept
      rcases List.mem_cons.1 hr with rfl | hr
      · simp [overwrites, dest?] at hkept
      · exact hr
    · simpa [dest?] using source.otherScratch_ne_zero

theorem orderly_computing (hscr : scratch ≠ .zero) {front code : List Instruction}
    {i : Register → Instruction} {awaited : List Register}
    (hcode : ctx.computing x scratch front i = .ok code) (hreads : ∀ r, (i r).reads = awaited)
    (hdest : ∀ r, (i r).dest? = some r)
    (hfront : ∀ rest, Orderly awaited rest → Orderly [] (front ++ rest)) : Orderly [] code := by
  obtain ⟨written, hcmt, rfl⟩ := map_eq_ok.1 hcode
  refine hfront _ ((orderly_commit hcmt).cons (fun r _ hne => ?_) (fun r hr _ => hreads _ ▸ hr)
    (fun r hr hkept => ?_) ?_)
  · rintro hr
    rw [List.mem_singleton.1 hr] at hne
    exact hne (hdest _)
  · rw [(overwrites_of_dest (hdest _) r).2 (List.mem_singleton.1 hr)] at hkept
    cases hkept
  · rw [hdest]
    simpa using target_ne_zero h hscr

theorem orderly_address (array : Symbol) (index : Value) {code : List Instruction}
    (hcode : Orderly [(ctx.address array index).2.1] code) :
    Orderly [] ((ctx.address array index).1 ++ code) := by
  have harr := fetches_readSymbol h array .t0
  cases index with
  | const c => exact hcode.bring_only harr (by decide)
  | symbol x =>
    rw [address_symbol] at hcode ⊢
    have hsum : Orderly [(ctx.readSymbol array .t0).2, (ctx.readSymbol x .t1).2]
        (.binary .t0 .add (ctx.readSymbol array .t0).2 (.register (ctx.readSymbol x .t1).2) :: code) := by
      refine hcode.cons (fun r _ hne hr => ?_) (by simp [reads]) (fun r hr hkept => ?_)
        (by simp [dest?, t0])
      · rw [List.mem_singleton.1 hr] at hne
        exact hne rfl
      · rw [List.mem_singleton.1 hr] at hkept
        simp [overwrites, dest?] at hkept
    have hidx : Orderly [(ctx.readSymbol array .t0).2] _ :=
      hsum.bring (fetches_readSymbol h x .t1) (by decide) (by simp)
    have hall : Orderly [] _ := hidx.bring harr (by decide) (by simp)
    simpa using hall

/-! ## Instructions -/

variable {code : List Instruction} {dest : Symbol} {regs : List (Register × UInt32)}
  {r : Register} {output : Option Symbol} {p : Fin n}

theorem orderly_lowerUnary {op : UnaryOp} {operand : Value}
    (hcode : ctx.lowerUnary dest op operand = .ok code) : Orderly [] code := by
  cases operand with
  | const c =>
    rw [lowerUnary_const] at hcode
    exact orderly_computing h (by decide) hcode (fun _ => rfl) (fun _ => rfl) fun _ => id
  | symbol x =>
    rw [lowerUnary_symbol] at hcode
    exact orderly_computing h (by decide) hcode (fun _ => rfl) (fun _ => rfl) fun _ hrest =>
      hrest.bring_only (fetches_readSymbol h x .t0) (by decide)

theorem orderly_lowerBinary {op : BinaryOp} {left right : Value}
    (hcode : ctx.lowerBinary dest op left right = .ok code) : Orderly [] code := by
  obtain ⟨op', left', right', -, hcode⟩ := ctx.exists_of_lowerBinary hcode
  have hl := fetches_read h left' .t0
  cases right' with
  | const c =>
    refine orderly_computing h (by decide) hcode (fun _ => rfl) (fun _ => rfl) fun rest hrest => ?_
    rw [List.append_assoc]
    exact Orderly.bring_only hrest hl (by decide)
  | symbol x =>
    refine orderly_computing h (by decide) hcode (fun _ => rfl) (fun _ => rfl) fun rest hrest => ?_
    have hr : Orderly [(ctx.read left' .t0).2] _ :=
      Orderly.bring hrest (fetches_readSymbol h x .t1) (by decide) (by simp)
    rw [List.append_assoc]
    exact hr.bring_only hl (by decide)

theorem orderly_lowerCopy {value : Value}
    (hcode : ctx.lowerCopy dest value = .ok code) : Orderly [] code := by
  cases value with
  | const c =>
    rw [lowerCopy_const] at hcode
    exact orderly_computing h (by decide) hcode (fun _ => rfl) (fun _ => rfl) fun _ => id
  | symbol x =>
    rcases ctx.lowerCopy_cases hcode with ⟨r, hhome, rfl⟩ | ⟨-, written, hcmt, rfl⟩
    · exact orderly_readInto h (.symbol x) (h.home hhome).1
    · exact (orderly_commit hcmt).bring_only (fetches_readSymbol h x .t0) (by decide)

theorem orderly_lowerStore (array : Symbol) (index value : Value) :
    Orderly [] (ctx.lowerStore array index value) := by
  rw [lowerStore_eq, List.append_assoc]
  have hsto : Orderly [(ctx.address array index).2.1, (ctx.read value .t1).2]
      [.store (ctx.address array index).2.1 (ctx.address array index).2.2 (ctx.read value .t1).2] :=
    .single rfl nofun
  exact orderly_address h array index (hsto.bring (fetches_read h value .t1) (by decide) (by simp))

theorem orderly_lowerLoad {array : Symbol} {index : Value}
    (hcode : ctx.lowerLoad dest array index = .ok code) : Orderly [] code := by
  rw [lowerLoad_eq] at hcode
  exact orderly_computing h (by decide) hcode (fun _ => rfl) (fun _ => rfl) fun _ =>
    orderly_address h array index

theorem orderly_lowerBranch (left : Value) (relation : Relation) (right : Value) (target : Label) :
    Orderly [] (ctx.lowerBranch left relation right target) := by
  rw [lowerBranch_eq, List.append_assoc]
  have hbr : Orderly [(ctx.read left .t0).2, (ctx.read right .t1).2]
      [.branch (ctx.read left .t0).2 relation (ctx.read right .t1).2 target] :=
    .single rfl nofun
  have hr : Orderly [(ctx.read left .t0).2] _ :=
    hbr.bring (fetches_read h right .t1) (by decide) (by simp)
  exact hr.bring_only (fetches_read h left .t0) (by decide)

omit h in
theorem orderly_restoring (hregs : ∀ entry ∈ regs, entry.1 ≠ .zero) :
    Orderly [] (restoring regs) := by
  induction regs with
  | nil => exact .nil
  | cons entry regs ih =>
    obtain ⟨hent, hrest⟩ := List.forall_mem_cons.1 hregs
    have hload : Orderly [] [.stackLoad entry.2 entry.1] :=
      .single rfl (by simpa [dest?] using hent)
    exact hload.append (ih hrest)

omit h in
theorem orderly_preserving (hregs : ∀ entry ∈ regs, entry.1 ∉ Register.scratchOnes) :
    Orderly [] (preserving regs) := by
  induction regs with
  | nil => exact .nil
  | cons entry regs ih =>
    obtain ⟨hent, hrest⟩ := List.forall_mem_cons.1 hregs
    have hsto : Orderly [entry.1] [.stackStore entry.1 entry.2] := .single rfl nofun
    refine (hsto.drop fun r hr hscr => ?_).append (ih hrest)
    rw [List.mem_singleton.1 hr] at hscr
    exact absurd hscr hent

theorem orderly_lowerReturn (value : Option Value) : Orderly [] (ctx.lowerReturn value) := by
  have hres : Orderly [] (ctx.readResult value) := by
    cases value with
    | none => exact .nil
    | some value => exact orderly_readInto h value (by decide)
  have hrestored : Orderly [] (restoring ctx.frame.saved) :=
    orderly_restoring fun entry hent hz => by
      have := h.saved entry hent
      rw [hz] at this
      cases this
  rw [lowerReturn_eq]
  exact (hres.append hrestored).append (.single rfl nofun)

/-! ## Moves -/

omit h in
theorem not_awaits_sequence (moves : List Move)
    (hmoves : ∀ move ∈ moves, move.source ≠ r ∧ move.dest ≠ r) :
    ¬ Awaits r ((Move.sequence scratch moves).map Move.instruction) := by
  fun_induction Move.sequence scratch moves with
  | case1 => exact id
  | case2 first rest move hfind ih =>
    rintro (hread | ⟨-, haw⟩)
    · exact (hmoves move (List.mem_of_find?_eq_some hfind)).1 (List.mem_singleton.1 hread).symm
    · exact ih (fun other hoth => hmoves other (List.mem_of_mem_erase hoth)) haw
  | case3 first rest hfind ih =>
    simp only [List.map_subtype, List.unattach_attach] at ih ⊢
    obtain ⟨hfst, hrest⟩ := List.forall_mem_cons.1 hmoves
    rintro (hread | ⟨hkept, hread | ⟨-, haw⟩⟩)
    · exact hfst.2 (List.mem_singleton.1 hread).symm
    · exact hfst.1 (List.mem_singleton.1 hread).symm
    · have hne : scratch ≠ r := by
        rintro rfl
        simp [Move.instruction, overwrites, dest?] at hkept
      refine ih (List.forall_mem_map.2 fun move hmove => ?_) haw
      unfold Move.redirect
      split
      · exact ⟨hne, (hrest move hmove).2⟩
      · exact hrest move hmove

omit h in
theorem orderly_parallelMove {moves : List Move}
    (hmoves : ∀ move ∈ moves, move.source ∉ Register.scratchOnes ∧
      move.dest ∉ Register.scratchOnes ∧ move.dest ≠ .zero)
    (hcode : parallelMove .t0 moves = .ok code) : Orderly [] code := by
  simp only [parallelMove] at hcode
  split at hcode
  · cases hcode
  cases hcode
  generalize hpend : moves.filter (fun move => move.dest ≠ move.source) = pending
  have hsub : ∀ move ∈ pending, move ∈ moves := fun move hmove =>
    List.mem_of_mem_filter (hpend ▸ hmove)
  refine ⟨fun r hr haw => ?_, ?_, List.forall_mem_map.2 fun move hmove => ?_⟩
  · refine absurd haw (not_awaits_sequence pending fun move hmove => ?_)
    obtain ⟨hsrc, hdest, -⟩ := hmoves move (hsub move hmove)
    exact ⟨fun heq => hsrc (heq ▸ hr), fun heq => hdest (heq ▸ hr)⟩
  · generalize Move.sequence .t0 pending = sequence
    induction sequence with
    | nil => trivial
    | cons move sequence ih => exact ⟨by simp [Move.instruction, disturbs], ih⟩
  · have hdest := Move.dests_sequence_subset .t0 pending (List.mem_map.2 ⟨move, hmove, rfl⟩)
    simp only [Move.instruction, dest?, ne_eq, Option.some.injEq]
    rcases List.mem_cons.1 hdest with hdest | hdest
    · rw [hdest]
      decide
    · obtain ⟨other, hoth, heq⟩ := List.mem_map.1 hdest
      rw [← heq]
      exact (hmoves other (hsub other hoth)).2.2

omit h in
theorem argument_facts (hr : r ∈ Register.arguments) :
    r ≠ .zero ∧ r ∉ Register.scratchOnes := by
  revert r
  decide

/-! ## Calls -/

theorem orderly_passArguments
    (hcode : ctx.passArguments args = .ok code) : Orderly [] code := by
  obtain ⟨moved, hmvd, hcode⟩ := bind_eq_ok.1 hcode
  cases hcode
  have hmoves : Orderly [] moved := by
    refine orderly_parallelMove (fun move hmove => ?_) hmvd
    obtain ⟨⟨dest, argument⟩, htgt, hmove⟩ := List.mem_filterMap.1 hmove
    obtain ⟨source, hsrc, rfl⟩ := Option.map_eq_some_iff.1 hmove
    have hdest := argument_facts (List.of_mem_zip htgt).1
    refine ⟨?_, hdest.2, hdest.1⟩
    unfold argumentSource? at hsrc
    split at hsrc
    · rename_i r hhome
      cases hsrc
      obtain ⟨x, -, hhome⟩ := Option.bind_eq_some_iff.1 hhome
      exact (h.home hhome).2
    · cases hsrc
  refine hmoves.append ?_
  rw [List.flatMap_def]
  refine .flatten (List.forall_mem_map.2 fun entry hent => ?_)
  have hdest := argument_facts (List.of_mem_zip (List.mem_of_mem_filter hent)).1
  exact orderly_readInto h entry.2 hdest.1

theorem orderly_receive (hcode : ctx.receive output = .ok code) :
    Orderly [] code := by
  cases output with
  | none =>
    cases hcode
    exact .nil
  | some x =>
    simp only [receive] at hcode
    split at hcode
    · rename_i r hhome
      cases hcode
      split
      · exact .nil
      · have hmove : Orderly [.a0] [.move r .a0] :=
          .single rfl (by simpa [dest?] using (h.home hhome).1)
        exact hmove.drop (by decide)
    · exact (orderly_commit hcode).drop (by decide)

theorem orderly_lowerCall {fn : String}
    (hcode : ctx.lowerCall p fn args output = .ok code) :
    Orderly [] code := by
  obtain ⟨-, passed, fetched, hpsd, hfet, rfl⟩ := ctx.lowerCall_eq_ok.1 hcode
  have hspd : ∀ entry ∈ ctx.spared p output,
      entry.1 ≠ .zero ∧ entry.1 ∉ scratchOnes := by
    intro entry hent
    obtain ⟨slot, -, hslot⟩ := List.mem_filterMap.1 hent
    split at hslot
    · rename_i r hhome
      split at hslot
      · cases hslot
      · obtain ⟨offset, -, rfl⟩ := Option.map_eq_some_iff.1 hslot
        simpa [isAllocatable, scratchOnes, and_assoc] using h.homes slot r hhome
    · cases hslot
  have hcall : Orderly [] (.call fn :: fetched) :=
    (orderly_receive h hfet).cons (List.forall_mem_nil _)
      (fun r hr hscr => absurd hscr (argument_facts hr).2) (List.forall_mem_nil _)
      (fun hdest => by cases hdest)
  have hfro : Orderly [] (preserving (ctx.spared p output) ++ passed) :=
    (orderly_preserving fun entry hent => (hspd entry hent).2).append (orderly_passArguments h hpsd)
  exact (hfro.append hcall).append (orderly_restoring fun entry hent => (hspd entry hent).1)

/-! ## Functions -/

theorem orderly_lowerInstruction (hcode : ctx.lowerInstruction p = .ok code) :
    Orderly [] code := by
  unfold lowerInstruction at hcode
  split at hcode
  · cases hcode
    exact .nil
  unfold lowerLive at hcode
  split at hcode
  · exact orderly_lowerUnary h hcode
  · exact orderly_lowerBinary h hcode
  · exact orderly_lowerCopy h hcode
  · cases hcode
    exact orderly_lowerStore h ..
  · exact orderly_lowerLoad h hcode
  · cases hcode
    exact orderly_lowerBranch h ..
  · cases hcode
    exact .single rfl nofun
  · cases hcode
    exact .single rfl nofun
  · exact orderly_lowerCall h hcode
  · cases hcode
    exact orderly_lowerReturn h _

theorem orderly_entry (hcode : ctx.entry = .ok code) : Orderly [] code := by
  obtain ⟨spilled, hspi, hrest⟩ := bind_eq_ok.1 hcode
  obtain ⟨moved, hmvd, hres⟩ := bind_eq_ok.1 hrest
  cases hres
  have hsav : Orderly [] (preserving ctx.frame.saved) :=
    orderly_preserving fun entry hent hscr => by
      have := h.saved entry hent
      revert hscr this
      generalize entry.1 = r
      revert r
      decide
  have hspills : Orderly [] spilled.flatten := by
    refine .flatten fun code hcode => ?_
    obtain ⟨arrival, hava, hspill⟩ := exists_of_forall₂ (mapM_eq_ok.1 hspi) hcode
    obtain ⟨i, slot, home, rfl, -⟩ := mem_arrivals.1 hava
    cases home with
    | register r =>
      cases hspill
      exact .nil
    | stack a =>
      cases hspill
      have hsto : Orderly [.argument i] [.stackStore (.argument i) a] := .single rfl nofun
      exact hsto.drop (by simp [scratchOnes, t0, t1])
    | array a => cases hspill
  have hmoves : Orderly [] moved := by
    refine orderly_parallelMove (fun move hmove => ?_) hmvd
    obtain ⟨arrival, hava, hmove⟩ := List.mem_filterMap.1 hmove
    obtain ⟨i, slot, home, rfl, -, -, hhome, -⟩ := mem_arrivals.1 hava
    cases home with
    | register r =>
      cases hmove
      have hr := h.homes slot r hhome
      simp only [isAllocatable, Bool.and_eq_true, bne_iff_ne] at hr
      exact ⟨by simp [scratchOnes, t0, t1],
        by simpa [scratchOnes] using ⟨hr.1.2, hr.2⟩, hr.1.1⟩
    | stack a | array a => cases hmove
  exact (hsav.append hspills).append hmoves

theorem Housed.orderly_lowerBody (hcode : ctx.lowerBody = .ok code) : Orderly [] code := by
  obtain ⟨first, codes, hfst, hcodes, rfl⟩ := lowerBody_eq_ok.1 hcode
  have hent : Orderly [] first := by
    split at hfst
    · cases hfst
      exact .nil
    · exact orderly_entry h hfst
  refine hent.append (.flatten fun code hcode => ?_)
  obtain ⟨p, -, hlow⟩ := exists_of_forall₂ (mapM_eq_ok.1 (codesOf_iff.2 hcodes)) hcode
  exact orderly_lowerInstruction h hlow

end Context

/-- A function of register code that awaits no scratch register at its beginning, is tidy, never gives
a value to the register that is zero and stays inside of its frame. -/
structure Function.Disciplined (f : Function) : Prop where
  fresh : ∀ r ∈ Register.scratchOnes, ¬ Awaits r f.body
  tidy : Tidy f.body
  writable : ∀ i ∈ f.body, i.dest? ≠ some .zero
  words : ∀ i ∈ f.body, ∀ slot, i.slot? = some slot → slot.toNat < f.frame.toNat
  offsets : ∀ i ∈ f.body, ∀ offset, Context.offset? i = some offset → offset.toNat ≤ f.frame.toNat

theorem Context.housed_of_layout (ctx : Context n k) {regs : Vector (Option Register) k}
    {hasCalls : Bool} {place : Allocation.Object k → Option UInt32}
    (hlay : Allocation.Layout ctx.slots regs hasCalls ctx.frame place)
    (hregs : ∀ slot r, regs.get slot = some r → r.isAllocatable = true) : ctx.Housed where
  homes slot r hhome := by
    rcases hlay.home slot with ⟨-, a, -, h⟩ | ⟨-, r', hr, h⟩ | ⟨-, -, a, -, h⟩
    · cases hhome.symm.trans h
    · cases hhome.symm.trans h
      exact hregs slot r hr
    · cases hhome.symm.trans h
  saved entry hent := (hlay.saved _ _ hent).1

theorem disciplined_of_lowerFunction {arrays : Std.HashSet Symbol} {fn : Eeyore.Function}
    {lowered : Function} (h : (lowerFunction arrays fn).result = .ok lowered) :
    lowered.Disciplined := by
  obtain ⟨ctx, regs, place, -, -, -, hfree, hlay, hfrm, hcode⟩ := lowerFunction_layout h
  have hord := (ctx.housed_of_layout hlay hfree.allocatable).orderly_lowerBody hcode
  refine ⟨fun r hr haw => List.not_mem_nil (hord.awaits r hr haw), hord.tidy,
    hord.writable, fun i hi slot hslot => ?_, offset_le_frame h⟩
  have hoff : Context.offset? i = some slot := by cases i <;> first | exact hslot | cases hslot
  obtain ⟨q, object, hrfs⟩ := Context.refers_of_mem_lowerBody hcode i hi slot hoff
  obtain ⟨hpl, ⟨a, r, rfl⟩ | hwords⟩ := hrfs.kept hlay
  · cases hslot
  · have hwin := hlay.within object slot (hpl.trans hoff)
    rw [hwords] at hwin
    exact hfrm ▸ hwin

theorem disciplined_of_lower {program : Eeyore.Program} {lowered : Program}
    (h : (lower program).result = .ok lowered) : ∀ f ∈ lowered.code, f.Disciplined := by
  obtain ⟨-, arrays, hcode⟩ := lower_cases h
  intro f hf
  obtain ⟨fn, -, hlow⟩ := exists_of_forall₂ hcode hf
  exact disciplined_of_lowerFunction hlow

end SysY.Tigger

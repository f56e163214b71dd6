import SysY.Proofs.Tigger.Functions

/-!
# Register code does what three-address code does

A function of register code follows the one of three-address code that it comes from: after any
number of steps of the one there is a number of steps of the other after which both have made the
same calls, the same array writes and the same writes to global variables, and if the one has
returned a value, the other has returned it in `a0` with the registers of its caller as they were.
-/

namespace SysY.Tigger

open Eeyore (Activation Decl Outcome)
open SysY.Flow Allocation Eeyore.State Eeyore.Activation

/-! ## What it means -/

/-- States that show the same: the same events, the same contents of arrays and the same values of
global scalars. -/
structure Agrees (globals : List Decl) (act : Activation) (setting : Setting) (s : Eeyore.State)
    (t : State) : Prop where
  events : List.Forall₂ (Event.Matches setting.place) s.events t.events
  arrays : ∀ region ∈ act.objects, ∀ b, region.contains b = true → t.memory b = s.memory b
  globals : ∀ x, ⟨x, none⟩ ∈ globals → act.isLocal x = false →
    s.scalars x = some (t.memory.word (setting.place ⟨x.id⟩))

/-- A run of register code that has come as far as one of three-address code that is not stuck. -/
def Follows (globals : List Decl) (act : Activation) (setting : Setting) (entry : Register → Int32) :
    Outcome → Progress State → Prop
  | ⟨.running, s⟩, .running _ t => Agrees globals act setting s t
  | ⟨.returned result, s⟩, .returned t => Agrees globals act setting s t ∧
      (∀ v, result = some v → t.value .a0 = v) ∧ ∀ r, r.isSaved = true → t.value r = entry r
  | _, _ => False

/-- Register code that simulates a function of three-address code, whose arrays lie somewhere in its
frame. While three-address code runs on and on, register code does so, too. -/
def Simulates (globals : List Decl) (function : Eeyore.Function) (lowered : Function) : Prop :=
  ∃ offset : Symbol → UInt32,
    (∀ d ∈ slotDecls function, ∀ size, d.size = some size →
      (offset d.symbol).toNat + size.toNat ≤ lowered.frame.toNat) ∧
    ∀ setting others, Fits globals function lowered.frame offset setting others →
      (setting.world function offset others).Separates globals function ∧
      ∀ registers memory steps,
        let world := setting.world function offset others
        let start := State.start registers memory
        let outcome := world.run globals function steps
          (.start (setting.scalars function registers memory) memory)
        outcome.status ≠ .stuck → ∃ steps',
          Follows globals (world.activation globals function) setting start.value outcome
            (setting.machine.run lowered.body steps' 0 start) ∧
          (outcome.status = .running → steps ≤ (steps' + 1) * (function.body.size + 1))

variable {n k : Nat} {globals : List Decl} {ctx : Context n k}
  {regs : Vector (Option Register) k} {place : Object k → Option UInt32} {act : Activation}
  {setting : Setting} {entry : Register → Int32} {s s' : Eeyore.State} {t t' : State}

theorem Kept.agrees (hg : Grounds globals ctx place act setting)
    (h : Kept globals ctx place act setting entry s t) : Agrees globals act setting s t where
  events := h.events
  arrays := h.memory
  globals x hx hloc := by
    refine h.globals x _ (.global ?_ hx)
    rw [hg.isLocal] at hloc
    simpa using hloc

/-! ## Runs -/

theorem position_le_of_step {body : Vector Eeyore.Instruction n}
    (h : act.step body s = ⟨.running, s'⟩) : s.position < n ∧ s'.position ≤ n := by
  obtain ⟨p, hpos, s1, direction, heff, -, hfol⟩ := step_eq h (by simp)
  obtain ⟨q, rfl, hq⟩ := follow_running hfol
  have hpos1 := position_of_effect heff
  refine ⟨hpos ▸ p.isLt, ?_⟩
  rcases hq with ⟨-, rfl⟩ | ⟨-, r, -, -, rfl⟩
  · show s1.position + 1 ≤ n
    have := p.isLt
    omega
  · exact Nat.le_of_lt r.isLt

variable {codes : List (List Instruction)} {first : List Instruction}

theorem follows_run (first : List Instruction) (hp : Prepared ctx regs place)
    (hg : Grounds globals ctx place act setting) (hd : Declared globals ctx)
    (hcodes : CodesOf ctx codes) (steps : Nat)
    (h : Matches globals ctx place act setting [] s.position entry s t) (hs : s.position ≤ n)
    (hstk : (act.run ctx.body steps s).status ≠ .stuck) :
    ∃ m, Follows globals act setting entry (act.run ctx.body steps s)
        (setting.machine.run (first ++ codes.flatten) m (startOf first codes s.position) t) ∧
      ((act.run ctx.body steps s).status = .running → s.position + steps ≤ m * (n + 1) + n) := by
  induction steps generalizing s t with
  | zero => exact ⟨0, h.kept.agrees hg, fun _ => by omega⟩
  | succ steps ih =>
    rw [run] at hstk ⊢
    rcases hstep : act.step ctx.body s with ⟨_ | result | _, s1⟩
    · -- The step is some steps of register code, or none; then the position has grown.
      simp only [hstep] at hstk ⊢
      obtain ⟨m1, t1, hrun1, h1, hprg⟩ := run_of_step_running hp hg hd hcodes h hstep
      obtain ⟨hpos, hpos1⟩ := position_le_of_step hstep
      obtain ⟨m2, hfol, hbnd⟩ := ih h1 hpos1 hstk
      refine ⟨m1 + m2, by rwa [Machine.run_add m2 hrun1], fun hrunning => ?_⟩
      have := hbnd hrunning
      rw [Nat.add_mul]
      rcases hprg with hm | hnxt
      · have := Nat.le_mul_of_pos_left (n + 1) hm
        omega
      · omega
    · obtain ⟨m, t', hrun, hkept, hval, hsav⟩ := run_of_step_returned hp hg hd hcodes h hstep
      refine ⟨m, ?_, fun hrunning => by cases hrunning⟩
      rw [hrun]
      exact ⟨hkept.agrees hg, hval, hsav⟩
    · simp [hstep] at hstk

/-! ## Functions -/

variable {function : Eeyore.Function} {arrays : Std.HashSet Symbol} {offset : Symbol → UInt32}
  {others : List Region}

theorem agrees_start (regs : Register → Int32) (memory : Memory) :
    Agrees globals ((setting.world function offset others).activation globals function) setting
      (.start (setting.scalars function regs memory) memory) (.start regs memory) where
  events := .nil
  arrays _ _ _ _ := rfl
  globals x _ hloc := by
    have hloc : (slotDecls function).any (·.symbol = x) = false := hloc
    simp [start, Setting.scalars, hloc, State.start]

theorem matches_start {ctx : Context function.body.size (slotDecls function).length}
    {regs : Vector (Option Register) _} {place : Object (slotDecls function).length → Option UInt32}
    (hctx : ContextOf arrays function ctx) (hp : Prepared ctx regs place)
    (hb : Belongs globals function ctx)
    (hg : Grounds globals ctx place ((setting.world function offset others).activation globals function)
      setting) (hent : ctx.entry = .ok first) (values : Register → Int32) (memory : Memory) :
    ∃ t, setting.machine.exec first (.start values memory) = some t ∧
      Matches globals ctx place ((setting.world function offset others).activation globals function)
        setting [] 0 (State.start values memory).value
        (.start (setting.scalars function values memory) memory) t := by
  refine exec_entry hp hg (fun _ _ _ _ => rfl) (fun x a hx => ?_) (fun slot v hv => ?_) rfl .nil hent
  · cases hx with
    | global hslot hx =>
      have hloc := any_slotDecls hp hb x
      rw [hslot, Option.isSome_none] at hloc
      simp [start, Setting.scalars, hloc, State.start]
  · have hloc := any_slotDecls hp hb (ctx.symbol slot)
    rw [hp.find?_iff.2 rfl, Option.isSome_some] at hloc
    simp only [start, Setting.scalars, hloc, if_true] at hv
    split at hv
    · rename_i hpar
      obtain ⟨hkind, hlt⟩ := hpar
      obtain ⟨r, hr, rfl⟩ := Option.map_eq_some_iff.1 hv
      obtain ⟨h8, hr⟩ := List.getElem?_eq_some_iff.1 hr
      have h8 : (ctx.symbol slot).id.toNat < 8 := h8
      refine ⟨⟨(ctx.symbol slot).id.toNat, h8⟩, ?_, ?_, ?_⟩
      · rw [hctx.parameters]
        exact UInt32.lt_iff_toNat_lt.1 hlt
      · rw [UInt32.ofNat_toNat, Symbol.param, ← hkind]
      · rw [← hr]
        simp [State.value, State.start, Register.arguments]
    · cases hv

theorem declared_of_lowerable (h : Lowerable globals function)
    {ctx : Context function.body.size (slotDecls function).length}
    {regs : Vector (Option Register) _} {place : Object (slotDecls function).length → Option UInt32}
    (hctx : ContextOf arrays function ctx) (hp : Prepared ctx regs place)
    (hb : Belongs globals function ctx) : Declared globals ctx := by
  intro p x hx hslot harr
  have hx : x ∈ (ctx.body.get p).uses ++ (ctx.body.get p).definition.toList := by
    simpa [List.mem_append] using hx
  obtain ⟨d, hd, rfl⟩ := List.mem_map.1 (h.declared _ (hctx.get_mem p) x hx)
  rcases List.mem_append.1 hd with hd | hd
  · have hloc := any_slotDecls hp hb d.symbol
    rw [hslot, Option.isSome_none, List.any_eq_false] at hloc
    exact absurd (decide_eq_true rfl) (hloc d hd)
  · obtain ⟨x, size⟩ := d
    cases size with
    | none => exact hd
    | some size =>
      rw [(hb.arrays x).2 ⟨_, hd, rfl, rfl⟩] at harr
      cases harr

theorem follows_start {ctx : Context function.body.size (slotDecls function).length}
    {regs : Vector (Option Register) _} {place : Object (slotDecls function).length → Option UInt32}
    (hctx : ContextOf arrays function ctx) (hp : Prepared ctx regs place)
    (hb : Belongs globals function ctx)
    (hg : Grounds globals ctx place ((setting.world function offset others).activation globals function)
      setting) (hd : Declared globals ctx) (hcodes : CodesOf ctx codes)
    (hfst : (if function.body.size = 0 then .ok [] else ctx.entry) = .ok first)
    (values : Register → Int32) (memory : Memory) (steps : Nat) :
    let outcome := (setting.world function offset others).run globals function steps
      (.start (setting.scalars function values memory) memory)
    outcome.status ≠ .stuck → ∃ steps',
      Follows globals ((setting.world function offset others).activation globals function) setting
        (State.start values memory).value outcome
        (setting.machine.run (first ++ codes.flatten) steps' 0 (.start values memory)) ∧
      (outcome.status = .running → steps ≤ (steps' + 1) * (function.body.size + 1)) := by
  intro outcome hstk
  have hout : outcome = ((setting.world function offset others).activation globals function).run
      ctx.body steps (.start (setting.scalars function values memory) memory) := by
    rw [hctx.body]
    rfl
  rw [hout] at hstk ⊢
  split at hfst
  · rename_i hsz
    -- An empty body has no steps.
    cases steps with
    | zero => exact ⟨0, agrees_start values memory, fun _ => Nat.zero_le _⟩
    | succ steps =>
      refine absurd ?_ hstk
      simp [Activation.run, Activation.step, start, hsz]
  · obtain ⟨t, hexec, hmat⟩ := matches_start hctx hp hb hg hfst values memory
    have hblk : Machine.BlockAt (first ++ codes.flatten) first 0 := fun j hj => by
      rw [Nat.zero_add, List.getElem?_append_left hj]
    have hrun := Machine.run_block hblk hexec
    obtain ⟨m, hfol, hbnd⟩ := follows_run first hp hg hd hcodes steps hmat (Nat.zero_le _) hstk
    refine ⟨first.length + m, ?_, fun hrunning => ?_⟩
    · rw [Machine.run_add m hrun]
      simpa [startOf, start] using hfol
    · have hle := hbnd hrunning
      have hmul := Nat.mul_le_mul_right (function.body.size + 1) (Nat.le_add_left m first.length)
      have hz : (start (setting.scalars function values memory) memory).position = 0 :=
        rfl
      rw [Nat.add_mul, Nat.one_mul]
      omega

theorem simulates_of_lowerFunction (hglobs : (globals.map (·.symbol)).Nodup)
    (harrs : ∀ x, arrays.contains x = true ↔ ∃ d ∈ globals, d.size.isSome = true ∧ d.symbol = x)
    (h : Lowerable globals function) {lowered : Function}
    (hlwd : (lowerFunction arrays function).result = .ok lowered) :
    Simulates globals function lowered := by
  obtain ⟨ctx, regs, place, hctx, hp, hfrm, hbody⟩ := lowerFunction_spec h.distinct hlwd
  have hb := hctx.belongs harrs
  have hd := declared_of_lowerable h hctx hp hb
  obtain ⟨first, codes, hfst, hcodes, hcode⟩ := Context.lowerBody_eq_ok.1 hbody
  let offset : Symbol → UInt32 := fun x =>
    ((ctx.slots.find? x).bind fun slot => place (.slot slot)).getD 0
  have hoff : ∀ x slot a, ctx.slots.find? x = some slot → place (.slot slot) = some a →
      offset x = a := fun x slot a hslot ha => by simp [offset, hslot, ha]
  refine ⟨offset, fun d hd size hsz => ?_, fun setting others hfits => ?_⟩
  · obtain ⟨slot, rfl⟩ := (mem_slotDecls_iff hb).1 hd
    rcases hp.layout.home slot with ⟨-, a, ha, -⟩ | ⟨harr, -⟩ | ⟨harr, -⟩
    · have hpl : offset (ctx.slots.decls.get slot).symbol = a :=
        hoff _ slot a (hp.find?_iff.2 rfl) ha
      rw [hpl, ← hfrm]
      simpa [Object.words, hsz] using hp.layout.within _ a ha
    all_goals simp [Slots.isArray, hsz] at harr
  · rw [← hfrm] at hfits
    refine ⟨hfits.separates hp hb hoff, fun values memory steps => ?_⟩
    have hg := grounds_of_fits hglobs hp hb hoff hfits
    rw [hcode]
    exact follows_start hctx hp hb hg hd hcodes hfst values memory steps

/-! ## Programs -/

def globalArrays (globals : List Decl) : Std.HashSet Symbol :=
  .ofList ((globals.filter (·.size.isSome)).map (·.symbol))

theorem contains_globalArrays (globals : List Decl) (x : Symbol) :
    (globalArrays globals).contains x = true ↔
      ∃ d ∈ globals, d.size.isSome = true ∧ d.symbol = x := by
  simp [globalArrays, and_assoc]

theorem result_lower (program : Eeyore.Program) : (lower program).result =
    (program.globals.mapM lowerGlobal >>= fun globals =>
      (program.code.mapM fun f => (lowerFunction (globalArrays program.globals) f).result) >>=
        fun code => .ok ⟨globals, code⟩) := by
  simp only [lower, globalArrays, Logged.result_bind, Logged.result_ofExcept, Logged.result_mapM,
    Logged.result_pure]

/-- The code of a program simulates it, function by function, and every program has code whose
global symbols are variables, whose jumps have targets and whose functions fit into frames. -/
theorem lower_simulates (program : Eeyore.Program)
    (hglobals : (program.globals.map (·.symbol)).Nodup)
    (hcode : ∀ function ∈ program.code, Lowerable program.globals function) :
    (∀ lowered, (lower program).result = .ok lowered →
      List.Forall₂ (Simulates program.globals) program.code lowered.code) ∧
    ((∀ d ∈ program.globals, d.symbol.kind = .variable) →
      (∀ function ∈ program.code, TargetsDefined function.body.toVector ∧
        declaredWords function + Register.all.length < wordValues) →
      ∃ lowered, (lower program).result = .ok lowered) := by
  have harrays := contains_globalArrays program.globals
  rw [result_lower]
  constructor
  · intro lowered hlowered
    obtain ⟨globals, -, hlowered⟩ := bind_eq_ok.1 hlowered
    obtain ⟨code, hmapM, hlowered⟩ := bind_eq_ok.1 hlowered
    cases hlowered
    refine List.forall₂_iff_get.2 ⟨(mapM_eq_ok.1 hmapM).length_eq, fun i hi hi' => ?_⟩
    exact simulates_of_lowerFunction hglobals harrays (hcode _ (List.getElem_mem hi))
      ((mapM_eq_ok.1 hmapM).get hi hi')
  · intro hkinds hrest
    obtain ⟨globals, hmapM⟩ : ∃ globals, program.globals.mapM lowerGlobal = .ok globals :=
      exists_mapM_ok fun d hd => ⟨⟨⟨d.symbol.id⟩, d.size⟩, by simp [lowerGlobal, hkinds d hd]⟩
    obtain ⟨code, hmapM'⟩ := exists_mapM_ok fun function hfunction =>
      lowerFunction_ok (hcode function hfunction) harrays (hrest function hfunction).1
        (hrest function hfunction).2
    exact ⟨⟨globals, code⟩, bind_eq_ok.2 ⟨_, hmapM, bind_eq_ok.2 ⟨_, hmapM', rfl⟩⟩⟩

/-- A function with a loop that fills the array `T2` of its own with its argument, passes it on with
an element of the global array `T0` and keeps the answer in the global `T1`. -/
def passing : Eeyore.Program where
  globals := [⟨.var 0, some 3⟩, ⟨.var 1, none⟩]
  code := [{
    name := "pass"
    parameters := 1
    decls := [⟨.var 2, some 3⟩, ⟨.temp 0, none⟩, ⟨.temp 1, none⟩]
    body := #[
      .copy (.temp 0) (.const 0),
      .label ⟨0⟩,
      .store (.var 2) (.symbol (.temp 0)) (.symbol (.param 0)),
      .load (.temp 1) (.var 0) (.symbol (.temp 0)),
      .call "f" [.symbol (.var 2), .symbol (.temp 1)] (some (.temp 1)),
      .copy (.var 1) (.symbol (.temp 1)),
      .binary (.temp 0) .add (.symbol (.temp 0)) (.const 4),
      .branch (.symbol (.temp 0)) .lt (.const 12) ⟨0⟩,
      .return (some (.symbol (.temp 1)))] }]

theorem passing_simulated :
    (passing.globals.map (·.symbol)).Nodup ∧
      (∀ function ∈ passing.code, Lowerable passing.globals function) ∧
      ∃ lowered, (lower passing).result = .ok lowered ∧
        List.Forall₂ (Simulates passing.globals) passing.code lowered.code := by
  have hglobals : (passing.globals.map (·.symbol)).Nodup := by decide
  have hcode : ∀ function ∈ passing.code, Lowerable passing.globals function := by
    intro function hfunction
    obtain rfl := List.mem_singleton.1 hfunction
    exact ⟨by decide, by decide, by decide, by decide, by decide, by simp⟩
  obtain ⟨hsimulates, hok⟩ := lower_simulates passing hglobals hcode
  obtain ⟨lowered, hlowered⟩ := hok (by decide) (by
    intro function hfunction
    obtain rfl := List.mem_singleton.1 hfunction
    exact ⟨undefinedTarget?_eq_none.1 (by decide), by decide⟩)
  exact ⟨hglobals, hcode, lowered, hlowered, hsimulates lowered hlowered⟩

end SysY.Tigger

import SysY.Allocation.Palette
import SysY.Proofs.Allocation.Coloring

/-!
# Registers are conflict free

A palette gives different registers to different colours, and only such that a symbol may live in.
There are as many of these as colours, so that none is left without one. With a proper colouring,
slots that interfere do not share a register: `assign_spec`.
-/

namespace SysY.Allocation

open Eeyore SysY.Flow

variable {n k : Nat} {interference : Interference k}

namespace Palette

variable {palette : Palette} {register : Register}

theorem uses_iff :
    palette.uses register = true ↔ ∃ color, palette.get color = some register := by
  rw [uses, Vector.contains_iff_mem, Vector.mem_iff_getElem]
  constructor
  · rintro ⟨i, hi, h⟩
    exact ⟨⟨i, hi⟩, h⟩
  · rintro ⟨color, h⟩
    exact ⟨color.val, color.isLt, h⟩

/-- Different colours have different registers, and a symbol may live in each of them. -/
structure Sound (palette : Palette) : Prop where
  injective : ∀ a b register, palette.get a = some register → palette.get b = some register → a = b
  allocatable : ∀ color register, palette.get color = some register → register.isAllocatable = true

theorem sound_none : Sound none where
  injective a _ _ ha := by simp [none, get_eq_getElem] at ha
  allocatable color _ h := by simp [none, get_eq_getElem] at h

theorem Sound.put {palette : Palette} (h : Sound palette) (color : Color) {register : Register}
    (hunus : palette.uses register = false) (halloc : register.isAllocatable = true) :
    Sound (put palette color (some register)) := by
  have hfree : ∀ c, palette.get c ≠ some register := fun c hc => by
    rw [uses_iff.2 ⟨c, hc⟩] at hunus
    cases hunus
  refine ⟨fun a b r ha hb => ?_, fun c r hc => ?_⟩
  · by_cases hca : color = a <;> by_cases hcb : color = b
    · exact hca.symm.trans hcb
    · subst hca
      rw [get_put_self] at ha
      rw [get_put_of_ne _ _ hcb] at hb
      exact absurd (hb.trans ha.symm) (hfree b)
    · subst hcb
      rw [get_put_self] at hb
      rw [get_put_of_ne _ _ hca] at ha
      exact absurd (ha.trans hb.symm) (hfree a)
    · rw [get_put_of_ne _ _ hca] at ha
      rw [get_put_of_ne _ _ hcb] at hb
      exact h.injective a b r ha hb
  · by_cases hcol : color = c
    · subst hcol
      rw [get_put_self] at hc
      cases hc
      exact halloc
    · rw [get_put_of_ne _ _ hcol] at hc
      exact h.allocatable c r hc

theorem Sound.prefer (h : Sound palette) (color : Color)
    (halloc : register.isAllocatable = true) : Sound (palette.prefer color register) := by
  unfold Palette.prefer
  split
  · rename_i hfree
    simp only [Bool.and_eq_true, Bool.not_eq_true'] at hfree
    exact h.put color hfree.2 halloc
  · exact h

theorem uses_put {color : Color} {other : Register} (h : other ≠ register)
    (hunus : palette.uses other = false) :
    uses (put palette color (some register)) other = false := by
  rw [Bool.eq_false_iff] at hunus ⊢
  rw [ne_eq, uses_iff] at hunus ⊢
  rintro ⟨c, hc⟩
  by_cases hcol : color = c
  · subst hcol
    rw [get_put_self] at hc
    exact h (Option.some.inj hc).symm
  · rw [get_put_of_ne _ _ hcol] at hc
    exact hunus ⟨c, hc⟩

theorem fill_spec (h : Sound palette) (colors : List Color) (regs : List Register)
    (hlen : colors.length ≤ regs.length) (hnd : regs.Nodup)
    (hunus : ∀ r ∈ regs, palette.uses r = false)
    (halloc : ∀ r ∈ regs, r.isAllocatable = true) :
    ∃ filled, palette.fill colors regs = .ok filled ∧ Sound filled := by
  induction colors generalizing palette regs with
  | nil => exact ⟨palette, by simp [fill], h⟩
  | cons color colors ih =>
    cases regs with
    | nil => simp at hlen
    | cons register regs =>
      obtain ⟨hnot, hnd⟩ := List.nodup_cons.1 hnd
      have hput := h.put color (hunus register List.mem_cons_self)
        (halloc register List.mem_cons_self)
      have hunus' : ∀ r ∈ regs, uses (put palette color (some register)) r = false := by
        intro r hr
        have hne : r ≠ register := fun heq => hnot (heq ▸ hr)
        exact uses_put hne (hunus r (List.mem_cons_of_mem _ hr))
      exact ih hput regs (by simpa using hlen) hnd hunus' fun r hr =>
        halloc r (List.mem_cons_of_mem _ hr)

end Palette

/-! ## Preferences -/

theorem isAllocatable_of_mem_hints {params : UInt32} {body : List Instruction}
    {hint : Symbol × Register} (h : hint ∈ hints params body) :
    hint.2.isAllocatable = true := by
  have hargs : ∀ r ∈ Register.arguments, r.isAllocatable = true := by decide
  rcases List.mem_append.1 h with h | h
  · obtain ⟨⟨register, id⟩, hmem, rfl⟩ := List.mem_map.1 h
    exact hargs _ (List.mem_of_mem_take (List.fst_mem_of_mem_zipIdx hmem))
  · obtain ⟨instr, -, h⟩ := List.mem_flatMap.1 h
    cases instr <;> try exact absurd h List.not_mem_nil
    case call function arguments output =>
      rcases List.mem_append.1 h with h | h
      · obtain ⟨x, -, rfl⟩ := List.mem_map.1 h
        rfl
      · obtain ⟨⟨argument, register⟩, hmem, hmap⟩ := List.mem_filterMap.1 h
        obtain ⟨x, -, rfl⟩ := Option.map_eq_some_iff.1 hmap
        exact hargs _ (List.of_mem_zip hmem).2
    case «return» value =>
      unfold instructionHints at h
      split at h <;> simp_all
      decide

theorem sound_preferred (slots : Slots k) (colors : Vector (Option Color) k)
    {hints : List (Symbol × Register)} (h : ∀ hint ∈ hints, hint.2.isAllocatable = true) :
    (preferred slots colors hints).Sound := by
  unfold preferred
  generalize hpalette : Palette.none = palette
  have hsound : palette.Sound := hpalette ▸ Palette.sound_none
  clear hpalette
  induction hints generalizing palette with
  | nil => exact hsound
  | cons hint hints ih =>
    obtain ⟨hhint, hhints⟩ := List.forall_mem_cons.1 h
    refine ih hhints _ ?_
    dsimp only
    split
    · exact hsound.prefer _ hhint
    · exact hsound

/-! ## All colours get registers -/

theorem nodup_registerOrder (hasCalls : Bool) : (registerOrder hasCalls).Nodup := by
  cases hasCalls <;> decide

theorem length_registerOrder (hasCalls : Bool) : (registerOrder hasCalls).length = colorCount := by
  cases hasCalls <;> rfl

theorem isAllocatable_of_mem_registerOrder {hasCalls : Bool} :
    ∀ r ∈ registerOrder hasCalls, r.isAllocatable = true := by
  cases hasCalls <;> decide

theorem length_unpainted_le (colors : Vector (Option Color) k) (palette : Palette)
    (hasCalls : Bool) :
    (unpainted colors palette).length ≤
      ((registerOrder hasCalls).filter (!palette.uses ·)).length := by
  have hpainted : ((registerOrder hasCalls).filter palette.uses).length ≤
      ((List.finRange colorCount).filter fun color => (palette.get color).isSome).length := by
    have hsubset : (registerOrder hasCalls).filter palette.uses ⊆
        (List.finRange colorCount).filterMap palette.get := by
      intro r hr
      obtain ⟨color, hcol⟩ := Palette.uses_iff.1 (List.mem_filter.1 hr).2
      exact List.mem_filterMap.2 ⟨color, List.mem_finRange color, hcol⟩
    calc _ ≤ ((List.finRange colorCount).filterMap palette.get).length :=
          (List.subperm_of_subset ((nodup_registerOrder hasCalls).filter _) hsubset).length_le
      _ = _ := List.length_filterMap_eq_countP.trans List.countP_eq_length_filter
  have hunpainted : (unpainted colors palette).length ≤
      ((List.finRange colorCount).filter fun color => !(palette.get color).isSome).length := by
    refine List.Sublist.length_le (List.monotone_filter_right _ fun color h => ?_)
    simp only [Bool.and_eq_true, Option.isNone_iff_eq_none] at h
    simp [h.2]
  have hcolors := List.length_eq_length_filter_add (fun color => (palette.get color).isSome)
    (l := List.finRange colorCount)
  have hregs := List.length_eq_length_filter_add palette.uses (l := registerOrder hasCalls)
  rw [length_registerOrder] at hregs
  rw [List.length_finRange] at hcolors
  omega

/-! ## The assignment -/

/-- Slots that interfere do not share a register. -/
structure ConflictFree (slots : Slots k) (interference : Interference k)
    (registers : Vector (Option Register) k) : Prop where
  allocatable : ∀ slot register, registers.get slot = some register → register.isAllocatable = true
  scalar : ∀ slot register, registers.get slot = some register → slots.isArray slot = false
  different : ∀ a b register, b ∈ interference.neighbors.get a →
    registers.get a = some register → registers.get b ≠ some register

theorem paint_spec (params : UInt32) (body : List Instruction) (slots : Slots k)
    {colors : Vector (Option Color) k} (hpr : Proper interference colors)
    (hsca : ∀ slot color, colors.get slot = some color → slots.isArray slot = false) :
    ∃ registers, paint params body slots colors = .ok registers ∧
      ConflictFree slots interference registers := by
  let palette := preferred slots colors (hints params body)
  have hsound : palette.Sound := sound_preferred slots colors fun _ => isAllocatable_of_mem_hints
  let free := (registerOrder (body.any (·.isCall))).filter (!palette.uses ·)
  obtain ⟨filled, hfilled, hfilledSound⟩ := Palette.fill_spec hsound (unpainted colors palette) free
    (length_unpainted_le colors palette _) ((nodup_registerOrder _).filter _)
    (fun r hr => by simpa using (List.mem_filter.1 hr).2)
    (fun r hr => isAllocatable_of_mem_registerOrder r (List.mem_filter.1 hr).1)
  have hget : ∀ slot register, (colors.map fun color => color.bind filled.get).get slot =
      some register → ∃ color, colors.get slot = some color ∧ filled.get color = some register := by
    intro slot register h
    rw [get_eq_getElem, Vector.getElem_map] at h
    exact Option.bind_eq_some_iff.1 h
  refine ⟨colors.map fun color => color.bind filled.get, ?_, ?_, ?_, ?_⟩
  · simp only [paint, palette, free] at hfilled ⊢
    rw [hfilled]
    rfl
  · intro slot register h
    obtain ⟨color, -, hreg⟩ := hget slot register h
    exact hfilledSound.allocatable color register hreg
  · intro slot register h
    obtain ⟨color, hcol, -⟩ := hget slot register h
    exact hsca slot color hcol
  · intro a b register hb ha hreg
    obtain ⟨color, hcol, hfa⟩ := hget a register ha
    obtain ⟨other, hoth, hfb⟩ := hget b register hreg
    exact hpr a b color hb hcol (hfilledSound.injective _ _ _ hfb hfa ▸ hoth)

theorem assign_spec (params : UInt32) (body : Vector Instruction n) (graph : Graph n)
    (slots : Slots k) (hsim : Simple interference) :
    ∃ registers, (assign params body graph slots interference).result = .ok registers ∧
      ConflictFree slots interference registers := by
  let colorable : NodeSet k := Vector.ofFn fun slot => !slots.isArray slot
  obtain ⟨removals, hrem, hperm, -⟩ := simplify_spec hsim colorable (weights graph body slots)
  obtain ⟨registers, hregs, hfree⟩ := paint_spec params body.toList slots
    (proper_select hsim (removals.map (·.slot))) fun slot color hcol => by
      refine Bool.eq_false_iff.2 fun harr => ?_
      have hnot : slot ∉ removals.map (·.slot) := by
        rw [hperm.mem_iff]
        simp [colorable, get_eq_getElem, harr]
      rw [get_select_of_not_mem interference hnot] at hcol
      cases hcol
  refine ⟨registers, ?_, hfree⟩
  simp only [assign, Logged.result_bind, Logged.result_ofExcept, colorable] at hrem ⊢
  rw [hrem]
  exact hregs

/-! ## Slots that are live together -/

def allocatable : List Register := Register.savedOnes ++ Register.temporaries ++ Register.arguments

theorem mem_allocatable {r : Register} : r ∈ allocatable ↔ r.isAllocatable = true := by
  have hall : ∀ r ∈ Register.all, (r ∈ allocatable ↔ r.isAllocatable = true) := by decide
  exact hall r r.mem_all

theorem eq_of_mem_targets {body : Vector Instruction n} {p q : Fin n} {x : Symbol}
    (hdef : (body.get p).definition = some x) (hq : q ∈ targets body p) : q.val = p.val + 1 := by
  rcases mem_targets.1 hq with ⟨label, htgt, -⟩ | ⟨-, hq⟩
  · cases hbody : body.get p <;> rw [hbody] at hdef htgt <;> cases hdef <;> cases htgt
  · exact hq

/-- Registers are always assigned, only such that a symbol may live in, and none to arrays. Two slots
that are live into one position do not share a register, and neither do two that are live behind an
instruction that writes a symbol. -/
theorem assign_conflict_free (function : Function) {graph : Graph function.body.size}
    (hgraph : Graph.ofBody function.name function.body.toVector = .ok graph) :
    let body := function.body.toVector
    let slots := Slots.ofFunction function
    let liveness := Liveness.ofBody graph body slots
    ∃ registers, (assign function.parameters body graph slots (.ofLiveness liveness)).result =
        .ok registers ∧
      (∀ slot, slots.isArray slot = true → registers.get slot = none) ∧
      (∀ slot r, registers.get slot = some r →
        r ∈ allocatable ∧ r ≠ .zero ∧ r ≠ .t0 ∧ r ≠ .t1) ∧
      (∀ p a b r, a ≠ b → a ∈ liveness.liveIn.get p → b ∈ liveness.liveIn.get p →
        registers.get a = some r → registers.get b ≠ some r) ∧
      ∀ p x a b r, (body.get p).definition = some x → slots.find? x = some a → a ≠ b →
        a ∈ liveness.liveOut graph p → b ∈ liveness.liveOut graph p →
        registers.get a = some r → registers.get b ≠ some r := by
  intro body slots liveness
  obtain ⟨registers, hregisters, hfree⟩ := assign_spec function.parameters body graph slots
    (simple_ofLiveness liveness)
  have htogether : ∀ p a b r, a ≠ b → a ∈ liveness.liveIn.get p → b ∈ liveness.liveIn.get p →
      registers.get a = some r → registers.get b ≠ some r := fun p a b r hne ha hb =>
    hfree.different a b r (Interference.mem_neighbors.2 ⟨hne.symm, p, ha, hb⟩)
  obtain rfl := Graph.eq_of_ofBody hgraph
  refine ⟨registers, hregisters, fun slot harray => ?_, fun slot r hr => ?_, htogether, ?_⟩
  · refine Option.eq_none_iff_forall_ne_some.2 fun r hr => ?_
    have hscalar := hfree.scalar slot r hr
    rw [harray] at hscalar
    cases hscalar
  · have hallocatable := hfree.allocatable slot r hr
    refine ⟨mem_allocatable.2 hallocatable, ?_⟩
    simpa [Register.isAllocatable, and_assoc] using hallocatable
  · -- both are live into the one position that follows
    intro p x a b r hdef _ hne ha hb
    obtain ⟨q, hq, ha⟩ := Liveness.mem_liveOut.1 ha
    obtain ⟨q', hq', hb⟩ := Liveness.mem_liveOut.1 hb
    obtain rfl : q = q' := Fin.ext ((eq_of_mem_targets hdef hq).trans (eq_of_mem_targets hdef hq').symm)
    exact htogether q a b r hne ha hb

/-- A function that calls another one with its parameters exchanged and needs one of them afterwards.
-/
def exchanging : Function where
  name := "exchange"
  parameters := 2
  decls := [⟨.var 0, some 4⟩, ⟨.temp 0, none⟩]
  body := #[
    .call "f" [.symbol (.param 1), .symbol (.param 0), .symbol (.var 0)] (some (.temp 0)),
    .binary (.temp 0) .add (.symbol (.temp 0)) (.symbol (.param 0)),
    .return (some (.symbol (.temp 0)))]

theorem exchanging_conflict_free :
    ∃ graph, Graph.ofBody exchanging.name exchanging.body.toVector = .ok graph ∧
      ∃ registers, (assign exchanging.parameters exchanging.body.toVector graph
          (Slots.ofFunction exchanging) (.ofLiveness (.ofBody graph exchanging.body.toVector
            (Slots.ofFunction exchanging)))).result = .ok registers ∧
        registers.get ⟨2, by decide⟩ = none ∧
        ∀ r, registers.get ⟨0, by decide⟩ = some r → registers.get ⟨1, by decide⟩ ≠ some r := by
  have hgraph := Graph.ofBody_eq exchanging.name (undefinedTarget?_eq_none.1
    (show undefinedTarget? exchanging.body.toVector = none by decide))
  obtain ⟨registers, hregisters, harrays, -, htogether, -⟩ :=
    assign_conflict_free exchanging hgraph
  refine ⟨_, hgraph, registers, hregisters, harrays _ (by decide), fun r => ?_⟩
  -- the call reads both parameters
  refine htogether ⟨0, by decide⟩ _ _ r (by decide) ?_ ?_
  · exact Liveness.mem_liveIn_of_use (show Symbol.param 0 ∈ _ by decide)
      ((Slots.find?_eq_some_iff (Slots.distinct_ofFunction (by decide))).2 (by decide)) (by decide)
  · exact Liveness.mem_liveIn_of_use (show Symbol.param 1 ∈ _ by decide)
      ((Slots.find?_eq_some_iff (Slots.distinct_ofFunction (by decide))).2 (by decide)) (by decide)

end SysY.Allocation

import Mathlib.Algebra.GroupWithZero.Nat
import Mathlib.Data.List.Nodup
import Mathlib.Data.List.Pairwise
import Mathlib.Data.List.Perm.Subperm
import SysY.Allocation.Frame
import SysY.Proofs.Bind
import SysY.Proofs.Flow.Slots
import SysY.Proofs.Word

/-!
# Frames keep their objects apart

What is placed in a frame lies inside it, and no two objects overlap. Every slot has a home; every
register that a slot lives in has a place of its own in the frame if it has to be preserved.
-/

namespace SysY.Allocation

open Eeyore SysY.Flow

variable {k : Nat} {placed : List (Object k × UInt32)} {words : Object k → UInt32}

/-! ## Placing objects -/

/-- What comes first ends before the next begins. -/
def Before (words : Object k → UInt32) (a b : Object k × UInt32) : Prop :=
  a.2.toNat + (words a.1).toNat ≤ b.2.toNat

/-- One of the two ends before the other begins. -/
def Clear (words : Object k → UInt32) (a b : Object k × UInt32) : Prop :=
  Before words a b ∨ Before words b a

instance (words : Object k → UInt32) : Std.Symm (Clear words) := ⟨fun _ _ => Or.symm⟩

theorem placeFrom_spec {start size : UInt32} {objects : List (Object k)}
    (h : placeFrom words start objects = .ok (placed, size)) :
    placed.map (·.1) = objects ∧ placed.Pairwise (Before words) ∧ start.toNat ≤ size.toNat ∧
      ∀ entry ∈ placed, start.toNat ≤ entry.2.toNat ∧
        entry.2.toNat + (words entry.1).toNat ≤ size.toNat := by
  induction objects generalizing start placed with
  | nil =>
    cases h
    exact ⟨rfl, .nil, Nat.le_refl _, by simp⟩
  | cons object objects ih =>
    obtain ⟨next, hnxt, h⟩ := bind_eq_ok.1 h
    obtain ⟨⟨rest, size'⟩, hrest, h⟩ := bind_eq_ok.1 h
    cases h
    obtain ⟨hobjs, hpairwise, hle, hbnds⟩ := ih hrest
    have hsum := toNat_of_checkedAdd hnxt
    refine ⟨by simp [hobjs], ?_, by omega, ?_⟩
    · refine List.pairwise_cons.2 ⟨fun entry hent => ?_, hpairwise⟩
      have := (hbnds entry hent).1
      show start.toNat + (words object).toNat ≤ entry.2.toNat
      omega
    · intro entry hent
      rcases List.mem_cons.1 hent with rfl | hent
      · exact ⟨Nat.le_refl _, by show start.toNat + (words object).toNat ≤ size.toNat; omega⟩
      · have := hbnds entry hent
        omega

theorem placeFrom_size {start size : UInt32} {objects : List (Object k)}
    (h : placeFrom words start objects = .ok (placed, size)) :
    size.toNat = start.toNat + (objects.map fun object => (words object).toNat).sum := by
  induction objects generalizing start placed with
  | nil =>
    cases h
    rfl
  | cons object objects ih =>
    obtain ⟨next, hnxt, h⟩ := bind_eq_ok.1 h
    obtain ⟨⟨rest, size'⟩, hrest, h⟩ := bind_eq_ok.1 h
    cases h
    have hsum := toNat_of_checkedAdd hnxt
    rw [ih hrest, List.map_cons, List.sum_cons]
    omega

theorem placeFrom_ok (words : Object k → UInt32) (start : UInt32) (objects : List (Object k))
    (h : start.toNat + (objects.map fun object => (words object).toNat).sum < wordValues) :
    ∃ placed size, placeFrom words start objects = .ok (placed, size) := by
  induction objects generalizing start with
  | nil => exact ⟨[], start, rfl⟩
  | cons object objects ih =>
    rw [List.map_cons, List.sum_cons] at h
    have hnxt : checkedAdd start (words object) = .ok (start + words object) := if_pos (by omega)
    have hsum := toNat_of_checkedAdd hnxt
    obtain ⟨placed, size, hrest⟩ := ih (start + words object) (by omega)
    exact ⟨(object, start) :: placed, size, by simp [placeFrom, hnxt, hrest]⟩

/-! ## Layouts -/

/-- How a frame places objects: inside of it and apart from each other. -/
structure Layout (slots : Slots k) (registers : Vector (Option Register) k) (hasCalls : Bool)
    (frame : Frame k) (place : Object k → Option UInt32) : Prop where
  within : ∀ object a, place object = some a →
    a.toNat + (object.words slots).toNat ≤ frame.size.toNat
  apart : ∀ object other a b, object ≠ other → place object = some a → place other = some b →
    a.toNat + (object.words slots).toNat ≤ b.toNat ∨ b.toNat + (other.words slots).toNat ≤ a.toNat
  /-- Every slot has a home of the right kind. -/
  home : ∀ slot,
    (slots.isArray slot = true ∧
      ∃ a, place (.slot slot) = some a ∧ frame.homes.get slot = some (.array a)) ∨
    (slots.isArray slot = false ∧
      ∃ r, registers.get slot = some r ∧ frame.homes.get slot = some (.register r)) ∨
    (slots.isArray slot = false ∧ registers.get slot = none ∧
      ∃ a, place (.slot slot) = some a ∧ frame.homes.get slot = some (.stack a))
  saved : ∀ r a, (r, a) ∈ frame.saved → r.isSaved = true ∧ place (.register r) = some a
  saved_nodup : (frame.saved.map (·.1)).Nodup
  saves : ∀ slot r, registers.get slot = some r → r.isSaved = true → ∃ a, (r, a) ∈ frame.saved
  spared : ∀ r a, (r, a) ∈ frame.spared → r.isVolatile = true ∧ place (.register r) = some a
  spares : ∀ slot r, hasCalls = true → registers.get slot = some r → r.isVolatile = true →
    ∃ a, (r, a) ∈ frame.spared

namespace Layout

variable {slots : Slots k} {registers : Vector (Option Register) k} {hasCalls : Bool}
  {frame : Frame k} {place : Object k → Option UInt32} {slot : Fin k} {a : UInt32}

theorem place_of_stack (h : Layout slots registers hasCalls frame place)
    (hhome : frame.homes.get slot = some (.stack a)) :
    place (.slot slot) = some a ∧ slots.isArray slot = false := by
  rcases h.home slot with ⟨-, b, -, h⟩ | ⟨-, r, -, h⟩ | ⟨harr, -, b, hb, h⟩ <;>
    cases hhome.symm.trans h
  exact ⟨hb, harr⟩

theorem place_of_array (h : Layout slots registers hasCalls frame place)
    (hhome : frame.homes.get slot = some (.array a)) :
    place (.slot slot) = some a ∧ slots.isArray slot = true := by
  rcases h.home slot with ⟨harr, b, hb, h⟩ | ⟨-, r, -, h⟩ | ⟨-, -, b, -, h⟩ <;>
    cases hhome.symm.trans h
  exact ⟨hb, harr⟩

end Layout

namespace Frame

variable {r : Register}

theorem mem_usedRegisters {registers : Vector (Option Register) k} {p : Register → Bool} :
    r ∈ usedRegisters registers p ↔ p r = true ∧ ∃ slot, registers.get slot = some r := by
  rw [usedRegisters, List.mem_filter, Bool.and_eq_true, Vector.contains_iff_mem,
    Vector.mem_iff_getElem]
  constructor
  · rintro ⟨-, hp, i, hi, h⟩
    exact ⟨hp, ⟨i, hi⟩, h⟩
  · rintro ⟨hp, slot, h⟩
    exact ⟨r.mem_all, hp, slot.val, slot.isLt, h⟩

theorem mem_registerOffsets {registers : List Register} {a : UInt32} :
    (r, a) ∈ registerOffsets placed registers ↔
      r ∈ registers ∧ placed.lookup (.register r) = some a := by
  simp only [registerOffsets, List.mem_filterMap, Option.map_eq_some_iff, Prod.mk.injEq]
  constructor
  · rintro ⟨r, hr, a, ha, rfl, rfl⟩
    exact ⟨hr, ha⟩
  · rintro ⟨hr, ha⟩
    exact ⟨r, hr, a, ha, rfl, rfl⟩

theorem map_fst_registerOffsets (placed : List (Object k × UInt32)) (registers : List Register) :
    List.Sublist ((registerOffsets placed registers).map (·.1)) registers := by
  induction registers with
  | nil => exact .slnil
  | cons r registers ih =>
    unfold registerOffsets at ih ⊢
    cases h : placed.lookup (.register r) with
    | none => simpa [h] using ih.cons r
    | some a => simpa [h] using ih.cons_cons r

variable {object : Object k}

theorem exists_lookup (h : object ∈ placed.map (·.1)) : ∃ a, placed.lookup object = some a := by
  induction placed with
  | nil => simp at h
  | cons entry placed ih =>
    obtain ⟨other, a⟩ := entry
    rw [List.lookup_cons]
    split
    · exact ⟨a, rfl⟩
    · rename_i hne
      refine ih ?_
      simp only [List.map_cons, List.mem_cons] at h
      exact h.resolve_left (by simpa using hne)

theorem mem_of_lookup {a : UInt32} (h : placed.lookup object = some a) : (object, a) ∈ placed := by
  obtain ⟨before, after, rfl, -⟩ := List.lookup_eq_some_iff.1 h
  simp

variable {params : UInt32}

theorem ofRegisters_spec {slots : Slots k} {registers : Vector (Option Register) k}
    {hasCalls : Bool} {frame : Frame k}
    (h : ofRegisters params slots registers hasCalls = .ok frame) :
    ∃ place, Layout slots registers hasCalls frame place := by
  obtain ⟨⟨placed, size⟩, hpld, h⟩ := bind_eq_ok.1 h
  cases h
  obtain ⟨hobjs, hpairwise, -, hbnds⟩ := placeFrom_spec hpld
  have hroom : ∀ slot, needsRoom slots registers slot = true →
      ∃ a, placed.lookup (.slot slot) = some a := by
    intro slot hroom
    refine exists_lookup ?_
    rw [hobjs]
    simp only [objects, List.mem_append, List.mem_map, List.mem_filter, List.mem_finRange, true_and,
      decide_eq_true_eq]
    by_cases hlt : slot.val < params.toNat
    · exact .inl (.inl (.inl ⟨slot, ⟨hroom, hlt⟩, rfl⟩))
    · exact .inr ⟨slot, ⟨hroom, Nat.le_of_not_lt hlt⟩, rfl⟩
  have hreg : ∀ r, r ∈ savedRegisters registers ∨ r ∈ sparedRegisters registers hasCalls →
      ∃ a, placed.lookup (.register r) = some a := by
    intro r hr
    refine exists_lookup ?_
    rw [hobjs]
    simp only [objects, List.mem_append, List.mem_map]
    rcases hr with hr | hr
    · exact .inl (.inl (.inr ⟨r, hr, rfl⟩))
    · exact .inl (.inr ⟨r, hr, rfl⟩)
  refine ⟨(placed.lookup ·), ?_, ?_, ?_, ?_, ?_, ?_, ?_, ?_⟩
  · intro object a ha
    exact (hbnds _ (mem_of_lookup ha)).2
  · intro object other a b hne ha hb
    have hentries : (object, a) ≠ (other, b) := fun heq => hne (congrArg Prod.fst heq)
    have hclr : placed.Pairwise (Clear (·.words slots)) := hpairwise.imp .inl
    exact hclr.forall (mem_of_lookup ha) (mem_of_lookup hb) hentries
  · intro slot
    have hhome : (Vector.ofFn (homeOf slots registers placed)).get slot =
        homeOf slots registers placed slot := by simp [get_eq_getElem]
    simp only [hhome, homeOf]
    cases harr : slots.isArray slot with
    | true =>
      obtain ⟨a, ha⟩ := hroom slot (by simp [needsRoom, harr])
      exact .inl ⟨rfl, a, ha, by simp [ha]⟩
    | false =>
      cases hr : registers.get slot with
      | some r => exact .inr (.inl ⟨rfl, r, rfl, by simp⟩)
      | none =>
        obtain ⟨a, ha⟩ := hroom slot (by simp [needsRoom, hr])
        exact .inr (.inr ⟨rfl, rfl, a, ha, by simp [ha]⟩)
  · intro r a hmem
    obtain ⟨hr, ha⟩ := mem_registerOffsets.1 hmem
    exact ⟨(mem_usedRegisters.1 hr).1, ha⟩
  · refine (map_fst_registerOffsets placed _).nodup ?_
    exact List.Nodup.filter _ (by decide)
  · intro slot r hr hsav
    have hmem : r ∈ savedRegisters registers := mem_usedRegisters.2 ⟨hsav, slot, hr⟩
    obtain ⟨a, ha⟩ := hreg r (.inl hmem)
    exact ⟨a, mem_registerOffsets.2 ⟨hmem, ha⟩⟩
  · intro r a hmem
    obtain ⟨hr, ha⟩ := mem_registerOffsets.1 hmem
    refine ⟨?_, ha⟩
    unfold sparedRegisters at hr
    split at hr
    · exact (mem_usedRegisters.1 hr).1
    · cases hr
  · intro slot r hcalls hr hvol
    have hmem : r ∈ sparedRegisters registers hasCalls := by
      rw [sparedRegisters, if_pos hcalls]
      exact mem_usedRegisters.2 ⟨hvol, slot, hr⟩
    obtain ⟨a, ha⟩ := hreg r (.inr hmem)
    exact ⟨a, mem_registerOffsets.2 ⟨hmem, ha⟩⟩

/-! ## Frames that fit -/

theorem sum_filter_add_sum_filter_le {α : Type} (f : α → Nat) {p q : α → Bool}
    (h : ∀ a, ¬ (p a = true ∧ q a = true)) (as : List α) :
    ((as.filter p).map f).sum + ((as.filter q).map f).sum ≤ (as.map f).sum := by
  induction as with
  | nil => exact Nat.le_refl _
  | cons a as ih =>
    rw [List.filter_cons, List.filter_cons, List.map_cons, List.sum_cons]
    have ha := h a
    split <;> split <;> simp_all only [List.map_cons, List.sum_cons, and_self, not_true,
      Bool.not_eq_true] <;> omega

theorem length_usedRegisters_le (registers : Vector (Option Register) k) (p : Register → Bool) :
    (usedRegisters registers p).length ≤ (Register.all.filter p).length := by
  refine List.Sublist.length_le (List.monotone_filter_right _ fun r hr => ?_)
  exact (Bool.and_eq_true _ _ ▸ hr).1

def slotWords (slots : Slots k) (slot : Fin k) : Nat := ((Object.slot slot).words slots).toNat

theorem sum_objects_le (params : UInt32) (slots : Slots k)
    (registers : Vector (Option Register) k) (hasCalls : Bool) :
    ((objects params slots registers hasCalls).map fun o => (o.words slots).toNat).sum ≤
      (((List.finRange k).filter (needsRoom slots registers)).map (slotWords slots)).sum +
        (savedRegisters registers ++ sparedRegisters registers hasCalls).length := by
  have hregs : ∀ rs : List Register,
      (rs.map fun r => ((Object.register r : Object k).words slots).toNat).sum = rs.length := by
    intro rs
    simp [Object.words]
  have hslots := sum_filter_add_sum_filter_le (slotWords slots)
    (p := fun slot : Fin k => slot.val < params.toNat)
    (q := fun slot : Fin k => params.toNat ≤ slot.val) (fun slot => by simp)
    ((List.finRange k).filter (needsRoom slots registers))
  simp only [objects, List.map_append, List.map_map, List.sum_append, Function.comp_def,
    hregs, List.length_append]
  unfold slotWords at hslots ⊢
  omega

theorem ofRegisters_ok {slots : Slots k} {registers : Vector (Option Register) k} {hasCalls : Bool}
    (h : ((objects params slots registers hasCalls).map fun o => (o.words slots).toNat).sum <
      wordValues) : ∃ frame, ofRegisters params slots registers hasCalls = .ok frame := by
  have hz : (0 : UInt32).toNat = 0 := rfl
  obtain ⟨placed, size, hpld⟩ := placeFrom_ok (·.words slots) 0
    (objects params slots registers hasCalls) (by omega)
  exact ⟨_, by simp only [ofRegisters, hpld]; rfl⟩

theorem sum_objects_lt {slots : Slots k} (params : UInt32)
    (registers : Vector (Option Register) k) (hasCalls : Bool)
    (h : ((List.finRange k).map (slotWords slots)).sum + Register.all.length < wordValues) :
    ((objects params slots registers hasCalls).map fun o => (o.words slots).toNat).sum <
      wordValues := by
  have hsav : (savedRegisters registers).length ≤ 12 := length_usedRegisters_le registers _
  have hspd : (sparedRegisters registers hasCalls).length ≤ 15 := by
    unfold sparedRegisters
    split
    · exact length_usedRegisters_le registers _
    · exact Nat.zero_le _
  have hslots := sum_filter_add_sum_filter_le (slotWords slots)
    (p := needsRoom slots registers) (q := fun _ => false) (by simp) (List.finRange k)
  have hobjs := sum_objects_le params slots registers hasCalls
  have hall : Register.all.length = 28 := rfl
  rw [List.length_append] at hobjs
  omega

theorem nodup_usedRegisters (registers : Vector (Option Register) k) (p : Register → Bool) :
    (usedRegisters registers p).Nodup := List.Nodup.filter _ (by decide)

theorem length_preserved_le {slots : Slots k} {registers : Vector (Option Register) k}
    (hsca : ∀ slot r, registers.get slot = some r → slots.isArray slot = false) (hasCalls : Bool) :
    (savedRegisters registers ++ sparedRegisters registers hasCalls).length ≤
      ((List.finRange k).filter fun slot => !needsRoom slots registers slot).length := by
  have hspd : (sparedRegisters registers hasCalls).Sublist
      (usedRegisters registers Register.isVolatile) := by
    unfold sparedRegisters
    split
    · exact .refl _
    · exact List.nil_sublist _
  have hnd : (savedRegisters registers ++ sparedRegisters registers hasCalls).Nodup := by
    refine (nodup_usedRegisters _ _).append (hspd.nodup (nodup_usedRegisters _ _)) ?_
    intro r hsav hspr
    have hsav := (mem_usedRegisters.1 hsav).1
    have hvol := (mem_usedRegisters.1 (hspd.subset hspr)).1
    cases r <;> simp_all [Register.isVolatile, Register.isSaved]
  have hsubset : (savedRegisters registers ++ sparedRegisters registers hasCalls).map some ⊆
      ((List.finRange k).filter fun slot => !needsRoom slots registers slot).map registers.get := by
    intro x hx
    obtain ⟨r, hr, rfl⟩ := List.mem_map.1 hx
    have hused : ∃ slot, registers.get slot = some r := by
      rcases List.mem_append.1 hr with hr | hr
      · exact (mem_usedRegisters.1 hr).2
      · exact (mem_usedRegisters.1 (hspd.subset hr)).2
    obtain ⟨slot, hslot⟩ := hused
    refine List.mem_map.2 ⟨slot, List.mem_filter.2 ⟨List.mem_finRange _, ?_⟩, hslot⟩
    simp [needsRoom, hsca slot r hslot, hslot]
  have hle := ((hnd.map fun _ _ => Option.some.inj).subperm hsubset).length_le
  rwa [List.length_map, List.length_map] at hle

theorem size_le {slots : Slots k} {registers : Vector (Option Register) k} {hasCalls : Bool}
    {frame : Frame k} (hsca : ∀ slot r, registers.get slot = some r → slots.isArray slot = false)
    (h : ofRegisters params slots registers hasCalls = .ok frame) :
    frame.size.toNat ≤ ((List.finRange k).map (slotWords slots)).sum := by
  obtain ⟨⟨placed, size⟩, hpld, h⟩ := bind_eq_ok.1 h
  cases h
  have hsz := placeFrom_size hpld
  have hobjs := sum_objects_le params slots registers hasCalls
  have hpreserved := length_preserved_le hsca hasCalls
  have hones : (((List.finRange k).filter fun slot => !needsRoom slots registers slot).map
      (slotWords slots)).sum =
      ((List.finRange k).filter fun slot => !needsRoom slots registers slot).length := by
    rw [List.map_congr_left (g := fun _ => 1), List.map_const', List.sum_replicate_nat, Nat.mul_one]
    intro slot hslot
    have hroom := (List.mem_filter.1 hslot).2
    simp only [needsRoom, Slots.isArray, Bool.not_or, Bool.and_eq_true, Bool.not_eq_true',
      Option.isSome_eq_false_iff, Option.isNone_iff_eq_none] at hroom
    simp [slotWords, Object.words, hroom.1]
  have hslots := sum_filter_add_sum_filter_le (slotWords slots)
    (p := needsRoom slots registers) (q := fun slot => !needsRoom slots registers slot)
    (by simp) (List.finRange k)
  have hz : (0 : UInt32).toNat = 0 := rfl
  show size.toNat ≤ _
  omega

end Frame

end SysY.Allocation

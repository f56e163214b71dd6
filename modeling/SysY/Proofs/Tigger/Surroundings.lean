import SysY.Proofs.Tigger.Homes

/-!
# The surroundings of a function

What a function of three-address code finds when it is called is laid out in the memory that its
register code finds: its own arrays lie in its frame, global variables where they are placed, and
other arrays outside. `Fits` says that these do not overlap and that callees respect them;
`grounds_of_fits` is what the proofs about single instructions need.
-/

namespace SysY.Tigger

open Eeyore (Decl World declaration?)
open SysY.Flow Allocation

/-! ## What three-address code finds -/

namespace Setting

variable (setting : Setting)

def frame (words : UInt32) : Region := ⟨setting.sp, 4 * words.toNat⟩

/-- Where a global variable is. -/
def global (decl : Decl) : Region :=
  ⟨setting.place ⟨decl.symbol.id⟩, 4 * (decl.size.getD 1).toNat⟩

/-- The surroundings of a function whose own arrays lie at some offsets of its frame. -/
def world (function : Eeyore.Function) (offset : Symbol → UInt32) (others : List Region) : World where
  place x :=
    if (slotDecls function).any (·.symbol = x) then setting.slot (offset x)
    else setting.place ⟨x.id⟩
  others := others
  byZero := setting.byZero
  reply i := {
    value := (setting.reply i).registers .a0
    globals := fun x => some ((setting.reply i).memory.word (setting.place ⟨x.id⟩))
    memory := (setting.reply i).memory }
  keeps _ _ := false

/-- The scalars with which a function begins: its arguments are in registers, and global variables
are in memory. -/
def scalars (function : Eeyore.Function) (registers : Register → Int32) (memory : Memory)
    (x : Symbol) : Option Int32 :=
  if (slotDecls function).any (·.symbol = x) then
    if x.kind = .parameter ∧ x.id < function.parameters then
      Register.arguments[x.id.toNat]?.map registers
    else none
  else some (memory.word (setting.place ⟨x.id⟩))

/-- The memory that a function shares with others: arrays and global scalars. -/
def shared (globals : List Decl) (function : Eeyore.Function) (offset : Symbol → UInt32)
    (others : List Region) : List Region :=
  ((setting.world function offset others).activation globals function).objects ++
    (globals.filter (·.size.isNone)).map setting.global

end Setting

/-- A setting in which the memory of a function does not overlap, and where its callees leave alone
what it does not share. -/
structure Fits (globals : List Decl) (function : Eeyore.Function) (words : UInt32)
    (offset : Symbol → UInt32) (setting : Setting) (others : List Region) : Prop where
  size : 4 * words.toNat ≤ 2 ^ 32
  global_apart : ∀ d ∈ globals, ∀ e ∈ globals, d ≠ e →
    (setting.global d).Disjoint (setting.global e)
  frame_apart : ∀ d ∈ globals, (setting.frame words).Disjoint (setting.global d)
  other_apart : ∀ region ∈ others, (setting.frame words).Disjoint region ∧
    ∀ d ∈ globals, d.size = none → (setting.global d).Disjoint region
  shared_free : ∀ region ∈ setting.shared globals function offset others, ∀ b,
    region.contains b = true → setting.keeps b = false ∧ setting.reserved b = false
  kept : ∀ b, (setting.frame words).contains b = true →
    (∀ region ∈ setting.shared globals function offset others, region.contains b = false) →
    setting.keeps b = true

/-! ## Arithmetic of frames -/

section

variable (setting : Setting) {words a b u v : UInt32}

theorem Setting.frame_contains (h : a.toNat + u.toNat ≤ words.toNat) (c : UInt32)
    (hc : (Region.mk (setting.slot a) (4 * u.toNat)).contains c = true) :
    (setting.frame words).contains c = true := by
  simp only [Region.contains, Setting.frame, Setting.slot, decide_eq_true_eq, UInt32.toNat_sub,
    UInt32.toNat_add, UInt32.toNat_mul, UInt32.reduceToNat] at hc ⊢
  have := c.toNat_lt
  have := setting.sp.toNat_lt
  have := a.toNat_lt
  omega

theorem Setting.slot_disjoint (hsz : 4 * words.toNat ≤ 2 ^ 32)
    (h : a.toNat + u.toNat ≤ b.toNat) (hb : b.toNat + v.toNat ≤ words.toNat) :
    (Region.mk (setting.slot a) (4 * u.toNat)).Disjoint ⟨setting.slot b, 4 * v.toNat⟩ := by
  intro c hc
  simp only [Region.contains, Setting.slot, decide_eq_true_eq, UInt32.toNat_sub,
    UInt32.toNat_add, UInt32.toNat_mul, UInt32.reduceToNat] at hc
  have := c.toNat_lt
  have := setting.sp.toNat_lt
  have := a.toNat_lt
  have := b.toNat_lt
  omega

end

/-! ## Declarations -/

variable {n k : Nat} {globals : List Decl} {function : Eeyore.Function} {ctx : Context n k}
  {regs : Vector (Option Register) k} {place : Object k → Option UInt32}
  {offset : Symbol → UInt32} {setting : Setting} {others : List Region} {d : Decl} {a : UInt32}
  {slot : Fin k}

/-- The slots of a context are those of a function, and its arrays are those of a program. -/
structure Belongs (globals : List Decl) (function : Eeyore.Function) (ctx : Context n k) : Prop where
  decls : ctx.slots.decls.toList = slotDecls function
  arrays : ∀ x, ctx.arrays.contains x = true ↔ ∃ d ∈ globals, d.size.isSome = true ∧ d.symbol = x

theorem find?_of_nodup {decls : List Decl} (hnd : (decls.map (·.symbol)).Nodup)
    (hd : d ∈ decls) : decls.find? (·.symbol = d.symbol) = some d := by
  induction decls with
  | nil => cases hd
  | cons e decls ih =>
    obtain ⟨hnot, hnd⟩ := List.nodup_cons.1 hnd
    rcases List.mem_cons.1 hd with rfl | hd
    · simp
    · have hne : e.symbol ≠ d.symbol := fun heq => hnot (List.mem_map.2 ⟨d, hd, heq.symm⟩)
      rw [List.find?_cons_of_neg (by simpa using hne)]
      exact ih hnd hd

theorem mem_slotDecls_iff (hb : Belongs globals function ctx) :
    d ∈ slotDecls function ↔ ∃ slot, ctx.slots.decls.get slot = d := by
  rw [← hb.decls, Vector.mem_toList_iff, Vector.mem_iff_getElem]
  constructor
  · rintro ⟨i, hi, h⟩
    exact ⟨⟨i, hi⟩, h⟩
  · rintro ⟨slot, h⟩
    exact ⟨slot, slot.isLt, h⟩

section

variable (hp : Prepared ctx regs place) (hb : Belongs globals function ctx)

include hp hb

theorem any_slotDecls (x : Symbol) :
    (slotDecls function).any (·.symbol = x) = (ctx.slots.find? x).isSome := by
  rw [Bool.eq_iff_iff, List.any_eq_true, Option.isSome_iff_exists]
  constructor
  · rintro ⟨d, hd, hx⟩
    obtain ⟨slot, rfl⟩ := (mem_slotDecls_iff hb).1 hd
    exact ⟨slot, hp.find?_iff.2 (of_decide_eq_true hx)⟩
  · rintro ⟨slot, hslot⟩
    exact ⟨_, (mem_slotDecls_iff hb).2 ⟨slot, rfl⟩, decide_eq_true (hp.find?_iff.1 hslot)⟩

variable {x : Symbol}

theorem declaration?_of_slot (h : ctx.slots.find? x = some slot) :
    declaration? globals function x = some (ctx.slots.decls.get slot) := by
  obtain rfl := hp.find?_iff.1 h
  have hnd : ((slotDecls function).map (·.symbol)).Nodup := by
    rw [← hb.decls, List.Nodup, List.pairwise_map, List.pairwise_iff_getElem]
    intro i j hi hj hlt heq
    rw [Vector.length_toList] at hi hj
    rw [Vector.getElem_toList, Vector.getElem_toList] at heq
    have := hp.distinct ⟨i, hi⟩ ⟨j, hj⟩ heq
    exact absurd (Fin.mk.inj this) (Nat.ne_of_lt hlt)
  have hfind := find?_of_nodup hnd ((mem_slotDecls_iff hb).2 ⟨slot, rfl⟩)
  rw [declaration?, List.find?_append, Context.symbol, hfind]
  rfl

theorem declaration?_of_global (h : ctx.slots.find? x = none) :
    declaration? globals function x = globals.find? (·.symbol = x) := by
  have hany := any_slotDecls hp hb x
  rw [h, Option.isSome_none, List.any_eq_false] at hany
  rw [declaration?, List.find?_append, List.find?_eq_none.2 hany]
  rfl

/-! ## Arrays -/

variable
  (hoffset : ∀ x slot a, ctx.slots.find? x = some slot → place (.slot slot) = some a → offset x = a)
  {region : Region}

include hoffset

theorem array?_of_slot (hslot : ctx.slots.find? x = some slot) (ha : place (.slot slot) = some a) :
    (setting.world function offset others).array? globals function x =
      (ctx.slots.decls.get slot).size.map fun size => ⟨setting.slot a, 4 * size.toNat⟩ := by
  have hloc := any_slotDecls hp hb x
  rw [hslot, Option.isSome_some] at hloc
  simp only [World.array?, declaration?_of_slot hp hb hslot, Option.bind_some, Setting.world,
    hloc, if_true, hoffset x slot a hslot ha]

omit hoffset in
theorem array?_of_global (hslot : ctx.slots.find? x = none) :
    (setting.world function offset others).array? globals function x =
      ((globals.find? (·.symbol = x)).bind (·.size)).map fun size =>
        ⟨setting.place ⟨x.id⟩, 4 * size.toNat⟩ := by
  have hloc := any_slotDecls hp hb x
  rw [hslot, Option.isSome_none] at hloc
  simp only [World.array?, declaration?_of_global hp hb hslot, Setting.world, hloc,
    Bool.false_eq_true, if_false]

theorem array?_cases
    (h : (setting.world function offset others).array? globals function x = some region) :
    (∃ slot a, ctx.slots.find? x = some slot ∧ ctx.slots.isArray slot = true ∧
        place (.slot slot) = some a ∧
        region = ⟨setting.slot a, 4 * ((Object.slot slot).words ctx.slots).toNat⟩) ∨
      ∃ d ∈ globals, d.symbol = x ∧ d.size.isSome = true ∧ region = setting.global d := by
  cases hslot : ctx.slots.find? x with
  | some slot =>
    rcases hp.layout.home slot with ⟨harr, a, ha, -⟩ | ⟨harr, -⟩ | ⟨harr, -⟩
    · rw [array?_of_slot hp hb hoffset hslot ha] at h
      obtain ⟨size, hsz, rfl⟩ := Option.map_eq_some_iff.1 h
      exact .inl ⟨slot, a, rfl, harr, ha, by simp [Object.words, hsz]⟩
    all_goals
      have hnone : (ctx.slots.decls.get slot).size = none := by simpa [Slots.isArray] using harr
      simp [World.array?, declaration?_of_slot hp hb hslot, hnone] at h
  | none =>
    rw [array?_of_global hp hb hslot] at h
    obtain ⟨size, hsz, rfl⟩ := Option.map_eq_some_iff.1 h
    obtain ⟨d, hd, hsz⟩ := Option.bind_eq_some_iff.1 hsz
    have hx : d.symbol = x := by simpa using List.find?_some hd
    exact .inr ⟨d, List.mem_of_find?_eq_some hd, hx, by simp [hsz],
      by simp [Setting.global, hx, hsz]⟩

theorem objects_cases
    (h : region ∈ ((setting.world function offset others).activation globals function).objects) :
    region ∈ others ∨
      (∃ slot a, ctx.slots.isArray slot = true ∧ place (.slot slot) = some a ∧
        region = ⟨setting.slot a, 4 * ((Object.slot slot).words ctx.slots).toNat⟩) ∨
      ∃ d ∈ globals, d.size.isSome = true ∧ region = setting.global d := by
  rcases List.mem_append.1 h with h | h
  · exact .inl h
  · obtain ⟨d, -, h⟩ := List.mem_filterMap.1 h
    rcases array?_cases hp hb hoffset h with ⟨slot, a, -, h⟩ | ⟨d, hd, -, h⟩
    · exact .inr (.inl ⟨slot, a, h⟩)
    · exact .inr (.inr ⟨d, hd, h⟩)

end

/-! ## Grounds -/

theorem Spot.At.object {o : Object k} (h : Spot.At globals ctx place setting (.object o) a) :
    ∃ i, place o = some i ∧ (o.words ctx.slots).toNat = 1 ∧ a = setting.slot i := by
  cases h with
  | register hpl => exact ⟨_, hpl, rfl, rfl⟩
  | slot hpl harr =>
    refine ⟨_, hpl, ?_, rfl⟩
    simp only [Slots.isArray, Option.isSome_eq_false_iff, Option.isNone_iff_eq_none] at harr
    simp [Object.words, harr]

theorem Spot.At.scalar (h : Spot.At globals ctx place setting (.object (.slot slot)) a) :
    ctx.slots.isArray slot = false := by
  cases h with
  | slot _ harr => exact harr

theorem Spot.At.global_eq {x : Symbol} (h : Spot.At globals ctx place setting (.global x) a) :
    ctx.slots.find? x = none ∧ ⟨x, none⟩ ∈ globals ∧ setting.global ⟨x, none⟩ = ⟨a, 4⟩ := by
  cases h with
  | global hslot hx => exact ⟨hslot, hx, rfl⟩

section

variable (hp : Prepared ctx regs place)
  (hf : Fits globals function ctx.frame.size offset setting others)

include hp hf

variable {o : Object k} {a b : UInt32} {σ : Spot k}

theorem Fits.object_disjoint {o' : Object k} (hne : o ≠ o') (ha : place o = some a)
    (hb : place o' = some b) :
    (Region.mk (setting.slot a) (4 * (o.words ctx.slots).toNat)).Disjoint
      ⟨setting.slot b, 4 * (o'.words ctx.slots).toNat⟩ := by
  rcases hp.layout.apart o o' a b hne ha hb with h | h
  · exact setting.slot_disjoint hf.size h (hp.layout.within o' b hb)
  · exact (setting.slot_disjoint hf.size h (hp.layout.within o a ha)).symm

omit hf in
theorem object_in_frame (setting : Setting) (ha : place o = some a) (b : UInt32)
    (hb : (Region.mk (setting.slot a) (4 * (o.words ctx.slots).toNat)).contains b = true) :
    (setting.frame ctx.frame.size).contains b = true :=
  setting.frame_contains (hp.layout.within o a ha) b hb

theorem Fits.spot_disjoint {τ : Spot k} (hne : σ ≠ τ) (hσ : Spot.At globals ctx place setting σ a)
    (hτ : Spot.At globals ctx place setting τ b) :
    (Region.mk a 4).Disjoint ⟨b, 4⟩ := by
  have hmixed : ∀ {o x a b}, Spot.At globals ctx place setting (.object o) a →
      Spot.At globals ctx place setting (.global x) b → (Region.mk a 4).Disjoint ⟨b, 4⟩ := by
    intro o x a b ho hx
    obtain ⟨i, hi, hwords, rfl⟩ := ho.object
    obtain ⟨-, hmem, hglob⟩ := hx.global_eq
    refine (hglob ▸ hf.frame_apart _ hmem).mono fun c hc => object_in_frame hp setting hi c ?_
    rwa [hwords]
  cases σ with
  | object o =>
    cases τ with
    | object o' =>
      obtain ⟨i, hi, hwords, rfl⟩ := hσ.object
      obtain ⟨j, hj, hwords', rfl⟩ := hτ.object
      have := hf.object_disjoint hp (fun heq => hne (congrArg Spot.object heq)) hi hj
      rwa [hwords, hwords'] at this
    | global x => exact hmixed hσ hτ
  | global x =>
    cases τ with
    | object o => exact (hmixed hτ hσ).symm
    | global y =>
      obtain ⟨-, hmem, hglob⟩ := hσ.global_eq
      obtain ⟨-, hmem', hglob'⟩ := hτ.global_eq
      rw [← hglob, ← hglob']
      exact hf.global_apart _ hmem _ hmem' fun heq => hne (congrArg Spot.global (Decl.mk.inj heq).1)

variable (hb : Belongs globals function ctx)
  (hoffset : ∀ x slot a, ctx.slots.find? x = some slot → place (.slot slot) = some a → offset x = a)

include hb hoffset

theorem Fits.separates : (setting.world function offset others).Separates globals function := by
  intro x y r s hne hr hs
  have hmixed : ∀ {slot a d}, place (.slot slot) = some a → d ∈ globals →
      (Region.mk (setting.slot a) (4 * ((Object.slot slot).words ctx.slots).toNat)).Disjoint
        (setting.global d) :=
    fun ha hd => (hf.frame_apart _ hd).mono (object_in_frame hp setting ha)
  rcases array?_cases hp hb hoffset hr with ⟨slot, a, hslot, -, ha, rfl⟩ | ⟨d, hd, rfl, -, rfl⟩ <;>
    rcases array?_cases hp hb hoffset hs with ⟨slot', b, hslot', -, hb', rfl⟩ | ⟨e, he, rfl, -, rfl⟩
  · refine hf.object_disjoint hp (fun heq => hne ?_) ha hb'
    cases heq
    exact (hp.find?_iff.1 hslot).symm.trans (hp.find?_iff.1 hslot')
  · exact hmixed ha he
  · exact (hmixed hb' hd).symm
  · exact hf.global_apart d hd e he fun heq => hne (congrArg Decl.symbol heq)

theorem Fits.array_disjoint {region : Region}
    (hrgn : region ∈ ((setting.world function offset others).activation globals function).objects)
    (hσ : Spot.At globals ctx place setting σ a) :
    region.Disjoint ⟨a, 4⟩ := by
  cases σ with
  | object o =>
    obtain ⟨i, hi, hwords, rfl⟩ := hσ.object
    have hfrm : ∀ b, (Region.mk (setting.slot i) 4).contains b = true →
        (setting.frame ctx.frame.size).contains b = true :=
      fun b hb => object_in_frame hp setting hi b (by rwa [hwords])
    rcases objects_cases hp hb hoffset hrgn with h | ⟨slot, c, harr, hc, rfl⟩ | ⟨d, hd, -, rfl⟩
    · exact ((hf.other_apart region h).1.mono hfrm).symm
    · have hne : Object.slot slot ≠ o := by
        rintro rfl
        rw [hσ.scalar] at harr
        cases harr
      have := hf.object_disjoint hp hne hc hi
      rwa [hwords] at this
    · exact ((hf.frame_apart d hd).mono hfrm).symm
  | global x =>
    obtain ⟨-, hmem, hglob⟩ := hσ.global_eq
    rw [← hglob]
    rcases objects_cases hp hb hoffset hrgn with h | ⟨slot, c, -, hc, rfl⟩ | ⟨d, hd, hsz, rfl⟩
    · exact ((hf.other_apart region h).2 _ hmem rfl).symm
    · exact (hf.frame_apart _ hmem).mono (object_in_frame hp setting hc)
    · refine hf.global_apart d hd _ hmem ?_
      rintro rfl
      cases hsz

end

theorem Fits.admits {region : Region} (hf : Fits globals function words offset setting others)
    (hrgn : region ∈ setting.shared globals function offset others)
    (ha : region.holds a = true) : setting.admits a = true := by
  have hbyte : ∀ j : UInt32, j.toNat < 4 → setting.reserved (a + j) = false := fun j hj =>
    (hf.shared_free region hrgn (a + j) (Region.contains_of_holds ha hj)).2
  have h0 := hbyte 0 (by decide)
  rw [UInt32.add_zero] at h0
  simp [Setting.admits, h0, hbyte 1 (by decide), hbyte 2 (by decide), hbyte 3 (by decide)]

theorem grounds_of_fits (hglobs : (globals.map (·.symbol)).Nodup)
    (hp : Prepared ctx regs place) (hb : Belongs globals function ctx)
    (hoffset : ∀ x slot a, ctx.slots.find? x = some slot → place (.slot slot) = some a →
      offset x = a) (hf : Fits globals function ctx.frame.size offset setting others) :
    Grounds globals ctx place ((setting.world function offset others).activation globals function)
      setting where
  isLocal x := any_slotDecls hp hb x
  scalar x slot hslot harr := by
    have hnone : (ctx.slots.decls.get slot).size = none := by simpa [Slots.isArray] using harr
    simp [World.activation, World.array?, declaration?_of_slot hp hb hslot, hnone]
  array x slot a hslot harr ha := by
    obtain ⟨size, hsz⟩ := Option.isSome_iff_exists.1 harr
    exact ⟨4 * size.toNat, by simp [World.activation, array?_of_slot hp hb hoffset hslot ha, hsz]⟩
  globalArray x hslot harr := by
    obtain ⟨d, hd, hsz, rfl⟩ := (hb.arrays x).1 harr
    obtain ⟨size, hsz⟩ := Option.isSome_iff_exists.1 hsz
    exact ⟨4 * size.toNat, by simp [World.activation, array?_of_global hp hb hslot,
      find?_of_nodup hglobs hd, hsz]⟩
  globalScalar x hslot harr := by
    show World.array? _ _ _ _ = none
    rw [array?_of_global hp hb hslot]
    cases hfind : globals.find? (·.symbol = x) with
    | none => rfl
    | some d =>
      have hx : d.symbol = x := by simpa using List.find?_some hfind
      cases hsz : d.size with
      | none => simp [hsz]
      | some size =>
        have := (hb.arrays x).2 ⟨d, List.mem_of_find?_eq_some hfind, by simp [hsz], hx⟩
        rw [harr] at this
        cases this
  object x region h := by
    refine List.mem_append_right _ (List.mem_filterMap.2 ?_)
    obtain ⟨size, hsz, -⟩ := Option.map_eq_some_iff.1 h
    obtain ⟨d, hd, -⟩ := Option.bind_eq_some_iff.1 hsz
    have hx : d.symbol = x := by simpa using List.find?_some hd
    exact ⟨d, List.mem_of_find?_eq_some hd, by rw [hx]; exact h⟩
  byZero := rfl
  reply _ := rfl
  leaves _ _ := rfl
  spots σ τ a b hne hσ hτ :=
    (hf.spot_disjoint hp hne hσ hτ).apart (Region.holds_word a) (Region.holds_word b)
  objects region hrgn σ a hσ := hf.array_disjoint hp hb hoffset hrgn hσ
  keeps o a ho j hj := by
    obtain ⟨i, hi, hwords, rfl⟩ := ho.object
    refine hf.kept _ (object_in_frame hp setting hi _ ?_) fun region hrgn => ?_
    · rw [hwords]
      exact Region.contains_word hj
    · rw [Bool.eq_false_iff]
      intro hcon
      rcases List.mem_append.1 hrgn with h | h
      · exact hf.array_disjoint hp hb hoffset h ho _ ⟨hcon, Region.contains_word hj⟩
      · obtain ⟨d, hd, rfl⟩ := List.mem_map.1 h
        refine hf.frame_apart d (List.mem_of_mem_filter hd) _
          ⟨object_in_frame hp setting hi _ ?_, hcon⟩
        rw [hwords]
        exact Region.contains_word hj
  changes x a hx j hj := by
    obtain ⟨-, hmem, hglob⟩ := hx.global_eq
    refine (hf.shared_free (setting.global ⟨x, none⟩) ?_ _ ?_).1
    · exact List.mem_append_right _ (List.mem_map.2 ⟨_, List.mem_filter.2 ⟨hmem, rfl⟩, rfl⟩)
    · rw [hglob]
      exact Region.contains_word hj
  changesObjects region hrgn b hb := (hf.shared_free region (List.mem_append_left _ hrgn) b hb).1
  admits x a hx := by
    obtain ⟨-, hmem, hglob⟩ := hx.global_eq
    have hshared : setting.global ⟨x, none⟩ ∈ setting.shared globals function offset others :=
      List.mem_append_right _ (List.mem_map.2 ⟨_, List.mem_filter.2 ⟨hmem, rfl⟩, rfl⟩)
    exact hf.admits hshared (hglob ▸ Region.holds_word a)
  admitsObjects region hrgn a ha := hf.admits (List.mem_append_left _ hrgn) ha

end SysY.Tigger

import SysY.Proofs.Generation.Distribution

/-!
# Nested initializers

A walk over a nested initializer takes its items in order and comes to the place of each: an
expression stands for one element, and a list for the largest proper subarray that begins at its
position. The distribution fails at the first item that cannot stand at its place. If there is none,
every item gets exactly the elements that it stands for.
-/

namespace SysY.Generation

open SysY.Tree

/-! ## Subarrays -/

/-- A proper subarray begins at a position. Subarrays of one kind follow each other without a gap. -/
structure Begins (dimensions : List Nat) (position : Nat) (subarray : List Nat) : Prop where
  nonempty : subarray ≠ []
  proper : subarray <:+ dimensions.tail
  aligned : extent subarray ∣ position

/-- The largest proper subarray that begins at a position: the others are part of it. -/
structure Largest (dimensions : List Nat) (position : Nat) (subarray : List Nat) : Prop
    extends Begins dimensions position subarray where
  largest : ∀ other, Begins dimensions position other → other <:+ subarray

section Subarrays

variable {dimensions subarray : List Nat} {position : Nat}

theorem begins_of_subarrayAt? (h : subarrayAt? position dimensions.tail = some subarray) :
    Begins dimensions position subarray := by
  obtain ⟨hne, hpr, haligned⟩ := subarrayAt?_eq_some h
  exact ⟨hne, hpr, haligned⟩

theorem exists_subarrayAt? {inner other : List Nat} (hoth : other ≠ []) (hsuf : other <:+ inner)
    (haligned : extent other ∣ position) :
    ∃ subarray, subarrayAt? position inner = some subarray ∧ other <:+ subarray := by
  induction inner with
  | nil => exact absurd (List.suffix_nil.1 hsuf) hoth
  | cons dimension inner ih =>
    rw [subarrayAt?]
    split
    · exact ⟨_, rfl, hsuf⟩
    · rename_i hnot
      rcases List.suffix_cons_iff.1 hsuf with rfl | hsuf
      · exact absurd (Nat.mod_eq_zero_of_dvd haligned) hnot
      · exact ih hsuf

theorem Begins.exists_subarrayAt? (h : Begins dimensions position subarray) :
    ∃ found, subarrayAt? position dimensions.tail = some found ∧ subarray <:+ found :=
  Generation.exists_subarrayAt? h.nonempty h.proper h.aligned

theorem subarrayAt?_eq_some_iff :
    subarrayAt? position dimensions.tail = some subarray ↔ Largest dimensions position subarray := by
  constructor
  · intro h
    refine ⟨begins_of_subarrayAt? h, fun other hoth => ?_⟩
    obtain ⟨_, hfnd, hsuf⟩ := hoth.exists_subarrayAt?
    cases h.symm.trans hfnd
    exact hsuf
  · intro h
    obtain ⟨found, hfnd, hsuf⟩ := h.exists_subarrayAt?
    rw [hfnd, (h.largest _ (begins_of_subarrayAt? hfnd)).eq_of_length_le hsuf.length_le]

theorem subarrayAt?_eq_none_iff :
    subarrayAt? position dimensions.tail = none ↔ ∀ other, ¬ Begins dimensions position other := by
  constructor
  · intro h other hoth
    obtain ⟨_, hfnd, _⟩ := hoth.exists_subarrayAt?
    cases h.symm.trans hfnd
  · intro h
    cases hfnd : subarrayAt? position dimensions.tail with
    | none => rfl
    | some subarray => exact absurd (begins_of_subarrayAt? hfnd) (h subarray)

end Subarrays

/-! ## Places of items -/

/-- An item and its place: a position in an array that begins at an element of the whole one. -/
structure Spot where
  start : Nat
  dimensions : List Nat
  position : Nat
  item : Initializer

/-- The walk over the items of an array from a position on. It comes to the place of an item, or it
takes all items. -/
inductive Walk : (start : Nat) → (dimensions : List Nat) → (position : Nat) → List Initializer →
    Option Spot → Prop
  | finish {start dimensions position} : Walk start dimensions position [] none
  | here {start dimensions position item rest} :
    Walk start dimensions position (item :: rest) (some ⟨start, dimensions, position, item⟩)
  | expr {start dimensions position value rest spot?} (room : position < extent dimensions)
    (walk : Walk start dimensions (position + 1) rest spot?) :
    Walk start dimensions position (.expr value :: rest) spot?
  | inside {start dimensions position items location rest subarray spot}
    (room : position < extent dimensions) (largest : Largest dimensions position subarray)
    (walk : Walk (start + position) subarray 0 items (some spot)) :
    Walk start dimensions position (.list items location :: rest) (some spot)
  | past {start dimensions position items location rest subarray spot?}
    (room : position < extent dimensions) (largest : Largest dimensions position subarray)
    (taken : Walk (start + position) subarray 0 items none)
    (walk : Walk start dimensions (position + extent subarray) rest spot?) :
    Walk start dimensions position (.list items location :: rest) spot?

namespace Spot

/-- Why an item cannot stand at its place. -/
inductive Refuses : Spot → SemanticError → Prop
  | full {spot} (full : extent spot.dimensions ≤ spot.position) : Refuses spot .tooManyInitializers
  | misplaced {start dimensions position items location} (room : position < extent dimensions)
    (none : ∀ subarray, ¬ Begins dimensions position subarray) :
    Refuses ⟨start, dimensions, position, .list items location⟩ (misplacedList dimensions)

/-- So many elements belong to an item. -/
def Takes (spot : Spot) (count : Nat) : Prop :=
  match spot.item with
  | .expr _ => count = 1
  | .list .. => ∃ subarray, Largest spot.dimensions spot.position subarray ∧ count = extent subarray

/-- The elements of an item, from its place on, have its expressions. -/
def Filled (spot : Spot) (elements : List (Option Expr)) : Prop :=
  ∃ before among after, elements = before ++ among ++ after ∧
    before.length = spot.start + spot.position ∧ spot.Takes among.length ∧
    among.filterMap id = spot.item.exprs

end Spot

variable {start position : Nat} {dimensions subarray : List Nat} {items rest : List Initializer}
  {spot : Spot} {cells : List Cell} {location : Location}

theorem Walk.within (h : Walk start dimensions position items (some spot))
    (hpos : position ≤ extent dimensions) :
    spot.start + extent spot.dimensions ≤ start + extent dimensions ∧
      spot.position ≤ extent spot.dimensions := by
  generalize hspot : some spot = spot? at h
  induction h with
  | finish => cases hspot
  | here =>
    cases hspot
    exact ⟨Nat.le_refl _, hpos⟩
  | expr room _ ih => exact ih room hspot
  | inside room largest _ ih =>
    have hle := subarray_le (subarrayAt?_eq_some_iff.2 largest) room
    obtain ⟨hinner, hspot⟩ := ih (Nat.zero_le _) hspot
    exact ⟨by omega, hspot⟩
  | past room largest _ _ _ ih => exact ih (subarray_le (subarrayAt?_eq_some_iff.2 largest) room) hspot

/-! ## Failures -/

theorem distributeFrom_expr {value : Expr} (room : position < extent dimensions) :
    distributeFrom dimensions position (.expr value :: rest) = (do
      return .value value :: (← distributeFrom dimensions (position + 1) rest)) := by
  rw [distributeFrom, if_neg (Nat.not_le.2 room)]

theorem distributeFrom_list (room : position < extent dimensions)
    (largest : Largest dimensions position subarray) :
    distributeFrom dimensions position (.list items location :: rest) = (do
      let cells ← distributeFrom subarray 0 items
      return cells ++ (← distributeFrom dimensions (position + extent subarray) rest)) := by
  rw [distributeFrom, if_neg (Nat.not_le.2 room), subarrayAt?_eq_some_iff.2 largest]

theorem Spot.Refuses.distributeFrom {error : SemanticError} (h : spot.Refuses error)
    (rest : List Initializer) :
    distributeFrom spot.dimensions spot.position (spot.item :: rest) =
      .error ⟨error, spot.item.location⟩ := by
  cases h with
  | full full => rw [Generation.distributeFrom.eq_def]; exact if_pos full
  | misplaced room none =>
    rw [Generation.distributeFrom, if_neg (Nat.not_le.2 room), subarrayAt?_eq_none_iff.2 none]
    rfl

theorem Walk.outcome {spot? : Option Spot} (h : Walk start dimensions position items spot?) :
    match spot? with
    | none => ∃ cells, distributeFrom dimensions position items = .ok cells
    | some spot => ∀ error, spot.Refuses error →
      distributeFrom dimensions position items = .error ⟨error, spot.item.location⟩ := by
  induction h with
  | finish => exact ⟨_, by rw [distributeFrom]⟩
  | here => exact fun error href => href.distributeFrom _
  | @expr _ _ _ _ _ spot? room _ ih =>
    rw [distributeFrom_expr room]
    cases spot? with
    | none =>
      obtain ⟨cells, hcel⟩ := ih
      exact ⟨_, by rw [hcel]; rfl⟩
    | some spot =>
      intro error href
      rw [ih error href]
      rfl
  | inside room largest _ ih =>
    intro error href
    rw [distributeFrom_list room largest, ih error href]
    rfl
  | @past _ _ _ _ _ _ _ spot? room largest _ _ ihtaken ih =>
    obtain ⟨first, hfst⟩ := ihtaken
    rw [distributeFrom_list room largest, hfst]
    cases spot? with
    | none =>
      obtain ⟨second, hsnd⟩ := ih
      exact ⟨first ++ second, by rw [hsnd]; rfl⟩
    | some spot =>
      intro error href
      exact congrArg (fun r : Except (Located SemanticError) (List Cell) => do return first ++ (← r))
        (ih error href)

theorem walk_distributeFrom : ∀ (items : List Initializer) (start : Nat) (dimensions : List Nat)
    (position : Nat), match distributeFrom dimensions position items with
    | .ok _ => Walk start dimensions position items none
    | .error error => ∃ spot, Walk start dimensions position items (some spot) ∧
      spot.Refuses error.value ∧ error.location = spot.item.location
  | [], start, dimensions, position => by
    rw [distributeFrom]
    exact .finish
  | item :: rest, start, dimensions, position => by
    by_cases room : position < extent dimensions
    swap
    · have href : Spot.Refuses ⟨start, dimensions, position, item⟩ _ := .full (Nat.not_lt.1 room)
      rw [href.distributeFrom rest]
      exact ⟨_, .here, href, rfl⟩
    cases item with
    | expr value =>
      have ih := walk_distributeFrom rest start dimensions (position + 1)
      rw [distributeFrom_expr room]
      cases hrest : distributeFrom dimensions (position + 1) rest with
      | ok cells =>
        rw [hrest] at ih
        exact .expr room ih
      | error error =>
        rw [hrest] at ih
        obtain ⟨spot, hwalk, hspot⟩ := ih
        exact ⟨spot, .expr room hwalk, hspot⟩
    | list items location =>
      cases hsub : subarrayAt? position dimensions.tail with
      | none =>
        have href : Spot.Refuses ⟨start, dimensions, position, .list items location⟩ _ :=
          .misplaced room (subarrayAt?_eq_none_iff.1 hsub)
        rw [href.distributeFrom rest]
        exact ⟨_, .here, href, rfl⟩
      | some subarray =>
        have largest := subarrayAt?_eq_some_iff.1 hsub
        have ih := walk_distributeFrom items (start + position) subarray 0
        rw [distributeFrom_list room largest]
        cases hitems : distributeFrom subarray 0 items with
        | error error =>
          rw [hitems] at ih
          obtain ⟨spot, hwalk, hspot⟩ := ih
          exact ⟨spot, .inside room largest hwalk, hspot⟩
        | ok first =>
          rw [hitems] at ih
          have ih' := walk_distributeFrom rest start dimensions (position + extent subarray)
          cases hrest : distributeFrom dimensions (position + extent subarray) rest with
          | ok second =>
            rw [hrest] at ih'
            exact .past room largest ih ih'
          | error error =>
            rw [hrest] at ih'
            obtain ⟨spot, hwalk, hspot⟩ := ih'
            exact ⟨spot, .past room largest ih hwalk, hspot⟩

/-! ## Elements -/

theorem Walk.filled (h : Walk start dimensions position items (some spot))
    (hcel : distributeFrom dimensions position items = .ok cells) :
    ∃ before among after, expanded cells = before ++ among ++ after ∧
      start + position + before.length = spot.start + spot.position ∧ spot.Takes among.length ∧
      among.filterMap id = spot.item.exprs := by
  generalize hspot : some spot = spot? at h
  induction h generalizing cells with
  | finish => cases hspot
  | here =>
    cases hspot
    obtain ⟨room, ⟨value, cells', rfl, _, rfl⟩ | ⟨items, location, subarray, first, second, rfl,
      hsub, hfst, _, rfl⟩⟩ := distributeFrom_cons hcel
    · exact ⟨[], [some value], expanded cells', rfl, rfl, rfl, by rw [Initializer.exprs]; rfl⟩
    · have hdtd := distributed_distributeFrom hfst (Nat.zero_le _)
      refine ⟨[], expanded first, expanded second, expanded_append _ _, rfl,
        ⟨subarray, subarrayAt?_eq_some_iff.1 hsub, hdtd.length⟩, ?_⟩
      rw [hdtd.exprs, Initializer.exprs]
  | expr room _ ih =>
    rw [distributeFrom_expr room, bind_eq_ok] at hcel
    obtain ⟨cells', hrest, hlast⟩ := hcel
    cases hlast
    obtain ⟨before, among, after, heq, hlen, hitem⟩ := ih hrest hspot
    refine ⟨_ :: before, among, after, congrArg (_ :: ·) heq, ?_, hitem⟩
    rw [List.length_cons]
    omega
  | inside room largest _ ih =>
    rw [distributeFrom_list room largest, bind_eq_ok] at hcel
    obtain ⟨first, hfst, hcel⟩ := hcel
    obtain ⟨second, _, hlast⟩ := bind_eq_ok.1 hcel
    cases hlast
    obtain ⟨before, among, after, heq, hlen, hitem⟩ := ih hfst hspot
    refine ⟨before, among, after ++ expanded second, ?_, hlen, hitem⟩
    rw [expanded_append, heq, List.append_assoc]
  | past room largest _ _ _ ih =>
    rw [distributeFrom_list room largest, bind_eq_ok] at hcel
    obtain ⟨first, hfst, hcel⟩ := hcel
    obtain ⟨second, hsnd, hlast⟩ := bind_eq_ok.1 hcel
    cases hlast
    obtain ⟨before, among, after, heq, hlen, hitem⟩ := ih hsnd hspot
    have hfst := (distributed_distributeFrom hfst (Nat.zero_le _)).length
    refine ⟨expanded first ++ before, among, after, ?_, ?_, hitem⟩
    · rw [expanded_append, heq]
      simp only [List.append_assoc]
    · rw [List.length_append, hfst]
      omega

/-- A nested initializer is distributed over an array without loss. Wherever the walk over its items
comes to, the array around the item lies inside of the whole one. If the distribution succeeds, its
elements are those of the array, their expressions are those of the initializer in order, and those
of each item stand at its place. It fails at the first item that cannot stand at its place, and only
there. -/
theorem distribute_nested (dimension : Nat) (dimensions : List Nat) (items : List Initializer)
    (location : Location) :
    (∀ spot, Walk 0 (dimension :: dimensions) 0 items (some spot) →
      spot.start + extent spot.dimensions ≤ extent (dimension :: dimensions) ∧
        spot.position ≤ extent spot.dimensions) ∧
    (∀ cells, distribute (dimension :: dimensions) (.list items location) = .ok cells →
      (expanded cells).length = extent (dimension :: dimensions) ∧
      (expanded cells).filterMap id = (Initializer.list items location).exprs ∧
      ∀ spot, Walk 0 (dimension :: dimensions) 0 items (some spot) → spot.Filled (expanded cells)) ∧
    ∀ error, distribute (dimension :: dimensions) (.list items location) = .error error ↔
      ∃ spot, Walk 0 (dimension :: dimensions) 0 items (some spot) ∧ spot.Refuses error.value ∧
        error.location = spot.item.location := by
  have hdistribute : distribute (dimension :: dimensions) (.list items location) =
      distributeFrom (dimension :: dimensions) 0 items := by rw [distribute]; rfl
  refine ⟨fun spot hwalk => ?_, fun cells hcells => ?_, fun error => ⟨fun herror => ?_, ?_⟩⟩
  · have hwithin := hwalk.within (Nat.zero_le _)
    rwa [Nat.zero_add] at hwithin
  · have hdistributed := distributed_distribute hcells
    refine ⟨hdistributed.length, hdistributed.exprs, fun spot hwalk => ?_⟩
    obtain ⟨before, among, after, heq, hlength, hitem⟩ := hwalk.filled (hdistribute ▸ hcells)
    exact ⟨before, among, after, heq, by omega, hitem⟩
  · have hwalk := walk_distributeFrom items 0 (dimension :: dimensions) 0
    rwa [← hdistribute, herror] at hwalk
  · rintro ⟨spot, hwalk, hrefuses, hlocation⟩
    obtain ⟨value, place⟩ := error
    obtain rfl : place = spot.item.location := hlocation
    rw [hdistribute, hwalk.outcome value hrefuses]

end SysY.Generation

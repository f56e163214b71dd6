import SysY.Eeyore.Symbol

/-!
# Machines that run lists of instructions

Register code and machine code run alike: an instruction changes the state, and then control goes on
to the next position, to a label or out of the function. `run_block` is how the proofs use a
machine: a block without jumps that lies anywhere in the code has the effect of its instructions, one
after the other.
-/

namespace SysY

open List

/-- Where control goes after an instruction. -/
inductive Course
  | next
  | jump (label : Label)
  | leave
deriving DecidableEq

/-- How far a run has come. -/
inductive Progress (σ : Type)
  | running (position : Nat) (state : σ)
  | returned (state : σ)
  | stuck

/-- A language of instructions `ι` on states `σ`. -/
structure Machine (ι σ : Type) where
  /-- What an instruction does, if it has a meaning. -/
  effect : σ → ι → Option σ
  /-- Where it leads. -/
  course : σ → ι → Course
  /-- The label that it sets. -/
  label? : ι → Option Label

variable {label : Label}

namespace Machine

variable {ι σ : Type} (machine : Machine ι σ) {position : Nat}

/-- The position that sets a label; of several, the last one. -/
def labelPosition? (code : List ι) (label : Label) : Option Nat :=
  (List.range code.length).reverse.find? fun p => code[p]?.bind machine.label? = some label

/-- One instruction. -/
def step (code : List ι) (position : Nat) (s : σ) : Progress σ :=
  match code[position]? with
  | none => .stuck
  | some i =>
    match machine.effect s i with
    | none => .stuck
    | some s' =>
      match machine.course s i with
      | .next => .running (position + 1) s'
      | .jump label =>
        match machine.labelPosition? code label with
        | some p => .running p s'
        | none => .stuck
      | .leave => .returned s'

/-- Up to so many instructions. -/
def run (code : List ι) : Nat → Nat → σ → Progress σ
  | 0, position, s => .running position s
  | steps + 1, position, s =>
    match machine.step code position s with
    | .running position' s' => run code steps position' s'
    | progress => progress

/-- An instruction after which control goes on. -/
def pass (s : σ) (i : ι) : Option σ :=
  match machine.course s i with
  | .next => machine.effect s i
  | _ => none

/-- The effects of instructions without jumps, one after the other. -/
def exec (block : List ι) (s : σ) : Option σ := block.foldlM machine.pass s

@[simp] theorem exec_nil (s : σ) : machine.exec [] s = some s := rfl

@[simp] theorem exec_cons (i : ι) (block : List ι) (s : σ) :
    machine.exec (i :: block) s = (machine.pass s i).bind (machine.exec block) := rfl

theorem exec_append (first second : List ι) (s : σ) :
    machine.exec (first ++ second) s = (machine.exec first s).bind (machine.exec second) := by
  rw [exec, foldlM_append]
  rfl

variable {machine} {code : List ι} {s s' : σ} {i : ι}

theorem exec_append_of_exec {first second : List ι} (h : machine.exec first s = some s') :
    machine.exec (first ++ second) s = machine.exec second s' := by
  rw [exec_append, h]
  rfl

theorem run_add {a : Nat} (b : Nat) {position' : Nat}
    (h : machine.run code a position s = .running position' s') :
    machine.run code (a + b) position s = machine.run code b position' s' := by
  induction a generalizing position s with
  | zero =>
    cases h
    rw [Nat.zero_add]
  | succ a ih =>
    rw [Nat.succ_add_eq_add_succ, Nat.add_succ, run]
    rw [run] at h
    split at h
    · exact ih h
    · rename_i hoth
      exact absurd h (hoth _ _)

theorem step_next (hi : code[position]? = some i) (hpass : machine.pass s i = some s') :
    machine.step code position s = .running (position + 1) s' := by
  unfold pass at hpass
  split at hpass
  · rename_i hcrs
    simp only [step, hi, hpass, hcrs]
  · cases hpass

theorem step_jump {target : Nat} (hi : code[position]? = some i)
    (heff : machine.effect s i = some s') (hcrs : machine.course s i = .jump label)
    (hlab : machine.labelPosition? code label = some target) :
    machine.step code position s = .running target s' := by
  simp only [step, hi, heff, hcrs, hlab]

theorem step_leave (hi : code[position]? = some i) (heff : machine.effect s i = some s')
    (hcrs : machine.course s i = .leave) : machine.step code position s = .returned s' := by
  simp only [step, hi, heff, hcrs]

theorem step_eq_running {position' : Nat} (h : machine.step code position s = .running position' s') :
    ∃ i, code[position]? = some i ∧
      (machine.pass s i = some s' ∧ position' = position + 1 ∨
        ∃ label, machine.effect s i = some s' ∧ machine.course s i = .jump label ∧
          machine.labelPosition? code label = some position') := by
  unfold step at h
  split at h
  · cases h
  rename_i i hi
  split at h
  · cases h
  rename_i s1 heff
  split at h
  · rename_i hcrs
    cases h
    exact ⟨i, hi, .inl ⟨by simp only [pass, hcrs, heff], rfl⟩⟩
  · rename_i label hcrs
    split at h
    · rename_i hlab
      cases h
      exact ⟨i, hi, .inr ⟨label, heff, hcrs, hlab⟩⟩
    · cases h
  · cases h

theorem step_eq_returned (h : machine.step code position s = .returned s') :
    ∃ i, code[position]? = some i ∧ machine.effect s i = some s' ∧ machine.course s i = .leave := by
  unfold step at h
  split at h
  · cases h
  rename_i i hi
  split at h
  · cases h
  rename_i s1 heff
  split at h
  · cases h
  · split at h <;> cases h
  · rename_i hcrs
    cases h
    exact ⟨i, hi, heff, hcrs⟩

/-- A block in some code. -/
def BlockAt (code block : List ι) (position : Nat) : Prop :=
  ∀ j, j < block.length → code[position + j]? = block[j]?

theorem BlockAt.head {block : List ι} (h : BlockAt code (i :: block) position) :
    code[position]? = some i := h 0 (by simp)

theorem BlockAt.tail {block : List ι} (h : BlockAt code (i :: block) position) :
    BlockAt code block (position + 1) := by
  intro j hj
  have := h (j + 1) (by simpa using hj)
  rwa [getElem?_cons_succ, Nat.add_comm j, ← Nat.add_assoc] at this

theorem BlockAt.left {first second : List ι} (h : BlockAt code (first ++ second) position) :
    BlockAt code first position := by
  intro j hj
  have := h j (by rw [length_append]; omega)
  rwa [getElem?_append_left hj] at this

theorem BlockAt.right {first second : List ι} (h : BlockAt code (first ++ second) position) :
    BlockAt code second (position + first.length) := by
  intro j hj
  have := h (first.length + j) (by rw [length_append]; omega)
  rwa [getElem?_append_right (by omega), Nat.add_sub_cancel_left, ← Nat.add_assoc] at this

theorem run_block {block : List ι} (hblk : BlockAt code block position)
    (hexec : machine.exec block s = some s') :
    machine.run code block.length position s = .running (position + block.length) s' := by
  induction block generalizing position s with
  | nil =>
    cases hexec
    rfl
  | cons i block ih =>
    obtain ⟨s1, hpass, hexec⟩ := Option.bind_eq_some_iff.1 hexec
    rw [length_cons, run, step_next hblk.head hpass]
    dsimp only
    rw [ih hblk.tail hexec]
    congr 1
    omega

theorem run_block_jump {block : List ι} {target : Nat} {s1 s2 : σ}
    (hblk : BlockAt code (block ++ [i]) position) (hexec : machine.exec block s = some s1)
    (heff : machine.effect s1 i = some s2) (hcrs : machine.course s1 i = .jump label)
    (hlab : machine.labelPosition? code label = some target) :
    machine.run code (block.length + 1) position s = .running target s2 := by
  rw [run_add 1 (run_block hblk.left hexec), run, step_jump hblk.right.head heff hcrs hlab]
  rfl

theorem run_block_leave {block : List ι} {s1 s2 : σ} (hblk : BlockAt code (block ++ [i]) position)
    (hexec : machine.exec block s = some s1) (heff : machine.effect s1 i = some s2)
    (hcrs : machine.course s1 i = .leave) :
    machine.run code (block.length + 1) position s = .returned s2 := by
  rw [run_add 1 (run_block hblk.left hexec), run, step_leave hblk.right.head heff hcrs]

theorem labelPosition?_eq_some {p : Nat} :
    machine.labelPosition? code label = some p ↔
      code[p]?.bind machine.label? = some label ∧
        ∀ q, p < q → code[q]?.bind machine.label? ≠ some label := by
  have hsorted : (List.range code.length).reverse.Pairwise (· > ·) :=
    List.pairwise_reverse.2 pairwise_lt_range
  have hmem : ∀ q, code[q]?.bind machine.label? = some label →
      q ∈ (List.range code.length).reverse := by
    intro q hq
    obtain ⟨i, hi, -⟩ := Option.bind_eq_some_iff.1 hq
    exact List.mem_reverse.2 (List.mem_range.2 (List.getElem?_eq_some_iff.1 hi).1)
  have hlast : ∀ q, machine.labelPosition? code label = some q →
      code[q]?.bind machine.label? = some label ∧
        ∀ r, q < r → code[r]?.bind machine.label? ≠ some label := by
    intro q hq
    obtain ⟨hlab, as, bs, hspl, has⟩ := List.find?_eq_some_iff_append.1 hq
    refine ⟨by simpa using hlab, fun r hr hr' => ?_⟩
    rcases List.mem_append.1 (hspl ▸ hmem r hr') with hmem | hmem
    · simpa [hr'] using has r hmem
    · rw [hspl] at hsorted
      rcases List.mem_cons.1 hmem with rfl | hmem
      · exact Nat.lt_irrefl _ hr
      · have := rel_of_pairwise_cons (List.pairwise_append.1 hsorted).2.1 hmem
        omega
  refine ⟨hlast p, fun ⟨hlab, habv⟩ => ?_⟩
  cases hfind : machine.labelPosition? code label with
  | none => simpa [hlab] using List.find?_eq_none.1 hfind p (hmem p hlab)
  | some q =>
    obtain ⟨hq, hq'⟩ := hlast q hfind
    rcases Nat.lt_trichotomy p q with h | h | h
    · exact absurd hq (habv q h)
    · rw [h]
    · exact absurd hlab (hq' p h)

end Machine

/-! ## Code made of blocks -/

section blocks
variable {ι σ : Type} {machine : Machine ι σ} {first block : List ι} {blocks : List (List ι)} {p : Nat}

/-- Where a block begins, behind some code and the blocks in front of it. -/
def startOf (first : List ι) (blocks : List (List ι)) (p : Nat) : Nat :=
  first.length + (blocks.take p).flatten.length

theorem startOf_succ (first : List ι) (h : blocks[p]? = some block) :
    startOf first blocks (p + 1) = startOf first blocks p + block.length := by
  rw [startOf, startOf, take_add_one, h, Option.toList_some, flatten_append,
    length_append, Nat.add_assoc]
  simp

theorem blockAt_startOf (h : blocks[p]? = some block) :
    Machine.BlockAt (first ++ blocks.flatten) block (startOf first blocks p) := by
  intro j hj
  obtain ⟨hlt, rfl⟩ := List.getElem?_eq_some_iff.1 h
  have hrest : blocks[p] ++ (blocks.drop (p + 1)).flatten = (blocks.drop p).flatten := by
    rw [drop_eq_getElem_cons hlt, flatten_cons]
  have hspl : first ++ blocks.flatten =
      (first ++ (blocks.take p).flatten) ++ (blocks[p] ++ (blocks.drop (p + 1)).flatten) := by
    rw [hrest, append_assoc, ← flatten_append, take_append_drop]
  rw [hspl, getElem?_append_right (by simp [startOf]), getElem?_append_left (by
    simp [startOf]; omega)]
  simp [startOf]

theorem Machine.run_startOf {s s' : σ} (h : blocks[p]? = some block)
    (hexec : machine.exec block s = some s') :
    machine.run (first ++ blocks.flatten) block.length (startOf first blocks p) s =
      .running (startOf first blocks (p + 1)) s' := by
  rw [startOf_succ first h]
  exact run_block (blockAt_startOf h) hexec

theorem Machine.labelPosition?_blocks {i : ι} {rest : List ι} (hblk : blocks[p]? = some (i :: rest))
    (hlab : machine.label? i = some label) (hrest : ∀ j ∈ rest, machine.label? j ≠ some label)
    (hlater : ∀ q block, p < q → blocks[q]? = some block →
      ∀ j ∈ block, machine.label? j ≠ some label) :
    machine.labelPosition? (first ++ blocks.flatten) label = some (startOf first blocks p) := by
  refine labelPosition?_eq_some.2 ⟨?_, fun q hq hset => ?_⟩
  · rw [(blockAt_startOf hblk).head]
    exact hlab
  · obtain ⟨j, hj, hj'⟩ := Option.bind_eq_some_iff.1 hset
    have hstart := startOf_succ first hblk
    rcases Nat.lt_or_ge q (startOf first blocks (p + 1)) with hlt | hge
    · -- the rest of the block
      obtain ⟨d, rfl⟩ : ∃ d, q = startOf first blocks p + 1 + d := ⟨_, (Nat.add_sub_of_le hq).symm⟩
      have hd : d < rest.length := by
        rw [hstart, length_cons] at hlt
        omega
      rw [(blockAt_startOf hblk).tail d hd] at hj
      exact hrest j (mem_of_getElem? hj) hj'
    · -- a later block
      have hspl : first ++ blocks.flatten =
          (first ++ (blocks.take (p + 1)).flatten) ++ (blocks.drop (p + 1)).flatten := by
        rw [append_assoc, ← flatten_append, take_append_drop]
      have hlen : (first ++ (blocks.take (p + 1)).flatten).length =
          startOf first blocks (p + 1) := by simp [startOf]
      rw [hspl, getElem?_append_right (by omega)] at hj
      obtain ⟨block, hmem, hj⟩ := List.mem_flatten.1 (mem_of_getElem? hj)
      obtain ⟨d, hd⟩ := mem_iff_getElem?.1 hmem
      rw [getElem?_drop] at hd
      exact hlater _ block (by omega) hd j hj hj'

end blocks

end SysY

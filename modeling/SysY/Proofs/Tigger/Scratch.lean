import SysY.Proofs.Tigger.Semantics
import SysY.Tigger.Lowering

/-!
# How register code uses the scratch registers

Machine code may need the scratch registers for itself, and destroys them wherever the code behind
does not await them. Code is `Tidy` if it allows for this. No scratch register is awaited behind a
label, so that in tidy code `Awaits`, which does not look at jumps, is all that `ReadLater` can mean.
-/

namespace SysY.Tigger

variable {r : Register} {p : Nat}

/-! ## Reads and writes -/

namespace Instruction

/-- The registers whose contents an instruction depends on. -/
def reads : Instruction → List Register
  | .binary _ _ left (.register right) => [left, right]
  | .binary _ _ left (.immediate _) => [left]
  | .unary _ _ operand => [operand]
  | .move _ source => [source]
  | .store base _ value => [base, value]
  | .load _ base _ => [base]
  | .branch left _ right _ => [left, right]
  | .call _ => Register.arguments
  | .stackStore value _ => [value]
  | _ => []

/-- The register that an instruction gives a value. -/
def dest? : Instruction → Option Register
  | .binary dest .. | .unary dest .. | .move dest _ | .constant dest _ | .load dest ..
  | .stackLoad _ dest | .stackAddress _ dest | .globalLoad _ dest | .globalAddress _ dest => some dest
  | _ => none

/-- Whether an instruction overwrites a register. A call overwrites all that the callee need not
preserve. -/
def overwrites (i : Instruction) (r : Register) : Bool :=
  match i with
  | .call _ => !r.isSaved
  | _ => i.dest? = some r

/-- The scratch registers that machine code may need to carry out an instruction. Behind a label
nothing is known of them, since control comes from elsewhere. -/
def disturbs : Instruction → List Register
  | .binary .. | .load .. | .store .. | .stackStore .. | .label _ => Register.scratchOnes
  | _ => []

/-- The word of the frame that an instruction reads or writes. -/
def slot? : Instruction → Option UInt32
  | .stackStore _ slot | .stackLoad slot _ => some slot
  | _ => none

theorem overwrites_of_dest {i : Instruction} (h : i.dest? = some r) (x : Register) :
    i.overwrites x = true ↔ x = r := by
  cases i <;> cases h <;> simp [overwrites, dest?, eq_comm]

theorem mem_scratchOnes_of_disturbs {i : Instruction} (h : r ∈ i.disturbs) :
    r ∈ Register.scratchOnes := by
  cases i <;> first | exact h | cases h

end Instruction

/-- The code reads a register before it overwrites it. -/
def Awaits (r : Register) : List Instruction → Prop
  | [] => False
  | i :: rest => r ∈ i.reads ∨ i.overwrites r = false ∧ Awaits r rest

/-- No instruction disturbs what the code behind it awaits, unless it gives it a value. -/
def Tidy : List Instruction → Prop
  | [] => True
  | i :: rest => (∀ r ∈ i.disturbs, i.dest? ≠ some r → ¬ Awaits r rest) ∧ Tidy rest

theorem awaits_append {front back : List Instruction} (h : Awaits r (front ++ back)) :
    Awaits r front ∨ Awaits r back := by
  induction front with
  | nil => exact .inr h
  | cons i front ih =>
    rcases h with hread | ⟨hkept, h⟩
    · exact .inl (.inl hread)
    · exact (ih h).imp_left fun h => .inr ⟨hkept, h⟩

theorem Tidy.append {front back : List Instruction} (hfro : Tidy front) (hback : Tidy back)
    (hfr : ∀ r ∈ Register.scratchOnes, ¬ Awaits r back) : Tidy (front ++ back) := by
  induction front with
  | nil => exact hback
  | cons i front ih =>
    refine ⟨fun r hr hdest h => ?_, ih hfro.2⟩
    rcases awaits_append h with h | h
    · exact hfro.1 r hr hdest h
    · exact hfr r (Instruction.mem_scratchOnes_of_disturbs hr) h

theorem Tidy.behind {front back : List Instruction} (h : Tidy (front ++ back)) : Tidy back := by
  induction front with
  | nil => exact h
  | cons i front ih => exact ih h.2

/-- On some way on from a position, a register is read before it is overwritten. -/
inductive ReadLater (code : List Instruction) (r : Register) : Nat → Prop
  | here {p : Nat} {i : Instruction} (hi : code[p]? = some i) (hread : r ∈ i.reads) : ReadLater code r p
  | next {p : Nat} {i : Instruction} {s : State} (hi : code[p]? = some i)
    (hkept : i.overwrites r = false) (hcourse : Setting.course s i = .next)
    (h : ReadLater code r (p + 1)) : ReadLater code r p
  | jump {p q : Nat} {i : Instruction} {s : State} {setting : Setting} {label : Label}
    (hi : code[p]? = some i) (hkept : i.overwrites r = false)
    (hcourse : Setting.course s i = .jump label)
    (hq : setting.machine.labelPosition? code label = some q) (h : ReadLater code r q) :
    ReadLater code r p

theorem drop_of_getElem? {code : List Instruction} {i : Instruction}
    (hi : code[p]? = some i) : code.drop p = i :: code.drop (p + 1) := by
  obtain ⟨hlt, rfl⟩ := List.getElem?_eq_some_iff.1 hi
  exact List.drop_eq_getElem_cons hlt

theorem Tidy.drop {code : List Instruction} (h : Tidy code) (p : Nat) : Tidy (code.drop p) :=
  Tidy.behind (List.take_append_drop p code ▸ h)

theorem Tidy.not_awaits_of_label {code : List Instruction} (h : Tidy code) {setting : Setting}
    {label : Label} {q : Nat} (hq : setting.machine.labelPosition? code label = some q)
    (hr : r ∈ Register.scratchOnes) : ¬ Awaits r (code.drop q) := by
  obtain ⟨i, hi, hlab⟩ := Option.bind_eq_some_iff.1 (Machine.labelPosition?_eq_some.1 hq).1
  obtain rfl : i = .label label := by
    cases i <;> cases hlab
    rfl
  have htidy := h.drop q
  rw [drop_of_getElem? hi] at htidy ⊢
  rintro (hread | ⟨-, haw⟩)
  · cases hread
  · exact htidy.1 r hr nofun haw

theorem awaits_of_readLater {code : List Instruction} (htidy : Tidy code)
    (hr : r ∈ Register.scratchOnes) (h : ReadLater code r p) : Awaits r (code.drop p) := by
  induction h with
  | here hi hread =>
    rw [drop_of_getElem? hi]
    exact .inl hread
  | next hi hkept _ _ ih =>
    rw [drop_of_getElem? hi]
    exact .inr ⟨hkept, ih⟩
  | jump _ _ _ hq _ ih => exact absurd ih (htidy.not_awaits_of_label hq hr)

/-! ## Orderly code -/

/-- No symbol lives in a scratch register or in the one that is zero, and those are not saved for the
caller either. -/
structure Context.Housed {n k : Nat} (ctx : Context n k) : Prop where
  homes : ∀ slot r, ctx.frame.homes.get slot = some (.register r) → r.isAllocatable = true
  saved : ∀ entry ∈ ctx.frame.saved, entry.1.isSaved = true

/-- Code that awaits no other scratch registers than the given ones, is tidy and never gives a value
to the register that is zero. -/
structure Orderly (awaited : List Register) (code : List Instruction) : Prop where
  awaits : ∀ r ∈ Register.scratchOnes, Awaits r code → r ∈ awaited
  tidy : Tidy code
  writable : ∀ i ∈ code, i.dest? ≠ some .zero

namespace Orderly

variable {awaited awaited' : List Register} {code front back : List Instruction} {i : Instruction}

theorem nil : Orderly awaited [] :=
  ⟨fun _ _ h => h.elim, trivial, List.forall_mem_nil _⟩

theorem cons (h : Orderly awaited code) (hdis : ∀ r ∈ i.disturbs, i.dest? ≠ some r → r ∉ awaited)
    (hreads : ∀ r ∈ i.reads, r ∈ Register.scratchOnes → r ∈ awaited')
    (hrest : ∀ r ∈ awaited, i.overwrites r = false → r ∈ awaited') (hz : i.dest? ≠ some .zero) :
    Orderly awaited' (i :: code) where
  awaits r hr haw := by
    rcases haw with hread | ⟨hkept, haw⟩
    · exact hreads r hread hr
    · exact hrest r (h.awaits r hr haw) hkept
  tidy := by
    refine ⟨fun r hr hdest haw => hdis r hr hdest (h.awaits r ?_ haw), h.tidy⟩
    cases i <;> first | exact hr | cases hr
  writable := List.forall_mem_cons.2 ⟨hz, h.writable⟩

theorem single (hreads : i.reads = awaited) (hz : i.dest? ≠ some .zero) : Orderly awaited [i] :=
  (nil : Orderly [] []).cons (fun _ _ _ => List.not_mem_nil) (fun _ hr _ => hreads ▸ hr) nofun hz

theorem append (hfro : Orderly awaited front) (hback : Orderly [] back) :
    Orderly awaited (front ++ back) where
  awaits r hr h := by
    rcases awaits_append h with h | h
    · exact hfro.awaits r hr h
    · cases hback.awaits r hr h
  tidy := hfro.tidy.append hback.tidy fun r hr h => nomatch hback.awaits r hr h
  writable := List.forall_mem_append.2 ⟨hfro.writable, hback.writable⟩

theorem flatten {codes : List (List Instruction)} (h : ∀ code ∈ codes, Orderly [] code) :
    Orderly [] codes.flatten := by
  induction codes with
  | nil => exact .nil
  | cons code codes ih =>
    obtain ⟨hcode, hcodes⟩ := List.forall_mem_cons.1 h
    exact hcode.append (ih hcodes)

theorem drop (h : Orderly awaited code)
    (hsub : ∀ r ∈ awaited, r ∈ Register.scratchOnes → r ∈ awaited') : Orderly awaited' code :=
  { h with awaits := fun r hr haw => hsub r (h.awaits r hr haw) hr }

end Orderly

end SysY.Tigger

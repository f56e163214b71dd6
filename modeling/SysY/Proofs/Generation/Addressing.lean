import Mathlib
import SysY.Proofs.Generation.Standing
import SysY.Proofs.Generation.Footprint

/-!
# Addresses of elements

The code of a place computes the offset of what its indices select in row-major order, modulo the
words. The indices are evaluated in order, and each is read as soon as its code is through. Only the
first one is not used before the second, if the second dimension is one: it is read behind the code of
the second index, which matters if this calls a function that changes a global variable.
-/

namespace SysY.Generation

open Eeyore Eeyore.Activation List Option
open Structured (elementIndex)
open Tree (Expr Formula Formulas Name)

variable {m : Nat} {act : Activation} {s t u : State} {signatures : Signatures}
  {loc : Location} {b b' b₁ b₂ b₃ c : Builder} {p q x y z : Value} {d : Int32}
  {dims : List Int32} {n : Nat} {formula : Formula} {place : Location} {rest : Formulas}
  {offset : Value}

theorem OwnsTemps.mono (h : OwnsTemps act n) (hle : m ≤ n) : OwnsTemps act m :=
  fun i hi => h i (Nat.lt_of_lt_of_le hi hle)

/-- Only temporaries that are not in use yet change. -/
def Aside (b : Builder) (s t : State) : Prop := Alike (.upTo b.code.temps.toNat) t s

theorem Aside.trans (h : Aside b s t) (h' : Aside b' t u)
    (hle : b.code.temps.toNat ≤ b'.code.temps.toNat) : Aside b s u :=
  Alike.of_outside h' h ((Pairing.upTo_below _).mono hle (Nat.le_refl _))

/-- A list of expressions, each one with its location. -/
def items : Formulas → List (Option (Formula × Location))
  | .nil => []
  | .cons formula place rest => some (formula, place) :: items rest

/-! ## One index -/

/-- Dimensions that have been evaluated and counted: all those of a definition, and those of a parameter
behind the first, which is not known. -/
def Accepted (signatures : Signatures) (dimensions : List Int32) : Prop :=
  ∃ exprs accepted place b b' count, Builds (evalDimensions signatures exprs) b accepted b' ∧
    Builds (elementCount accepted place) b' count b' ∧
    (dimensions = accepted ∨ dimensions = 0 :: accepted)

theorem positive_evalDimensions {exprs : List Expr}
    (h : Builds (evalDimensions signatures exprs) b dims b') : ∀ d ∈ dims, 0 < d := by
  induction exprs generalizing b dims with
  | nil =>
    obtain ⟨rfl, -⟩ := builds_pure.1 h
    exact forall_mem_nil _
  | cons expr exprs ih =>
    obtain ⟨d, ds, b₁, rfl, hd, -, hrest⟩ := builds_evalDimensions_cons h
    exact List.forall_mem_cons.2 ⟨hd, ih hrest⟩

theorem Accepted.stride_ok (h : Accepted signatures dims) (hn : 0 < n) :
    ∃ factor, stride dims n = .ok factor := by
  obtain ⟨exprs, accepted, place, c, c', count, hdims, hcnt, hcas⟩ := h
  have hposv := positive_evalDimensions hdims
  have hsm := (builds_elementCount.1 hcnt).1
  rcases hcas with rfl | rfl
  · exact Generation.stride_ok (fun d hd => hposv d (mem_of_mem_tail hd))
      (Nat.le_trans (extent_tail_le hposv) hsm) hn
  · exact @Generation.stride_ok n (0 :: accepted) hposv hsm hn

/-- A function with an array of six words, which calls nothing. -/
def gridRun : Activation where
  isLocal _ := true
  array? x := if x = .var 0 then some ⟨64, 24⟩ else none
  objects := []
  byZero _ _ := none
  reply _ := ⟨0, fun _ => some 0, fun _ => 0⟩
  keeps _ _ := true

/-- A literal that stands nowhere. -/
def literal (value : Int32) : Expr := .mk [.literal value .unknown] .unknown

end SysY.Generation

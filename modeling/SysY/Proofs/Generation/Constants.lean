import SysY.Proofs.Generation.Indices
import SysY.Proofs.Generation.Inversion

/-!
# Constants

What operators make of constants, what names can stand for, and the elements of constant arrays.
-/

namespace SysY.Generation

open Eeyore SysY.Tree
open Structured (Environment elements binaryValue decides)

variable {a : Int32} {op : BinaryOp} {relation : Relation} {values : Array Int32} {k : Int}
  {b b' : Builder}

/-! ## Operators -/

theorem fold_operation (op : BinaryOperator) (a b : Int32) :
    (operation op).fold a b = binaryValue op a b := by
  cases op <;> simp [operation, BinaryOp.fold, binaryValue, Relation.holds, bne, truth]

theorem fold_ne_zero (a : Int32) : BinaryOp.ne.fold a 0 = some (truth (a ≠ 0)) := by
  have hne : (a != 0) = decide (a ≠ 0) := by
    rw [Bool.eq_iff_iff]
    simp
  rw [← hne]
  rfl

theorem decides_eq_false {conn : Connective} :
    decides conn a = false ↔ decide (a ≠ 0) = decide (conn = .and) := by
  cases conn <;> simp [decides]

theorem holds_skipRelation (conn : Connective) (a : Int32) :
    (skipRelation conn).holds (truth (a ≠ 0)) 0 = decides conn a := by
  cases conn <;> by_cases h : a = 0 <;> simp [skipRelation, Relation.holds, decides, truth, h]

theorem negate_holds (relation : Relation) (a c : Int32) :
    relation.negate.holds a c = !relation.holds a c := by
  cases relation <;>
    simp [Relation.negate, Relation.holds, bne, ← decide_not, Int32.not_lt, Int32.not_le]

theorem ne_zero_truth (t : Bool) : decide (truth t ≠ 0) = t := by cases t <;> decide

theorem fold_of_relation (h : op.relation? = some relation)
    (a c : Int32) : op.fold a c = some (truth (relation.holds a c)) := by
  cases op <;> cases h <;> rfl

theorem holds_wanted {c v : Int32} (wanted : Bool)
    (hop : op.relation? = some relation) (hv : op.fold a c = some v) :
    (if wanted then relation else relation.negate).holds a c = (decide (v ≠ 0) == wanted) := by
  rw [fold_of_relation hop] at hv
  rw [← Option.some.inj hv, ne_zero_truth]
  cases wanted <;> simp [negate_holds]

/-! ## Meanings -/

/-- What a name can stand for: a variable, or a parameter, which is no constant. -/
structure Meaning.Valid (meaning : Meaning) : Prop where
  symbol : meaning.symbol.isTemp = false
  constant : meaning.values ≠ none → meaning.symbol.kind = .variable
  small : meaning.symbol.kind = .variable → elements meaning.dimensions ≤ maxElements

def ValidNames (env : Environment) : Prop := ∀ name meaning, env name = some meaning → meaning.Valid

theorem getElem_of_offset (h : 0 ≤ k) (hk : k ≤ maxElements) :
    (if Int32.ofInt (4 * k) / wordSize < 0 then none
      else values[(Int32.ofInt (4 * k) / wordSize).toNatClampNeg]?) = values[k.toNat]? := by
  unfold maxElements at hk
  have hint : (Int32.ofInt k).toInt = k := Int32.toInt_ofInt_of_le (by omega) (by omega)
  have hpos : ¬ Int32.ofInt k < 0 := by
    rw [Int32.lt_iff_toInt_lt, hint]
    simpa using h
  rw [ofInt_div_wordSize (by omega) hk, if_neg hpos, Int32.toNatClampNeg, hint]

theorem constantElement_at {name : Name} {r : Resolved} (h : 0 ≤ k) (hk : k ≤ maxElements) :
    Builds (constantElement name values (.ofInt (4 * k))) b r b' ↔
      ∃ v, values[k.toNat]? = some v ∧ r = .constant v ∧ b' = b := by
  rw [builds_constantElement, getElem_of_offset h hk]

theorem applyBinary_const {c v : Int32} {x : Value} {loc : Location} (hv : op.fold a c = some v)
    (h : Builds (applyBinary op (.const a) (.const c) loc) b x b') : x = .const v ∧ b' = b := by
  rcases builds_applyBinary.1 h with ⟨_, _, w, ⟨⟩, ⟨⟩, hw, hx, hb⟩ | ⟨hnot, _⟩
  · rw [hv] at hw
    cases hw
    exact ⟨hx, hb⟩
  · exact absurd ⟨rfl, rfl⟩ (hnot a c)

end SysY.Generation

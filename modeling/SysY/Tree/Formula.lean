import SysY.Fault
import SysY.Tree

/-!
# Formulas

A formula is an expression as a tree of operators over terms. `Expr.formula` recovers it from the
postfix sequence, beginning at the last element: the right operand of an operator is the shortest
suffix in front of it that leaves exactly one value, and what is left over is the left operand.

A sequence that is not the postfix form of any tree still has a formula: its broken part becomes
`malformed`, a fault that is raised when the part is evaluated and not before.
-/

namespace SysY.Tree

mutual

inductive Formula
  | literal (value : Int32)
  | read (name : Name) (indices : Formulas)
  | call (function : Name) (arguments : Formulas) (location : Location)
  | unary (operator : UnaryOperator) (operand : Formula)
  | binary (operator : BinaryOperator) (left right : Formula)
  | logic (connective : Connective) (left right : Formula)
  | malformed (fault : Fault)

/-- The indices of a variable or the arguments of a call, each with its location. -/
inductive Formulas
  | nil
  | cons (formula : Formula) (location : Location) (rest : Formulas)

end

namespace Formulas

def length : Formulas → Nat
  | .nil => 0
  | .cons _ _ rest => rest.length + 1

end Formulas

/-! ## One step of the decomposition

Sequences are taken with the last element first. -/

/-- How many values an element adds to those in front of it. -/
def Element.arity : Element → Int
  | .literal .. | .read .. | .call .. => 1
  | .binary _ => -1
  | .unary _ | .split _ => 0

/-- Cuts off the elements up to where the values add up to one. -/
def splitOperand (values : Int) : List Element → Option (List Element × List Element)
  | [] => none
  | element :: rest =>
    if values + element.arity = 1 then some ([element], rest)
    else (splitOperand (values + element.arity) rest).map fun (operand, rest) =>
      (element :: operand, rest)

/-- The outermost operation of a sequence; operands are sequences again. -/
inductive View
  | literal (value : Int32)
  | read (name : Name) (indices : List Expr)
  | call (function : Name) (arguments : List Expr) (location : Location)
  | unary (operator : UnaryOperator) (operand : List Element)
  | binary (operator : BinaryOperator) (left right : List Element)
  | logic (connective : Connective) (left right : List Element)
  | malformed (fault : Fault)

def viewTerm (term : View) (rest : List Element) : View :=
  if rest.isEmpty then term else .malformed .danglingOperands

/-- The operands of an operator between operands, from the elements in front of it. -/
def viewBinary (operator : BinaryOperator) (rest : List Element) : View :=
  match splitOperand 0 rest with
  | none => .malformed .malformedPostfix
  | some (right, left) =>
    match operator.connective? with
    | none => .binary operator left right
    | some _ =>
      match left with
      | .split connective :: left => .logic connective left right
      | _ => .malformed .missingSplit

/-- The outermost operation of a sequence whose last element comes first. -/
def view : List Element → View
  | [] => .malformed .emptyExpression
  | .literal value _ :: rest => viewTerm (.literal value) rest
  | .read name indices _ :: rest => viewTerm (.read name indices) rest
  | .call function arguments location :: rest => viewTerm (.call function arguments location) rest
  | .unary operator :: rest => .unary operator rest
  | .binary operator :: rest => viewBinary operator rest
  | .split _ :: _ => .malformed .trailingSplit

/-! ## Operands are smaller -/

theorem sizeOf_append_elements (xs ys : List Element) :
    sizeOf (xs ++ ys) + 1 = sizeOf xs + sizeOf ys := by
  induction xs with
  | nil =>
    simp only [List.nil_append, List.nil.sizeOf_spec]
    omega
  | cons x xs ih =>
    simp only [List.cons_append, List.cons.sizeOf_spec]
    omega

theorem splitOperand_append {values : Int} {elements operand rest : List Element}
    (h : splitOperand values elements = some (operand, rest)) : elements = operand ++ rest := by
  induction elements generalizing values operand with
  | nil => simp [splitOperand] at h
  | cons element elements ih =>
    rw [splitOperand] at h
    split at h
    · simp at h
      simp [← h.1, ← h.2]
    · obtain ⟨⟨operand', rest'⟩, h', heq⟩ := Option.map_eq_some_iff.1 h
      simp only [Prod.mk.injEq] at heq
      rw [ih (h'.trans (by rw [heq.2])), ← heq.1]
      rfl

theorem sizeOf_elements_pos (xs : List Element) : 0 < sizeOf xs := by
  cases xs with
  | nil => exact Nat.zero_lt_one
  | cons x xs =>
    rw [List.cons.sizeOf_spec]
    omega

theorem sizeOf_splitOperand {values : Int} {elements operand rest : List Element}
    (h : splitOperand values elements = some (operand, rest)) :
    sizeOf operand ≤ sizeOf elements ∧ sizeOf rest ≤ sizeOf elements := by
  have happ := sizeOf_append_elements operand rest
  rw [← splitOperand_append h] at happ
  have := sizeOf_elements_pos operand
  have := sizeOf_elements_pos rest
  omega

/-- The size of what is left to decompose below an operation. -/
noncomputable def View.size : View → Nat
  | .literal _ => 0
  | .read _ indices => sizeOf indices
  | .call _ arguments _ => sizeOf arguments
  | .unary _ operand => sizeOf operand
  | .binary _ left right | .logic _ left right => max (sizeOf left) (sizeOf right)
  | .malformed _ => 0

theorem size_viewTerm_le (term : View) (rest : List Element) :
    (viewTerm term rest).size ≤ term.size := by
  unfold viewTerm
  split
  · exact Nat.le_refl _
  · exact Nat.zero_le _

theorem size_viewBinary_le (operator : BinaryOperator) (rest : List Element) :
    (viewBinary operator rest).size ≤ sizeOf rest := by
  unfold viewBinary
  split
  · exact Nat.zero_le _
  · rename_i right left hsplit
    have hsize := sizeOf_splitOperand hsplit
    split
    · exact Nat.max_le.2 ⟨hsize.2, hsize.1⟩
    · split
      · rw [List.cons.sizeOf_spec] at hsize
        exact Nat.max_le.2 ⟨by omega, hsize.1⟩
      · exact Nat.zero_le _

theorem size_view_lt (elements : List Element) : (view elements).size < sizeOf elements := by
  unfold view
  split
  · exact sizeOf_elements_pos []
  · rename_i value location rest
    have := size_viewTerm_le (.literal value) rest
    simp only [View.size, List.cons.sizeOf_spec] at this ⊢
    omega
  · rename_i name indices location rest
    have := size_viewTerm_le (.read name indices) rest
    simp only [View.size, List.cons.sizeOf_spec, Element.read.sizeOf_spec] at this ⊢
    omega
  · rename_i function arguments location rest
    have := size_viewTerm_le (.call function arguments location) rest
    simp only [View.size, List.cons.sizeOf_spec, Element.call.sizeOf_spec] at this ⊢
    omega
  · simp only [View.size, List.cons.sizeOf_spec]
    omega
  · rename_i operator rest
    have := size_viewBinary_le operator rest
    simp only [List.cons.sizeOf_spec]
    omega
  · exact sizeOf_elements_pos _

theorem sizeOf_reverse_elements (elements : List Element) :
    sizeOf elements.reverse = sizeOf elements := by
  induction elements with
  | nil => rfl
  | cons element elements ih =>
    have := sizeOf_append_elements elements.reverse [element]
    simp only [List.reverse_cons, List.cons.sizeOf_spec, List.nil.sizeOf_spec] at this ⊢
    omega

/-! ## The whole decomposition -/

mutual

/-- The formula of a sequence whose last element comes first. -/
def Formula.ofReversed (elements : List Element) : Formula :=
  match _h : view elements with
  | .literal value => .literal value
  | .read name indices => .read name (Formulas.ofExprs indices)
  | .call function arguments location => .call function (Formulas.ofExprs arguments) location
  | .unary operator operand => .unary operator (Formula.ofReversed operand)
  | .binary operator left right =>
    .binary operator (Formula.ofReversed left) (Formula.ofReversed right)
  | .logic connective left right =>
    .logic connective (Formula.ofReversed left) (Formula.ofReversed right)
  | .malformed fault => .malformed fault
termination_by sizeOf elements
decreasing_by
  all_goals
    have hlt := size_view_lt elements
    rw [_h] at hlt
    simp only [View.size, Nat.max_lt] at hlt
    omega

def Formulas.ofExprs : List Expr → Formulas
  | [] => .nil
  | .mk elements location :: rest =>
    .cons (Formula.ofReversed elements.reverse) location (Formulas.ofExprs rest)
termination_by exprs => sizeOf exprs
decreasing_by
  · rw [sizeOf_reverse_elements]
    simp only [List.cons.sizeOf_spec, Expr.mk.sizeOf_spec]
    omega
  · simp only [List.cons.sizeOf_spec]
    omega

end

def Expr.formula (expr : Expr) : Formula := .ofReversed expr.elements.reverse

end SysY.Tree

import SysY.Proofs.Tree.Grammar
import SysY.Tree.Formula
import SysY.Tree.Parser

/-!
# Postfix sequences

The operators and operands of an expression are written in postfix order, `Operation.elements`, and
`Formula.ofReversed` recovers them: counting values from the end finds the beginning of every right
operand, since no proper end of an operand has a value more than it needs.
-/

namespace SysY.Tree

open List

namespace Grammar

open Parser (splitMarker)

variable {values : Int} {element : Element}

/-- The formula of an expression. A connective is the one that its operator stands for. -/
def Operation.formula : Operation → Formula
  | .literal value _ => .literal value
  | .read name indices _ => .read name (.ofExprs indices)
  | .call function arguments location => .call function (.ofExprs arguments) location
  | .unary operator operand => .unary operator operand.formula
  | .binary operator left right =>
    match operator.connective? with
    | none => .binary operator left.formula right.formula
    | some connective => .logic connective left.formula right.formula

theorem Operation.elements_binary (operator : BinaryOperator) (left right : Operation) :
    (Operation.binary operator left right).elements =
      left.elements ++ (splitMarker operator ++ (right.elements ++ [.binary operator])) := by
  cases operator <;> rfl

theorem reverse_binary (operator : BinaryOperator) (left right : Operation) :
    (Operation.binary operator left right).elements.reverse =
      .binary operator ::
        (right.elements.reverse ++ (splitMarker operator ++ left.elements.reverse)) := by
  have hmarker : (splitMarker operator).reverse = splitMarker operator := by cases operator <;> rfl
  simp [Operation.elements_binary, hmarker]

/-! ## Operands are found -/

/-- What splitting gives behind a front that it has passed. -/
def passing (front : List Element) :
    Option (List Element × List Element) → Option (List Element × List Element) :=
  Option.map fun (operand, rest) => (front ++ operand, rest)

/-- What splitting gives behind a front with one value more than there were. -/
def passingValue (values : Int) (front rest : List Element) :
    Option (List Element × List Element) :=
  if values = 0 then some (front, rest) else passing front (splitOperand (values + 1) rest)

theorem passing_passing (xs ys : List Element) (split : Option (List Element × List Element)) :
    passing xs (passing ys split) = passing (xs ++ ys) split := by
  cases split <;> simp [passing]

theorem passing_passingValue (xs ys rest : List Element) (values : Int) :
    passing xs (passingValue values ys rest) = passingValue values (xs ++ ys) rest := by
  unfold passingValue
  split
  · rfl
  · exact passing_passing xs ys _

theorem splitOperand_cons (h : values + element.arity ≠ 1) (rest : List Element) :
    splitOperand values (element :: rest) =
      passing [element] (splitOperand (values + element.arity) rest) := by
  rw [splitOperand, if_neg h]
  rfl

theorem splitOperand_term (h : element.arity = 1) (rest : List Element) :
    splitOperand values (element :: rest) = passingValue values [element] rest := by
  unfold passingValue
  by_cases hz : values = 0
  · rw [if_pos hz, splitOperand, if_pos (by omega)]
  · rw [if_neg hz, splitOperand_cons (by omega), h]

theorem splitOperand_marker (h : values ≤ 0) (operator : BinaryOperator) (rest : List Element) :
    splitOperand values (splitMarker operator ++ rest) =
      passing (splitMarker operator) (splitOperand values rest) := by
  unfold splitMarker
  cases operator.connective? with
  | none => exact Option.map_id'.symm
  | some connective =>
    have harity : (Element.split connective).arity = 0 := rfl
    rw [singleton_append, splitOperand_cons (by omega), harity, Int.add_zero]

theorem splitOperand_elements (t : Operation) (h : values ≤ 0) (rest : List Element) :
    splitOperand values (t.elements.reverse ++ rest) =
      passingValue values t.elements.reverse rest := by
  induction t generalizing values rest with
  | literal value location => exact splitOperand_term rfl rest
  | read name indices location => exact splitOperand_term rfl rest
  | call function arguments location => exact splitOperand_term rfl rest
  | unary operator operand ih =>
    have harity : (Element.unary operator).arity = 0 := rfl
    rw [Operation.elements, reverse_append, append_assoc, reverse_singleton,
      singleton_append, splitOperand_cons (by omega), harity, Int.add_zero, ih h,
      passing_passingValue]
  | binary operator left right ihl ihr =>
    have harity : (Element.binary operator).arity = -1 := rfl
    -- the right operand makes up for what the operator takes
    have hright : splitOperand (values + -1) (right.elements.reverse ++
          (splitMarker operator ++ (left.elements.reverse ++ rest))) =
        passing right.elements.reverse (passing (splitMarker operator)
          (passingValue values left.elements.reverse rest)) := by
      rw [ihr (by omega), passingValue, if_neg (by omega), Int.neg_add_cancel_right,
        splitOperand_marker h, ihl h]
    rw [reverse_binary, cons_append, append_assoc, append_assoc,
      splitOperand_cons (by omega), harity, hright, passing_passingValue, passing_passingValue,
      passing_passingValue, singleton_append]

/-! ## Formulas are recovered -/

theorem view_binary (operator : BinaryOperator) (left right : Operation) :
    view (Operation.binary operator left right).elements.reverse =
      match operator.connective? with
      | none => .binary operator left.elements.reverse right.elements.reverse
      | some connective => .logic connective left.elements.reverse right.elements.reverse := by
  rw [reverse_binary, view, viewBinary, splitOperand_elements right (Int.le_refl 0), passingValue,
    if_pos rfl]
  unfold splitMarker
  cases operator.connective? <;> rfl

theorem ofReversed_elements (t : Operation) : Formula.ofReversed t.elements.reverse = t.formula := by
  induction t with
  | literal value location =>
    rw [Formula.ofReversed]
    rfl
  | read name indices location =>
    rw [Formula.ofReversed]
    rfl
  | call function arguments location =>
    rw [Formula.ofReversed]
    rfl
  | unary operator operand ih =>
    rw [Operation.elements, reverse_append, reverse_singleton, singleton_append,
      Formula.ofReversed]
    exact congrArg _ ih
  | binary operator left right ihl ihr =>
    have hview := view_binary operator left right
    rw [Formula.ofReversed, Operation.formula]
    cases hop : operator.connective? <;> rw [hop] at hview <;>
      split <;> rename_i heq <;> rw [hview] at heq <;> cases heq <;> rw [ihl, ihr]

theorem formula_elements (t : Operation) (location : Location) :
    (Expr.mk t.elements location).formula = t.formula := ofReversed_elements t

end Grammar

/-! ## Nothing is malformed -/

mutual

/-- A formula without a malformed part. -/
def Formula.Proper : Formula → Prop
  | .literal _ => True
  | .read _ indices => indices.Proper
  | .call _ arguments _ => arguments.Proper
  | .unary _ operand => operand.Proper
  | .binary _ left right | .logic _ left right => left.Proper ∧ right.Proper
  | .malformed _ => False

def Formulas.Proper : Formulas → Prop
  | .nil => True
  | .cons formula _ rest => formula.Proper ∧ rest.Proper

end

theorem proper_ofExprs (es : List Expr) :
    (Formulas.ofExprs es).Proper ↔ ∀ e ∈ es, e.formula.Proper := by
  induction es with
  | nil => simp [Formulas.ofExprs, Formulas.Proper]
  | cons e es ih =>
    obtain ⟨elements, location⟩ := e
    rw [Formulas.ofExprs, Formulas.Proper, ih, forall_mem_cons]
    rfl

namespace Grammar

/-- The expressions inside the terms of an expression: indices and arguments. -/
def Operation.exprs : Operation → List Expr
  | .literal .. => []
  | .read _ indices _ => indices
  | .call _ arguments _ => arguments
  | .unary _ operand => operand.exprs
  | .binary _ left right => left.exprs ++ right.exprs

theorem proper_formula (t : Operation) : t.formula.Proper ↔ ∀ e ∈ t.exprs, e.formula.Proper := by
  induction t with
  | literal value location => simp [Operation.formula, Operation.exprs, Formula.Proper]
  | read name indices location => exact proper_ofExprs indices
  | call function arguments location => exact proper_ofExprs arguments
  | unary operator operand ih => exact ih
  | binary operator left right ihl ihr =>
    rw [Operation.formula, Operation.exprs, forall_mem_append, ← ihl, ← ihr]
    cases operator.connective? <;> rfl

/-- Taking the postfix order of an expression apart gives the expression back, with the connectives
that its operators stand for. Nothing is malformed, unless it is within an index or an argument. -/
theorem Operation.recovered (t : Operation) (location : Location) :
    (Expr.mk t.elements location).formula = t.formula ∧
      (t.formula.Proper ↔ ∀ e ∈ t.exprs, e.formula.Proper) :=
  ⟨formula_elements t location, proper_formula t⟩

end Grammar

end SysY.Tree

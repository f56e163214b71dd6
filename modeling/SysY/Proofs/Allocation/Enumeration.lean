import SysY.Proofs.Allocation.Pressure
import SysY.Proofs.Tigger.Simulation

/-!
# The order of neighbours does not matter

The neighbours of a slot are a set, and nothing says in which order they are listed. They are counted,
their degrees are lowered one after another, and the colours that they have are looked for: all this
comes out the same in any order. So the registers do, with all that is logged about them, and with
them the code of a program: `lower_order_irrelevant`.
-/

namespace SysY.Allocation

open Eeyore SysY.Flow

variable {n k : Nat} {interference reordered : Interference k}

/-- The same neighbours for every slot, each of them as often, in another order. -/
def Reordered (reordered interference : Interference k) : Prop :=
  ∀ slot, (reordered.neighbors.get slot).Perm (interference.neighbors.get slot)

theorem degrees_eq_of_reordered (h : Reordered reordered interference) (colorable : NodeSet k) :
    degrees reordered colorable = degrees interference colorable := by
  unfold degrees
  congr 1
  funext slot
  exact ((h slot).filter _).length_eq

/-! ## Lowering degrees -/

theorem put_comm (degrees : Vector Nat k) {a b : Fin k} (hne : a ≠ b) (c d : Nat) :
    put (put degrees a c) b d = put (put degrees b d) a c :=
  Vector.set_comm c d fun heq => hne (Fin.ext heq)

theorem lowerDegree_of_not {colorable : NodeSet k} {slot : Fin k} (h : colorable.get slot ≠ true) :
    (fun degrees => lowerDegree colorable degrees slot) = pure := by
  funext degrees
  simp [lowerDegree, h, pure, Except.pure]

/-- Two degrees may be lowered in either order; there is only one way to fail. -/
theorem lowerDegree_comm (colorable : NodeSet k) (degrees : Vector Nat k) (a b : Fin k) :
    (lowerDegree colorable degrees a >>= fun lowered => lowerDegree colorable lowered b) =
      lowerDegree colorable degrees b >>= fun lowered => lowerDegree colorable lowered a := by
  by_cases hne : a = b
  · rw [hne]
  by_cases ha : colorable.get a = true
  · by_cases hb : colorable.get b = true
    · unfold lowerDegree
      cases hda : degrees.get a <;> cases hdb : degrees.get b <;>
        simp [ha, hb, hda, hdb, get_put_of_ne _ _ hne, get_put_of_ne _ _ (Ne.symm hne), error_bind,
          ok_bind, put_comm degrees hne]
    · rw [lowerDegree_of_not hb, bind_pure]
      exact (congrFun (lowerDegree_of_not hb) degrees ▸ rfl)
  · rw [lowerDegree_of_not ha, bind_pure]
    exact (congrFun (lowerDegree_of_not ha) degrees ▸ rfl)

theorem foldlM_lowerDegree_perm (colorable : NodeSet k) {slots slots' : List (Fin k)}
    (h : slots.Perm slots') (degrees : Vector Nat k) :
    slots.foldlM (lowerDegree colorable) degrees = slots'.foldlM (lowerDegree colorable) degrees := by
  induction h generalizing degrees with
  | nil => rfl
  | cons slot _ ih =>
    rw [List.foldlM_cons, List.foldlM_cons]
    congr 1
    funext lowered
    exact ih lowered
  | swap a b slots =>
    simp only [List.foldlM_cons]
    rw [← bind_assoc, ← bind_assoc, lowerDegree_comm]
  | trans _ _ ih ih' => exact (ih degrees).trans (ih' degrees)

theorem removeAll_eq_of_reordered (h : Reordered reordered interference) (colorable : NodeSet k)
    (degrees : Vector Nat k) (remaining : List (Fin k)) :
    removeAll reordered colorable degrees remaining =
      removeAll interference colorable degrees remaining := by
  induction hlength : remaining.length generalizing degrees remaining with
  | zero =>
    obtain rfl := List.eq_nil_of_length_eq_zero hlength
    rw [removeAll, removeAll]
  | succ length ih =>
    obtain ⟨first, rest, rfl⟩ := List.exists_cons_of_length_eq_add_one hlength
    have herase : ((first :: rest).erase (nextRemoval degrees first rest)).length = length := by
      rw [List.length_erase_of_mem (nextRemoval_mem degrees first rest), hlength]
      rfl
    rw [removeAll, removeAll, foldlM_lowerDegree_perm colorable (h _)]
    congr 1
    funext lowered
    rw [ih lowered _ herase]

/-! ## Choosing colours -/

theorem lowestFree_congr {taken taken' : List Color} (h : ∀ color, color ∈ taken ↔ color ∈ taken') :
    lowestFree taken = lowestFree taken' := by
  unfold lowestFree
  congr 1
  funext color
  rw [Bool.eq_iff_iff]
  simp [h color]

theorem select_eq_of_reordered (h : Reordered reordered interference) (removed : List (Fin k)) :
    select reordered removed = select interference removed := by
  induction removed with
  | nil => rfl
  | cons slot removed ih =>
    unfold select at ih ⊢
    rw [List.foldr_cons, List.foldr_cons, ih]
    unfold colorSlot
    rw [lowestFree_congr fun color => ((h slot).filterMap _).mem_iff]

theorem assign_eq_of_reordered (h : Reordered reordered interference) (params : UInt32)
    (body : Vector Instruction n) (graph : Graph n) (slots : Slots k) :
    assign params body graph slots reordered = assign params body graph slots interference := by
  unfold assign simplify
  simp only [degrees_eq_of_reordered h, removeAll_eq_of_reordered h, select_eq_of_reordered h]

end SysY.Allocation

namespace SysY.Tigger

open Eeyore SysY.Flow Allocation

/-- A way to list the neighbours of all slots. -/
structure Enumeration where
  arrange : ∀ {k : Nat}, Interference k → Interference k
  reordered : ∀ {k : Nat} (interference : Interference k),
    Reordered (arrange interference) interference

/-- The code of a program each of whose functions lists neighbours in a way of its own. -/
def lowerBy (enumerations : Nat → Enumeration) (program : Eeyore.Program) :
    Logged Fault Program := do
  let globals ← Logged.ofExcept (program.globals.mapM lowerGlobal)
  let code ← program.code.zipIdx.mapM fun (function, i) =>
    lowerFunctionBy (enumerations i).arrange (globalArrays program.globals) function
  return ⟨globals, code⟩

theorem lowerFunctionBy_eq (enumeration : Enumeration) (arrays : Std.HashSet Symbol)
    (function : Eeyore.Function) :
    lowerFunctionBy enumeration.arrange arrays function = lowerFunction arrays function := by
  unfold lowerFunction lowerFunctionBy
  simp only [assign_eq_of_reordered (enumeration.reordered _), id_eq]

theorem mapM_lowerFunctionBy_eq (enumerations : Nat → Enumeration) (arrays : Std.HashSet Symbol)
    (code : List Eeyore.Function) (first : Nat) :
    (code.zipIdx first).mapM (fun (function, i) =>
        lowerFunctionBy (enumerations i).arrange arrays function) =
      code.mapM (lowerFunction arrays) := by
  induction code generalizing first with
  | nil => rfl
  | cons function code ih =>
    rw [List.zipIdx_cons, List.mapM_cons, List.mapM_cons, ih]
    dsimp only
    rw [lowerFunctionBy_eq]

/-- Registers are assigned, and the code of a program is what it is, with its log, in whatever order
the neighbours of each slot are listed in each function. -/
theorem lower_order_irrelevant :
    (∀ {n k : Nat} (reordered interference : Interference k) (params : UInt32)
      (body : Vector Eeyore.Instruction n) (graph : Graph n) (slots : Slots k),
      Reordered reordered interference →
        assign params body graph slots reordered = assign params body graph slots interference) ∧
    ∀ (enumerations : Nat → Enumeration) (program : Eeyore.Program),
      lowerBy enumerations program = lower program := by
  constructor
  · intro n k reordered interference params body graph slots h
    exact assign_eq_of_reordered h params body graph slots
  · intro enumerations program
    unfold lowerBy lower
    rw [mapM_lowerFunctionBy_eq]
    rfl

def Enumeration.backwards : Enumeration where
  arrange interference := ⟨interference.neighbors.map List.reverse⟩
  reordered interference slot := by
    rw [get_eq_getElem, Vector.getElem_map]
    exact List.reverse_perm _

/-- Four slots that are all live at once, with their neighbours listed backwards. -/
theorem backwards_irrelevant :
    let body := exchanging.body.toVector
    let slots := Slots.ofFunction exchanging
    let backwards := Enumeration.backwards.arrange (complete 4)
    backwards ≠ complete 4 ∧ Reordered backwards (complete 4) ∧
      assign exchanging.parameters body (.ofSuccessors (targets body)) slots backwards =
        assign exchanging.parameters body (.ofSuccessors (targets body)) slots (complete 4) := by
  have hreordered := Enumeration.backwards.reordered (complete 4)
  exact ⟨by decide +kernel, hreordered, lower_order_irrelevant.1 _ _ _ _ _ _ hreordered⟩

end SysY.Tigger

import Mathlib.Logic.Function.Iterate
import SysY.Optimization.Table

/-!
# Going back in a table

Tables are the same if they have the same values and remember the same insertions. Undoing an
insertion gives a table that is the same as before. So a table can go back to every earlier one, as
long as it has never remembered less since then (`Returns`).
-/

namespace SysY.ScopedTable

variable {κ ν : Type} [BEq κ] [Hashable κ] {t t' w back : ScopedTable κ ν}
  {tables : List (ScopedTable κ ν)} {checkpoint : Checkpoint}

/-- Tables with the same values and the same memory of insertions. -/
structure Same (t t' : ScopedTable κ ν) : Prop where
  undo : t.undo = t'.undo
  get? : ∀ key, t.get? key = t'.get? key

theorem Same.refl (t : ScopedTable κ ν) : Same t t := ⟨rfl, fun _ => rfl⟩

theorem Same.trans {t'' : ScopedTable κ ν} (h : Same t t') (h' : Same t' t'') : Same t t'' :=
  ⟨h.undo.trans h'.undo, fun key => (h.get? key).trans (h'.get? key)⟩

/-! ## Undoing -/

theorem repeat_undoLast (n : Nat) (t : ScopedTable κ ν) :
    Nat.repeat undoLast n t = undoLast^[n] t := by
  induction n with
  | zero => rfl
  | succ n ih => rw [Function.iterate_succ_apply', ← ih, Nat.repeat]

theorem size_iterate_undoLast (n : Nat) (t : ScopedTable κ ν) :
    (undoLast^[n] t).undo.size = t.undo.size - n := by
  induction n generalizing t with
  | zero => rfl
  | succ n ih =>
    rw [Function.iterate_succ_apply, ih, undoLast]
    cases hlast : t.undo.back? with
    | none => simp [Array.back?_eq_none_iff.1 hlast]
    | some entry =>
      rw [Array.size_pop]
      omega

/-- Undoing all that `t` remembers beyond `w` gives `w`. -/
structure Returns (w t : ScopedTable κ ν) : Prop where
  le : w.undo.size ≤ t.undo.size
  same : Same (undoLast^[t.undo.size - w.undo.size] t) w

namespace Returns

theorem refl (t : ScopedTable κ ν) : Returns t t := by
  refine ⟨Nat.le_refl _, ?_⟩
  rw [Nat.sub_self]
  exact .refl t

theorem restore (h : Returns w t) : ∃ back, t.restore w.checkpoint = .ok back ∧ Same back w := by
  refine ⟨_, if_neg (Nat.not_lt.2 h.le), ?_⟩
  rw [repeat_undoLast]
  exact h.same

theorem restored (h : Returns w t) (hback : t.restore checkpoint = .ok back)
    (hle : w.undo.size ≤ back.undo.size) : Returns w back := by
  refine ⟨hle, ?_⟩
  unfold ScopedTable.restore at hback
  split at hback
  · cases hback
  · cases hback
    rw [repeat_undoLast, size_iterate_undoLast] at hle ⊢
    have hall : t.undo.size - (t.undo.size - checkpoint.depth) - w.undo.size +
        (t.undo.size - checkpoint.depth) = t.undo.size - w.undo.size := by omega
    rw [← Function.iterate_add_apply, hall]
    exact h.same

end Returns

/-! ## Insertions -/

variable [LawfulBEq κ]

theorem get?_insert (t : ScopedTable κ ν) (key key' : κ) (value : ν) :
    (t.insert key value).get? key' = if key == key' then some value else t.get? key' := by
  simp only [get?, insert, Std.HashMap.getElem?_insert]

theorem get?_putBack (map : Std.HashMap κ ν) (key key' : κ) (previous : Option ν) :
    (putBack map key previous)[key']? = if key == key' then previous else map[key']? := by
  cases previous with
  | none => simp only [putBack, Std.HashMap.getElem?_erase]
  | some value => simp only [putBack, Std.HashMap.getElem?_insert]

theorem undoLast_same (h : Same t t') : Same (undoLast t) (undoLast t') := by
  unfold undoLast
  rw [h.undo]
  cases t'.undo.back? with
  | none => exact h
  | some entry =>
    refine ⟨rfl, fun key => ?_⟩
    have := h.get? key
    simp only [get?, get?_putBack] at this ⊢
    rw [this]

theorem undoLast_insert (t : ScopedTable κ ν) (key : κ) (value : ν) :
    Same (undoLast (t.insert key value)) t := by
  refine ⟨by simp [undoLast, insert], fun key' => ?_⟩
  simp only [undoLast, insert, Array.back?_push, get?, get?_putBack, Std.HashMap.getElem?_insert]
  split
  · rename_i h
    rw [eq_of_beq h]
  · rfl

theorem Returns.congr (h : Returns w t') (hsame : Same t t') : Returns w t := by
  have hiterate : ∀ n, Same (undoLast^[n] t) (undoLast^[n] t') := by
    intro n
    induction n with
    | zero => exact hsame
    | succ n ih =>
      rw [Function.iterate_succ_apply', Function.iterate_succ_apply']
      exact undoLast_same ih
  obtain ⟨hle, hback⟩ := h
  rw [← hsame.undo] at hle hback
  exact ⟨hle, (hiterate _).trans hback⟩

theorem Returns.insert (h : Returns w t) (key : κ) (value : ν) : Returns w (t.insert key value) := by
  have hsize : (t.insert key value).undo.size = t.undo.size + 1 := Array.size_push _
  have hundone := h.congr (undoLast_insert t key value)
  refine ⟨by have := h.le; omega, ?_⟩
  rw [hsize, Nat.succ_sub h.le, Function.iterate_succ_apply]
  have hsame := hundone.same
  rwa [(undoLast_insert t key value).undo] at hsame

/-- Inserts a value at a key, if there is one. -/
def insert? (t : ScopedTable κ ν) (key? : Option κ) (value : ν) : ScopedTable κ ν :=
  match key? with
  | some key => t.insert key value
  | none => t

theorem get?_insert? [DecidableEq κ] (t : ScopedTable κ ν) (key? : Option κ) (key : κ) (value : ν) :
    (t.insert? key? value).get? key = if key? = some key then some value else t.get? key := by
  cases key? with
  | none => rfl
  | some key' => simp [insert?, get?_insert]

theorem Returns.insert? (t : ScopedTable κ ν) (key? : Option κ) (value : ν) :
    Returns t (t.insert? key? value) := by
  cases key? with
  | none => exact .refl t
  | some key => exact (Returns.refl t).insert key value

/-! ## Nested uses -/

/-- The table was `w` at some time, when a checkpoint could be taken, and has not remembered less
since. The latest table comes first. -/
def Kept (w : ScopedTable κ ν) (tables : List (ScopedTable κ ν)) : Prop :=
  ∃ since before, tables = since ++ w :: before ∧ ∀ t ∈ since, w.undo.size ≤ t.undo.size

/-- The tables of a use that begins with any table, the latest one first. -/
inductive Use : List (ScopedTable κ ν) → Prop
  | start (t : ScopedTable κ ν) : Use [t]
  | insert {t : ScopedTable κ ν} {past : List (ScopedTable κ ν)} (h : Use (t :: past)) (key : κ)
    (value : ν) : Use (t.insert key value :: t :: past)
  | restore {t w back : ScopedTable κ ν} {past : List (ScopedTable κ ν)} (h : Use (t :: past))
    (hkept : Kept w (t :: past)) (hback : t.restore w.checkpoint = .ok back) :
    Use (back :: t :: past)

theorem Use.returns {since before : List (ScopedTable κ ν)} (h : Use (since ++ w :: before))
    (hsince : ∀ t ∈ since, w.undo.size ≤ t.undo.size) :
    ∀ t ∈ (since ++ w :: before).head?, Returns w t := by
  induction since with
  | nil =>
    rintro _ ⟨⟩
    exact .refl w
  | cons t since ih =>
    rintro _ ⟨⟩
    rw [List.forall_mem_cons] at hsince
    generalize htables : since ++ w :: before = tables at ih
    rw [List.cons_append, htables] at h
    cases h with
    | start => simp at htables
    | insert h key value => exact (ih h hsince.2 _ rfl).insert key value
    | restore h _ hback => exact (ih h hsince.2 _ rfl).restored hback hsince.1

/-- In a nested use of a table, a checkpoint that was taken can always be restored, again and again:
every key has the value that it had then, and the table remembers as much as then. -/
theorem restore_exact (h : Use (t :: tables)) (hkept : Kept w (t :: tables)) :
    ∃ back, t.restore w.checkpoint = .ok back ∧ (∀ key, back.get? key = w.get? key) ∧
      back.undo.size = w.undo.size := by
  obtain ⟨since, before, heq, hsince⟩ := hkept
  rw [heq] at h
  obtain ⟨back, hback, hsame⟩ := (h.returns hsince t (by rw [← heq]; rfl)).restore
  exact ⟨back, hback, hsame.get?, congrArg _ hsame.undo⟩

def oneKey : ScopedTable Nat Nat := empty.insert 0 1

/-- Twice back over a key that was there and one that was not. -/
theorem oneKey_restored :
    ∃ first again, ((oneKey.insert 0 2).insert 1 3).restore oneKey.checkpoint = .ok first ∧
      first.restore oneKey.checkpoint = .ok again ∧ again.get? 0 = some 1 ∧ again.get? 1 = none := by
  have huse := ((Use.start oneKey).insert 0 2).insert 1 3
  have hkept : Kept oneKey [(oneKey.insert 0 2).insert 1 3, oneKey.insert 0 2, oneKey] :=
    ⟨[_, _], [], rfl, by simp [oneKey, insert, empty]⟩
  obtain ⟨first, hfirst, -, hsize⟩ := restore_exact huse hkept
  have hkept' : Kept oneKey [first, (oneKey.insert 0 2).insert 1 3, oneKey.insert 0 2, oneKey] :=
    ⟨[_, _, _], [], rfl, by simp [hsize, oneKey, insert, empty]⟩
  obtain ⟨again, hagain, hget, -⟩ := restore_exact (huse.restore hkept hfirst) hkept'
  refine ⟨first, again, hfirst, hagain, ?_, ?_⟩ <;> rw [hget]
  · simp [oneKey, get?, insert]
  · simp [oneKey, get?, insert, empty]

end SysY.ScopedTable

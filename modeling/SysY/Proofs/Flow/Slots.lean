import SysY.Flow.Slots
import SysY.Proofs.Flow.Search

/-!
# Symbols and their slots

A symbol that has a slot is the one that the slot declares. If no symbol is declared twice, then
every slot is that of its symbol.
-/

namespace SysY.Flow

open Eeyore

theorem mem_slotDecls {f : Function} {d : Decl} : d ∈ slotDecls f ↔
    (∃ id, id < f.parameters.toNat ∧ d = ⟨.param (.ofNat id), none⟩) ∨ d ∈ f.decls := by
  simp only [slotDecls, List.mem_append, List.mem_map, List.mem_range]
  refine or_congr_left (exists_congr fun id => and_congr_right fun _ => eq_comm)

namespace Slots

variable {k : Nat} {decls : Vector Decl k} {slot : Fin k} {x : Symbol}

theorem getElem?_foldl_insert (decls : Vector Decl k) (slots : List (Fin k))
    (index : Std.HashMap Symbol (Fin k)) (x : Symbol) (slot : Fin k)
    (h : (slots.foldl (fun index slot => index.insert (decls.get slot).symbol slot) index)[x]? =
      some slot) :
    index[x]? = some slot ∨ (decls.get slot).symbol = x := by
  induction slots generalizing index with
  | nil => exact .inl h
  | cons s slots ih =>
    rcases ih _ h with h | h
    · rw [Std.HashMap.getElem?_insert] at h
      split at h
      · rename_i heq
        cases h
        exact .inr (eq_of_beq heq)
      · exact .inl h
    · exact .inr h

theorem symbol_of_find? (h : (ofDecls decls).find? x = some slot) : (decls.get slot).symbol = x :=
  (getElem?_foldl_insert decls _ _ x slot h).resolve_left (by simp)

theorem mem_foldl_insert (decls : Vector Decl k) (slots : List (Fin k))
    (index : Std.HashMap Symbol (Fin k)) (x : Symbol)
    (h : x ∈ index ∨ ∃ slot ∈ slots, (decls.get slot).symbol = x) :
    x ∈ slots.foldl (fun index slot => index.insert (decls.get slot).symbol slot) index := by
  induction slots generalizing index with
  | nil => exact h.resolve_right (by simp)
  | cons s slots ih =>
    refine ih _ ?_
    rcases h with h | ⟨slot, hslot, rfl⟩
    · exact .inl (Std.HashMap.mem_insert.2 (.inr h))
    · rcases List.mem_cons.1 hslot with rfl | hslot
      · exact .inl Std.HashMap.mem_insert_self
      · exact .inr ⟨slot, hslot, rfl⟩

def Distinct (decls : Vector Decl k) : Prop :=
  ∀ a b, (decls.get a).symbol = (decls.get b).symbol → a = b

theorem distinct_ofFunction {fn : Function}
    (h : ((slotDecls fn).map (·.symbol)).Nodup) : Distinct (ofFunction fn).decls := by
  intro a b heq
  rw [List.Nodup, List.pairwise_map, List.pairwise_iff_getElem] at h
  have hget : ∀ i : Fin (slotDecls fn).length,
      (ofFunction fn).decls.get i = (slotDecls fn)[i.val] := fun i => rfl
  rw [hget, hget] at heq
  rcases Nat.lt_trichotomy a b with hlt | hab | hlt
  · exact absurd heq (h a b a.isLt b.isLt hlt)
  · exact Fin.ext hab
  · exact absurd heq.symm (h b a b.isLt a.isLt hlt)

theorem find?_symbol (h : Distinct decls) (slot : Fin k) :
    (ofDecls decls).find? (decls.get slot).symbol = some slot := by
  have hmem : (decls.get slot).symbol ∈ (ofDecls decls).index :=
    mem_foldl_insert decls _ _ _ (.inr ⟨slot, List.mem_finRange slot, rfl⟩)
  obtain ⟨found, hfnd⟩ := Option.isSome_iff_exists.1 (Std.HashMap.isSome_getElem?_iff_mem.2 hmem)
  rw [← h found slot (symbol_of_find? hfnd)]
  rw [symbol_of_find? hfnd]
  exact hfnd

theorem find?_eq_some_iff (h : Distinct decls) :
    (ofDecls decls).find? x = some slot ↔ (decls.get slot).symbol = x :=
  ⟨symbol_of_find?, fun hx => hx ▸ find?_symbol h slot⟩

end Slots

end SysY.Flow

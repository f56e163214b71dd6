import SysY.Proofs.Optimization.Replacement

/-!
# Reusing a computed value

`compute` is the value of a computation in a state. Once it is in a symbol it stays there, and stays
the value of the computation, until an instruction spoils it (`value_of_computed`). For a load this
needs that array bases are never assigned and that different arrays do not overlap.
-/

namespace SysY.Optimization

open Eeyore SysY.Flow Activation

variable {act : Activation} {n k : Nat} {dest : Symbol} {computation noted : Computation}
  {s : State} {index : Value} {instr : Instruction} {s' t : State} {array : Symbol}
  {a : UInt32} {body : Vector Instruction n} {p : Fin n}

def compute (act : Activation) (s : State) : Computation → Option Int32
  | .unary op operand => do return op.fold (← act.value s operand)
  | .binary op left right => do
    let a ← act.value s left
    let b ← act.value s right
    runBinary act.byZero op a b
  | .load array index => do return s.memory.word (← act.address s array index)

theorem effect_of_computation
    (h : Computation.ofInstruction? instr = some (dest, computation)) (s : State) :
    act.effect s instr = (compute act s computation).bind (act.assign s dest) := by
  cases instr <;> cases h <;> simp [effect, compute, Option.bind_assoc]

theorem direction_of_computation
    (h : Computation.ofInstruction? instr = some (dest, computation)) (s : State) :
    act.direction s instr = some .next := by
  cases instr <;> cases h <;> rfl

theorem definition_of_computation
    (h : Computation.ofInstruction? instr = some (dest, computation)) :
    instr.definition = some dest := by
  cases instr <;> cases h <;> rfl

/-! ## Exchanged operands -/

theorem compute_swapped {swapped : Computation} (h : computation.swapped? = some swapped)
    (s : State) :
    compute act s swapped = compute act s computation := by
  cases computation with
  | unary op operand => cases h
  | load array index => cases h
  | binary op left right =>
    obtain ⟨op', hop, rfl⟩ := Option.map_eq_some_iff.1 h
    simp only [compute]
    cases act.value s left with
    | none => cases act.value s right <;> rfl
    | some a =>
      cases act.value s right with
      | none => rfl
      | some b =>
        simp only [Option.bind_eq_bind, Option.bind_some, runBinary_swapped hop]

/-! ## What a value depends on -/

theorem address_congr (hbase : s'.scalars array = s.scalars array)
    (hidx : ∀ x, index.symbol? = some x → s'.scalars x = s.scalars x) :
    act.address s' array index = act.address s array index := by
  unfold address
  rw [value_congr (s := s) hidx, value_congr (s := s) fun x hx => by
    cases hx
    exact hbase]

theorem compute_congr (hops : ∀ x ∈ computation.operands, s'.scalars x = s.scalars x)
    (hload : ∀ array index, computation = .load array index →
      s'.scalars array = s.scalars array ∧
        ∀ a, act.address s array index = some a → s'.memory.word a = s.memory.word a) :
    compute act s' computation = compute act s computation := by
  cases computation with
  | unary op operand =>
    simp only [compute]
    rw [value_congr fun x hx => hops x (by simp [Computation.operands, hx])]
  | binary op left right =>
    simp only [compute]
    rw [value_congr fun x hx => hops x (by simp [Computation.operands, hx]),
      value_congr fun x hx => hops x (by simp [Computation.operands, hx])]
  | load array index =>
    obtain ⟨hbase, hword⟩ := hload array index rfl
    have haddr : act.address s' array index = act.address s array index :=
      address_congr hbase fun x hx => hops x (by simp [Computation.operands, hx])
    simp only [compute, haddr]
    cases ha : act.address s array index with
    | none => rfl
    | some a => simp [hword a ha]

/-- Array bases are arrays or parameters that nothing assigns to, and arrays do not overlap. -/
structure BasesFixed (act : Activation) (body : Vector Instruction n) : Prop where
  array_or_parameter : ∀ p b, (body.get p).base? = some b →
    (act.array? b).isSome = true ∨ b.kind = .parameter
  never_defined : ∀ p q b, (body.get p).base? = some b → (body.get q).definition ≠ some b
  separate : ∀ x y r s, x ≠ y → act.array? x = some r → act.array? y = some s → r.Disjoint s

theorem holds_of_address {region : Region}
    (h : act.address s array index = some a) (harr : act.array? array = some region) :
    region.holds a = true := by
  obtain ⟨start, _, h⟩ := Option.bind_eq_some_iff.1 h
  obtain ⟨offset, _, h⟩ := Option.bind_eq_some_iff.1 h
  dsimp only at h
  split at h
  · rename_i hadm
    cases h
    simpa [admits, harr] using hadm
  · cases h

theorem word_of_not_clobbers (hbases : BasesFixed act body) {q : Fin n} {u : State}
    (hbase : (body.get p).base? = some array) (hcln : clobbers array (body.get q) = false)
    (heff : act.effect t (body.get q) = some u) (ha : act.address t array index = some a) :
    u.memory.word a = t.memory.word a := by
  rcases effect_cases heff with ⟨x, v, t', _, hasg, ht'⟩ | ⟨_, hu⟩
  · obtain ⟨_, rfl⟩ := assign_eq_some.1 hasg
    rcases ht' with ⟨rfl, _⟩ | ⟨hcall, _⟩
    · rfl
    · revert hcall hcln
      cases body.get q <;> simp [clobbers, Instruction.isCall]
  · rcases hu with ⟨rfl, _⟩ | ⟨hcall, _⟩ | ⟨other, index', value, b, v, hsto, hb, _, rfl⟩
    · rfl
    · revert hcall hcln
      cases body.get q <;> simp [clobbers, Instruction.isCall]
    · rw [hsto] at hcln
      simp only [clobbers, Bool.or_eq_false_iff, decide_eq_false_iff_not] at hcln
      obtain ⟨⟨hne, hoth⟩, harr⟩ := hcln
      have hbase' : (body.get q).base? = some other := by rw [hsto]; rfl
      obtain ⟨r, hr⟩ := Option.isSome_iff_exists.1
        ((hbases.array_or_parameter q other hbase').resolve_right hoth)
      obtain ⟨s, hs⟩ := Option.isSome_iff_exists.1
        ((hbases.array_or_parameter p array hbase).resolve_right harr)
      exact Memory.word_write_of_apart _ _ ((hbases.separate other array r s hne hr hs).apart
        (holds_of_address hb hr) (holds_of_address ha hs))

/-! ## A computed value stays -/

/-- A computation at an earlier position, or the same with exchanged operands. -/
def SameValue (computation noted : Computation) : Prop :=
  noted = computation ∨ computation.swapped? = some noted

theorem SameValue.compute_eq (h : SameValue computation noted)
    (s : State) : compute act s noted = compute act s computation := by
  rcases h with rfl | h
  · rfl
  · exact compute_swapped h s

theorem SameValue.eq_of_load
    (h : SameValue (.load array index) noted) : noted = .load array index := by
  rcases h with h | h
  · exact h
  · cases h

theorem value_of_computed {slots : Slots k}
    (hloc : SlotsLocal act slots) (hbases : BasesFixed act body) {e : Fin n} {prior : Symbol}
    (hsame : SameValue computation noted)
    (hnoted : Computation.ofInstruction? (body.get e) = some (prior, noted))
    (hfr : prior ∉ noted.operands) (hdom : StrictlyDominates (targets body) e p)
    (hcln : unchanged (.ofSuccessors (targets body)) body p e
      (computation.isSpoiledBy slots prior) = true) (hs : s.position = 0)
    (ht : act.Comes body s t) (hp : t.position = p.val) :
    ∃ v, compute act t computation = some v ∧ act.value t (.symbol prior) = some v := by
  have hbase : ∀ array index, noted = .load array index → (body.get e).base? = some array := by
    rintro array index rfl
    revert hnoted
    cases body.get e <;> intro hnoted <;> cases hnoted
    rfl
  refine holds_of_unchanged (fun t => ∃ v, compute act t computation = some v ∧
    act.value t (.symbol prior) = some v) hdom hcln ?_ ?_ (fun u q h => ?_) hs ht hp
  · intro t u _ heff
    rw [effect_of_computation hnoted] at heff
    obtain ⟨v, hv, hasg⟩ := Option.bind_eq_some_iff.1 heff
    obtain ⟨harr, rfl⟩ := assign_eq_some.1 hasg
    refine ⟨v, ?_, by simp [value, harr]⟩
    rw [← hsame.compute_eq, ← hv]
    refine compute_congr (fun x hx => if_neg ?_) fun array index hload =>
      ⟨if_neg ?_, fun _ _ => rfl⟩
    · rintro rfl
      exact hfr hx
    · rintro rfl
      exact hbases.never_defined e e array (hbase array index hload)
        (definition_of_computation hnoted)
  · rintro t u q hfine ⟨v, hcpt, hval⟩ heff
    obtain ⟨hwrites, hclobbers⟩ := Bool.or_eq_false_iff.1 hfine
    refine ⟨v, ?_, ?_⟩
    · rw [← hcpt]
      refine compute_congr (fun x hx => scalars_of_not_writesAny hloc hwrites heff (by simp [hx]))
        fun array index hload => ?_
      subst hload
      have hb := hbase array index hsame.eq_of_load
      refine ⟨scalars_of_effect heff (hbases.never_defined e q array hb) fun hcall => ?_,
        fun a ha => word_of_not_clobbers hbases hb hclobbers heff ha⟩
      revert hcall hclobbers
      cases body.get q <;> simp [clobbers, Instruction.isCall]
    · rw [← hval]
      refine value_congr fun x hx => ?_
      cases hx
      exact scalars_of_not_writesAny hloc hwrites heff (by simp)
  · obtain ⟨v, hcpt, hval⟩ := h
    refine ⟨v, ?_, hval⟩
    rw [← hcpt]
    exact compute_congr (fun _ _ => rfl) fun _ _ _ => ⟨rfl, fun _ _ => rfl⟩

end SysY.Optimization

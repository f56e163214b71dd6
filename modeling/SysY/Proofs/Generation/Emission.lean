import SysY.Proofs.Generation.Growth
import SysY.Proofs.Generation.Inversion

/-!
# The code of expressions

The code of an expression only adds instructions, new temporaries and new labels. A constant needs no
code at all, and a comparison that has just been computed can be taken back.
-/

namespace SysY.Generation

open Eeyore SysY.Tree

variable {b b1 b2 b' : Builder} {y x z : Value} {name : Name} {r : Resolved} {loc : Location}
  {indices : Nat}

/-! ## Single steps -/

theorem Computes.emits {i : Symbol → Instruction} {x : Symbol} (h : Computes b i x b')
    (hdef : (i x).definition = some x) : Emits b b' := by
  obtain ⟨hroom, rfl, rfl⟩ := h
  refine (Emits.addTemp hroom).trans (.emit _ ?_ ?_) <;>
    cases hi : i (.temp b.code.temps) <;>
    simp_all [Instruction.definition, Instruction.label?, Neat, Symbol.isTemp, Symbol.temp]

theorem emits_applyUnary {op : UnaryOp} (h : Builds (applyUnary op y) b x b') :
    Emits b b' := by
  rcases builds_applyUnary.1 h with ⟨_, _, _, rfl⟩ | ⟨_, dest, _, _, hcomp⟩
  · exact .refl _
  · exact hcomp.emits rfl

theorem emits_applyOperator {op : UnaryOperator}
    (h : Builds (applyOperator op y) b x b') : Emits b b' := by
  cases op with
  | plus =>
    obtain ⟨_, rfl⟩ := builds_pure.1 h
    exact .refl _
  | minus => exact emits_applyUnary h
  | not => exact emits_applyUnary h

theorem emits_applyBinary {op : BinaryOp}
    (h : Builds (applyBinary op y z loc) b x b') : Emits b b' := by
  rcases builds_applyBinary.1 h with ⟨_, _, _, _, _, _, _, rfl⟩ | ⟨_, dest, _, hcomp⟩
  · exact .refl _
  · exact hcomp.emits rfl

theorem emits_scale {factor : Int32}
    (h : Builds (scale y factor loc) b x b') : Emits b b' := by
  rcases builds_scale.1 h with ⟨_, _, rfl⟩ | ⟨_, h⟩
  · exact .refl _
  · exact emits_applyBinary h

theorem emits_truthInstruction (b : Builder) (id : UInt32) (y : Value) :
    Emits b (b.emit (truthInstruction (.temp id) y)) := by
  cases y with
  | const c => exact .emit _ rfl trivial
  | symbol l => exact .emit _ rfl rfl

theorem emits_emitCall {fn : String} {returns : ReturnType} {args : List Value} {x : Option Symbol}
    (h : Builds (emitCall fn returns args loc) b x b') : Emits b b' := by
  rcases builds_emitCall.1 h with ⟨dest, _, _, hcomp⟩ | ⟨_, _, rfl⟩
  · exact hcomp.emits rfl
  · exact .emit _ rfl trivial

theorem emits_resolveOffset {meaning : Meaning} {offset : Value}
    (h : Builds (resolveOffset name meaning indices offset) b r b') : Emits b b' := by
  rcases builds_resolveOffset.1 h with ⟨_, x, _, hadd⟩ | ⟨_, ⟨c, values, _, _, hconst⟩ | ⟨_, _, rfl⟩⟩
  · exact emits_applyBinary hadd
  · obtain ⟨_, _, _, rfl⟩ := builds_constantElement.1 hconst
    exact .refl _
  · exact .refl _

theorem emits_readResolved (h : Builds (readResolved r) b x b') :
    Emits b b' := by
  rcases builds_readResolved.1 h with ⟨_, _, _, rfl⟩ | ⟨_, _, _, rfl⟩ | ⟨_, rfl⟩ |
    ⟨_, _, dest, _, _, hcomp⟩
  · exact .refl _
  · exact .refl _
  · exact .refl _
  · exact hcomp.emits rfl

theorem emits_resolveWith {write : Bool} {position : List Int32 → Build (Option Value)}
    (hpos : ∀ dims index b1, Builds (position dims) b index b1 → Emits b b1)
    (h : Builds (resolveWith name indices write position) b r b') : Emits b b' := by
  obtain ⟨meaning, index, b1, _, _, _, hidx, h⟩ := builds_resolveWith.1 h
  refine (hpos _ _ _ hidx).trans ?_
  rcases h with ⟨_, h⟩ | ⟨x, factor, offset, b2, _, _, hscl, h⟩
  · obtain ⟨rfl, _⟩ := builds_resolveName.1 h
    exact .refl _
  · exact (emits_scale hscl).trans (emits_resolveOffset h)

theorem emits_callWith {sigs : Signatures} {fn : Name} {count : Nat} {args : Build (List Value)} {x : Option Symbol}
    (hargs : ∀ values b1, Builds args b values b1 → Emits b b1)
    (h : Builds (callWith sigs fn count loc args) b x b') : Emits b b' := by
  obtain ⟨signature, values, b1, _, _, hvals, h⟩ := builds_callWith.1 h
  exact (hargs _ _ hvals).trans (emits_emitCall h)

theorem emits_connect {conn : Connective} {l : Symbol}
    (htemp : b.code.temps.toNat + 1 < wordValues) (hlab : b.lastLabel.toNat + 1 < wordValues)
    (h : Emits (b.connect conn l) b') : Emits b (b.join b' z) := by
  have hhead : Emits b.addTemp.addLabel (b.connect conn l) :=
    (emits_truthInstruction _ _ _).trans (.emit _ rfl trivial)
  exact (Emits.addTemp htemp).trans
    (Emits.mark hlab (hhead.trans (h.trans (emits_truthInstruction _ _ _))))

/-! ## Whole expressions -/

mutual

theorem emits_eval {sigs : Signatures} {loc : Location} {formula : Formula}
    {b b' : Builder} {x : Value} (h : Builds (eval sigs loc formula) b x b') :
    Emits b b' := by
  cases formula with
  | literal value =>
    rw [eval, builds_pure] at h
    exact h.2 ▸ .refl _
  | read name indices =>
    obtain ⟨r, b1, hrsv, hread⟩ := builds_eval_read.1 h
    refine Emits.trans (emits_resolveWith ?_ hrsv) (emits_readResolved hread)
    exact fun dimensions index b1 hidx => emits_evalPosition hidx
  | call fn args place =>
    obtain ⟨dest, _, hcall⟩ := builds_eval_call.1 h
    exact emits_callWith (fun values b1 hvals => emits_evalAll hvals) hcall
  | unary op operand =>
    obtain ⟨y, b1, hy, hx⟩ := builds_eval_unary.1 h
    exact (emits_eval hy).trans (emits_applyOperator hx)
  | binary op left right =>
    obtain ⟨y, b1, z, b2, hy, hz, hx⟩ := builds_eval_binary.1 h
    exact (emits_eval hy).trans ((emits_eval hz).trans (emits_applyBinary hx))
  | logic conn left right =>
    obtain ⟨y, b1, hy, h⟩ := builds_eval_logic.1 h
    refine (emits_eval hy).trans ?_
    rcases h with ⟨c, _, _, z, b2, hz, hx⟩ | ⟨c, _, _, _, rfl⟩ |
      ⟨l, z, b2, _, htemp, hlab, _, hz, rfl⟩
    · exact (emits_eval hz).trans (emits_applyBinary hx)
    · exact .refl _
    · exact emits_connect htemp hlab (emits_eval hz)
  | malformed fault =>
    rw [eval, builds_checked] at h
    cases h.1

theorem emits_evalAll {sigs : Signatures} {formulas : Formulas} {b b' : Builder}
    {values : List Value} (h : Builds (evalAll sigs formulas) b values b') : Emits b b' := by
  cases formulas with
  | nil =>
    rw [evalAll, builds_pure] at h
    exact h.2 ▸ .refl _
  | cons formula place rest =>
    obtain ⟨y, b1, ys, hy, hys, _⟩ := builds_evalAll_cons.1 h
    exact (emits_eval hy).trans (emits_evalAll hys)

theorem emits_evalPosition {sigs : Signatures} {loc : Location} {dims : List Int32}
    {formulas : Formulas} {b b' : Builder} {index : Option Value}
    (h : Builds (evalPosition sigs loc dims formulas) b index b') :
    Emits b b' := by
  cases formulas with
  | nil =>
    rw [evalPosition, builds_pure] at h
    exact h.2 ▸ .refl _
  | cons formula place rest =>
    obtain ⟨y, b1, z, hy, hz, _⟩ := builds_evalPosition_cons.1 h
    exact (emits_eval hy).trans (emits_addIndices hz)

theorem emits_addIndices {sigs : Signatures} {loc : Location} :
    ∀ {formulas : Formulas} {dims : List Int32} {position : Value} {b b' : Builder} {x : Value},
    Builds (addIndices sigs loc dims position formulas) b x b' → Emits b b'
  | .nil, dims, position, b, b', x, h => by
    rw [addIndices, builds_pure] at h
    exact h.2 ▸ .refl _
  | .cons formula place rest, [], position, b, b', x, h => by
    rw [addIndices, builds_pure] at h
    exact h.2 ▸ .refl _
  | .cons formula place rest, dimension :: dims, position, b, b', x, h => by
    obtain ⟨scaled, b1, y, b2, sum, b3, hscd, hy, hsum, h⟩ := builds_addIndices_cons.1 h
    exact (emits_scale hscd).trans ((emits_eval hy).trans
      ((emits_applyBinary hsum).trans (emits_addIndices h)))

end

end SysY.Generation

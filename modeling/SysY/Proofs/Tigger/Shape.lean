import SysY.Proofs.Tigger.Functions

/-!
# The skeleton of register code

An instruction that matters to control becomes one such instruction, with plain ones in front of it,
and the others become plain instructions. So the skeleton of a function is that of the function it
comes from, up to plain instructions.
-/

namespace SysY.Tigger

open SysY.Optimization (map_get_finRange isTerminator_of_ended)
open Control (significant significant_append Ended)

variable {n k : Nat} {ctx : Context n k} {code : List Instruction} {p : Fin n}
  {codes : List (List Instruction)} {f : Eeyore.Function} {lowered : Function}

/-- The skeleton of a function. -/
def Function.controls (f : Function) : List Control := f.body.map (·.control)

/-! ## Instructions -/

theorem significant_of_plain {q : Option (Fin n)} (h : ∀ i ∈ code, ctx.Plain q i) :
    significant (code.map (·.control)) = [] := by
  refine List.filter_eq_nil_iff.2 fun c hc => ?_
  obtain ⟨i, hi, rfl⟩ := List.mem_map.1 hc
  have hpln := (h i hi).isPlain
  cases i <;> simp_all [Context.isPlain, Instruction.control]

theorem Context.significant_lowerInstruction (h : ctx.lowerInstruction p = .ok code) :
    significant (code.map (·.control)) = significant [(ctx.body.get p).control] := by
  rcases Context.lowerInstruction_control h with ⟨hpln, hctl⟩ | ⟨front, last, rfl, hpln, -, hctl⟩
  · rw [significant_of_plain hpln, hctl]
    rfl
  · rw [List.map_append, significant_append, significant_of_plain hpln, List.map_singleton,
      hctl, List.nil_append]

theorem Context.ended_lowerInstruction (h : ctx.lowerInstruction p = .ok code)
    (hstp : (ctx.body.get p).isTerminator = true) : Ended (code.map (·.control)) := by
  rcases Context.lowerInstruction_control h with ⟨-, hctl⟩ | ⟨front, last, rfl, -, -, hctl⟩
  · have : (ctx.body.get p).control.stops = true := hstp
    rw [hctl] at this
    cases this
  · refine ⟨front.map (·.control), last.control, by simp, ?_⟩
    rw [hctl]
    exact hstp

/-! ## Functions -/

theorem significant_codes {ps : List (Fin n)}
    (h : List.Forall₂ (fun p code => ctx.lowerInstruction p = .ok code) ps codes) :
    significant (codes.flatten.map (·.control)) =
      significant ((ps.map ctx.body.get).map (·.control)) := by
  induction h with
  | nil => rfl
  | @cons p code ps codes hcode _ ih =>
    rw [List.flatten_cons, List.map_append, significant_append, ih,
      Context.significant_lowerInstruction hcode, ← significant_append]
    rfl

theorem ended_codes (hcodes : CodesOf ctx codes)
    (hp : p.val + 1 = n) (hstp : (ctx.body.get p).isTerminator = true) :
    Ended (codes.flatten.map (·.control)) := by
  have hlen := hcodes.1
  have hget : codes[p.val]? = some codes[p.val] := List.getElem?_eq_getElem (by omega)
  have hlast : codes.getLast? = some codes[p.val] := by
    rw [List.getLast?_eq_getElem?, show codes.length - 1 = p.val by omega, hget]
  obtain ⟨front, hfro⟩ := List.getLast?_eq_some_iff.1 hlast
  have hlow := hcodes.2 p _ hget
  obtain ⟨cs, c, hend, hc⟩ := Context.ended_lowerInstruction hlow hstp
  refine ⟨front.flatten.map (·.control) ++ cs, c, ?_, hc⟩
  rw [hfro, List.flatten_concat, List.map_append, hend, List.append_assoc]

/-- A function of register code has the skeleton that it had before, up to plain instructions. -/
structure SameControls (f : Eeyore.Function) (lowered : Function) : Prop where
  significant : significant lowered.controls = significant f.controls
  ended : Ended f.controls → Ended lowered.controls

theorem sameControls_lowerBody {ctx : Context f.body.size k} (hbody : ctx.body = f.body.toVector)
    (h : ctx.lowerBody = .ok lowered.body) : SameControls f lowered := by
  obtain ⟨first, codes, hfst, hcodes, hcode⟩ := Context.lowerBody_eq_ok.1 h
  have hpln : ∀ i ∈ first, ctx.Plain none i := by
    split at hfst
    · cases hfst
      exact List.forall_mem_nil _
    · exact Context.plain_entry hfst
  have hall := mapM_eq_ok.1 (codesOf_iff.2 hcodes)
  have hget : (List.finRange f.body.size).map ctx.body.get = f.body.toList := by
    rw [map_get_finRange, hbody]
    rfl
  refine ⟨?_, fun hended => ?_⟩
  · rw [Function.controls, hcode, List.map_append, significant_append,
      significant_of_plain hpln, List.nil_append, significant_codes hall, hget]
    rfl
  · have hsz : 0 < f.body.size := by
      simpa [Eeyore.Function.controls] using hended.length_pos
    have hlast : f.body.size - 1 + 1 = f.body.size := Nat.sub_add_cancel hsz
    let p : Fin f.body.size := ⟨f.body.size - 1, by omega⟩
    have hstp : (ctx.body.get p).isTerminator = true := by
      rw [hbody]
      exact @isTerminator_of_ended _ f.body.toVector hended _ hlast
    obtain ⟨front, c, hend, hc⟩ := ended_codes hcodes hlast hstp
    refine ⟨first.map (·.control) ++ front, c, ?_, hc⟩
    rw [Function.controls, hcode, List.map_append, hend, List.append_assoc]

theorem sameControls_lowerFunction {arrays : Std.HashSet Symbol}
    (h : (lowerFunction arrays f).result = .ok lowered) : SameControls f lowered := by
  obtain ⟨ctx, regs, hctx, -, -, -, -, -, -, hcode⟩ := lowerFunction_cases h
  exact sameControls_lowerBody hctx.body hcode

theorem sameControls_lower {program : Eeyore.Program} {lowered : Program}
    (h : (lower program).result = .ok lowered) :
    List.Forall₂ SameControls program.code lowered.code := by
  obtain ⟨-, arrays, hcode⟩ := lower_cases h
  exact hcode.imp fun _ _ => sameControls_lowerFunction

end SysY.Tigger

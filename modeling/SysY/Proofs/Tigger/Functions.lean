import SysY.Proofs.Tigger.Entry
import SysY.Proofs.Tigger.Surroundings

/-!
# The code of a function

The code of a function comes from a context that the stages before have prepared, and it is that of
its entry and of its instructions. There always is one, unless the function calls with too many
arguments, goes to undefined labels, assigns to arrays, has operations on two constants or does not
fit into a frame.
-/

namespace SysY.Tigger

open Eeyore (Decl isArray)
open SysY.Flow Allocation Logged

/-- A function of three-address code that can be lowered. -/
structure Lowerable (globals : List Decl) (function : Eeyore.Function) : Prop where
  parameters : function.parameters.toNat ≤ maxArguments
  arguments : ∀ i ∈ function.body, i.isCall = true → i.operands.length ≤ maxArguments
  /-- No symbol is declared twice. -/
  distinct : ((slotDecls function).map (·.symbol)).Nodup
  /-- Every symbol that occurs is declared. -/
  declared : ∀ i ∈ function.body, ∀ x ∈ i.uses ++ i.definition.toList,
    x ∈ (slotDecls function ++ globals).map (·.symbol)
  /-- No array is assigned to as a whole. -/
  scalar : ∀ i ∈ function.body, ∀ x ∈ i.definition.toList, isArray globals function x = false
  /-- No operation has two constant operands. -/
  folded : ∀ dest op a b, .binary dest op (.const a) (.const b) ∉ function.body

/-- The words of a function's symbols. -/
def declaredWords (function : Eeyore.Function) : Nat :=
  ((slotDecls function).map fun d => (d.size.getD 1).toNat).sum

variable {n k : Nat} {globals : List Decl} {ctx : Context n k}
  {regs : Vector (Option Register) k} {place : Object k → Option UInt32} {lowered : Function}

/-! ## Instructions -/

theorem Context.commit_ok (hp : Prepared ctx regs place) {x : Symbol}
    (hsca : ∀ slot, ctx.slots.find? x = some slot → ctx.slots.isArray slot = false)
    (source : Register) : ∃ code, ctx.commit x source = .ok code := by
  unfold commit
  split
  · exact ⟨_, rfl⟩
  · exact ⟨_, rfl⟩
  · rename_i a hhome
    obtain ⟨slot, hslot, hhome⟩ := Option.bind_eq_some_iff.1 hhome
    have := (hp.layout.place_of_array hhome).2
    rw [hsca slot hslot] at this
    cases this
  · exact ⟨_, rfl⟩

theorem Context.computing_ok (hp : Prepared ctx regs place) {x : Symbol}
    (hsca : ∀ slot, ctx.slots.find? x = some slot → ctx.slots.isArray slot = false)
    {result : Except Fault (List Instruction)} {scratch : Register} {front : List Instruction}
    {i : Register → Instruction} (h : result = ctx.computing x scratch front i) :
    ∃ code, result = .ok code := by
  obtain ⟨written, hwr⟩ := commit_ok hp hsca (ctx.target x scratch)
  exact ⟨_, h.trans (congrArg _ hwr)⟩

theorem Context.lowerInstruction_ok (hp : Prepared ctx regs place) {p : Fin n}
    (hsca : ∀ x, (ctx.body.get p).definition = some x → ∀ slot, ctx.slots.find? x = some slot →
      ctx.slots.isArray slot = false)
    (hargs : ∀ callee args output, ctx.body.get p = .call callee args output →
      args.length ≤ maxArguments)
    (hfolded : ∀ dest op a b, ctx.body.get p ≠ .binary dest op (.const a) (.const b)) :
    ∃ code, ctx.lowerInstruction p = .ok code := by
  unfold lowerInstruction
  split
  · exact ⟨[], rfl⟩
  unfold lowerLive
  cases hi : ctx.body.get p with
  | unary dest op operand =>
    have hdest := hsca dest (by rw [hi]; rfl)
    cases operand with
    | const c => exact computing_ok hp hdest (lowerUnary_const ..)
    | symbol x => exact computing_ok hp hdest (lowerUnary_symbol ..)
  | binary dest op left right =>
    have hsym : ∀ a b, left = .const a → right ≠ .const b := by
      rintro a b rfl rfl
      exact hfolded dest op a b hi
    exact computing_ok hp (hsca dest (by rw [hi]; rfl)) (lowerBinary_eq ctx hsym rfl)
  | copy dest value =>
    have hdest := hsca dest (by rw [hi]; rfl)
    cases value with
    | const c => exact computing_ok hp hdest (lowerCopy_const ..)
    | symbol x =>
      by_cases hhome : ∃ r, ctx.home? dest = some (.register r)
      · obtain ⟨r, hhome⟩ := hhome
        exact ⟨_, lowerCopy_register ctx hhome x⟩
      · obtain ⟨written, hwr⟩ := commit_ok hp hdest (ctx.readSymbol x .t0).2
        exact ⟨_, (lowerCopy_memory ctx (fun r hr => hhome ⟨r, hr⟩) x).trans (congrArg _ hwr)⟩
  | store array index value => exact ⟨_, rfl⟩
  | load dest array index =>
    exact computing_ok hp (hsca dest (by rw [hi]; rfl)) (lowerLoad_eq ..)
  | branch left relation right target => exact ⟨_, rfl⟩
  | jump target => exact ⟨_, rfl⟩
  | label l => exact ⟨_, rfl⟩
  | call callee args output =>
    have hlen := hargs callee args output hi
    obtain ⟨moved, hmvd, -⟩ := parallelMove_arguments hp args
    have hreceive : ∃ code, ctx.receive (output.filter (!ctx.isDeadAfter p ·)) = .ok code := by
      unfold receive
      split
      · exact ⟨_, rfl⟩
      · rename_i x hx
        obtain ⟨rfl, -⟩ := Option.filter_eq_some_iff.1 hx
        split
        · exact ⟨_, rfl⟩
        · exact commit_ok hp (hsca x (by rw [hi]; rfl)) .a0
    obtain ⟨received, hreceived⟩ := hreceive
    simp only [lowerCall, Nat.not_lt.2 hlen, if_false, passArguments_eq, hmvd, Except.map,
      hreceived, ok_bind]
    exact ⟨_, rfl⟩
  | «return» value => exact ⟨_, rfl⟩

/-! ## Bodies -/

theorem codesOf_iff {codes : List (List Instruction)} :
    (List.finRange n).mapM ctx.lowerInstruction = .ok codes ↔ CodesOf ctx codes := by
  rw [mapM_eq_ok, List.forall₂_iff_get, CodesOf]
  refine and_congr (by rw [List.length_finRange, eq_comm])
    ⟨fun h p code hcode => ?_, fun h i hi hi' => ?_⟩
  · obtain ⟨hlt, rfl⟩ := List.getElem?_eq_some_iff.1 hcode
    simpa using h p.val (by simp) hlt
  · have hlt : i < n := by simpa using hi
    simpa using h ⟨i, hlt⟩ _ (List.getElem?_eq_getElem hi')

theorem Context.lowerBody_eq_ok {code : List Instruction} :
    ctx.lowerBody = .ok code ↔ ∃ first codes, (if n = 0 then .ok [] else ctx.entry) = .ok first ∧
      CodesOf ctx codes ∧ code = first ++ codes.flatten := by
  have hbody : ctx.lowerBody = (if n = 0 then .ok [] else ctx.entry) >>= fun first =>
      (List.finRange n).mapM ctx.lowerInstruction >>= fun rest => .ok (first ++ rest.flatten) := by
    unfold lowerBody
    split <;> rfl
  rw [hbody, bind_eq_ok]
  refine exists_congr fun first => ?_
  rw [bind_eq_ok]
  constructor
  · rintro ⟨hfst, codes, hcodes, h⟩
    exact ⟨codes, hfst, codesOf_iff.1 hcodes, (Except.ok.inj h).symm⟩
  · rintro ⟨codes, hfst, hcodes, rfl⟩
    exact ⟨hfst, codes, codesOf_iff.2 hcodes, rfl⟩

/-! ## Functions -/

variable {function : Eeyore.Function} {arrays : Std.HashSet Symbol}

/-- The context in which a function is lowered. -/
structure ContextOf (arrays : Std.HashSet Symbol) (function : Eeyore.Function)
    (ctx : Context function.body.size (slotDecls function).length) : Prop where
  body : ctx.body = function.body.toVector
  slots : ctx.slots = .ofFunction function
  parameters : ctx.parameters = function.parameters
  arrays : ctx.arrays = arrays

theorem ContextOf.belongs {ctx : Context function.body.size (slotDecls function).length}
    (h : ContextOf arrays function ctx)
    (harrs : ∀ x, arrays.contains x = true ↔ ∃ d ∈ globals, d.size.isSome = true ∧ d.symbol = x) :
    Belongs globals function ctx where
  decls := by rw [h.slots]; rfl
  arrays := by rw [h.arrays]; exact harrs

theorem ContextOf.get_mem {ctx : Context function.body.size (slotDecls function).length}
    (h : ContextOf arrays function ctx) (p : Fin function.body.size) :
    ctx.body.get p ∈ function.body := by
  rw [h.body]
  exact Array.getElem_mem p.isLt

theorem lowerFunction_cases (h : (lowerFunction arrays function).result = .ok lowered) :
    ∃ ctx regs, ContextOf arrays function ctx ∧
      Graph.ofBody function.name ctx.body = .ok ctx.graph ∧
      ctx.liveness = .ofBody ctx.graph ctx.body ctx.slots ∧
      ConflictFree ctx.slots (.ofLiveness ctx.liveness) regs ∧
      Frame.ofRegisters function.parameters ctx.slots regs (ctx.body.any (·.isCall)) = .ok ctx.frame ∧
      lowered.name = function.name ∧ ctx.frame.size = lowered.frame ∧
      ctx.lowerBody = .ok lowered.body := by
  unfold lowerFunction lowerFunctionBy at h
  split at h
  · cases h
  simp only [result_bind, result_ofExcept] at h
  obtain ⟨graph, hgph, h⟩ := bind_eq_ok.1 h
  obtain ⟨regs, hregs, h⟩ := bind_eq_ok.1 h
  obtain ⟨frame, hfrm, h⟩ := bind_eq_ok.1 h
  obtain ⟨-, -, h⟩ := bind_eq_ok.1 h
  obtain ⟨code, hcode, h⟩ := bind_eq_ok.1 h
  cases h
  obtain ⟨regs', hregs', hfree⟩ := assign_spec function.parameters
    function.body.toVector graph (.ofFunction function) (simple_ofLiveness
      (Liveness.ofBody graph function.body.toVector (.ofFunction function)))
  obtain rfl := Except.ok.inj (hregs'.symm.trans hregs)
  let ctx : Context function.body.size (slotDecls function).length := ⟨function.name,
    function.parameters, function.body.toVector, graph, .ofFunction function,
    .ofBody graph function.body.toVector (.ofFunction function), frame, arrays⟩
  exact ⟨ctx, regs', ⟨rfl, rfl, rfl, rfl⟩, hgph, rfl, hfree, hfrm, rfl, rfl, hcode⟩

theorem lower_cases {program : Eeyore.Program} {lowered : Program}
    (h : (lower program).result = .ok lowered) :
    program.globals.mapM lowerGlobal = .ok lowered.globals ∧ ∃ arrays,
      List.Forall₂ (fun f t => (lowerFunction arrays f).result = .ok t) program.code lowered.code := by
  simp only [lower, result_bind, result_ofExcept, result_mapM] at h
  obtain ⟨globals, hglobs, h⟩ := bind_eq_ok.1 h
  obtain ⟨code, hcode, h⟩ := bind_eq_ok.1 h
  cases h
  exact ⟨hglobs, _, mapM_eq_ok.1 hcode⟩

theorem lowerFunction_layout (h : (lowerFunction arrays function).result = .ok lowered) :
    ∃ ctx regs place, ContextOf arrays function ctx ∧
      ctx.graph = .ofSuccessors (targets ctx.body) ∧
      ctx.liveness = .ofBody ctx.graph ctx.body ctx.slots ∧
      ConflictFree ctx.slots (.ofLiveness ctx.liveness) regs ∧
      Layout ctx.slots regs (ctx.body.any (·.isCall)) ctx.frame place ∧
      ctx.frame.size = lowered.frame ∧ ctx.lowerBody = .ok lowered.body := by
  obtain ⟨ctx, regs, hctx, hgph, hliveness, hfree, hfrm, -, hsz, hcode⟩ := lowerFunction_cases h
  obtain ⟨place, hlay⟩ := Frame.ofRegisters_spec hfrm
  exact ⟨ctx, regs, place, hctx, Graph.eq_of_ofBody hgph, hliveness, hfree, hlay, hsz, hcode⟩

theorem lowerFunction_spec (hdist : ((slotDecls function).map (·.symbol)).Nodup) (h : (lowerFunction arrays function).result = .ok lowered) :
    ∃ ctx regs place, ContextOf arrays function ctx ∧ Prepared ctx regs place ∧
      ctx.frame.size = lowered.frame ∧ ctx.lowerBody = .ok lowered.body := by
  obtain ⟨ctx, regs, place, hctx, hgph, hliveness, hfree, hlay, hfrm, hcode⟩ :=
    lowerFunction_layout h
  refine ⟨ctx, regs, place, hctx, ⟨hgph, ?_, ?_, hliveness, hfree, hlay⟩, hfrm, hcode⟩
  · rw [hctx.slots]
    rfl
  · rw [hctx.slots]
    exact Slots.distinct_ofFunction hdist

theorem sum_words (function : Eeyore.Function) :
    ((List.finRange (slotDecls function).length).map
      (Frame.slotWords (.ofFunction function))).sum = declaredWords function := by
  rw [declaredWords]
  congr 1
  exact List.ext_getElem (by simp) fun i _ _ => by simp [Frame.slotWords, Object.words]; rfl

theorem lowerFunction_ok (h : Lowerable globals function)
    (harrs : ∀ x, arrays.contains x = true ↔ ∃ d ∈ globals, d.size.isSome = true ∧ d.symbol = x)
    (htargets : TargetsDefined function.body.toVector)
    (hroom : declaredWords function + Register.all.length < wordValues) :
    ∃ lowered, (lowerFunction arrays function).result = .ok lowered := by
  have hgph := Graph.ofBody_eq function.name htargets
  obtain ⟨regs, hregs, hfree⟩ := assign_spec function.parameters function.body.toVector
    (.ofSuccessors (targets function.body.toVector)) (.ofFunction function) (simple_ofLiveness
      (Liveness.ofBody (.ofSuccessors (targets function.body.toVector)) function.body.toVector
        (.ofFunction function)))
  have hobjs := @Frame.sum_objects_lt _ (.ofFunction function) function.parameters regs
    (function.body.toVector.any (·.isCall)) (by rwa [sum_words])
  obtain ⟨frame, hfrm⟩ := Frame.ofRegisters_ok hobjs
  obtain ⟨place, hlay⟩ := Frame.ofRegisters_spec hfrm
  let ctx : Context function.body.size (slotDecls function).length :=
    ⟨function.name, function.parameters, function.body.toVector,
      .ofSuccessors (targets function.body.toVector), .ofFunction function,
      .ofBody (.ofSuccessors (targets function.body.toVector)) function.body.toVector
        (.ofFunction function), frame, arrays⟩
  have hctx : ContextOf arrays function ctx := ⟨rfl, rfl, rfl, rfl⟩
  have hp : Prepared ctx regs place :=
    ⟨rfl, rfl, Slots.distinct_ofFunction h.distinct, rfl, hfree, hlay⟩
  obtain ⟨moved, -, hent⟩ := hp.entry_eq
  obtain ⟨codes, hcodes⟩ : ∃ codes, (List.finRange function.body.size).mapM ctx.lowerInstruction =
      .ok codes := by
    refine exists_mapM_ok fun p _ => Context.lowerInstruction_ok hp (fun x hx slot hslot => ?_)
      (fun callee args output hcall => by
        have := h.arguments _ (hctx.get_mem p)
        rw [hcall] at this
        exact this rfl)
      (fun dest op a b hbinary => h.folded dest op a b (hbinary ▸ hctx.get_mem p))
    have hsca := h.scalar _ (hctx.get_mem p) x (Option.mem_toList.2 hx)
    simpa [isArray, Slots.isArray, declaration?_of_slot hp (hctx.belongs harrs) hslot] using hsca
  obtain ⟨first, hfst⟩ : ∃ first,
      (if function.body.size = 0 then .ok [] else ctx.entry) = .ok first := by
    split
    · exact ⟨_, rfl⟩
    · exact ⟨_, hent⟩
  have hbody := Context.lowerBody_eq_ok.2 ⟨first, codes, hfst, codesOf_iff.1 hcodes, rfl⟩
  refine ⟨⟨function.name, function.parameters, frame.size, first ++ codes.flatten⟩, ?_⟩
  simp only [lowerFunction, lowerFunctionBy, id_eq, Nat.not_lt.2 h.parameters, if_false, result_bind,
    result_ofExcept, hgph, ok_bind, hregs, hfrm]
  simp only [Logged.tell, ok_bind]
  exact bind_eq_ok.2 ⟨_, hbody, rfl⟩

end SysY.Tigger

import SysY.Proofs.Optimization.Shape
import SysY.Tigger.Lowering

/-!
# The parts of an instruction's code

The code of an instruction, as it is put together from the code that reads its operands, the
instruction that does the work and the code that writes the result. It is plain, but for a jump, a
label or a return at its end, and it refers to the frame only for what it is meant to access.
-/

namespace SysY.Tigger

open Eeyore.Instruction List

variable {op : BinaryOp} {fn : String} {args : List Value} {output : Option Symbol}

/-- What an instruction means for the flow of control. -/
def Instruction.control : Instruction → Control
  | .branch _ _ _ target => ⟨none, some target, false⟩
  | .jump target => ⟨none, some target, true⟩
  | .label l => ⟨some l, none, false⟩
  | .return => ⟨none, none, true⟩
  | _ => .plain

namespace Context

open Eeyore (Value)

variable {n k : Nat} (ctx : Context n k)

theorem address_const (array : Symbol) (c : Int32) :
    ctx.address array (.const c) =
      ((ctx.readSymbol array .t0).1, (ctx.readSymbol array .t0).2, c) := rfl

theorem address_symbol (array x : Symbol) :
    ctx.address array (.symbol x) =
      ((ctx.readSymbol array .t0).1 ++ (ctx.readSymbol x .t1).1 ++
        [.binary .t0 .add (ctx.readSymbol array .t0).2 (.register (ctx.readSymbol x .t1).2)],
      .t0, 0) := rfl

/-- Code that computes a new value of a symbol by an instruction, and brings it to its home. -/
def computing (dest : Symbol) (scratch : Register) (front : List Instruction)
    (i : Register → Instruction) : Except Fault (List Instruction) :=
  (ctx.commit dest (ctx.target dest scratch)).map fun written =>
    front ++ i (ctx.target dest scratch) :: written

theorem lowerUnary_const (dest : Symbol) (op : UnaryOp) (c : Int32) :
    ctx.lowerUnary dest op (.const c) = ctx.computing dest .t0 [] (.constant · (op.fold c)) := by
  simp only [lowerUnary, computing]
  cases ctx.commit dest (ctx.target dest .t0) <;> rfl

theorem lowerUnary_symbol (dest x : Symbol) (op : UnaryOp) :
    ctx.lowerUnary dest op (.symbol x) =
      ctx.computing dest .t0 (ctx.readSymbol x .t0).1 (.unary · op (ctx.readSymbol x .t0).2) := by
  simp only [lowerUnary, computing]
  cases ctx.commit dest (ctx.target dest .t0) <;> rfl

/-- The second operand of an operation, and what brings it to its register. -/
def readOperand (value : Value) : List Instruction × Operand :=
  match value with
  | .const c => ([], .immediate c)
  | .symbol x => ((ctx.readSymbol x .t1).1, .register (ctx.readSymbol x .t1).2)

theorem lowerBinary_eq {dest : Symbol} {op' : BinaryOp} {left right left' right' : Value}
    (hsym : ∀ a b, left = .const a → right ≠ .const b)
    (hori : orient op left right = (op', left', right')) :
    ctx.lowerBinary dest op left right = ctx.computing dest .t0
      ((ctx.read left' .t0).1 ++ (ctx.readOperand right').1)
      (.binary · op' (ctx.read left' .t0).2 (ctx.readOperand right').2) := by
  have hnot : (left.symbol?.isNone && right.symbol?.isNone) = false := by
    cases left with
    | symbol x => rfl
    | const a =>
      cases right with
      | symbol x => rfl
      | const b => exact absurd rfl (hsym a b rfl)
  simp only [lowerBinary, computing, hnot, Bool.false_eq_true, if_false, hori]
  cases right' <;> cases ctx.commit dest (ctx.target dest .t0) <;> rfl

theorem exists_of_lowerBinary {dest : Symbol} {left right : Value} {code : List Instruction}
    (h : ctx.lowerBinary dest op left right = .ok code) :
    ∃ op' left' right', orient op left right = (op', left', right') ∧ ctx.computing dest .t0
      ((ctx.read left' .t0).1 ++ (ctx.readOperand right').1)
      (.binary · op' (ctx.read left' .t0).2 (ctx.readOperand right').2) = .ok code := by
  refine ⟨_, _, _, rfl, (ctx.lowerBinary_eq ?_ rfl).symm.trans h⟩
  rintro a b rfl rfl
  simp [lowerBinary, Value.symbol?] at h

theorem symbol?_orient {op' : BinaryOp} {left right left' right' : Value}
    (hori : orient op left right = (op', left', right')) (x : Symbol) :
    left'.symbol? = some x ∨ right'.symbol? = some x →
      x ∈ left.symbol?.toList ++ right.symbol?.toList := by
  unfold orient at hori
  split at hori <;> cases hori <;> simp [or_comm]

theorem lowerCopy_const (dest : Symbol) (c : Int32) :
    ctx.lowerCopy dest (.const c) = ctx.computing dest .t0 [] (.constant · c) := by
  simp only [lowerCopy, computing]
  cases ctx.commit dest (ctx.target dest .t0) <;> rfl

theorem lowerCopy_register {dest : Symbol} {r : Register}
    (hhome : ctx.home? dest = some (.register r)) (x : Symbol) :
    ctx.lowerCopy dest (.symbol x) = .ok (ctx.readInto (.symbol x) r) := by
  simp only [lowerCopy, target, hhome]
  rfl

theorem lowerCopy_memory {dest : Symbol} (hhome : ∀ r, ctx.home? dest ≠ some (.register r))
    (x : Symbol) :
    ctx.lowerCopy dest (.symbol x) =
      (ctx.commit dest (ctx.readSymbol x .t0).2).map fun written =>
        (ctx.readSymbol x .t0).1 ++ written := by
  have htgt : ctx.target dest .t0 = .t0 := by
    unfold target
    split
    · rename_i r hr
      exact absurd hr (hhome r)
    · rfl
  simp only [lowerCopy, htgt]
  generalize ctx.readSymbol x .t0 = code
  cases ctx.commit dest code.2 <;> rfl

theorem lowerCopy_cases {dest x : Symbol} {code : List Instruction}
    (h : ctx.lowerCopy dest (.symbol x) = .ok code) :
    (∃ r, ctx.home? dest = some (.register r) ∧ code = ctx.readInto (.symbol x) r) ∨
      (∀ r, ctx.home? dest ≠ some (.register r)) ∧ ∃ written,
        ctx.commit dest (ctx.readSymbol x .t0).2 = .ok written ∧
        code = (ctx.readSymbol x .t0).1 ++ written := by
  by_cases hhome : ∃ r, ctx.home? dest = some (.register r)
  · obtain ⟨r, hhome⟩ := hhome
    rw [ctx.lowerCopy_register hhome] at h
    exact .inl ⟨r, hhome, (Except.ok.inj h).symm⟩
  · have hhome : ∀ r, ctx.home? dest ≠ some (.register r) := fun r hr => hhome ⟨r, hr⟩
    rw [ctx.lowerCopy_memory hhome] at h
    obtain ⟨written, hcmt, rfl⟩ := map_eq_ok.1 h
    exact .inr ⟨hhome, written, hcmt, rfl⟩

theorem lowerStore_eq (array : Symbol) (index value : Value) :
    ctx.lowerStore array index value = (ctx.address array index).1 ++ (ctx.read value .t1).1 ++
      [.store (ctx.address array index).2.1 (ctx.address array index).2.2
        (ctx.read value .t1).2] := rfl

theorem lowerLoad_eq (dest array : Symbol) (index : Value) :
    ctx.lowerLoad dest array index = ctx.computing dest .t1 (ctx.address array index).1
      (.load · (ctx.address array index).2.1 (ctx.address array index).2.2) := by
  simp only [lowerLoad, computing]
  cases ctx.commit dest (ctx.target dest .t1) <;> rfl

theorem lowerBranch_eq (left : Value) (relation : Relation) (right : Value) (target : Label) :
    ctx.lowerBranch left relation right target =
      (ctx.read left .t0).1 ++ (ctx.read right .t1).1 ++
        [.branch (ctx.read left .t0).2 relation (ctx.read right .t1).2 target] := rfl

/-- What brings a result to `a0`. -/
def readResult (value : Option Value) : List Instruction :=
  match value with
  | some value => ctx.readInto value .a0
  | none => []

/-- What restores registers from the frame. -/
def restoring (registers : List (Register × UInt32)) : List Instruction :=
  registers.map fun (register, offset) => .stackLoad offset register

/-- What preserves registers in the frame. -/
def preserving (registers : List (Register × UInt32)) : List Instruction :=
  registers.map fun (register, offset) => .stackStore register offset

theorem lowerReturn_eq (value : Option Value) :
    ctx.lowerReturn value = ctx.readResult value ++ restoring ctx.frame.saved ++ [.return] := by
  cases value <;> rfl

/-- The symbol that a call has to give a value. -/
def received (p : Fin n) (output : Option Symbol) : Option Symbol :=
  output.filter (!ctx.isDeadAfter p ·)

/-- The registers that a call preserves. -/
def spared (p : Fin n) (output : Option Symbol) : List (Register × UInt32) :=
  ctx.preserved p ((ctx.received p output).bind fun symbol => ctx.argumentSource? (.symbol symbol))

theorem lowerCall_eq_ok {p : Fin n} {code : List Instruction} :
    ctx.lowerCall p fn args output = .ok code ↔ args.length ≤ maxArguments ∧
      ∃ passed fetched, ctx.passArguments args = .ok passed ∧
        ctx.receive (ctx.received p output) = .ok fetched ∧
        code = preserving (ctx.spared p output) ++ passed ++ .call fn :: fetched ++
          restoring (ctx.spared p output) := by
  unfold lowerCall
  split
  · rename_i hlt
    simp only [reduceCtorEq, false_iff, not_and]
    omega
  · rename_i hle
    simp only [bind_eq_ok, Nat.le_of_not_lt hle, true_and]
    constructor
    · rintro ⟨passed, hpsd, fetched, hfet, heq⟩
      cases heq
      exact ⟨passed, fetched, hpsd, hfet, rfl⟩
    · rintro ⟨passed, fetched, hpsd, hfet, rfl⟩
      exact ⟨passed, hpsd, fetched, hfet, rfl⟩

/-! ## Plain code -/

/-- Instructions that neither jump nor return nor set a label. -/
def isPlain : Instruction → Bool
  | .branch .. | .jump _ | .label _ | .return => false
  | _ => true

/-- The offset of the frame that an instruction refers to. -/
def offset? : Instruction → Option UInt32
  | .stackStore _ offset | .stackLoad offset _ | .stackAddress offset _ => some offset
  | _ => none

/-- The object that an instruction refers to the frame for, in the code of a position or in front of it
all: a symbol that the position reads or defines, a parameter that arrives, or a register that is
preserved for the caller or around a call. -/
inductive Refers : Option (Fin n) → Instruction → Allocation.Object k → Prop
  | load {p x slot offset r} (hx : x ∈ (ctx.body.get p).uses) (hslot : ctx.slots.find? x = some slot)
    (h : ctx.frame.homes.get slot = some (.stack offset)) :
    Refers (some p) (.stackLoad offset r) (.slot slot)
  | address {p x slot offset r} (hx : x ∈ (ctx.body.get p).uses)
    (hslot : ctx.slots.find? x = some slot) (h : ctx.frame.homes.get slot = some (.array offset)) :
    Refers (some p) (.stackAddress offset r) (.slot slot)
  | store {p x slot offset r} (hx : (ctx.body.get p).definition = some x)
    (hslot : ctx.slots.find? x = some slot) (h : ctx.frame.homes.get slot = some (.stack offset)) :
    Refers (some p) (.stackStore r offset) (.slot slot)
  | arrive {i : Fin 8} {slot offset} (hslot : ctx.slots.find? (.param (.ofNat i)) = some slot)
    (h : ctx.frame.homes.get slot = some (.stack offset)) :
    Refers none (.stackStore (.argument i) offset) (.slot slot)
  | save {r offset} (h : (r, offset) ∈ ctx.frame.saved) :
    Refers none (.stackStore r offset) (.register r)
  | restore {p value r offset} (hp : ctx.body.get p = .return value)
    (h : (r, offset) ∈ ctx.frame.saved) : Refers (some p) (.stackLoad offset r) (.register r)
  | preserve {p r offset} (hp : (ctx.body.get p).isCall = true)
    (h : (r, offset) ∈ ctx.frame.spared) : Refers (some p) (.stackStore r offset) (.register r)
  | fetch {p r offset} (hp : (ctx.body.get p).isCall = true) (h : (r, offset) ∈ ctx.frame.spared) :
    Refers (some p) (.stackLoad offset r) (.register r)

/-- A plain instruction that refers to the frame only for what it is meant to access. -/
structure Plain (q : Option (Fin n)) (i : Instruction) : Prop where
  isPlain : isPlain i = true
  refers : ∀ offset, offset? i = some offset → ∃ object, ctx.Refers q i object

variable {ctx} {p : Fin n} {x : Symbol} {value : Value} {code : List Instruction}

theorem plain_readSymbol (hx : x ∈ (ctx.body.get p).uses) (scratch : Register) :
    ∀ i ∈ (ctx.readSymbol x scratch).1, ctx.Plain (some p) i := by
  unfold readSymbol
  split
  · exact forall_mem_nil _
  · rename_i hhome
    obtain ⟨slot, hslot, hhome⟩ := Option.bind_eq_some_iff.1 hhome
    exact List.forall_mem_singleton.2 ⟨rfl, fun _ _ => ⟨_, .load hx hslot hhome⟩⟩
  · rename_i hhome
    obtain ⟨slot, hslot, hhome⟩ := Option.bind_eq_some_iff.1 hhome
    exact List.forall_mem_singleton.2 ⟨rfl, fun _ _ => ⟨_, .address hx hslot hhome⟩⟩
  · dsimp only
    split <;> exact List.forall_mem_singleton.2 ⟨rfl, nofun⟩

section Reading

variable (hvalue : ∀ x, value.symbol? = some x → x ∈ (ctx.body.get p).uses)
include hvalue

theorem plain_read (scratch : Register) :
    ∀ i ∈ (ctx.read value scratch).1, ctx.Plain (some p) i := by
  cases value with
  | const c =>
    unfold read
    dsimp only
    split
    · exact forall_mem_nil _
    · exact List.forall_mem_singleton.2 ⟨rfl, nofun⟩
  | symbol x => exact plain_readSymbol (hvalue x rfl) scratch

theorem plain_readInto (dest : Register) : ∀ i ∈ ctx.readInto value dest, ctx.Plain (some p) i := by
  cases value with
  | const c => exact List.forall_mem_singleton.2 ⟨rfl, fun _ h => by cases h⟩
  | symbol x =>
    have hread := plain_readSymbol (hvalue x rfl) dest
    simp only [readInto]
    split
    · exact hread
    · exact List.forall_mem_append.2
        ⟨hread, List.forall_mem_singleton.2 ⟨rfl, fun _ h => by cases h⟩⟩

theorem plain_address {array : Symbol} (harr : array ∈ (ctx.body.get p).uses) :
    ∀ i ∈ (ctx.address array value).1, ctx.Plain (some p) i := by
  cases value with
  | const c => exact plain_readSymbol harr .t0
  | symbol x =>
    rw [address_symbol]
    exact List.forall_mem_append.2 ⟨List.forall_mem_append.2
      ⟨plain_readSymbol harr .t0, plain_readSymbol (hvalue x rfl) .t1⟩,
      List.forall_mem_singleton.2 ⟨rfl, nofun⟩⟩

theorem plain_readOperand : ∀ i ∈ (ctx.readOperand value).1, ctx.Plain (some p) i := by
  cases value with
  | const c => exact forall_mem_nil _
  | symbol x => exact plain_readSymbol (hvalue x rfl) .t1

end Reading

theorem spared_subset (p : Fin n) (output : Option Symbol) : ctx.spared p output ⊆ ctx.frame.spared := by
  intro entry hent
  obtain ⟨slot, -, hslot⟩ := List.mem_filterMap.1 hent
  split at hslot
  · split at hslot
    · cases hslot
    · obtain ⟨offset, hoff, rfl⟩ := Option.map_eq_some_iff.1 hslot
      obtain ⟨before, after, hspd, -⟩ := List.lookup_eq_some_iff.1 hoff
      rw [hspd]
      exact mem_append_right _ mem_cons_self
  · cases hslot

theorem plain_commit {dest : Symbol} {source : Register}
    (hdest : (ctx.body.get p).definition = some dest) (h : ctx.commit dest source = .ok code) :
    ∀ i ∈ code, ctx.Plain (some p) i := by
  unfold commit at h
  split at h
  · cases h
    exact forall_mem_nil _
  · rename_i hhome
    cases h
    obtain ⟨slot, hslot, hhome⟩ := Option.bind_eq_some_iff.1 hhome
    exact List.forall_mem_singleton.2 ⟨rfl, fun _ _ => ⟨_, .store hdest hslot hhome⟩⟩
  · cases h
  · cases h
    exact List.forall_mem_cons.2 ⟨⟨rfl, nofun⟩, List.forall_mem_singleton.2 ⟨rfl, nofun⟩⟩

section Operations

variable {dest array : Symbol} {index left right : Value}

theorem plain_computing {scratch : Register} {front : List Instruction} {i : Register → Instruction}
    (h : ctx.computing dest scratch front i = .ok code)
    (hdest : (ctx.body.get p).definition = some dest)
    (hfront : ∀ j ∈ front, ctx.Plain (some p) j) (hi : ∀ r, ctx.Plain (some p) (i r)) :
    ∀ j ∈ code, ctx.Plain (some p) j := by
  obtain ⟨written, hcmt, rfl⟩ := map_eq_ok.1 h
  exact List.forall_mem_append.2
    ⟨hfront, List.forall_mem_cons.2 ⟨hi _, plain_commit hdest hcmt⟩⟩

theorem plain_lowerUnary {op : UnaryOp} (hp : ctx.body.get p = .unary dest op value)
    (h : ctx.lowerUnary dest op value = .ok code) : ∀ i ∈ code, ctx.Plain (some p) i := by
  have hdest : (ctx.body.get p).definition = some dest := by rw [hp]; rfl
  cases value with
  | const c =>
    rw [lowerUnary_const] at h
    exact plain_computing h hdest (forall_mem_nil _) fun _ => ⟨rfl, nofun⟩
  | symbol x =>
    rw [lowerUnary_symbol] at h
    exact plain_computing h hdest (plain_readSymbol (by rw [hp]; exact mem_cons_self) .t0)
      fun _ => ⟨rfl, nofun⟩

theorem plain_lowerBinary (hp : ctx.body.get p = .binary dest op left right)
    (h : ctx.lowerBinary dest op left right = .ok code) : ∀ i ∈ code, ctx.Plain (some p) i := by
  obtain ⟨op', left', right', hori, h⟩ := ctx.exists_of_lowerBinary h
  have huses : ∀ x, left'.symbol? = some x ∨ right'.symbol? = some x →
      x ∈ (ctx.body.get p).uses := by
    rw [hp]
    exact symbol?_orient hori
  exact plain_computing h (by rw [hp]; rfl) (List.forall_mem_append.2
    ⟨plain_read (fun x hx => huses x (.inl hx)) .t0,
      plain_readOperand fun x hx => huses x (.inr hx)⟩) fun _ => ⟨rfl, nofun⟩

theorem plain_lowerCopy (hp : ctx.body.get p = .copy dest value)
    (h : ctx.lowerCopy dest value = .ok code) : ∀ i ∈ code, ctx.Plain (some p) i := by
  have hdest : (ctx.body.get p).definition = some dest := by rw [hp]; rfl
  cases value with
  | const c =>
    rw [lowerCopy_const] at h
    exact plain_computing h hdest (forall_mem_nil _) fun _ => ⟨rfl, nofun⟩
  | symbol x =>
    have hx : x ∈ (ctx.body.get p).uses := by rw [hp]; exact mem_cons_self
    rcases ctx.lowerCopy_cases h with ⟨r, -, rfl⟩ | ⟨-, written, hcmt, rfl⟩
    · exact plain_readInto (by rintro _ ⟨⟩; exact hx) r
    · exact List.forall_mem_append.2 ⟨plain_readSymbol hx .t0, plain_commit hdest hcmt⟩

theorem plain_lowerStore (hp : ctx.body.get p = .store array index value) :
    ∀ i ∈ ctx.lowerStore array index value, ctx.Plain (some p) i := by
  rw [lowerStore_eq]
  refine List.forall_mem_append.2 ⟨List.forall_mem_append.2 ⟨plain_address ?_ ?_, plain_read ?_ .t1⟩,
    List.forall_mem_singleton.2 ⟨rfl, nofun⟩⟩ <;> simp +contextual [hp, uses]

theorem plain_lowerLoad (hp : ctx.body.get p = .load dest array index)
    (h : ctx.lowerLoad dest array index = .ok code) : ∀ i ∈ code, ctx.Plain (some p) i := by
  rw [lowerLoad_eq] at h
  refine plain_computing h (by rw [hp]; rfl) (plain_address ?_ ?_) (fun _ => ⟨rfl, nofun⟩) <;>
    simp +contextual [hp, uses]

end Operations

theorem plain_parallelMove {q : Option (Fin n)} {scratch : Register} {moves : List Move}
    (h : parallelMove scratch moves = .ok code) : ∀ i ∈ code, ctx.Plain q i := by
  simp only [parallelMove] at h
  split at h
  · cases h
  · cases h
    exact List.forall_mem_map.2 fun move _ => ⟨rfl, nofun⟩

theorem plain_lowerCall (hp : ctx.body.get p = .call fn args output)
    (h : ctx.lowerCall p fn args output = .ok code) :
    ∀ i ∈ code, ctx.Plain (some p) i := by
  obtain ⟨-, passed, fetched, hpsd, hfet, rfl⟩ := ctx.lowerCall_eq_ok.1 h
  have hcall : (ctx.body.get p).isCall = true := by rw [hp]; rfl
  have hspd := @spared_subset _ _ ctx p output
  have hpsd : ∀ i ∈ passed, ctx.Plain (some p) i := by
    obtain ⟨moved, hmvd, hpsd⟩ := bind_eq_ok.1 hpsd
    cases hpsd
    refine List.forall_mem_append.2 ⟨plain_parallelMove hmvd, List.forall_mem_flatMap.2 ?_⟩
    refine fun entry hent => plain_readInto (fun x hx => ?_) entry.1
    rw [hp]
    exact List.mem_filterMap.2 ⟨entry.2, (of_mem_zip (mem_of_mem_filter hent)).2, hx⟩
  have hfet : ∀ i ∈ fetched, ctx.Plain (some p) i := by
    unfold receive at hfet
    split at hfet
    · cases hfet
      exact forall_mem_nil _
    · rename_i dest hdest
      split at hfet
      · cases hfet
        split
        · exact forall_mem_nil _
        · exact List.forall_mem_singleton.2 ⟨rfl, nofun⟩
      · refine plain_commit ?_ hfet
        rw [hp]
        exact (Option.filter_eq_some_iff.1 hdest).1
  exact List.forall_mem_append.2 ⟨List.forall_mem_append.2 ⟨List.forall_mem_append.2
    ⟨List.forall_mem_map.2 fun _ hr => ⟨rfl, fun _ _ => ⟨_, .preserve hcall (hspd hr)⟩⟩, hpsd⟩,
      List.forall_mem_cons.2 ⟨⟨rfl, nofun⟩, hfet⟩⟩,
    List.forall_mem_map.2 fun _ hr => ⟨rfl, fun _ _ => ⟨_, .fetch hcall (hspd hr)⟩⟩⟩

theorem plain_restored {result : Option Value} (hp : ctx.body.get p = .return result) :
    ∀ i ∈ ctx.readResult result ++ restoring ctx.frame.saved, ctx.Plain (some p) i := by
  refine List.forall_mem_append.2
    ⟨?_, List.forall_mem_map.2 fun _ hr => ⟨rfl, fun _ _ => ⟨_, .restore hp hr⟩⟩⟩
  cases result with
  | none => exact forall_mem_nil _
  | some value =>
    refine plain_readInto (fun x hx => ?_) .a0
    rw [hp]
    exact Option.mem_toList.2 hx

theorem lowerInstruction_control (h : ctx.lowerInstruction p = .ok code) :
    ((∀ i ∈ code, ctx.Plain (some p) i) ∧ (ctx.body.get p).control = .plain) ∨
    ∃ front last, code = front ++ [last] ∧ (∀ i ∈ front, ctx.Plain (some p) i) ∧
      offset? last = none ∧ last.control = (ctx.body.get p).control := by
  unfold lowerInstruction at h
  split at h
  · rename_i huse
    cases h
    refine .inl ⟨forall_mem_nil _, ?_⟩
    cases hi : ctx.body.get p <;>
      first | rfl | simp [isUseless, hi, definition] at huse
  unfold lowerLive at h
  split at h <;> rename_i hi
  · exact .inl ⟨plain_lowerUnary hi h, by rw [hi]; rfl⟩
  · exact .inl ⟨plain_lowerBinary hi h, by rw [hi]; rfl⟩
  · exact .inl ⟨plain_lowerCopy hi h, by rw [hi]; rfl⟩
  · cases h
    exact .inl ⟨plain_lowerStore hi, by rw [hi]; rfl⟩
  · exact .inl ⟨plain_lowerLoad hi h, by rw [hi]; rfl⟩
  · cases h
    refine .inr ⟨_, _, ctx.lowerBranch_eq .., List.forall_mem_append.2
      ⟨plain_read ?_ _, plain_read ?_ _⟩, rfl, by rw [hi]; rfl⟩ <;>
      simp +contextual [hi, uses]
  · cases h
    exact .inr ⟨[], _, rfl, forall_mem_nil _, rfl, by rw [hi]; rfl⟩
  · cases h
    exact .inr ⟨[], _, rfl, forall_mem_nil _, rfl, by rw [hi]; rfl⟩
  · exact .inl ⟨plain_lowerCall hi h, by rw [hi]; rfl⟩
  · rename_i value
    cases h
    exact .inr ⟨_, _, ctx.lowerReturn_eq value, plain_restored hi, rfl, by rw [hi]; rfl⟩

theorem eq_label_of_mem (h : ctx.lowerInstruction p = .ok code) {l : Label} (hl : .label l ∈ code) :
    ctx.body.get p = .label l := by
  rcases lowerInstruction_control h with ⟨hpln, -⟩ | ⟨front, last, rfl, hpln, -, hlast⟩
  · cases (hpln _ hl).isPlain
  · rcases List.mem_append.1 hl with hl | hl
    · cases (hpln _ hl).isPlain
    · rw [← List.mem_singleton.1 hl] at hlast
      cases hi : ctx.body.get p <;> rw [hi] at hlast <;> cases hlast
      rfl

end Context

end SysY.Tigger

import SysY.Proofs.Eeyore.Steps
import SysY.Proofs.Generation.Branching
import SysY.Proofs.Generation.Writing

/-!
# Lawful code

Code under construction mentions declared symbols only, assigns none but scalars, indexes none but
arrays and leaves no operation on two constants. Where it jumps to a label that it does not set
itself, the label is one of those it was told to go to.

A parameter is treated as declared too, as an array if it has dimensions. The declarations around
the code under construction, `env`, are those of the parameters and of the globals.
-/

namespace SysY.Generation

open Eeyore SysY.Tree List

variable {sigs : Signatures} {env ds ds' : List Decl} {b b1 b2 b3 b' : Builder}
  {i : Instruction}

/-! ## Instructions -/

def Declared (ds : List Decl) (x : Symbol) : Prop := ∃ size, (⟨x, size⟩ : Decl) ∈ ds

def DeclaredArray (ds : List Decl) (x : Symbol) : Prop := ∃ size, (⟨x, some size⟩ : Decl) ∈ ds

/-- A constant or a declared symbol. -/
def Known (ds : List Decl) (v : Value) : Prop := ∀ x, v = .symbol x → Declared ds x

/-- An instruction that respects declarations and signatures. -/
structure Lawful (signatures : Signatures) (ds : List Decl) (i : Instruction) : Prop where
  operands : ∀ v ∈ i.operands, Known ds v
  scalar : ∀ x, i.definition = some x → ⟨x, none⟩ ∈ ds
  array : ∀ x, i.base? = some x → DeclaredArray ds x
  folded : ∀ dest op a c, i ≠ .binary dest op (.const a) (.const c)
  arguments : ∀ function arguments output, i = .call function arguments output →
    ∃ signature, signatures.lookup function = some signature ∧
      arguments.length = signature.arity + if isTiming function then 1 else 0

theorem known_const (c : Int32) : Known ds (.const c) := nofun

theorem known_symbol {x : Symbol} (h : Declared ds x) : Known ds (.symbol x) := by
  rintro _ ⟨⟩
  exact h

theorem Known.mono (hsub : ds ⊆ ds') {v : Value} (h : Known ds v) : Known ds' v := by
  intro x hx
  obtain ⟨size, hmem⟩ := h x hx
  exact ⟨size, hsub hmem⟩

namespace Lawful

theorem mono (hsub : ds ⊆ ds') (h : Lawful sigs ds i) :
    Lawful sigs ds' i where
  operands v hv := (h.operands v hv).mono hsub
  scalar x hx := hsub (h.scalar x hx)
  array x hx :=
    have ⟨size, hmem⟩ := h.array x hx
    ⟨size, hsub hmem⟩
  folded := h.folded
  arguments := h.arguments

theorem declared (h : Lawful sigs ds i) {x : Symbol} (hx : x ∈ i.symbols) :
    Declared ds x := by
  rcases List.mem_append.1 hx with hx | hx
  · obtain ⟨v, hv, hsym⟩ := List.mem_filterMap.1 hx
    cases v with
    | const c => cases hsym
    | symbol y =>
      cases hsym
      exact h.operands _ hv x rfl
  · have hpl : i.definition = some x ∨ i.base? = some x := by
      cases i with
    | load dest array index =>
      simp only [Instruction.places, mem_cons, not_mem_nil, or_false] at hx
      exact hx.imp (fun h => congrArg some h.symm) fun h => congrArg some h.symm
    | _ => simp_all [Instruction.places, Instruction.definition, Instruction.base?]
    rcases hpl with hdef | hbase
    · exact ⟨none, h.scalar x hdef⟩
    · obtain ⟨size, hmem⟩ := h.array x hbase
      exact ⟨some size, hmem⟩

section Kinds

variable {dest x : Symbol} {v w : Value}

theorem unary {op : UnaryOp} (hdest : ⟨dest, none⟩ ∈ ds) (hv : Known ds v) :
    Lawful sigs ds (.unary dest op v) :=
  ⟨by simpa [Instruction.operands] using hv, by simpa [Instruction.definition] using hdest, nofun,
    nofun, nofun⟩

theorem binary {op : BinaryOp} (hdest : ⟨dest, none⟩ ∈ ds) (hv : Known ds v) (hw : Known ds w)
    (hfold : ∀ a c, ¬ (v = .const a ∧ w = .const c)) :
    Lawful sigs ds (.binary dest op v w) := by
  refine ⟨by simp [Instruction.operands, hv, hw], by simpa [Instruction.definition] using hdest, nofun,
    ?_, nofun⟩
  rintro _ _ a c ⟨⟩
  exact hfold a c ⟨rfl, rfl⟩

theorem copy (hdest : ⟨dest, none⟩ ∈ ds) (hv : Known ds v) : Lawful sigs ds (.copy dest v) :=
  ⟨by simpa [Instruction.operands] using hv, by simpa [Instruction.definition] using hdest, nofun,
    nofun, nofun⟩

theorem store (harr : DeclaredArray ds x) (hv : Known ds v) (hw : Known ds w) :
    Lawful sigs ds (.store x v w) :=
  ⟨by simp [Instruction.operands, hv, hw], nofun, by simpa [Instruction.base?] using harr, nofun,
    nofun⟩

theorem load (hdest : ⟨dest, none⟩ ∈ ds) (harr : DeclaredArray ds x) (hv : Known ds v) :
    Lawful sigs ds (.load dest x v) :=
  ⟨by simpa [Instruction.operands] using hv, by simpa [Instruction.definition] using hdest,
    by simpa [Instruction.base?] using harr, nofun, nofun⟩

theorem branch {relation : Relation} {l : Label} (hv : Known ds v) (hw : Known ds w) :
    Lawful sigs ds (.branch v relation w l) :=
  ⟨by simp [Instruction.operands, hv, hw], nofun, nofun, nofun, nofun⟩

theorem jump (l : Label) : Lawful sigs ds (.jump l) :=
  ⟨by simp [Instruction.operands], nofun, nofun, nofun, nofun⟩

theorem label (l : Label) : Lawful sigs ds (.label l) :=
  ⟨by simp [Instruction.operands], nofun, nofun, nofun, nofun⟩

theorem «return» {value : Option Value} (h : ∀ v, value = some v → Known ds v) :
    Lawful sigs ds (.return value) := by
  refine ⟨fun v hv => ?_, nofun, nofun, nofun, nofun⟩
  cases value with
  | none => cases hv
  | some w => exact h v (congrArg some (List.mem_singleton.1 hv).symm)

theorem call {fn : String} {args : List Value} {output : Option Symbol}
    {signature : Signature} (hsig : sigs.lookup fn = some signature)
    (hlen : args.length = signature.arity + if isTiming fn then 1 else 0)
    (hargs : ∀ v ∈ args, Known ds v) (houtput : ∀ x, output = some x → ⟨x, none⟩ ∈ ds) :
    Lawful sigs ds (.call fn args output) := by
  refine ⟨hargs, houtput, nofun, nofun, ?_⟩
  rintro _ _ _ ⟨⟩
  exact ⟨signature, hsig, hlen⟩

end Kinds

end Lawful

/-! ## Code -/

/-- The instructions that were written between two builders. -/
def written (b b' : Builder) : List Instruction := b'.code.body.toList.drop b.code.body.size

/-- The declarations that code under construction can refer to. -/
def Builder.known (b : Builder) (env : List Decl) : List Decl := env ++ b.code.decls.toList

theorem written_eq {code : List Instruction}
    (h : b'.code.body.toList = b.code.body.toList ++ code) : written b b' = code := by
  rw [written, h, ← Array.length_toList, drop_left]

theorem written_self (b : Builder) : written b b = [] := written_eq (append_nil _).symm

theorem written_of_computes {i : Symbol → Instruction} {x : Symbol} (h : Computes b i x b') :
    written b b' = [i x] := by
  obtain ⟨_, rfl, rfl⟩ := h
  exact written_eq (toList_emit b.addTemp _)

namespace Grows

theorem append_written (h : Grows b b') :
    b'.code.body.toList = b.code.body.toList ++ written b b' := by
  obtain ⟨code, hbody, _⟩ := h.body
  rw [written_eq hbody, hbody]

theorem written_trans (h1 : Grows b1 b2) (h2 : Grows b2 b3) :
    written b1 b3 = written b1 b2 ++ written b2 b3 := by
  refine written_eq ?_
  rw [h2.append_written, h1.append_written, append_assoc]

theorem written_emit (h : Grows b b') (i : Instruction) :
    written b (b'.emit i) = written b b' ++ [i] := by
  refine written_eq ?_
  rw [toList_emit, h.append_written, append_assoc]

theorem fresh (h : Grows b b') :
    Fresh b.lastLabel.toNat b'.lastLabel.toNat (written b b') := by
  obtain ⟨code, hbody, hfr, _⟩ := h.body
  rw [written_eq hbody]
  exact hfr

theorem known_subset (h : Grows b b') (env : List Decl) : b.known env ⊆ b'.known env := by
  intro d hd
  rcases List.mem_append.1 hd with hd | hd
  · exact mem_append_left _ hd
  · exact mem_append_right _ (h.mem_decls hd)

end Grows

def nowhere : Label → Prop := fun _ => False

/-- How lawful code grows; `goals` are the labels that it may go to without setting them. -/
structure Lays (signatures : Signatures) (env : List Decl) (goals : Label → Prop) (b b' : Builder) :
    Prop extends Grows b b' where
  lawful : ∀ i ∈ written b b', Lawful signatures (b'.known env) i
  aimed : ∀ i ∈ written b b', ∀ l, i.target? = some l → l ∈ setLabels (written b b') ∨ goals l

namespace Lays

variable {goals goals1 goals2 : Label → Prop}

theorem of_written_nil (h : Grows b b') (hnil : written b b' = []) :
    Lays sigs env goals b b' :=
  ⟨h, by simp [hnil], by simp [hnil]⟩

theorem refl (b : Builder) : Lays sigs env goals b b :=
  of_written_nil (.refl b) (written_self b)

theorem seq (h1 : Lays sigs env goals1 b1 b2) (h2 : Lays sigs env goals2 b2 b3)
    (hgoals : ∀ l, goals1 l ∨ goals2 l → l ∈ setLabels (written b1 b3) ∨ goals l) :
    Lays sigs env goals b1 b3 := by
  have hwr := h1.toGrows.written_trans h2.toGrows
  have hset : setLabels (written b1 b3) = setLabels (written b1 b2) ++ setLabels (written b2 b3) := by
    rw [hwr, setLabels, filterMap_append]
    rfl
  refine ⟨h1.toGrows.trans h2.toGrows, fun i hi => ?_, fun i hi l hl => ?_⟩
  · rw [hwr] at hi
    rcases List.mem_append.1 hi with hi | hi
    · exact (h1.lawful i hi).mono (h2.known_subset env)
    · exact h2.lawful i hi
  · rw [hwr] at hi
    rcases List.mem_append.1 hi with hi | hi
    · rcases h1.aimed i hi l hl with hmem | hgoal
      · exact .inl (hset ▸ mem_append_left _ hmem)
      · exact hgoals l (.inl hgoal)
    · rcases h2.aimed i hi l hl with hmem | hgoal
      · exact .inl (hset ▸ mem_append_right _ hmem)
      · exact hgoals l (.inr hgoal)

theorem trans (h1 : Lays sigs env goals b1 b2) (h2 : Lays sigs env goals b2 b3) :
    Lays sigs env goals b1 b3 :=
  h1.seq h2 fun _ hl => .inr (hl.elim id id)

theorem weaken (h : Lays sigs env goals1 b b') (hgoals : ∀ l, goals1 l → goals2 l) :
    Lays sigs env goals2 b b' :=
  ⟨h.toGrows, h.lawful, fun i hi l hl => (h.aimed i hi l hl).imp id (hgoals l)⟩

theorem of_nowhere (h : Lays sigs env nowhere b b') : Lays sigs env goals b b' :=
  h.weaken nofun

theorem emit (b : Builder) (hlab : i.label? = none) (hneat : Neat i)
    (hlaw : Lawful sigs (b.known env) i) (haimed : ∀ l, i.target? = some l → goals l) :
    Lays sigs env goals b (b.emit i) := by
  have hwr : written b (b.emit i) = [i] := written_eq (toList_emit b i)
  refine ⟨(Emits.emit b hlab hneat).toGrows, ?_, ?_⟩
  · intro j hj
    rw [hwr, mem_singleton] at hj
    exact hj ▸ hlaw
  · rw [hwr]
    simpa using fun l hl => Or.inr (haimed l hl)

theorem addTemp (h : b.code.temps.toNat + 1 < wordValues) : Lays sigs env goals b b.addTemp :=
  of_written_nil (Emits.addTemp h).toGrows (written_self b)

theorem mark (h : b.lastLabel.toNat + 1 < wordValues)
    (hb : Lays sigs env (fun l => l = ⟨b.lastLabel + 1⟩ ∨ goals l) b.addLabel b') :
    Lays sigs env goals b (b'.emit (.label ⟨b.lastLabel + 1⟩)) := by
  have hwr : written b (b'.emit (.label ⟨b.lastLabel + 1⟩)) =
      written b.addLabel b' ++ [.label ⟨b.lastLabel + 1⟩] := hb.toGrows.written_emit _
  have hset : setLabels (written b (b'.emit (.label ⟨b.lastLabel + 1⟩))) =
      setLabels (written b.addLabel b') ++ [⟨b.lastLabel + 1⟩] := by
    rw [hwr, setLabels, filterMap_append]
    rfl
  refine ⟨hb.toGrows.mark h, fun i hi => ?_, fun i hi l hl => ?_⟩
  · rw [hwr] at hi
    rcases List.mem_append.1 hi with hi | hi
    · exact hb.lawful i hi
    · rw [List.mem_singleton.1 hi]
      exact .label _
  · rw [hwr] at hi
    rcases List.mem_append.1 hi with hi | hi
    · rw [hset]
      rcases hb.aimed i hi l hl with hmem | rfl | hgoal
      · exact .inl (mem_append_left _ hmem)
      · exact .inl (mem_append_right _ (List.mem_singleton.2 rfl))
      · exact .inr hgoal
    · rw [List.mem_singleton.1 hi] at hl
      cases hl

end Lays

end SysY.Generation

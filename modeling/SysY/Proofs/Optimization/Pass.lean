import SysY.Optimization.Pass
import SysY.Proofs.Bind
import SysY.Proofs.Flow.DominatorTree
import SysY.Proofs.Optimization.Reuse
import SysY.Proofs.Optimization.Table

/-!
# A pass keeps every run

While a pass visits a position, its facts speak of positions that strictly dominate it and that it
has visited before (`FactsHold`). Each change it makes is then a replacement that keeps all runs,
and below the position it only changes what the position dominates, so the facts stay true for the
positions beside it.
-/

namespace SysY.Optimization

open Eeyore SysY.Flow Instruction Activation

variable {act : Activation} {n k : Nat} {s : State} {f : Value → Value}
  {body : Vector Instruction n} {instruction : Instruction} {facts' : Facts n} {P : Fin n → Prop}
  {e : Fin n} {dest : Symbol}

/-! ## Replaced operands -/

theorem mapM_value_map {args : List Value}
    (h : ∀ v ∈ args, act.value s (f v) = act.value s v) :
    (args.map f).mapM (act.value s) = args.mapM (act.value s) := by
  induction args with
  | nil => rfl
  | cons v args ih =>
    rw [List.map_cons, List.mapM_cons, List.mapM_cons, h v List.mem_cons_self,
      ih fun w hw => h w (List.mem_cons_of_mem _ hw)]

theorem effect_mapOperands (h : ∀ v ∈ instruction.operands, act.value s (f v) = act.value s v) :
    act.effect s (instruction.mapOperands f) = act.effect s instruction := by
  have haddr : ∀ array index, act.value s (f index) = act.value s index →
      act.address s array (f index) = act.address s array index := by
    intro array index hidx
    unfold address
    rw [hidx]
  cases instruction with
  | unary dest op operand =>
    simp [mapOperands, effect, h operand (by simp [operands])]
  | binary dest op left right =>
    simp [mapOperands, effect, h left (by simp [operands]),
      h right (by simp [operands])]
  | copy dest value =>
    simp [mapOperands, effect, h value (by simp [operands])]
  | store array index value =>
    simp [mapOperands, effect,
      haddr array index (h index (by simp [operands])),
      h value (by simp [operands])]
  | load dest array index =>
    simp [mapOperands, effect,
      haddr array index (h index (by simp [operands]))]
  | call fn args output =>
    have hargs : (args.map f).mapM (act.value s) = args.mapM (act.value s) :=
      mapM_value_map h
    simp only [mapOperands, effect, hargs]
  | branch left relation right target => rfl
  | jump target => rfl
  | label l => rfl
  | «return» value => rfl

theorem direction_mapOperands (h : ∀ v ∈ instruction.operands, act.value s (f v) = act.value s v) :
    act.direction s (instruction.mapOperands f) = act.direction s instruction := by
  cases instruction with
  | branch left relation right target =>
    simp [mapOperands, direction, h left (by simp [operands]),
      h right (by simp [operands])]
  | «return» value =>
    cases value with
    | none => rfl
    | some value =>
      simp [mapOperands, direction, h value (by simp [operands])]
  | _ => rfl

theorem execute_mapOperands (h : ∀ v ∈ instruction.operands, act.value s (f v) = act.value s v) :
    act.execute body s (instruction.mapOperands f) = act.execute body s instruction := by
  rw [execute, effect_mapOperands h, direction_mapOperands h, execute]

theorem sameControl_mapOperands (instruction : Instruction) (f : Value → Value) :
    SameControl (instruction.mapOperands f) instruction := by
  constructor <;> cases instruction <;> simp [mapOperands, target?]

theorem definition_mapOperands (instruction : Instruction) (f : Value → Value) :
    (instruction.mapOperands f).definition = instruction.definition := by
  cases instruction <;> rfl

theorem base?_mapOperands (instruction : Instruction) (f : Value → Value) :
    (instruction.mapOperands f).base? = instruction.base? := by
  cases instruction <;> rfl

/-! ## Improved bodies -/

/-- A body with the same edges and the same runs. -/
structure Improves (slots : Slots k) (body body' : Vector Instruction n) : Prop where
  control : ∀ q, SameControl (body'.get q) (body.get q)
  bases : ∀ act, BasesFixed act body → BasesFixed act body'
  runs : ∀ act, SlotsLocal act slots → BasesFixed act body → ∀ s : State, s.position = 0 →
    ∀ steps, act.run body' steps s = act.run body steps s

namespace Improves

variable {slots : Slots k} {body body' body'' : Vector Instruction n}

theorem refl (slots : Slots k) (body : Vector Instruction n) : Improves slots body body :=
  ⟨fun _ => ⟨rfl, fun _ => Iff.rfl, fun _ => Iff.rfl⟩, fun _ h => h, fun _ _ _ _ _ _ => rfl⟩

theorem trans (h : Improves slots body body') (h' : Improves slots body' body'') :
    Improves slots body body'' where
  control q := ⟨(h'.control q).target.trans (h.control q).target,
    fun l => ((h'.control q).label l).trans ((h.control q).label l),
    fun l => ((h'.control q).jump l).trans ((h.control q).jump l)⟩
  bases act hbases := h'.bases act (h.bases act hbases)
  runs act hloc hbases s hs steps :=
    (h'.runs act hloc (h.bases act hbases) s hs steps).trans (h.runs act hloc hbases s hs steps)

theorem targets_eq (h : Improves slots body body') : targets body' = targets body :=
  targets_congr h.control

theorem put {p : Fin n} {instruction : Instruction} (hsame : SameControl instruction (body.get p))
    (hdef : instruction.definition = (body.get p).definition)
    (hbase : ∀ b, instruction.base? = some b → (body.get p).base? = some b)
    (h : ∀ act, SlotsLocal act slots → BasesFixed act body → ∀ s t : State, s.position = 0 →
      act.Comes body s t → t.position = p.val →
      act.execute body t instruction = act.execute body t (body.get p)) :
    Improves slots body (put body p instruction) where
  control := sameControl_put hsame
  bases act hbases := by
    have hbase' : ∀ q b, ((Flow.put body p instruction).get q).base? = some b →
        (body.get q).base? = some b := by
      intro q b hq
      rw [get_put] at hq
      split at hq
      · rename_i hqp
        rw [hqp]
        exact hbase b hq
      · exact hq
    have hdef' : ∀ q, ((Flow.put body p instruction).get q).definition =
        (body.get q).definition := by
      intro q
      rw [get_put]
      split
      · rename_i hqp
        rw [hqp, hdef]
      · rfl
    refine ⟨fun q b hb => hbases.array_or_parameter q b (hbase' q b hb), fun q r b hb => ?_,
      hbases.separate⟩
    rw [hdef']
    exact hbases.never_defined q r b (hbase' q b hb)
  runs act hloc hbases s hs steps :=
    run_put hsame (fun t ht hp => h act hloc hbases s t hs ht hp) steps

end Improves

/-! ## Facts -/

/-- The facts speak of instructions of the body at positions in a set. -/
structure FactsHold (body : Vector Instruction n) (facts : Facts n) (P : Fin n → Prop) : Prop where
  definitions : ∀ x d, facts.definitions.get? x = some d → (body.get d).definition = some x ∧ P d
  computations : ∀ c e, facts.computations.get? c = some e →
    (∃ dest, Computation.ofInstruction? (body.get e) = some (dest, c) ∧ dest ∉ c.operands) ∧ P e

theorem factsHold_empty (body : Vector Instruction n) (P : Fin n → Prop) :
    FactsHold body .empty P := by
  constructor <;> simp [Facts.empty, ScopedTable.empty, ScopedTable.get?]

/-- Facts that say the same and go back the same way. -/
structure FactsSame (facts facts' : Facts n) : Prop where
  definitions : facts.definitions.Same facts'.definitions
  computations : facts.computations.Same facts'.computations

theorem FactsHold.congr {body' : Vector Instruction n} {facts : Facts n} {Q : Fin n → Prop}
    (h : FactsHold body facts P) (hfct : FactsSame facts' facts)
    (hbody : ∀ d, P d → body'.get d = body.get d) (hPQ : ∀ d, P d → Q d) :
    FactsHold body' facts' Q where
  definitions x d hd := by
    rw [hfct.definitions.get?] at hd
    obtain ⟨hdef, hP⟩ := h.definitions x d hd
    exact ⟨by rw [hbody d hP, hdef], hPQ d hP⟩
  computations c e he := by
    rw [hfct.computations.get?] at he
    obtain ⟨⟨dest, hdest, hfr⟩, hP⟩ := h.computations c e he
    exact ⟨⟨dest, by rw [hbody e hP, hdest], hfr⟩, hPQ e hP⟩

/-! ## One position -/

namespace Pass

section
variable {slots : Slots k} {pass : Pass n} {p : Fin n} {s t : State} {facts : Facts n}
  {computation : Computation}

theorem value_of_copySource {x source : Symbol}
    (hfct : FactsHold pass.body pass.facts fun d => StrictlyDominates (targets pass.body) d p)
    (h : pass.copySource? (.ofSuccessors (targets pass.body)) slots p x = some source)
    (hloc : SlotsLocal act slots) (hs : s.position = 0) (ht : act.Comes pass.body s t)
    (hp : t.position = p.val) :
    act.value t (.symbol source) = act.value t (.symbol x) := by
  obtain ⟨d, hd, h⟩ := Option.bind_eq_some_iff.1 h
  obtain ⟨hdef, hdom⟩ := hfct.definitions x d hd
  split at h
  · rename_i dest source' hcopy
    rw [hcopy] at hdef
    obtain rfl : dest = x := Option.some.inj hdef
    split at h
    · rename_i hcln
      cases h
      exact value_of_copy hloc hcln.1 hcopy hdom hcln.2 hs ht hp
    · cases h
  · cases h

theorem execute_propagate
    (hfct : FactsHold pass.body pass.facts fun d => StrictlyDominates (targets pass.body) d p)
    (hloc : SlotsLocal act slots) (hs : s.position = 0) (ht : act.Comes pass.body s t)
    (hp : t.position = p.val) :
    act.execute pass.body t
        (propagate (pass.copies (.ofSuccessors (targets pass.body)) slots p) (pass.body.get p)) =
      act.execute pass.body t (pass.body.get p) := by
  refine execute_mapOperands fun v _ => ?_
  cases v with
  | const c => rfl
  | symbol x =>
    cases hlook : (pass.copies (.ofSuccessors (targets pass.body)) slots p).lookup x with
    | none => simp only [hlook, Option.getD_none]
    | some source =>
      simp only [hlook, Option.getD_some]
      obtain ⟨l, r, hspl, _⟩ := List.lookup_eq_some_iff.1 hlook
      have hmem : (x, source) ∈ pass.copies (.ofSuccessors (targets pass.body)) slots p := by
        rw [hspl]
        simp
      obtain ⟨y, _, hy⟩ := List.mem_filterMap.1 hmem
      obtain ⟨source', hsrc, heq⟩ := Option.map_eq_some_iff.1 hy
      cases heq
      exact value_of_copySource hfct hsrc hloc hs ht hp

theorem place?_spec (hfct : FactsHold body facts P) (h : facts.place? computation = some e) :
    ∃ dest noted, SameValue computation noted ∧
      Computation.ofInstruction? (body.get e) = some (dest, noted) ∧ dest ∉ noted.operands ∧ P e := by
  unfold Facts.place? at h
  split at h
  · rename_i e' he
    cases h
    obtain ⟨⟨dest, hdest, hfr⟩, hP⟩ := hfct.computations _ _ he
    exact ⟨dest, computation, .inl rfl, hdest, hfr, hP⟩
  · obtain ⟨swapped, hswapped, he⟩ := Option.bind_eq_some_iff.1 h
    obtain ⟨⟨dest, hdest, hfr⟩, hP⟩ := hfct.computations _ _ he
    exact ⟨dest, swapped, .inr hswapped, hdest, hfr, hP⟩

theorem holder?_spec (graph : Graph n) (slots : Slots k) (computation : Computation)
    (hfct : FactsHold pass.body pass.facts fun d => StrictlyDominates (targets pass.body) d p) :
    pass.holder? graph slots p computation = .ok none ∨
    ∃ e prior noted, pass.holder? graph slots p computation = .ok (some prior) ∧
      SameValue computation noted ∧
      Computation.ofInstruction? (pass.body.get e) = some (prior, noted) ∧
      prior ∉ noted.operands ∧ StrictlyDominates (targets pass.body) e p ∧
      unchanged graph pass.body p e (computation.isSpoiledBy slots prior) = true := by
  unfold holder?
  cases he : pass.facts.place? computation with
  | none => exact .inl rfl
  | some e =>
    obtain ⟨prior, noted, hsame, hnoted, hfr, hdom⟩ := place?_spec hfct he
    simp only [definition_of_computation hnoted]
    by_cases hcln : unchanged graph pass.body p e (computation.isSpoiledBy slots prior) = true
    · rw [if_pos hcln]
      exact .inr ⟨e, prior, noted, rfl, hsame, hnoted, hfr, hdom, hcln⟩
    · rw [if_neg hcln]
      exact .inl rfl

/-- Facts that have come about from others by insertions. -/
structure Extends (facts facts' : Facts n) : Prop where
  definitions : facts.definitions.Returns facts'.definitions
  computations : facts.computations.Returns facts'.computations

theorem Extends.restore {facts'' : Facts n} (h : Extends facts facts')
    (hsame : FactsSame facts'' facts') :
    ∃ back, facts''.restore facts.checkpoint = .ok back ∧ FactsSame back facts := by
  obtain ⟨d, hd, hdsame⟩ := (h.definitions.congr hsame.definitions).restore
  obtain ⟨c, hc, hcsame⟩ := (h.computations.congr hsame.computations).restore
  refine ⟨⟨d, c⟩, ?_, hdsame, hcsame⟩
  simp only [Facts.restore, Facts.checkpoint, hd, hc]
  rfl

/-- The computation that is noted for an instruction; none is if the result would change its value. -/
def noted? (instruction : Instruction) : Option Computation :=
  match Computation.ofInstruction? instruction with
  | some (dest, computation) => if computation.operands.contains dest then none else some computation
  | none => none

theorem noted?_eq_some : noted? instruction = some computation ↔
    ∃ dest, Computation.ofInstruction? instruction = some (dest, computation) ∧
      dest ∉ computation.operands := by
  unfold noted?
  split <;> simp_all
  grind

/-- What is known behind a position, from the instruction that is there. -/
def noteAll (facts : Facts n) (p : Fin n) (instruction : Instruction) : Facts n where
  definitions := facts.definitions.insert? instruction.definition p
  computations := facts.computations.insert? (noted? instruction) p

theorem extends_noteAll (facts : Facts n) (p : Fin n) (instruction : Instruction) :
    Extends facts (noteAll facts p instruction) :=
  ⟨.insert? _ _ _, .insert? _ _ _⟩

theorem facts_place (instruction : Instruction) (changes : List Change)
    (h : noted? instruction = none) :
    (pass.place p instruction pass.facts changes).facts = noteAll pass.facts p instruction := by
  unfold place noteAll
  rw [h]
  cases instruction.definition <;> rfl

theorem facts_place_note (changes : List Change)
    (h : Computation.ofInstruction? instruction = some (dest, computation)) :
    (pass.place p instruction (note pass.facts p dest computation) changes).facts =
      noteAll pass.facts p instruction := by
  unfold place noteAll note noted?
  rw [h]
  by_cases hown : computation.operands.contains dest = true <;>
    cases instruction.definition <;> simp only [hown] <;> rfl

theorem factsHold_put (instruction : Instruction) (h : FactsHold body facts P) (hP : ¬ P p) :
    FactsHold (put body p instruction) (noteAll facts p instruction) fun d => d = p ∨ P d := by
  -- what was noted before keeps its instruction, and what is new has the one in place
  have hold : ∀ d, P d → (put body p instruction).get d = body.get d := by
    intro d hd
    exact get_put_of_ne _ _ fun hpd => hP (hpd ▸ hd)
  refine ⟨fun x d hd => ?_, fun c e he => ?_⟩
  · rw [noteAll, ScopedTable.get?_insert?] at hd
    split at hd
    · rename_i hdef
      cases hd
      exact ⟨by rw [get_put_self, hdef], .inl rfl⟩
    · obtain ⟨hdef, hd⟩ := h.definitions x d hd
      exact ⟨by rw [hold d hd, hdef], .inr hd⟩
  · rw [noteAll, ScopedTable.get?_insert?] at he
    split at he
    · rename_i hnoted
      cases he
      exact ⟨by rw [get_put_self]; exact noted?_eq_some.1 hnoted, .inl rfl⟩
    · obtain ⟨hdest, he⟩ := h.computations c e he
      exact ⟨by rw [hold e he]; exact hdest, .inr he⟩

theorem execute_copy_prior {prior : Symbol} {noted : Computation} (hinstruction : Computation.ofInstruction? instruction = some (dest, computation))
    (hsame : SameValue computation noted)
    (hnoted : Computation.ofInstruction? (pass.body.get e) = some (prior, noted))
    (hfr : prior ∉ noted.operands) (hdom : StrictlyDominates (targets pass.body) e p)
    (hcln : unchanged (.ofSuccessors (targets pass.body)) pass.body p e
      (computation.isSpoiledBy slots prior) = true) (hloc : SlotsLocal act slots)
    (hbases : BasesFixed act pass.body) (hs : s.position = 0) (ht : act.Comes pass.body s t)
    (hp : t.position = p.val) :
    act.execute pass.body t (.copy dest (.symbol prior)) = act.execute pass.body t instruction := by
  obtain ⟨v, hcpt, hval⟩ := value_of_computed hloc hbases hsame hnoted hfr hdom hcln hs ht hp
  have heff : act.effect t (.copy dest (.symbol prior)) = act.effect t instruction := by
    rw [effect_of_computation hinstruction, hcpt]
    simp only [effect, hval]
    rfl
  have hdir : act.direction t (.copy dest (.symbol prior)) = act.direction t instruction := by
    rw [direction_of_computation hinstruction]
    rfl
  unfold execute
  rw [heff, hdir]

theorem sameControl_copy_of_computation {value : Value}
    (h : Computation.ofInstruction? instruction = some (dest, computation)) :
    SameControl (.copy dest value) instruction := by
  constructor <;> cases instruction <;> cases h <;> simp [target?]

theorem improveAt_eq {graph : Graph n} {pass' : Pass n} (h : pass.improveAt graph slots p = .ok pass') :
    ∃ instruction, instruction.definition = (pass.body.get p).definition ∧
      pass'.body = put pass.body p instruction ∧ pass'.facts = noteAll pass.facts p instruction := by
  have hdef : ∀ copies, (propagate copies (pass.body.get p)).definition =
      (pass.body.get p).definition := fun _ => definition_mapOperands _ _
  unfold improveAt at h
  dsimp only at h
  split at h
  · rename_i hcpn
    cases h
    exact ⟨_, hdef _, rfl, facts_place _ _ (by rw [noted?, hcpn])⟩
  · rename_i dest computation hcpn
    obtain ⟨holder, _, h⟩ := bind_eq_ok.1 h
    cases holder with
    | some prior =>
      cases h
      refine ⟨.copy dest (.symbol prior), ?_, rfl, facts_place _ _ rfl⟩
      rw [← hdef, definition_of_computation hcpn]
      rfl
    | none =>
      cases h
      exact ⟨_, hdef _, rfl, facts_place_note _ hcpn⟩

theorem improveAt_spec (slots : Slots k)
    (hfct : FactsHold pass.body pass.facts fun d => StrictlyDominates (targets pass.body) d p) :
    ∃ pass', pass.improveAt (.ofSuccessors (targets pass.body)) slots p = .ok pass' ∧
      Improves slots pass.body pass'.body := by
  let instruction :=
    propagate (pass.copies (.ofSuccessors (targets pass.body)) slots p) (pass.body.get p)
  have hctl : SameControl instruction (pass.body.get p) := sameControl_mapOperands _ _
  have hdef : instruction.definition = (pass.body.get p).definition := definition_mapOperands _ _
  have hbase : instruction.base? = (pass.body.get p).base? := base?_mapOperands _ _
  have hpropagate : Improves slots pass.body (put pass.body p instruction) :=
    .put hctl hdef (fun b hb => hbase ▸ hb) fun act hloc _ s t hs ht hp =>
      execute_propagate hfct hloc hs ht hp
  unfold improveAt
  dsimp only
  cases hcpn : Computation.ofInstruction? instruction with
  | none => exact ⟨_, rfl, hpropagate⟩
  | some found =>
    obtain ⟨dest, computation⟩ := found
    rcases holder?_spec (.ofSuccessors (targets pass.body)) slots computation hfct with
      hnone | ⟨e, prior, noted, hsome, hsame, hnoted, hfr, hdom, hcln⟩
    · simp only [hnone]
      exact ⟨_, rfl, hpropagate⟩
    · simp only [hsome]
      refine ⟨_, rfl, .put ?_ ?_ ?_ ?_⟩
      · have hcopy : SameControl (.copy dest (.symbol prior)) instruction :=
          sameControl_copy_of_computation hcpn
        exact ⟨hcopy.target.trans hctl.target, fun l => (hcopy.label l).trans (hctl.label l),
          fun l => (hcopy.jump l).trans (hctl.jump l)⟩
      · rw [← hdef, definition_of_computation hcpn]
        rfl
      · intro b hb
        cases hb
      · intro act hloc hbases s t hs ht hp
        rw [execute_copy_prior hcpn hsame hnoted hfr hdom hcln hloc hbases hs ht hp]
        exact execute_propagate hfct hloc hs ht hp

end

/-! ## A subtree of the dominator tree -/

section
variable {slots : Slots k} {next : Fin n → List (Fin n)} {tree : DominatorTree n}

/-- What visiting a position and all that is below it does: runs are kept, only what the position
dominates changes, and the facts are those from before. -/
structure Visited (slots : Slots k) (next : Fin n → List (Fin n)) (p : Fin n) (pass pass' : Pass n) :
    Prop where
  improves : Improves slots pass.body pass'.body
  below : ∀ q, pass'.body.get q ≠ pass.body.get q → q = p ∨ StrictlyDominates next p q
  facts : FactsSame pass'.facts pass.facts

theorem foldlM_children {p : Fin n} (hrch : ∀ q, Reached next q)
    {visit : Fin n → Pass n → Except Fault (Pass n)} (hvisit : ∀ q pass, targets pass.body = next →
      FactsHold pass.body pass.facts (fun d => StrictlyDominates next d q) →
      ∃ pass', visit q pass = .ok pass' ∧ Visited slots next q pass pass') (children : List (Fin n))
    (hch : ∀ q ∈ children, StrictlyDominates next p q) :
    ∀ pass, targets pass.body = next →
      FactsHold pass.body pass.facts (fun d => d = p ∨ StrictlyDominates next d p) →
      ∃ pass', children.foldlM (fun pass q => visit q pass) pass = .ok pass' ∧
        Improves slots pass.body pass'.body ∧
        (∀ q, pass'.body.get q ≠ pass.body.get q → StrictlyDominates next p q) ∧
        FactsSame pass'.facts pass.facts := by
  induction children with
  | nil =>
    intro pass _ _
    exact ⟨pass, rfl, .refl _ _, fun q hq => absurd rfl hq, .refl _, .refl _⟩
  | cons q children ih =>
    intro pass hnxt hfct
    have hpq : StrictlyDominates next p q := hch q List.mem_cons_self
    have habv : ∀ d, d = p ∨ StrictlyDominates next d p → StrictlyDominates next d q := by
      rintro d (rfl | hd)
      · exact hpq
      · exact hd.trans hpq (hrch p)
    obtain ⟨pass1, hrun, hvis⟩ := hvisit q pass hnxt
      (hfct.congr ⟨.refl _, .refl _⟩ (fun _ _ => rfl) habv)
    have hbel : ∀ r, pass1.body.get r ≠ pass.body.get r → StrictlyDominates next p r := by
      intro r hr
      rcases hvis.below r hr with rfl | hqr
      · exact hpq
      · exact hpq.trans hqr (hrch q)
    -- the facts are about `p` and what is above it, and nothing of this was changed
    have hkeep : ∀ d, d = p ∨ StrictlyDominates next d p → pass1.body.get d = pass.body.get d := by
      intro d hd
      refine Classical.byContradiction fun hne => ?_
      have hpd := hbel d hne
      rcases hd with rfl | hd
      · exact hpd.ne rfl
      · exact hpd.asymm (hrch p) hd
    obtain ⟨pass2, hruns, himp, hbel2, hsame⟩ :=
      ih (fun r hr => hch r (List.mem_cons_of_mem _ hr)) pass1
        (hvis.improves.targets_eq.trans hnxt)
        (hfct.congr hvis.facts hkeep fun _ hd => hd)
    refine ⟨pass2, ?_, hvis.improves.trans himp, fun r hr => ?_, ?_⟩
    · rw [List.foldlM_cons, hrun]
      exact hruns
    · by_cases h : pass2.body.get r = pass1.body.get r
      · exact hbel r (h ▸ hr)
      · exact hbel2 r h
    · exact ⟨hsame.definitions.trans hvis.facts.definitions,
        hsame.computations.trans hvis.facts.computations⟩

theorem run_spec (hrch : ∀ q, Reached next q)
    (htree : ∀ p q, q ∈ tree.children.get p → StrictlyDominates next p q) (depth : Nat) :
    ∀ (p : Fin n) (pass : Pass n), targets pass.body = next →
      FactsHold pass.body pass.facts (fun d => StrictlyDominates next d p) →
      ∃ pass', run (.ofSuccessors next) slots tree depth p pass = .ok pass' ∧
        Visited slots next p pass pass' := by
  induction depth with
  | zero =>
    intro p pass _ _
    exact ⟨pass, rfl, .refl _ _, fun q hq => absurd rfl hq, .refl _, .refl _⟩
  | succ depth ih =>
    rintro p pass rfl hfct
    obtain ⟨pass1, himprove, himp⟩ := improveAt_spec slots hfct
    obtain ⟨instruction, -, hbody, hfacts⟩ := improveAt_eq himprove
    have hhold : FactsHold pass1.body pass1.facts
        fun d => d = p ∨ StrictlyDominates (targets pass.body) d p := by
      rw [hbody, hfacts]
      exact factsHold_put instruction hfct fun h => h.ne rfl
    obtain ⟨pass2, hch, himp2, hbel, hsame⟩ :=
      foldlM_children hrch (fun q pass => ih q pass) (tree.children.get p) (htree p) pass1
        himp.targets_eq hhold
    obtain ⟨back, hrst, hback⟩ :=
      (extends_noteAll pass.facts p instruction).restore (hfacts ▸ hsame)
    refine ⟨{ pass2 with facts := back }, ?_, himp.trans himp2, fun q hq => ?_, hback⟩
    · simp only [run, himprove, ok_bind, hch, hrst]
      rfl
    · by_cases hqp : q = p
      · exact .inl hqp
      · refine .inr (hbel q fun h => hq ?_)
        rw [h, hbody, get_put_of_ne _ _ (Ne.symm hqp)]

end

end Pass

theorem onePass_spec (slots : Slots k) (hpos : 0 < n) (hrch : ∀ q, Reached (targets body) q) :
    ∃ body' changes, onePass (.ofSuccessors (targets body)) slots body = .ok (body', changes) ∧
      Improves slots body body' := by
  obtain ⟨tree, htree, hch⟩ := Graph.dominatorTree_eq_ok hrch
  obtain ⟨pass, hrun, hvis⟩ := Pass.run_spec hrch hch n ⟨0, hpos⟩ ⟨body, .empty, []⟩ rfl
    (factsHold_empty body _)
  refine ⟨pass.body, pass.changes.reverse, ?_, hvis.improves⟩
  simp only [onePass, htree, ok_bind, Graph.firstPosition?, dif_pos hpos, hrun]
  rfl

end SysY.Optimization

import SysY.Proofs.Generation.Distribution
import SysY.Proofs.Generation.Standing
import SysY.Proofs.Structured.Statements

/-!
# The code of statements is lawful

A definition adds its name to the innermost scope, and a statement leaves the scopes as they were.
The code of a statement jumps only to labels that it sets, and to the head and the exit of the loop
around it. No statement has a fault as long as the counters have room: the comparison in front of a
jump can be taken back, elements lie in their arrays, and scopes are left in the order in which they
were entered.
-/

namespace SysY.Generation

open Eeyore SysY.Tree Scopes List
open Structured (elements)

variable {signatures : Signatures} {env ds ds' : List Decl} {b b1 b2 b' : Builder}
  {goals : Label → Prop} {dimensions : List Int32} {location : Location} {array : Symbol}
  {value : Value} {cell : Cell} {cells : List Cell} {initializer : Initializer}
  {isGlobal wanted : Bool} {position : Nat} {expr : Expr} {target : Label}

/-! ## Builders at work -/

/-- What holds of a builder between any two steps. -/
structure Orderly (env : List Decl) (b : Builder) : Prop where
  neat : ∀ i ∈ b.code.body.toList, Neat i
  standing : Standing env b

theorem Orderly.tidy (h : Orderly env b) : Tidy b := ⟨h.neat, h.standing.validNames⟩

theorem Orderly.emits (h : Orderly env b) (hem : Emits b b') : Orderly env b' :=
  ⟨hem.neat h.neat, h.standing.emits hem⟩

theorem Orderly.grows (h : Orderly env b) (hgr : Grows b b') (hsc : b'.scopes = b.scopes) :
    Orderly env b' :=
  ⟨hgr.neat h.neat, h.standing.mono hsc (hgr.known_subset env)⟩

theorem Orderly.emit (h : Orderly env b) (i : Instruction) (hneat : Neat i) :
    Orderly env (b.emit i) := by
  refine ⟨fun j hj => ?_, h.standing⟩
  rw [toList_emit, mem_append, mem_singleton] at hj
  rcases hj with hj | rfl
  · exact h.neat j hj
  · exact hneat

theorem Lays.withScopes (h : Lays signatures env goals b b') (scopes scopes' : Scopes) :
    Lays signatures env goals { b with scopes := scopes } { b' with scopes := scopes' } :=
  ⟨⟨h.labels, h.temps, h.vars, h.body, h.decls⟩, h.lawful, h.aimed⟩

/-! ## Conditions -/

theorem Compared.lays {formula : Formula} {op : BinaryOp} {left right : Value}
    (h : Compared signatures location formula b op left right b') (hst : Standing env b) :
    Lays signatures env nowhere b b' ∧ Known (b'.known env) left ∧ Known (b'.known env) right := by
  induction h with
  | plus _ ih => exact ih hst
  | binary hfst hsnd =>
    obtain ⟨⟨hem, hlays1⟩, hkn1⟩ := (works_eval hst).post _ _ hfst
    obtain ⟨⟨_, hlays2⟩, hkn2⟩ := (works_eval (hst.emits hem)).post _ _ hsnd
    exact ⟨hlays1.trans hlays2, hkn1.mono (hlays2.known_subset env), hkn2⟩
  | logic _ hfst hsnd =>
    obtain ⟨⟨hem, hlays1⟩, _⟩ := (works_eval hst).post _ _ hfst
    obtain ⟨⟨_, hlays2⟩, hkn2⟩ := (works_eval (hst.emits hem)).post _ _ hsnd
    exact ⟨hlays1.trans hlays2, hkn2, known_const _⟩

theorem meets_jumpIf (hback : ∀ x left relation right, value = .symbol x →
      lastComparison? b.code x = some (left, relation, right) →
      ∃ code, b.code.takeBack x = .ok code ∧ code.temps.toNat ≤ b.code.temps.toNat) :
    Meets 0 (jumpIf value wanted target) b fun _ _ => True := by
  unfold jumpIf
  cases value with
  | const c =>
    dsimp only
    split
    · exact meets_push.andThen fun _ _ _ => meets_pure trivial
    · exact meets_pure trivial
  | symbol x =>
    refine .free (builds_get.2 ⟨rfl, rfl⟩) ?_
    cases hlast : lastComparison? b.code x with
    | none => exact meets_push.andThen fun _ _ _ => meets_pure trivial
    | some comparison =>
      obtain ⟨left, relation, right⟩ := comparison
      obtain ⟨code, hcode, htemps⟩ := hback x left relation right rfl hlast
      have hset : Meets 0 (set { b with code := code }) b fun _ _ => True :=
        meets_of_builds (a := ()) (builds_set.2 rfl)
          ⟨Nat.le_refl _, Nat.mul_le_mul_left 4 htemps, Nat.le_refl _⟩ trivial
      exact .free (builds_checked.2 ⟨hcode, rfl⟩) (hset.andThen fun _ _ _ =>
        meets_push.andThen fun _ _ _ => meets_pure trivial)

theorem meets_leaf {formula : Formula} (hleaf : IsLeaf formula) (hord : Orderly env b) :
    Meets formula.price (branch signatures location wanted target formula) b fun _ b' =>
      Emits b b' ∧ Lays signatures env (· = target) b b' := by
  have hstep : Meets formula.price (branch signatures location wanted target formula) b
      fun _ _ => True := by
    rw [hleaf]
    refine (works_eval hord.standing).builds.andThen fun y b1 hy => meets_jumpIf ?_
    rintro x left relation right rfl hlast
    obtain ⟨b2, op, _, _, hcomp⟩ := eval_comparison hy.1 hord.tidy hlast
    refine ⟨_, hcomp.takeBack, ?_⟩
    rw [hcomp.builder]
    exact Nat.le_trans (Nat.le_succ _) (Nat.le_of_eq (toNat_succ hcomp.room).symm)
  refine ⟨fun j b' h => ⟨emits_branch hord.tidy h, ?_⟩, hstep.takes, hstep.safe⟩
  have htgt : ∀ l, some target = some l → l = target := fun l hl => (Option.some.inj hl).symm
  rcases leaf_cases hleaf hord.tidy h with ⟨c, b1, heval, ⟨_, _, rfl⟩ | ⟨_, _, rfl⟩⟩ |
    ⟨op, l, relation, r, b1, hcpd, _, _, rfl⟩ | ⟨x, b1, heval, _, rfl⟩
  · obtain ⟨⟨_, hlays⟩, _⟩ := (works_eval hord.standing).post _ _ heval
    exact hlays.of_nowhere.trans (.emit _ rfl trivial (.jump _) htgt)
  · exact ((works_eval hord.standing).post _ _ heval).1.2.of_nowhere
  · obtain ⟨hlays, hl, hr⟩ := hcpd.lays hord.standing
    exact hlays.of_nowhere.trans (.emit _ rfl trivial (.branch hl hr) htgt)
  · obtain ⟨⟨_, hlays⟩, hx⟩ := (works_eval hord.standing).post _ _ heval
    exact hlays.of_nowhere.trans (.emit _ rfl trivial (.branch hx (known_const _)) htgt)

theorem meets_branch {formula : Formula} {b : Builder} {wanted : Bool} {target : Label}
    (hord : Orderly env b) :
    Meets formula.price (branch signatures location wanted target formula) b fun _ b' =>
      Emits b b' ∧ Lays signatures env (· = target) b b' := by
  rcases formula_cases formula with ⟨operand, rfl⟩ | ⟨connective, left, right, rfl⟩ | hleaf
  · rw [branch, Formula.price]
    exact (meets_branch hord).mono (Nat.le_add_right _ 4)
  · rw [Formula.price]
    by_cases hwant : decide (connective = .or) = wanted
    · rw [branch, if_pos hwant]
      refine ((meets_branch hord).bind ?_).mono (m := left.price + right.price) (by omega)
      rintro j1 b1 ⟨hem, hlays⟩
      have hright : Meets right.price (branch signatures location wanted target right) b1
          fun _ b' => Emits b b' ∧ Lays signatures env (· = target) b b' :=
        (meets_branch (hord.emits hem)).imp fun _ _ h => ⟨hem.trans h.1, hlays.trans h.2⟩
      cases j1 with
      | always => exact meets_pure ⟨hem, hlays⟩
      | never => exact hright
      | maybe =>
        refine hright.andThen fun j2 b2 h => ?_
        cases j2 <;> exact meets_pure h
    · rw [branch, if_neg hwant]
      refine (meets_newLabel.bind ?_).mono (m := 1 + (left.price + right.price)) (by omega)
      rintro _ _ ⟨hroom, rfl, rfl⟩
      have hord0 := hord.emits (Emits.addLabel hroom)
      refine (meets_branch hord0).bind ?_
      rintro j1 b1 ⟨hem, hlays⟩
      -- the operands go to the label at the end or to the target
      have hfst : Lays signatures env (fun l => l = ⟨b.lastLabel + 1⟩ ∨ l = target) b.addLabel b1 :=
        hlays.weaken fun _ => .inl
      have hright : Meets right.price (branch signatures location wanted target right) b1
          fun _ b' => Emits b.addLabel b' ∧
            Lays signatures env (fun l => l = ⟨b.lastLabel + 1⟩ ∨ l = target) b.addLabel b' :=
        (meets_branch (hord0.emits hem)).imp fun _ _ h =>
          ⟨hem.trans h.1, hfst.trans (h.2.weaken fun _ => .inr)⟩
      have hlast : ∀ j b2, Emits b.addLabel b2 ∧
          Lays signatures env (fun l => l = ⟨b.lastLabel + 1⟩ ∨ l = target) b.addLabel b2 →
          Meets 0 (do push (.label ⟨b.lastLabel + 1⟩); return j : Build Jumping) b2 fun _ b' =>
            Emits b b' ∧ Lays signatures env (· = target) b b' := by
        intro j b2 h
        refine meets_push.andThen ?_
        rintro _ _ rfl
        exact meets_pure ⟨Emits.mark hroom h.1, Lays.mark hroom h.2⟩
      cases j1 with
      | always => exact (hlast _ _ ⟨hem, hfst⟩).mono (Nat.zero_le _)
      | never => exact hright.andThen fun j2 b2 h => hlast _ _ h
      | maybe =>
        refine hright.andThen fun j2 b2 h => ?_
        cases j2 <;> exact hlast _ _ h
  · exact meets_leaf hleaf hord
termination_by sizeOf formula
decreasing_by all_goals (subst_vars; simp; try omega)

theorem works_push {i : Instruction} (hlaw : Lawful signatures (b.known env) i)
    (hlab : i.label? = none) (hneat : Neat i) (htgt : i.target? = none) :
    Works signatures env 0 (push i) b fun _ _ => True := by
  refine meets_push.imp ?_
  rintro _ _ rfl
  exact ⟨⟨.emit _ hlab hneat, .emit _ hlab hneat hlaw (by simp [htgt])⟩, trivial⟩

theorem works_evalConstant (hst : Standing env b) :
    Works signatures env expr.price (evalConstant signatures expr) b fun _ _ => True := by
  refine (works_eval hst).andThen fun x _ _ _ => ?_
  cases x with
  | const c => exact .pure trivial
  | symbol y => exact meets_reject

/-! ## Zeros -/

theorem signedMul_wordSize (h : position ≤ maxElements) :
    signedMul (Int32.ofNat position) wordSize = .ok (Int32.ofNat position * wordSize) := by
  unfold maxElements at h
  have hpos : (Int32.ofNat position).toInt = position := Int32.toInt_ofNat_of_lt (by omega)
  have hsz : wordSize.toInt = 4 := by decide
  refine signedMul_ok ?_ ?_ <;> rw [hpos, hsz] <;> omega

theorem works_writeElement (h : position ≤ maxElements) (harr : DeclaredArray (b.known env) array)
    (hval : usable env value b) :
    Works signatures env 0 (writeElement array position value) b fun _ _ => True :=
  .free (builds_checked.2 ⟨signedMul_wordSize h, rfl⟩)
    (works_push (.store harr (known_const _) hval) rfl trivial rfl)

theorem DeclaredArray.mono {x : Symbol} (h : DeclaredArray ds x)
    (hsub : ds ⊆ ds') : DeclaredArray ds' x := by
  obtain ⟨size, hmem⟩ := h
  exact ⟨size, hsub hmem⟩

theorem works_writeElements {positions : List Nat} (h : ∀ position ∈ positions, position ≤ maxElements)
    (harr : DeclaredArray (b.known env) array) :
    Works signatures env 0 (positions.forM fun position => writeElement array position (.const 0)) b
      fun _ _ => True := by
  induction positions generalizing b with
  | nil => exact .pure trivial
  | cons position positions ih =>
    refine (works_writeElement (h position mem_cons_self) harr (known_const 0)).andThen
      fun _ b1 hem _ => ?_
    exact ih (fun p hp => h p (mem_cons_of_mem _ hp)) (harr.mono (hem.known_subset env))

theorem lays_clearLoop (start stop : Int32)
    (htemp : b.code.temps.toNat + 1 < wordValues) (hlab : b.lastLabel.toNat + 1 < wordValues)
    (harr : DeclaredArray (b.known env) array) :
    Lays signatures env nowhere b (b.clearLoop array start stop) := by
  have hmem : ⟨.temp b.code.temps, none⟩ ∈ (b.clearTop start).known env := mem_known_addTemp b env
  have hcur : Known ((b.clearTop start).known env) (.symbol (.temp b.code.temps)) :=
    known_symbol ⟨none, hmem⟩
  have harr' := harr.mono ((emits_clearTop start htemp hlab).known_subset env)
  have htop : Lays signatures env nowhere b (b.clearTop start) := by
    refine (Lays.addTemp htemp).trans (Lays.mark hlab (.emit _ rfl trivial ?_ fun _ h => by cases h))
    exact .copy (mem_known_addTemp b env) (known_const _)
  have hset : (⟨b.lastLabel + 1⟩ : Label) ∈ setLabels (written b (b.clearTop start)) := by
    have hcode : written b (b.clearTop start) =
        [.copy (.temp b.code.temps) (.const start), .label ⟨b.lastLabel + 1⟩] :=
      written_eq (by simp [Builder.clearTop, Builder.emit, Builder.addTemp, Builder.addLabel])
    rw [hcode]
    exact List.mem_singleton.2 rfl
  have hback : Lays signatures env (· = ⟨b.lastLabel + 1⟩) (b.clearTop start)
      (b.clearLoop array start stop) := by
    refine .trans (.trans (.emit _ (by rfl) (by trivial) ?_ (by intro _ h; cases h))
      (.emit _ (by rfl) (by rfl) ?_ (by intro _ h; cases h))) (.emit _ (by rfl) (by trivial) ?_ ?_)
    · exact .store harr' hcur (known_const _)
    · exact .binary hmem hcur (known_const _) (by simp)
    · exact .branch hcur (known_const _)
    · exact fun l hl => (Option.some.inj hl).symm
  refine htop.seq hback fun l hl => ?_
  obtain rfl : l = ⟨b.lastLabel + 1⟩ := hl.resolve_left id
  refine .inl ?_
  rw [htop.toGrows.written_trans hback.toGrows, setLabels, filterMap_append]
  exact mem_append_left _ hset

theorem works_clear {run : ZeroRun} (h : run.start + run.length ≤ maxElements)
    (harr : run.length ≠ 0 → DeclaredArray (b.known env) array) :
    Works signatures env 5 (clear array run) b fun _ _ => True := by
  unfold clear
  split
  · by_cases hlen : run.length = 0
    · rw [hlen]
      exact .pure trivial
    · refine (works_writeElements (fun position hpos => ?_) (harr hlen)).mono (Nat.zero_le 5)
      have hlt := (mem_range'_1.1 hpos).2
      omega
  · rename_i hlong
    have hlen : run.length ≠ 0 := by
      unfold loopThreshold at hlong
      omega
    have hstep : Meets 5 (clearByLoop array run) b fun _ _ => True := by
      refine meets_newTemp.bind fun cursor _ _ => meets_newLabel.andThen fun top _ _ => ?_
      refine .free (builds_checked.2 ⟨signedMul_wordSize (Nat.le_of_add_right_le h), rfl⟩) ?_
      refine meets_push.andThen fun _ _ _ => meets_push.andThen fun _ _ _ => ?_
      refine meets_push.andThen fun _ _ _ => meets_push.andThen fun _ _ _ => ?_
      exact .free (builds_checked.2 ⟨signedMul_wordSize h, rfl⟩) (meets_push.imp fun _ _ _ => trivial)
    refine ⟨fun _ b' hb => ⟨⟨emits_clear (builds_clear.2 (.inr ⟨hlong, hb⟩)), ?_⟩, trivial⟩,
      hstep.takes, hstep.safe⟩
    obtain ⟨htemp, hlab, start, stop, _, _, rfl⟩ := builds_clearByLoop.1 hb
    exact lays_clearLoop _ _ htemp hlab (harr hlen)

/-! ## Initializers -/

section Initializers

variable {target : Target} {progress p : Progress}

/-- The symbol of a target is declared as what it is. -/
structure Target.Declared (ds : List Decl) (target : Target) : Prop where
  scalar : target.isArray = false → ⟨target.symbol, none⟩ ∈ ds
  array : target.isArray = true → DeclaredArray ds target.symbol

theorem Target.Declared.mono (h : target.Declared ds) (hsub : ds ⊆ ds') :
    target.Declared ds' :=
  ⟨fun hsca => hsub (h.scalar hsca), fun harr => (h.array harr).mono hsub⟩

/-- Only arrays have zeros that are not written yet. -/
def Pending (target : Target) (progress : Progress) : Prop :=
  progress.zeros.length ≠ 0 → target.isArray = true

/-- How far an initialization has come: all zeros that are not written yet lie behind it. -/
structure Progress.Within (progress : Progress) (limit : Nat) : Prop where
  position : progress.position ≤ limit
  zeros : progress.zeros.start + progress.zeros.length ≤ progress.position

theorem within_skip {limit : Nat} (target : Target) (h : progress.Within limit) (count : Nat) :
    (progress.skip target count).zeros.start + (progress.skip target count).zeros.length ≤
      progress.position + count := by
  have := h.zeros
  unfold Progress.skip ZeroRun.extend
  split
  · omega
  · split <;> dsimp only <;> omega

theorem pending_skip {count : Nat} (hpend : Pending target progress)
    (h : target.isGlobal = true ∨ target.isArray = true) :
    Pending target (progress.skip target count) := by
  unfold Pending Progress.skip
  split
  · exact hpend
  · rename_i hloc
    exact fun _ => h.resolve_left hloc

theorem works_initializeElement (hwin : progress.Within maxElements)
    (htgt : target.Declared (b.known env)) (hpend : Pending target progress)
    (hval : usable env value b) :
    Works signatures env 5 (initializeElement target progress value) b fun p _ =>
      Pending target p ∧ p.zeros.start + p.zeros.length ≤ progress.position + 1 ∧
        p.position = progress.position := by
  unfold initializeElement
  split
  · exact .pure ⟨hpend, Nat.le_succ_of_le hwin.zeros, rfl⟩
  · split
    · rename_i hz
      refine .pure ⟨pending_skip hpend (by simpa using hz.2), within_skip target hwin 1, ?_⟩
      unfold Progress.skip
      split <;> rfl
    · refine (works_clear (Nat.le_trans hwin.zeros hwin.position) fun hlen =>
        htgt.array (hpend hlen)).andThen fun _ b1 hem _ => ?_
      have hsub := hem.known_subset env
      have hnone : Pending target { progress with zeros := .none } := fun hlen => absurd rfl hlen
      split
      · rename_i harr
        exact (works_writeElement hwin.position ((htgt.array harr).mono hsub)
          (hval.mono hsub)).andThen fun _ _ _ _ => .pure ⟨hnone, Nat.zero_le _, rfl⟩
      · rename_i hsca
        have hcopy : Lawful signatures (b1.known env) (.copy target.symbol value) :=
          .copy (hsub (htgt.scalar (by simpa using hsca))) (hval.mono hsub)
        exact (works_push hcopy rfl trivial rfl).andThen fun _ _ _ _ =>
          .pure ⟨hnone, Nat.zero_le _, rfl⟩

def Cell.price : Cell → Nat
  | .value expr => expr.price + 5
  | .blank _ => 0

theorem works_initializeCell (hwin : progress.Within maxElements)
    (hlimit : progress.position + cell.expand.length ≤ maxElements) (hst : Standing env b)
    (htgt : target.Declared (b.known env)) (hpend : Pending target progress)
    (hfits : ∀ count, cell = .blank count → target.isArray = true) :
    Works signatures env cell.price (initializeCell signatures target progress cell) b fun p _ =>
      p.position = progress.position + cell.expand.length ∧ p.Within maxElements ∧
        Pending target p := by
  cases cell with
  | value expr =>
    have hlast : ∀ x b1 (values : Progress → Array Int32), Emits b b1 → usable env x b1 →
        Works signatures env 5 (do
          let p ← initializeElement target progress x
          return { p with position := p.position + 1, values := values p }) b1 fun p _ =>
          p.position = progress.position + 1 ∧ p.Within maxElements ∧ Pending target p := by
      intro x b1 values hem hx
      refine (works_initializeElement hwin (htgt.mono (hem.known_subset env)) hpend hx).andThen ?_
      rintro p b2 _ ⟨hpend', hzeros, hpos⟩
      rw [← hpos] at hzeros
      exact .pure ⟨congrArg (· + 1) hpos, ⟨by rw [hpos]; exact hlimit, hzeros⟩, hpend'⟩
    rw [initializeCell]
    split
    · exact (works_evalConstant hst).bind fun c b1 hem _ =>
        hlast (.const c) b1 (fun p => p.values.push c) hem (known_const c)
    · exact (works_eval hst).bind fun x b1 hem hx => hlast x b1 (·.values) hem hx
  | blank count =>
    rw [Cell.expand, length_replicate] at hlimit ⊢
    refine meets_pure ⟨⟨.refl _, .refl _⟩, ?_⟩
    dsimp only
    split
    · rename_i hcnt
      subst hcnt
      exact ⟨rfl, ⟨hlimit, hwin.zeros⟩, hpend⟩
    · have hskip := within_skip target hwin count
      have hpos : (progress.skip target count).position = progress.position := by
        unfold Progress.skip
        split <;> rfl
      rw [hpos]
      exact ⟨rfl, ⟨hlimit, hskip⟩, pending_skip hpend (.inr (hfits count rfl))⟩

/-- Cells without values belong to arrays. -/
def Fits (target : Target) (cells : List Cell) : Prop :=
  ∀ count, .blank count ∈ cells → target.isArray = true

theorem works_initializeCells (hwin : progress.Within maxElements)
    (hlimit : progress.position + (expanded cells).length ≤ maxElements) (hst : Standing env b)
    (htgt : target.Declared (b.known env)) (hpend : Pending target progress)
    (hfits : Fits target cells) :
    Works signatures env (cells.map Cell.price).sum
      (cells.foldlM (initializeCell signatures target) progress) b fun p _ =>
      p.Within maxElements ∧ Pending target p := by
  induction cells generalizing progress b with
  | nil => exact .pure ⟨hwin, hpend⟩
  | cons cell cells ih =>
    have hexpanded : (expanded (cell :: cells)).length = cell.expand.length +
        (expanded cells).length := length_append
    rw [foldlM_cons, map_cons, sum_cons]
    refine (works_initializeCell hwin (by omega) hst htgt hpend fun count hcell =>
      hfits count (hcell ▸ mem_cons_self)).bind ?_
    rintro p1 b1 hem ⟨hpos, hwin1, hpend1⟩
    exact ih hwin1 (by omega) (hst.emits hem) (htgt.mono (hem.known_subset env)) hpend1
      fun count hmem => hfits count (mem_cons_of_mem _ hmem)

theorem fits_distribute {dimensions : List Nat} (h : distribute dimensions initializer = .ok cells)
    (harr : target.isArray = !dimensions.isEmpty) : Fits target cells := by
  intro count hmem
  cases dimensions with
  | nil =>
    obtain ⟨expr, rfl⟩ := distribute_nil h
    cases List.mem_singleton.1 hmem
  | cons dimension dimensions => exact harr

theorem sum_price_cells (cells : List Cell) : (cells.map Cell.price).sum =
    (((expanded cells).filterMap id).map (·.price + 5)).sum := by
  induction cells with
  | nil => rfl
  | cons cell cells ih =>
    have happend := expanded_append [cell] cells
    rw [singleton_append] at happend
    rw [map_cons, sum_cons, ih, happend, filterMap_append, map_append, sum_append]
    congr 1
    cases cell with
    | value expr => rfl
    | blank count => rw [(distributed_blank count).exprs]; rfl

theorem works_writeInitializer (hsm : extent (lengths dimensions) ≤ maxElements)
    (hst : Standing env b) (htgt : target.Declared (b.known env))
    (harr : target.isArray = !dimensions.isEmpty) :
    Works signatures env initializer.price
      (writeInitializer signatures target (lengths dimensions) initializer) b fun _ _ => True := by
  refine (meets_lift fun fault hflt => ?_).after ?_
  · obtain ⟨error, _, ⟨⟩⟩ := mapError_eq_error.1 hflt
  · rintro cells _ ⟨hlift, rfl⟩
    have hdstr := mapError_eq_ok.1 hlift
    have hdtd := distributed_distribute hdstr
    rw [Initializer.price, ← hdtd.exprs, ← sum_price_cells]
    have hwin : Progress.Within ⟨0, .none, #[]⟩ maxElements := ⟨Nat.zero_le _, Nat.le_refl 0⟩
    refine (works_initializeCells hwin ?_ hst htgt (fun hlen => absurd rfl hlen)
      (fits_distribute hdstr (by simpa [lengths] using harr))).bind ?_
    · rw [hdtd.length, Nat.zero_add]
      exact hsm
    · rintro p b1 hem ⟨hwin, hpend⟩
      exact (works_clear (Nat.le_trans hwin.zeros hwin.position) fun hlen =>
        (htgt.array (hpend hlen)).mono (hem.known_subset env)).andThen fun _ _ _ _ => .pure trivial

theorem values_of_scalar {values : Array Int32} (htgt : target.isArray = false)
    (h : Builds (writeInitializer signatures target [] initializer) b (some values) b') :
    values ≠ #[] := by
  obtain ⟨_, _, _, _, _, _, _, ⟨_, c, _, ⟨⟩⟩ | ⟨_, ⟨⟩⟩⟩ := writeInitializer_scalar htgt h
  simp

end Initializers

/-! ## Definitions -/

theorem works_evalDimensions {exprs : List Expr} (hst : Standing env b) :
    Works signatures env (exprs.map Expr.price).sum (evalDimensions signatures exprs) b
      fun dimensions _ => ∀ d ∈ dimensions, 0 < d := by
  induction exprs generalizing b with
  | nil => exact .pure (forall_mem_nil _)
  | cons expr rest ih =>
    rw [evalDimensions, map_cons, sum_cons]
    refine (works_evalConstant hst).bind fun d b1 hem _ => ?_
    split
    · rename_i hposv
      exact (ih (hst.emits hem)).andThen fun ds b2 _ hds => .pure (forall_mem_cons.2 ⟨hposv, hds⟩)
    · exact meets_reject

theorem meets_elementCount : Meets 0 (elementCount dimensions location) b fun count b' =>
    extent (lengths dimensions) ≤ maxElements ∧ count = .ofNat (extent (lengths dimensions)) ∧
      b = b' := by
  unfold elementCount
  dsimp only
  split
  · rename_i hsm
    exact meets_pure ⟨hsm, rfl, rfl⟩
  · exact meets_reject

theorem Grows.addVar {size : Option UInt32} (h : b.nextVar.toNat + 1 < wordValues)
    (hsm : ∀ s, size = some s → s.toNat ≤ maxElements) : Grows b (b.addVar size) := by
  have hvars : (b.addVar size).nextVar.toNat = b.nextVar.toNat + 1 := toNat_succ h
  refine ⟨Nat.le_refl _, Nat.le_refl _, by omega,
    ⟨[], (append_nil _).symm, .of_setLabels_nil _ _ rfl, by simp⟩, _, decls_addVar b size, ?_⟩
  rw [hvars]
  exact .var_singleton _ _ hsm

theorem mem_known_addVar (b : Builder) (env : List Decl) (size : Option UInt32) :
    ⟨.var b.nextVar, size⟩ ∈ (b.addVar size).known env := by
  simp [Builder.known]

theorem sizeOf?_eq_none : sizeOf? dimensions = none ↔ dimensions = [] := by
  cases dimensions <;> simp [sizeOf?]

theorem sizeOf?_le (h : extent (lengths dimensions) ≤ maxElements) :
    ∀ size, sizeOf? dimensions = some size → size.toNat ≤ maxElements := by
  intro size hsz
  unfold sizeOf? at hsz
  split at hsz
  · cases hsz
  · cases hsz
    rw [UInt32.toNat_ofNat']
    exact Nat.le_trans (Nat.mod_le _ _) h

theorem Standing.addName (h : Standing env b) {name : String} {meaning : Meaning}
    (hstd : Stands (b.known env) meaning) : Standing env (b.addName name meaning) := by
  intro other hdfs
  rw [Builder.addName, add_eq_extend, defines_extend] at hdfs
  rcases hdfs with ⟨_, hmem⟩ | hdfs
  · cases List.mem_singleton.1 hmem
    exact hstd
  · exact h other hdfs

theorem declared_addVar (b : Builder) (env : List Decl) (dimensions : List Int32)
    (isConstant isGlobal : Bool) : Target.Declared ((b.addVar (sizeOf? dimensions)).known env)
      ⟨.var b.nextVar, !dimensions.isEmpty, isConstant, isGlobal⟩ := by
  have hmem := mem_known_addVar b env (sizeOf? dimensions)
  cases dimensions with
  | nil => exact ⟨fun _ => hmem, nofun⟩
  | cons d dimensions => exact ⟨nofun, fun _ => ⟨_, hmem⟩⟩

/-- A step that adds names to the innermost scope and takes so many variables. -/
structure Enlarges (signatures : Signatures) (env : List Decl) (goals : Label → Prop) (n : Nat)
    (b b' : Builder) : Prop where
  lays : Lays signatures env goals b b'
  orderly : Orderly env b'
  scopes : ∃ added, b'.scopes = b.scopes.extend added
  vars : b'.nextVar.toNat = b.nextVar.toNat + n

theorem Enlarges.refl (h : Orderly env b) : Enlarges signatures env goals 0 b b :=
  ⟨.refl b, h, ⟨[], (extend_nil _).symm⟩, rfl⟩

theorem Enlarges.trans {m n : Nat} (h : Enlarges signatures env goals m b b1)
    (h' : Enlarges signatures env goals n b1 b') : Enlarges signatures env goals (m + n) b b' := by
  obtain ⟨added, hsc⟩ := h.scopes
  obtain ⟨added', hsc'⟩ := h'.scopes
  refine ⟨h.lays.trans h'.lays, h'.orderly, ⟨added' ++ added, ?_⟩, ?_⟩
  · rw [hsc', hsc, extend_extend]
  · rw [h'.vars, h.vars, Nat.add_assoc]

theorem meets_define {isConstant : Bool} {definition : Definition} (hord : Orderly env b) :
    Meets definition.price (define signatures isConstant isGlobal definition) b fun _ b' =>
      Enlarges signatures env nowhere 1 b b' := by
  rw [Definition.price]
  refine Meets.bind (works_evalDimensions hord.standing) ?_
  rintro dimensions b1 ⟨⟨hem1, hlays1⟩, hposv⟩
  refine meets_elementCount.after ?_
  rintro _ _ ⟨hsm, rfl, rfl⟩
  dsimp only
  rw [ite_isEmpty_eq_sizeOf?]
  refine meets_newVar.bind ?_
  rintro _ _ ⟨hroom, rfl, rfl⟩
  have hmem := mem_known_addVar b1 env (sizeOf? dimensions)
  have hgr := Grows.addVar hroom (sizeOf?_le hsm)
  have hord2 := (hord.emits hem1).grows hgr rfl
  have htgt := declared_addVar b1 env dimensions isConstant isGlobal
  -- what the definition leads to once its values are known
  have hlast : ∀ values b2, Emits (b1.addVar (sizeOf? dimensions)) b2 →
      Lays signatures env nowhere (b1.addVar (sizeOf? dimensions)) b2 →
      (∀ vs, values = some vs → dimensions = [] → vs ≠ #[]) →
      Meets 0 (defineName definition.name ⟨.var b1.nextVar, dimensions, values⟩) b2 fun _ b' =>
        Enlarges signatures env nowhere 1 b b' := by
    intro values b2 hem hlays hfilled
    have hstd : Stands (b2.known env) ⟨.var b1.nextVar, dimensions, values⟩ := by
      refine ⟨⟨rfl, fun _ => rfl, fun _ => ?_⟩, ⟨_, hem.known_subset env hmem, sizeOf?_eq_none⟩,
        fun d hd => hposv d (mem_of_mem_tail hd), Nat.le_trans (extent_tail_le hposv) hsm, hfilled,
        fun _ => ⟨hem.known_subset env hmem, hposv⟩⟩
      show elements dimensions ≤ maxElements
      rw [elements_eq_extent hposv]
      exact Int.ofNat_le.2 hsm
    have hord' := hord2.emits hem
    have hlays' := (hlays1.trans (.of_written_nil hgr (written_self b1))).trans hlays
    refine meets_defineName.imp ?_
    rintro _ _ rfl
    refine ⟨hlays'.withScopes b.scopes _, ⟨hord'.neat, hord'.standing.addName hstd⟩,
      ⟨[(definition.name.value, ⟨.var b1.nextVar, dimensions, values⟩)], ?_⟩, ?_⟩
    · rw [add_eq_extend, hem.sameScopes]
      exact congrArg (extend · _) hem1.sameScopes
    · show b2.nextVar.toNat = _
      rw [hem.sameVars, ← hem1.sameVars]
      exact toNat_succ hroom
  split
  · rename_i initializer hsome
    rw [hsome, Option.elim_some]
    refine (works_writeInitializer hsm hord2.standing htgt rfl).builds.andThen ?_
    rintro values b2 ⟨hb, ⟨hem, hlays⟩, _⟩
    refine hlast values b2 hem hlays ?_
    rintro vs rfl rfl
    exact values_of_scalar rfl hb
  · split
    · exact meets_reject.andThen fun values b2 (h : False) => h.elim
    · exact (hlast none _ (.refl _) (.refl _) nofun).mono (Nat.zero_le _)

theorem meets_declare {declaration : Declaration} (hord : Orderly env b) :
    Meets declaration.price (declare signatures isGlobal declaration) b fun _ b' =>
      Enlarges signatures env nowhere declaration.definitions.length b b' := by
  obtain ⟨isConstant, definitions⟩ := declaration
  unfold declare Declaration.price
  dsimp only
  induction definitions generalizing b with
  | nil => exact meets_pure (.refl hord)
  | cons definition definitions ih =>
    rw [map_cons, sum_cons, length_cons, Nat.add_comm definitions.length]
    exact (meets_define hord).bind fun _ b1 h => (ih h.orderly).imp fun _ _ h' => h.trans h'

/-! ## Statements -/

theorem works_assign {target : Place} {value : Expr} (hst : Standing env b) :
    Works signatures env ((Formulas.ofExprs target.indices).price + value.price)
      (assign signatures target value) b fun _ _ => True := by
  refine works_resolveWith hst (fun dims => works_evalPosition hst)
    (Nat.sub_le _ 8) (fun hposv => Nat.le_of_eq (Nat.sub_add_cancel (eight_le_price hposv)))
    fun r b1 hem hr hwr => ?_
  have hst1 := hst.emits hem
  cases r with
  | scalar x =>
    exact (works_eval hst1).andThen fun y b2 hem' hy =>
      works_push (.copy (hem'.known_subset env hr) hy) rfl trivial rfl
  | element array index =>
    refine ((works_eval hst1).andThen fun y b2 hem' hy => ?_).mono (Nat.le_add_right _ 4)
    have hsub := hem'.known_subset env
    exact works_push (.store (hr.1.mono hsub) (hr.2.mono hsub) hy) rfl trivial rfl
  | constant c => exact (hwr rfl).elim
  | pointer x => exact (hwr rfl).elim

theorem works_discard (hst : Standing env b) :
    Works signatures env expr.price (discard signatures expr) b fun _ _ => True := by
  unfold discard Expr.price
  split
  · rename_i function arguments location hform
    rw [hform, Formula.price]
    exact (works_callWith (works_evalAll hst)).andThen fun _ _ _ _ => .pure trivial
  · exact (works_eval hst).andThen fun _ _ _ _ => .pure trivial

theorem works_returnValue {around : Surroundings} {value : Option Expr} (hst : Standing env b) :
    Works around.signatures env (value.elim 0 Expr.price) (returnValue around value location) b
      fun _ _ => True := by
  unfold returnValue
  split
  · refine (works_eval hst).andThen fun x b1 _ hx => works_push (.return ?_) rfl trivial rfl
    rintro _ ⟨⟩
    exact hx
  · exact works_push (.return nofun) rfl trivial rfl
  · exact meets_reject
  · exact meets_reject

/-- The labels of the loop around a statement. -/
def loopGoals (loop : Option Loop) (l : Label) : Prop :=
  ∃ around, loop = some around ∧ (l = around.head ∨ l = around.exit)

theorem mem_setLabels_emit (h : Grows b b') (l : Label) :
    l ∈ setLabels (written b (b'.emit (.label l))) := by
  rw [h.written_emit, setLabels, filterMap_append]
  exact mem_append_right _ (List.mem_singleton.2 rfl)

theorem Lays.otherwise {b3 : Builder} (hroom : b.lastLabel.toNat + 1 < wordValues)
    (hroom' : b2.lastLabel.toNat + 1 < wordValues)
    (hfst : Lays signatures env (fun l => l = ⟨b.lastLabel + 1⟩ ∨ goals l) b.addLabel b2)
    (hsnd : Lays signatures env goals (b.otherwise b2) b3) :
    Lays signatures env goals b (b3.emit (.label ⟨b2.lastLabel + 1⟩)) := by
  -- the label in the middle belongs to the first part, the one at the end to the second
  have hjump : Lays signatures env (fun l => l = ⟨b2.lastLabel + 1⟩ ∨ goals l) b
      ((b2.emit (.jump ⟨b2.lastLabel + 1⟩)).emit (.label ⟨b.lastLabel + 1⟩)) := by
    refine Lays.mark hroom ((hfst.weaken fun l hl => ?_).trans (.emit _ rfl trivial (.jump _) ?_))
    · exact hl.imp id .inr
    · exact fun l hl => .inr (.inl (Option.some.inj hl).symm)
  have hlast : Lays signatures env goals
      ((b2.emit (.jump ⟨b2.lastLabel + 1⟩)).emit (.label ⟨b.lastLabel + 1⟩))
      (b3.emit (.label ⟨b2.lastLabel + 1⟩)) :=
    Lays.mark hroom' (hsnd.weaken fun l hl => .inr hl)
  refine hjump.seq hlast fun l hl => ?_
  rcases hl with (rfl | hl) | hl
  · left
    rw [hjump.toGrows.written_trans hlast.toGrows, setLabels, filterMap_append]
    exact mem_append_right _ (mem_setLabels_emit (hsnd.toGrows) _)
  · exact .inr hl
  · exact .inr hl

theorem Lays.loop (hroom : b.lastLabel.toNat + 1 < wordValues)
    (hroom' : b.addLabel.lastLabel.toNat + 1 < wordValues)
    (hbody : Lays signatures env (loopGoals (some b.loop))
      (b.addLabel.addLabel.emit (.label b.loop.head)) b2) :
    Lays signatures env goals b ((b2.emit (.jump b.loop.head)).emit (.label b.loop.exit)) := by
  have hhead : Lays signatures env goals b (b.addLabel.emit (.label b.loop.head)) :=
    Lays.mark hroom (.refl _)
  have hrest : Lays signatures env (· = b.loop.head) (b.addLabel.emit (.label b.loop.head))
      ((b2.emit (.jump b.loop.head)).emit (.label b.loop.exit)) := by
    refine Lays.mark (b := b.addLabel.emit (.label b.loop.head)) hroom'
      ((hbody.weaken fun l hl => ?_).trans (.emit _ rfl trivial (.jump _) ?_))
    · obtain ⟨_, ⟨⟩, hl⟩ := hl
      exact hl.symm
    · exact fun l hl => .inr (Option.some.inj hl).symm
  refine hhead.seq hrest fun l hl => ?_
  rcases hl with hl | rfl
  · exact .inr hl
  · left
    rw [hhead.toGrows.written_trans hrest.toGrows, setLabels, filterMap_append]
    exact mem_append_left _ (mem_setLabels_emit (.refl b.addLabel) _)

theorem Standing.enter (h : Standing env b) :
    Standing env { b with scopes := b.scopes.enter } :=
  fun meaning hdfs => h meaning (defines_enter.1 hdfs)

/-- What a statement leads to: its code goes to the labels of the loop around it, and it takes so many
variables. -/
structure States (signatures : Signatures) (env : List Decl) (loop : Option Loop) (n : Nat)
    (b b' : Builder) : Prop where
  lays : Lays signatures env (loopGoals loop) b b'
  scopes : b'.scopes = b.scopes
  vars : b'.nextVar.toNat = b.nextVar.toNat + n

theorem Works.states {α : Type} {step : Build α} {post : α → Builder → Prop} {loop : Option Loop}
    {n : Nat} (h : Works signatures env n step b post) :
    Meets n step b fun _ b' => States signatures env loop 0 b b' :=
  Meets.imp h fun _ _ h => ⟨h.1.2.of_nowhere, h.1.1.sameScopes, congrArg _ h.1.1.sameVars⟩

theorem meets_jump {loop : Option Loop} {l : Label} (h : loopGoals loop l) :
    Meets 0 (push (.jump l)) b fun _ b' => States signatures env loop 0 b b' := by
  refine meets_push.imp ?_
  rintro _ _ rfl
  exact ⟨.emit _ rfl trivial (.jump _) fun l' hl => Option.some.inj hl ▸ h, rfl, rfl⟩

mutual

theorem meets_writeStatement {around : Surroundings} {statement : Statement} {loop : Option Loop}
    {b : Builder} (hord : Orderly env b) :
    Meets statement.price (writeStatement around loop statement) b fun _ b' =>
      States around.signatures env loop statement.variables b b' := by
  cases statement with
  | assign target _ value =>
    rw [writeStatement, Statement.price]
    exact (works_assign hord.standing).states
  | expr value =>
    rw [writeStatement, Statement.price]
    exact (works_discard hord.standing).states
  | empty =>
    rw [writeStatement]
    exact meets_pure ⟨.refl _, rfl, rfl⟩
  | block body =>
    rw [writeStatement, Statement.price]
    refine meets_enterScope.after ?_
    rintro _ _ rfl
    have hord0 : Orderly env { b with scopes := b.scopes.enter } := ⟨hord.neat, hord.standing.enter⟩
    refine (meets_writeBlock hord0).andThen ?_
    rintro _ b1 ⟨hlays, _, ⟨added, hsc⟩, hvar⟩
    refine (meets_leaveScope b.scopes (by rw [hsc]; rfl)).imp ?_
    rintro _ _ rfl
    exact ⟨hlays.withScopes _ _, rfl, hvar⟩
  | ifThen condition yes =>
    rw [writeStatement, Statement.price]
    refine meets_newLabel.bind ?_
    rintro _ _ ⟨hroom, rfl, rfl⟩
    have hord0 := hord.emits (Emits.addLabel hroom)
    refine (meets_branch hord0).bind ?_
    rintro j b1 ⟨hem, hbranch⟩
    refine (meets_writeStatement (hord0.emits hem)).andThen ?_
    rintro _ b2 ⟨hlays, hsc, hvar⟩
    refine meets_push.imp ?_
    rintro _ _ rfl
    rw [hem.sameVars] at hvar
    refine ⟨Lays.mark hroom ?_, hsc.trans hem.sameScopes, hvar⟩
    exact (hbranch.weaken fun _ => .inl).trans (hlays.weaken fun _ => .inr)
  | ifElse condition yes no =>
    rw [writeStatement, Statement.price]
    refine meets_newLabel.bind ?_
    rintro _ _ ⟨hroom, rfl, rfl⟩
    have hord0 := hord.emits (Emits.addLabel hroom)
    refine (meets_branch hord0).bind ?_
    rintro j b1 ⟨hem, hbranch⟩
    refine (meets_writeStatement (hord0.emits hem)).bind ?_
    rintro _ b2 ⟨hlays, hsc, hvar⟩
    have hfst : Lays around.signatures env (fun l => l = ⟨b.lastLabel + 1⟩ ∨ loopGoals loop l)
        b.addLabel b2 :=
      (hbranch.weaken fun _ => .inl).trans (hlays.weaken fun _ => .inr)
    have hord2 := hord0.grows hfst.toGrows (hsc.trans hem.sameScopes)
    refine meets_newLabel.bind ?_
    rintro _ _ ⟨hroom', rfl, rfl⟩
    refine meets_push.after ?_
    rintro _ _ rfl
    refine meets_push.after ?_
    rintro _ _ rfl
    refine (meets_writeStatement (((hord2.emits (Emits.addLabel hroom')).emit (.jump _)
      trivial).emit (.label _) trivial)).andThen ?_
    rintro _ b3 ⟨hlays', hsc', hvar'⟩
    refine meets_push.imp ?_
    rintro _ _ rfl
    rw [hem.sameVars] at hvar
    refine ⟨hfst.otherwise hroom hroom' hlays', hsc'.trans (hsc.trans hem.sameScopes), ?_⟩
    exact hvar'.trans ((congrArg (· + no.variables) hvar).trans (Nat.add_assoc ..))
  | «while» condition body =>
    rw [writeStatement, Statement.price]
    refine meets_newLabel.bind ?_
    rintro _ _ ⟨hroom, rfl, rfl⟩
    refine meets_newLabel.bind ?_
    rintro _ _ ⟨hroom', rfl, rfl⟩
    refine meets_push.after ?_
    rintro _ _ rfl
    have hhead : Emits b (b.addLabel.addLabel.emit (.label b.loop.head)) :=
      (Emits.mark hroom (.refl _)).trans (Emits.addLabel hroom')
    have hord0 := hord.emits hhead
    refine (meets_branch hord0).bind ?_
    rintro j b1 ⟨hem, hbranch⟩
    refine (meets_writeStatement (hord0.emits hem)).andThen ?_
    rintro _ b2 ⟨hlays, hsc, hvar⟩
    refine meets_push.andThen ?_
    rintro _ _ rfl
    refine meets_push.imp ?_
    rintro _ _ rfl
    rw [hem.sameVars] at hvar
    refine ⟨Lays.loop hroom hroom' ((hbranch.weaken fun l hl => ?_).trans hlays),
      hsc.trans (hem.sameScopes.trans hhead.sameScopes), hvar⟩
    exact ⟨b.loop, rfl, .inr hl⟩
  | «break» location =>
    cases loop with
    | none => exact meets_reject
    | some loop => exact meets_jump ⟨loop, rfl, .inr rfl⟩
  | «continue» location =>
    cases loop with
    | none => exact meets_reject
    | some loop => exact meets_jump ⟨loop, rfl, .inl rfl⟩
  | «return» value location =>
    rw [writeStatement, Statement.price]
    exact (works_returnValue hord.standing).states

theorem meets_writeBlock {around : Surroundings} {block : Block} {loop : Option Loop} {b : Builder}
    (hord : Orderly env b) :
    Meets block.price (writeBlock around loop block) b fun _ b' =>
      Enlarges around.signatures env (loopGoals loop) block.variables b b' := by
  cases block with
  | nil =>
    rw [writeBlock]
    exact meets_pure (.refl hord)
  | declaration declaration rest =>
    rw [writeBlock, Block.price]
    refine (meets_declare hord).bind fun _ b1 h => ?_
    have hfst : Enlarges around.signatures env (loopGoals loop) _ b b1 :=
      ⟨h.lays.of_nowhere, h.orderly, h.scopes, h.vars⟩
    exact (meets_writeBlock h.orderly).imp fun _ _ h' => hfst.trans h'
  | statement statement rest =>
    rw [writeBlock, Block.price]
    refine (meets_writeStatement hord).bind fun _ b1 h => ?_
    have hfst : Enlarges around.signatures env (loopGoals loop) _ b b1 :=
      ⟨h.lays, hord.grows h.lays.toGrows h.scopes, ⟨[], by rw [h.scopes, extend_nil]⟩, h.vars⟩
    exact (meets_writeBlock hfst.orderly).imp fun _ _ h' => hfst.trans h'

end

end SysY.Generation

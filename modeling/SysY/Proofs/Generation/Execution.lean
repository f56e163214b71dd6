import SysY.Proofs.Generation.Initialization

/-!
# Running statements

The code of a statement does what the statement does. Where the statement ends normally, the run comes
to the end of its code; `break` and `continue` lead to the labels of the loop around it, `return` ends
the run. A statement that needs more fuel than there is keeps its code running for at least as many
steps, since every round of a loop takes some. So the code returns exactly if the statement does.
-/

namespace SysY.Generation

open Eeyore Eeyore.Activation Structured
open Tree (Expr Place Formula Formulas Statement Block Declaration)

variable {signatures : Signatures} {outer : List Decl} {env : Environment} {b b1 b2 b' : Builder}
  {x : Value} {v : Int32} {expr : Expr} {u : Unit} {l : Label} {bt : Builder}

namespace Stage

variable {stage : Stage} {store store' : Store} {s s1 s' : State}

/-! ## Assignments -/

theorem shows_stored {stale : UInt32 → Prop} (a : UInt32) (v : Int32) (h : Shows stale store s) :
    Shows stale (store.write a v) (stored s a v) := by
  refine h.spares (spares_stored .empty s a v) fun a' ha' => ?_
  show s.memory.write a v a' = store.memory.write a v a'
  unfold Memory.write
  split
  · rfl
  · exact h.memory a' ha'

theorem comes_store {array : Symbol} {index : Value} {a : UInt32}
    (hcov : stage.Covers (b.emit (.store array index x))) (hat : stage.At clean b store s)
    (ha : stage.act.address s array index = some a) (hv : stage.act.value s x = some v) :
    ∃ s', Comes stage.act stage.body s s' ∧
      stage.At clean (b.emit (.store array index x)) (store.write a v) s' :=
  ⟨_, comes_next hcov hat.position (effect_store ha hv) rfl,
    (shows_stored a v hat.toShows).at _, rfl⟩

theorem scale_stride_cases {dimensions : List Int32} {indices : Nat} {factor : Int32}
    {offset : Value} {location : Location} (hfac : stride dimensions indices = .ok factor)
    (h : Builds (scale x factor location) b offset b') :
    ∀ y, offset = .symbol y → y.isTemp = true := by
  rcases builds_scale.1 h with ⟨rfl, _⟩ | ⟨_, h⟩
  · have := toInt_of_stride hfac
    have hone : (1 : Int32).toInt = 1 := by decide
    omega
  · rcases builds_applyBinary.1 h with ⟨_, _, _, _, _, _, rfl, _⟩ | ⟨_, dest, rfl, hcomp⟩
    · nofun
    · rintro _ ⟨⟩
      rw [hcomp.symbol]
      rfl

theorem Denotes.renew {m : Moment} (h : stage.Denotes b m s x v)
    (hx : ∀ y, x = .symbol y → y.isTemp = true) : stage.Denotes b ⟨m.store, []⟩ s x v := by
  refine ⟨h.value, h.temp, fun y hy htemp => ?_⟩
  rw [hx y hy] at htemp
  cases htemp

theorem expression_eq_some {site : Site} {hidden : Option Region}
    (h : site.expression env hidden expr store = some (v, store')) :
    ∃ m, site.value env hidden expr.formula ⟨store, []⟩ = some (v, m) ∧ store' = m.store := by
  obtain ⟨⟨w, m⟩, hw, heq⟩ := Option.map_eq_some_iff.1 h
  cases heq
  exact ⟨m, hw, rfl⟩

theorem comes_assign {target : Place} {value : Expr} (hnm : stage.Names env)
    (henv : b.scopes.find? = env) (hb : Builds (assign signatures target value) b u b')
    (hcov : stage.Covers b') (hasg : stage.site.assign env target value store = some store')
    (hat : stage.At clean b store s) :
    ∃ s', Comes stage.act stage.body s s' ∧ stage.At clean b' store' s' := by
  obtain ⟨r, b1, x, b2, hrsv, hx, hw⟩ := assign_cases hb
  obtain ⟨meaning, index, b0, hfind, hle, hfull, hidx, hpl⟩ := builds_resolveWith.1 hrsv
  obtain ⟨hvar, hcnt⟩ := hfull rfl
  rw [henv] at hfind
  obtain ⟨hvld, hpls⟩ := hnm _ _ hfind
  unfold Site.assign at hasg
  obtain ⟨meaning', hmean, hasg⟩ := Option.bind_eq_some_iff.1 hasg
  cases hmean.symm.trans hfind
  obtain ⟨⟨vs, m0⟩, hvs, hasg⟩ := Option.bind_eq_some_iff.1 hasg
  obtain ⟨⟨v, store2⟩, hv, hasg⟩ := Option.bind_eq_some_iff.1 hasg
  obtain ⟨m2, hval, rfl⟩ := expression_eq_some hv
  have hem0 := emits_evalPosition hidx
  have hcov2 : stage.Covers b2 := by
    rcases hw with ⟨_, _, rfl⟩ | ⟨_, _, _, rfl⟩ <;> exact hcov.of_emit
  have hcov1 := hcov2.mono (emits_eval hx).toGrows
  have hlen := length_of_values hvs
  rcases hpl with ⟨rfl, hname⟩ | ⟨y, factor, offset, b3, rfl, hfac, hscl, hoff⟩
  · -- a scalar
    obtain ⟨rfl, hr⟩ := builds_resolveName.1 hname
    obtain ⟨s1, hadv1, _⟩ := advances_evalPosition clean_hidden hnm hle henv hidx hcov1 hvs hat
    have henv1 := hem0.find?_eq henv
    obtain ⟨s2, hadv2, hden⟩ := evaluates_eval clean_hidden hnm henv1 hx hcov2 hval s1 hadv1.arrives
    rcases hr with ⟨_, rfl⟩ | ⟨hdims, _, rfl⟩ | ⟨_, _, _, _, _, rfl⟩
    · rcases hw with ⟨_, ⟨⟩, _⟩ | ⟨_, _, ⟨⟩, _⟩
    · rcases hw with ⟨_, ⟨⟩, rfl⟩ | ⟨_, _, ⟨⟩, _⟩
      rw [hdims] at hasg
      cases hasg
      obtain ⟨s3, hcom3, hat3⟩ := comes_copy hcov hvld.symbol
        (hpls.array?_eq_none hvld hdims) hadv2.arrives hden.value
      exact ⟨s3, (hadv1.comes.trans hadv2.comes).trans hcom3, hat3⟩
    · rcases hw with ⟨_, ⟨⟩, _⟩ | ⟨_, _, ⟨⟩, _⟩
  · -- an element
    have hcov3 := hcov1.mono (emits_resolveOffset hoff).toGrows
    have hcov0 := hcov3.mono (emits_scale hscl).toGrows
    obtain ⟨s1, hadv1, hsels⟩ := advances_evalPosition clean_hidden hnm hle henv hidx hcov0 hvs hat
    cases vs with
    | nil => cases hsels
    | cons index indices =>
    obtain ⟨_, ⟨⟩, hy⟩ := hsels
    rw [← hlen] at hle hfac hoff hcnt
    have hdims : meaning.dimensions ≠ [] := by
      intro hnil
      rw [hnil] at hcnt
      cases hcnt
    obtain ⟨s2, hadv2, hden2⟩ : ∃ s2, stage.Advances none clean b0 b3 m0 m0 s1 s2 ∧ _ :=
      advances_offset hle hfac hscl hcov3 hadv1.arrives hy
    rcases builds_resolveOffset.1 hoff with ⟨hlt, _⟩ | ⟨_, ⟨_, _, _, hvals, _⟩ | ⟨_, rfl, rfl⟩⟩
    · omega
    · rw [hvar] at hvals
      cases hvals
    rcases hw with ⟨_, ⟨⟩, _⟩ | ⟨_, _, ⟨⟩, rfl⟩
    have henv1 := (hem0.trans (emits_scale hscl)).find?_eq henv
    have hden2 := hden2.renew (scale_stride_cases hfac hscl)
    obtain ⟨s3, hadv3, hden3⟩ :=
      evaluates_eval clean_hidden hnm henv1 hx hcov2 hval s2 hadv2.arrives
    have hidx3 := hden2.persist hadv2.arrives.toShows hadv3 (emits_eval hx).toGrows
    dsimp only at hasg
    rw [if_neg (by simpa using hdims)] at hasg
    obtain ⟨a, ha, hasg⟩ := Option.bind_eq_some_iff.1 hasg
    obtain ⟨hbnds, hasg⟩ := Option.ite_none_right_eq_some.1 hasg
    cases hasg
    have haddr := address_of_inBounds hvld hpls hdims hadv3.arrives.toShows ha hbnds hidx3.value
    obtain ⟨s4, hcom4, hat4⟩ := comes_store hcov hadv3.arrives haddr hden3.value
    exact ⟨s4, ((hadv1.comes.trans hadv2.comes).trans hadv3.comes).trans hcom4, hat4⟩

/-! ## Expressions, conditions and returns -/

theorem comes_discard (hnm : stage.Names env)
    (henv : b.scopes.find? = env) (hb : Builds (discard signatures expr) b u b')
    (hcov : stage.Covers b') (hv : stage.site.expression env none expr store = some (v, store'))
    (hat : stage.At clean b store s) :
    ∃ s', Comes stage.act stage.body s s' ∧ stage.At clean b' store' s' := by
  obtain ⟨m, hval, rfl⟩ := expression_eq_some hv
  rcases discard_cases hb with ⟨function, arguments, location, x, hform, hcall⟩ | ⟨x, _, hx⟩
  · rw [hform, Site.value] at hval
    obtain ⟨⟨vs, m1⟩, hvs, hreply⟩ := Option.bind_eq_some_iff.1 hval
    obtain ⟨signature, values, b1, _, _, hvals, hemit⟩ := builds_callWith.1 hcall
    obtain ⟨s1, hadv1, hden⟩ := advances_evalAll clean_hidden hnm henv hvals
      (hcov.mono (emits_emitCall hemit).toGrows) hvs hat
    obtain ⟨s2, hadv2, _⟩ := advances_emitCall hemit hcov hadv1.arrives hden hreply
    exact ⟨s2, hadv1.comes.trans hadv2.comes, hadv2.arrives⟩
  · obtain ⟨s1, hadv, _⟩ := evaluates_eval clean_hidden hnm henv hx hcov hval s hat
    exact ⟨s1, hadv.comes, hadv.arrives⟩

theorem comes_condition {j : Jumping} {holds : Bool} (htidy : Tidy b) (hnm : stage.Names env)
    (henv : b.scopes.find? = env) (hb : Builds (branchExpr signatures expr false l) b j b')
    (hcov : stage.Covers b') (hlab : stage.Covers (bt.emit (.label l)))
    (hholds : stage.site.condition env expr store = some (holds, store'))
    (hat : stage.At clean b store s) :
    ∃ s', Comes stage.act stage.body s s' ∧ stage.At clean (if holds then b' else bt) store' s' := by
  obtain ⟨⟨v, store1⟩, hv, heq⟩ := Option.map_eq_some_iff.1 hholds
  cases heq
  obtain ⟨m, hval, rfl⟩ := expression_eq_some hv
  obtain ⟨s', hbrs⟩ := branches_branch htidy hb hnm henv hcov hlab hval hat
  refine ⟨s', hbrs.comes, ?_⟩
  have harv := hbrs.arrives
  by_cases hz : v = 0
  · simpa [hz] using harv
  · simpa [hz] using harv

theorem returns_return {x : Option Value} {value : Option Int32}
    (hcov : stage.Covers (b.emit (.return x))) (hs : s.position = stage.base + b.code.body.size)
    (hval : stage.act.direction s (.return x) = some (.return value)) :
    Returns stage.act stage.body s value s := by
  obtain ⟨p, hp, hget⟩ := hcov.get
  refine ⟨1, ?_⟩
  have hstep : stage.act.step stage.body s = ⟨.returned value, s⟩ :=
    (step_of_get (hs.trans hp.symm) (by rw [hget]; rfl) (by rw [hget]; exact hval)).trans rfl
  rw [run, hstep]

/-! ## Statements -/

/-- Where the labels of the loop around a statement are set, if there is one. -/
structure Surrounds (stage : Stage) (loop : Option Loop) (head exit : Builder) : Prop where
  head : ∀ l, loop = some l → stage.Covers (head.emit (.label l.head))
  exit : ∀ l, loop = some l → stage.Covers (exit.emit (.label l.exit))

/-- The run goes on as a statement ends: to the code behind it, to a label of the loop around it or
out of the function. -/
def Follows (stage : Stage) (loop : Option Loop) (head exit next : Builder) (fuel : Nat)
    (s : State) : Structured.Outcome → Prop
  | .normal store => ∃ s', Comes stage.act stage.body s s' ∧ stage.At clean next store s'
  | .broke store => loop ≠ none ∧
    ∃ s', Comes stage.act stage.body s s' ∧ stage.At clean exit store s'
  | .continued store => loop ≠ none ∧
    ∃ s', Comes stage.act stage.body s s' ∧ stage.At clean head store s'
  | .returned value store => ∃ t, Returns stage.act stage.body s value t ∧ Shows clean store t
  | .undefined => True
  | .outOfFuel => Lasts stage.act stage.body fuel s

section Follows

variable {loop : Option Loop} {head exit next : Builder} {fuel : Nat} {outcome : Structured.Outcome}

theorem Follows.after (h : stage.Follows loop head exit next fuel s1 outcome)
    (hcom : Comes stage.act stage.body s s1) :
    stage.Follows loop head exit next fuel s outcome := by
  cases outcome with
  | normal store =>
    obtain ⟨s', hcom', hat⟩ := h
    exact ⟨s', hcom.trans hcom', hat⟩
  | broke store =>
    obtain ⟨hloop, s', hcom', hat⟩ := h
    exact ⟨hloop, s', hcom.trans hcom', hat⟩
  | continued store =>
    obtain ⟨hloop, s', hcom', hat⟩ := h
    exact ⟨hloop, s', hcom.trans hcom', hat⟩
  | returned value store =>
    obtain ⟨t, hret, hshows⟩ := h
    exact ⟨t, hcom.returns hret, hshows⟩
  | undefined => trivial
  | outOfFuel => exact hcom.lasts h

theorem Follows.andThen {after : Store → Structured.Outcome}
    (h : stage.Follows loop head exit b1 fuel s outcome)
    (hafter : ∀ store s1, stage.At clean b1 store s1 →
      stage.Follows loop head exit next fuel s1 (after store)) :
    stage.Follows loop head exit next fuel s (outcome.andThen after) := by
  cases outcome with
  | normal store =>
    obtain ⟨s1, hcom, hat⟩ := h
    exact (hafter store s1 hat).after hcom
  | _ => exact h

theorem Follows.goOn (h : stage.Follows loop head exit b1 fuel s outcome)
    (hnxt : ∀ store s1, stage.At clean b1 store s1 →
      ∃ s', Comes stage.act stage.body s1 s' ∧ stage.At clean next store s') :
    stage.Follows loop head exit next fuel s outcome := by
  have hsame : outcome.andThen .normal = outcome := by cases outcome <;> rfl
  rw [← hsame]
  exact h.andThen hnxt

theorem Follows.refuel {fuel' : Nat} (h : stage.Follows loop head exit next fuel s outcome)
    (hfuel : outcome = .outOfFuel → Lasts stage.act stage.body fuel' s) :
    stage.Follows loop head exit next fuel' s outcome := by
  cases outcome with
  | outOfFuel => exact hfuel rfl
  | _ => exact h

theorem comes_setLabel (hcov : stage.Covers (b.emit (.label l))) (hat : stage.At clean b store s) :
    ∃ s', Comes stage.act stage.body s s' ∧ stage.At clean (b.emit (.label l)) store s' :=
  ⟨_, comes_label hcov hat.position, hat.toShows.at _, rfl⟩

theorem comes_jump (hcov : stage.Covers (b.emit (.jump l)))
    (hlab : stage.Covers (bt.emit (.label l))) (hat : stage.At clean b store s) :
    ∃ s', Comes stage.act stage.body s s' ∧ stage.At clean bt store s' :=
  ⟨_, comes_goto hcov hlab hat.position rfl rfl, hat.toShows.at _, rfl⟩

theorem follows_loop {l : Loop} {bc be : Builder} (bb : Builder)
    {condition : Store → Option (Bool × Store)} {round : Store → Structured.Outcome}
    (hhead : stage.Covers (bc.emit (.label l.head))) (hback : stage.Covers (be.emit (.jump l.head)))
    (hexit : stage.Covers ((be.emit (.jump l.head)).emit (.label l.exit)))
    (hcond : ∀ store s holds store', stage.At clean (bc.emit (.label l.head)) store s →
      condition store = some (holds, store') → ∃ s', Comes stage.act stage.body s s' ∧
        stage.At clean (if holds then bb else be.emit (.jump l.head)) store' s')
    (hround : ∀ store s, stage.At clean bb store s →
      stage.Follows (some l) bc (be.emit (.jump l.head)) be fuel s (round store))
    {rounds : Nat} (hle : rounds ≤ fuel) (hat : stage.At clean bc store s) :
    stage.Follows loop head exit ((be.emit (.jump l.head)).emit (.label l.exit)) rounds s
      (Site.loop condition round rounds store) := by
  induction rounds generalizing store s with
  | zero => exact Lasts.zero s
  | succ rounds ih =>
    obtain ⟨s1, hstep, hat1⟩ : ∃ s1, stage.act.step stage.body s = ⟨.running, s1⟩ ∧
        stage.At clean (bc.emit (.label l.head)) store s1 := by
      obtain ⟨p, hp, hget⟩ := hhead.get
      refine ⟨s.at (s.position + 1), ?_, hat.toShows.at _, ?_⟩
      · exact (step_of_get (hat.position.trans hp.symm) (by rw [hget]; rfl) (by rw [hget]; rfl)).trans rfl
      · show s.position + 1 = _
        rw [hat.position, size_emit, Nat.add_assoc]
    -- what the next rounds do shows what this one and they do
    have hagain : ∀ {store s'}, Comes stage.act stage.body s1 s' → stage.At clean bc store s' →
        stage.Follows loop head exit ((be.emit (.jump l.head)).emit (.label l.exit)) (rounds + 1) s
          (Site.loop condition round rounds store) := by
      intro store s' hcom hat'
      have hrest := ih (Nat.le_of_succ_le hle) hat'
      refine (hrest.after (.head hstep hcom)).refuel fun hfuel => ?_
      rw [hfuel] at hrest
      exact .succ hstep (hcom.lasts hrest)
    rw [Site.loop]
    cases hc : condition store with
    | none => trivial
    | some result =>
      obtain ⟨holds, store1⟩ := result
      obtain ⟨s2, hcom2, hat2⟩ := hcond store s1 holds store1 hat1 hc
      cases holds with
      | false =>
        obtain ⟨s3, hcom3, hat3⟩ := comes_setLabel hexit hat2
        exact ⟨s3, .head hstep (hcom2.trans hcom3), hat3⟩
      | true =>
        have hfol := hround store1 s2 hat2
        dsimp only
        cases hout : round store1 with
        | normal store2 =>
          rw [hout] at hfol
          obtain ⟨s3, hcom3, hat3⟩ := hfol
          obtain ⟨s4, hcom4, hat4⟩ := comes_jump hback hhead hat3
          exact hagain ((hcom2.trans hcom3).trans hcom4) hat4
        | continued store2 =>
          rw [hout] at hfol
          obtain ⟨_, s3, hcom3, hat3⟩ := hfol
          exact hagain (hcom2.trans hcom3) hat3
        | broke store2 =>
          rw [hout] at hfol
          obtain ⟨_, s3, hcom3, hat3⟩ := hfol
          obtain ⟨s4, hcom4, hat4⟩ := comes_setLabel hexit hat3
          exact ⟨s4, .head hstep ((hcom2.trans hcom3).trans hcom4), hat4⟩
        | returned value store2 =>
          rw [hout] at hfol
          obtain ⟨t, hret, hshows⟩ := hfol
          exact ⟨t, Comes.returns (.head hstep hcom2) hret, hshows⟩
        | undefined => trivial
        | outOfFuel =>
          rw [hout] at hfol
          exact Comes.lasts (.head hstep hcom2) (Lasts.mono hfol hle)

end Follows

/-! ## Whole statements -/

mutual

theorem follows_writeStatement {around : Surroundings} {fuel : Nat} (hkno : stage.Knows outer)
    {statement : Statement} {loop : Option Loop} {head exit b b' : Builder} {u : Unit}
    {env : Environment} {store : Store} {s : State}
    (h : Builds (writeStatement around loop statement) b u b') (hord : Orderly outer b)
    (hcov : stage.Covers b') (hsur : stage.Surrounds loop head exit)
    (henv : b.scopes.find? = env) (hat : stage.At clean b store s) :
    stage.Follows loop head exit b' fuel s (stage.site.execute fuel env b.nextVar.toNat statement
      store) := by
  cases statement with
  | assign target _ value =>
    rw [writeStatement] at h
    rw [Site.execute]
    have hnm := henv ▸ hkno.names (hcov.mono (emits_assign h).toGrows) hord.standing
    cases hasg : stage.site.assign env target value store with
    | none => trivial
    | some store' => exact comes_assign hnm henv h hcov hasg hat
  | expr value =>
    rw [writeStatement] at h
    rw [Site.execute]
    have hnm := henv ▸ hkno.names (hcov.mono (emits_discard h).toGrows) hord.standing
    cases hval : stage.site.expression env none value store with
    | none => trivial
    | some result => exact comes_discard hnm henv h hcov hval hat
  | empty =>
    rw [writeStatement] at h
    obtain ⟨_, rfl⟩ := builds_pure.1 h
    rw [Site.execute]
    exact ⟨s, .refl, hat⟩
  | block body =>
    obtain ⟨b1, scopes, hbody, hleave, rfl⟩ := writeStatement_block h
    have hcov1 : stage.Covers b1 := ⟨hcov.code, hcov.temps, hcov.parameters, hcov.decls⟩
    have hfol := @follows_writeBlock around fuel hkno body loop head exit
      { b with scopes := b.scopes.enter } b1 () env store s hbody
      ⟨hord.neat, hord.standing.enter⟩ hcov1 hsur henv ⟨hat.toShows, hat.position⟩
    rw [Site.execute]
    exact hfol.goOn fun store s1 hat1 => ⟨s1, .refl, hat1.toShows, hat1.position⟩
  | ifThen condition yes =>
    obtain ⟨hroom, j, b1, b2, hbr, hyes, rfl⟩ := writeStatement_ifThen h
    have hord0 := hord.emits (Emits.addLabel hroom)
    have hem := emits_branch hord0.tidy hbr
    have hord1 := hord0.emits hem
    have hcov2 := hcov.of_emit
    have hcov1 := hcov2.mono ((meets_writeStatement hord1).post _ _ hyes).lays.toGrows
    have hnm := henv ▸ hkno.names (hcov1.mono hem.toGrows) hord0.standing
    have hat0 : stage.At clean b.addLabel store s := ⟨hat.toShows, hat.position⟩
    rw [Site.execute]
    cases hcond : stage.site.condition env condition store with
    | none => trivial
    | some result =>
      obtain ⟨holds, store1⟩ := result
      obtain ⟨s1, hcom1, hat1⟩ := comes_condition hord0.tidy hnm henv hbr hcov1 hcov hcond hat0
      cases holds with
      | true =>
        have hfol := @follows_writeStatement around fuel hkno yes loop head exit b1 b2 () env
          store1 s1 hyes hord1 hcov2 hsur
          (hem.find?_eq henv) hat1
        rw [hem.sameVars] at hfol
        exact (hfol.after hcom1).goOn fun store s2 hat2 => comes_setLabel hcov hat2
      | false =>
        obtain ⟨s2, hcom2, hat2⟩ := comes_setLabel hcov hat1
        exact ⟨s2, hcom1.trans hcom2, hat2⟩
  | ifElse condition yes no =>
    obtain ⟨hroom, j, b1, b2, b3, hbr, hyes, hroom', hno, rfl⟩ := writeStatement_ifElse h
    have hord0 := hord.emits (Emits.addLabel hroom)
    have hem := emits_branch hord0.tidy hbr
    have hord1 := hord0.emits hem
    obtain ⟨hlays2, hsc2, hvar2⟩ := (meets_writeStatement hord1).post _ _ hyes
    have hord2 := (hord1.grows hlays2.toGrows hsc2).emits (Emits.addLabel hroom')
    have hord3 : Orderly outer (b.otherwise b2) :=
      (hord2.emit (.jump _) trivial).emit (.label _) trivial
    have hcov3 := hcov.of_emit
    have hskip : stage.Covers (b.otherwise b2) :=
      hcov3.mono ((meets_writeStatement hord3).post _ _ hno).lays.toGrows
    have hjump := hskip.of_emit
    have hcov2 := hjump.of_emit.mono (Emits.addLabel hroom').toGrows
    have hcov1 := hcov2.mono hlays2.toGrows
    have hnm := henv ▸ hkno.names (hcov1.mono hem.toGrows) hord0.standing
    have henv1 := hem.find?_eq henv
    have hat0 : stage.At clean b.addLabel store s := ⟨hat.toShows, hat.position⟩
    rw [Site.execute]
    cases hcond : stage.site.condition env condition store with
    | none => trivial
    | some result =>
      obtain ⟨holds, store1⟩ := result
      obtain ⟨s1, hcom1, hat1⟩ := comes_condition hord0.tidy hnm henv hbr hcov1 hskip hcond hat0
      cases holds with
      | true =>
        have hfol := @follows_writeStatement around fuel hkno yes loop head exit b1 b2 () env
          store1 s1 hyes hord1 hcov2 hsur henv1 hat1
        rw [hem.sameVars] at hfol
        refine (hfol.after hcom1).goOn fun store s2 hat2 => ?_
        have hat2' : stage.At clean b2.addLabel store s2 := ⟨hat2.toShows, hat2.position⟩
        obtain ⟨s3, hcom3, hat3⟩ := comes_jump hjump hcov hat2'
        obtain ⟨s4, hcom4, hat4⟩ := comes_setLabel hcov hat3
        exact ⟨s4, hcom3.trans hcom4, hat4⟩
      | false =>
        obtain ⟨s2, hcom2, hat2⟩ := comes_setLabel hskip hat1
        have hfol := @follows_writeStatement around fuel hkno no loop head exit (b.otherwise b2)
          b3 () env store1 s2 hno hord3 hcov3 hsur
          ((congrArg Scopes.find? hsc2).trans henv1) hat2
        rw [hem.sameVars] at hvar2
        rw [show (b.otherwise b2).nextVar.toNat = _ from hvar2] at hfol
        exact (hfol.after (hcom1.trans hcom2)).goOn fun store s3 hat3 =>
          comes_setLabel hcov hat3
  | «while» condition body =>
    obtain ⟨hroom, hroom', j, b1, b2, hbr, hbody, rfl⟩ := writeStatement_while h
    have hhead : Emits b (b.addLabel.addLabel.emit (.label b.loop.head)) :=
      (Emits.mark hroom (.refl _)).trans (Emits.addLabel hroom')
    have hord0 := hord.emits hhead
    have hem := emits_branch hord0.tidy hbr
    have hord1 := hord0.emits hem
    have hback := hcov.of_emit
    have hcov2 := hback.of_emit
    have hcov1 := hcov2.mono ((meets_writeStatement hord1).post _ _ hbody).lays.toGrows
    have hcov0 := hcov1.mono hem.toGrows
    have hnm := henv ▸ hkno.names hcov0 hord0.standing
    have henv1 := hem.find?_eq henv
    have hat0 : stage.At clean b.addLabel.addLabel store s := ⟨hat.toShows, hat.position⟩
    rw [Site.execute]
    refine follows_loop b1 hcov0 hback hcov (fun store s holds store' hat hholds => ?_)
      (fun store s hat => ?_) (Nat.le_refl fuel) hat0
    · exact comes_condition hord0.tidy hnm henv hbr hcov1 hcov hholds hat
    · have hfol := @follows_writeStatement around fuel hkno body (some b.loop)
        b.addLabel.addLabel (b2.emit (.jump b.loop.head)) b1 b2 () env store s hbody hord1 hcov2
        ⟨by rintro _ ⟨⟩; exact hcov0, by rintro _ ⟨⟩; exact hcov⟩ henv1 hat
      rw [hem.sameVars] at hfol
      exact hfol
  | «break» location =>
    obtain ⟨l, rfl, rfl⟩ := writeStatement_break h
    rw [Site.execute]
    exact ⟨nofun, comes_jump hcov (hsur.exit l rfl) hat⟩
  | «continue» location =>
    obtain ⟨l, rfl, rfl⟩ := writeStatement_continue h
    rw [Site.execute]
    exact ⟨nofun, comes_jump hcov (hsur.head l rfl) hat⟩
  | «return» value location =>
    rw [writeStatement] at h
    rcases returnValue_cases h with ⟨expr, x, b1, _, rfl, hx, rfl⟩ | ⟨_, rfl, rfl⟩
    · rw [Site.execute]
      have hnm := henv ▸ hkno.names (hcov.of_emit.mono (emits_eval hx).toGrows) hord.standing
      cases hval : stage.site.expression env none expr store with
      | none => trivial
      | some result =>
        obtain ⟨m, hv, hsto⟩ := expression_eq_some hval
        obtain ⟨s1, hadv, hden⟩ := evaluates_eval clean_hidden hnm henv hx hcov.of_emit hv s hat
        refine ⟨s1, hadv.comes.returns (returns_return hcov hadv.arrives.position ?_), ?_⟩
        · simp only [direction, hden.value, Option.bind_eq_bind, Option.bind_some, Option.pure_def]
        · rw [hsto]
          exact hadv.arrives.toShows
    · rw [Site.execute]
      exact ⟨s, returns_return hcov hat.position rfl, hat.toShows⟩

theorem follows_writeBlock {around : Surroundings} {fuel : Nat} (hkno : stage.Knows outer)
    {block : Block} {loop : Option Loop} {head exit b b' : Builder} {u : Unit} {env : Environment}
    {store : Store} {s : State} (h : Builds (writeBlock around loop block) b u b')
    (hord : Orderly outer b) (hcov : stage.Covers b') (hsur : stage.Surrounds loop head exit)
    (henv : b.scopes.find? = env) (hat : stage.At clean b store s) :
    stage.Follows loop head exit b' fuel s (stage.site.executeBlock fuel env b.nextVar.toNat block
      store) := by
  cases block with
  | nil =>
    rw [writeBlock] at h
    obtain ⟨_, rfl⟩ := builds_pure.1 h
    rw [Site.executeBlock]
    exact ⟨s, .refl, hat⟩
  | declaration declaration rest =>
    obtain ⟨b1, hfst, hrest⟩ := writeBlock_declaration h
    obtain ⟨_, hord1, _, hvar1⟩ := (meets_declare hord).post _ _ hfst
    have hcov1 := hcov.mono ((meets_writeBlock hord1).post _ _ hrest).lays.toGrows
    rw [Site.executeBlock]
    cases hdclr : stage.site.declare declaration.constant env b.nextVar.toNat
        declaration.definitions store with
    | none => trivial
    | some result =>
      obtain ⟨env1, store1⟩ := result
      obtain ⟨henv1, s1, hcom1, hat1⟩ := comes_declare hfst hord hkno hcov1 henv hdclr hat
      dsimp only
      rw [← hvar1]
      exact (follows_writeBlock hkno hrest hord1 hcov hsur henv1 hat1).after hcom1
  | statement statement rest =>
    obtain ⟨b1, hfst, hrest⟩ := writeBlock_statement h
    obtain ⟨hlays1, hsc1, hvar1⟩ := (meets_writeStatement hord).post _ _ hfst
    have hord1 := hord.grows hlays1.toGrows hsc1
    have hcov1 := hcov.mono ((meets_writeBlock hord1).post _ _ hrest).lays.toGrows
    have henv1 := (congrArg Scopes.find? hsc1).trans henv
    rw [Site.executeBlock, ← hvar1]
    exact (follows_writeStatement hkno hfst hord hcov1 hsur henv hat).andThen
      fun store1 s1 hat1 => follows_writeBlock hkno hrest hord1 hcov hsur henv1 hat1

end

end Stage

end SysY.Generation

import SysY.Proofs.Flow.Slots
import SysY.Proofs.Generation.Execution
import SysY.Proofs.Generation.Symbols

/-!
# Running functions

The code of a function returns exactly if the function does, with the same value and the same calls,
and it leaves variables and memory as the function does. It never runs past its last instruction: this
is a jump or a return, and one is added where the statements of the function may come to its end.
-/

namespace SysY.Eeyore.Activation

variable {act : Activation} {n : Nat} {body : Vector Instruction n} {s t : State}

theorem direction_ne_next {i : Instruction} {direction : Direction} (hi : i.isTerminator = true)
    (h : act.direction s i = some direction) : direction ≠ .next := by
  rcases direction_cases h with ⟨_, _, _, _, _, _, rfl, _⟩ | ⟨_, rfl, rfl⟩ | ⟨_, _, rfl, rfl⟩ |
    ⟨htgt, hret, _⟩
  · cases hi
  · nofun
  · nofun
  · cases i with
    | jump target => cases htgt
    | «return» value => exact absurd rfl (hret value)
    | _ => cases hi

theorem Comes.position_lt (h : Comes act body s t)
    (hended : ∀ p : Fin n, p.val + 1 = n → (body.get p).isTerminator = true)
    (hs : s.position < n) : t.position < n := by
  induction h with
  | refl => exact hs
  | tail _ hstep ih =>
    obtain ⟨p, hp, s1, direction, heff, hdir, hfol⟩ := step_eq hstep (by simp)
    obtain ⟨q, rfl, hq⟩ := follow_running hfol
    rcases hq with ⟨rfl, rfl⟩ | ⟨_, r, _, _, rfl⟩
    · have hp' : s1.position = p.val := (position_of_effect heff).trans hp
      by_contra hge
      have hlast : p.val + 1 = n := by
        have := p.isLt
        change ¬ s1.position + 1 < n at hge
        omega
      exact direction_ne_next (hended p hlast) hdir rfl
    · exact r.isLt

end SysY.Eeyore.Activation

namespace SysY.Structured

theorem length_lt_of_bindParameters {env env' : Environment} {id : Nat}
    {parameters : List Tree.Parameter} (h : bindParameters env id parameters = some env')
    (hid : id < wordValues) : id + parameters.length < wordValues := by
  induction parameters generalizing env id with
  | nil => exact hid
  | cons parameter rest ih =>
    rw [bindParameters] at h
    obtain ⟨_, _, h⟩ := Option.bind_eq_some_iff.1 h
    obtain ⟨hlt, h⟩ := Option.ite_none_right_eq_some.1 h
    have := ih h hlt
    rw [List.length_cons]
    omega

end SysY.Structured

namespace SysY.Generation

open Eeyore Eeyore.Activation Flow Structured
open Tree (Parameter)

variable {signatures : Signatures} {outer globals : List Decl} {b b' : Builder}
  {source : Tree.Function} {f : Eeyore.Function} {world : World} {env : Environment} {store : Store}
  {s : State} {fuel number : Nat} {d : Decl} {x : Symbol} {front : List Instruction}

/-! ## Bodies -/

theorem size_pos_of_back? {code : Array Instruction}
    (h : code.back?.any (·.isTerminator) = true) : 0 < code.size := by
  rcases Nat.eq_zero_or_pos code.size with hz | hpos
  · rw [Array.size_eq_zero_iff] at hz
    rw [hz] at h
    cases h
  · exact hpos

namespace Stage

variable {stage : Stage}

/-- A run ends as a function does. -/
def Ends (stage : Stage) (fuel : Nat) (s : State) : Structured.Outcome → Prop
  | .returned value store => ∃ t, Returns stage.act stage.body s value t ∧ Shows clean store t
  | .undefined => True
  | .outOfFuel => Lasts stage.act stage.body fuel s
  | _ => False

theorem Covers.ended (h : stage.Covers b) (hn : stage.n = stage.base + b.code.body.size)
    (hlast : b.code.body.back?.any (·.isTerminator) = true) (p : Fin stage.n)
    (hp : p.val + 1 = stage.n) : (stage.body.get p).isTerminator = true := by
  obtain ⟨i, hi, hterminator⟩ := (Option.any_eq_true _ _).1 hlast
  rw [Array.back?_eq_getElem?, ← Array.getElem?_toList] at hi
  obtain ⟨q, hq, rfl⟩ := h.code _ _ hi
  have hlt := (List.getElem?_eq_some_iff.1 hi).1
  rw [Array.length_toList] at hlt
  obtain rfl : q = p := Fin.ext (by omega)
  exact hterminator

theorem ends_writeBody (hb : Builds (writeBody signatures source) b () b')
    (hkno : source.parameters.length < wordValues → stage.Knows outer) (hempty : b.code = .empty)
    (hord : Orderly outer b) (hsub : parameterDecls 0 source.parameters ⊆ b.known outer)
    (hcov : stage.Covers b') (hn : stage.n = stage.base + b'.code.body.size)
    (hnum : b.nextVar.toNat = number) (hsite : stage.site = ⟨world, ownVariables source number⟩)
    (henv : b.scopes.find? = env) (hat : stage.At clean b store s) :
    stage.Ends fuel s (runFunction world env number source fuel store) := by
  obtain ⟨hlays, _, _, hlast⟩ := (meets_writeBody hord hsub).post _ _ hb
  obtain ⟨b1, b2, scopes, hpars, hbody, hleave, hfin⟩ := builds_writeBody hb
  have hord0 : Orderly outer { b with scopes := b.scopes.enter } := ⟨hord.neat, hord.standing.enter⟩
  have hord1 := ((meets_defineParameters hord0 hsub).post _ _ hpars).orderly
  have hcov2 : stage.Covers b2 := by
    rcases finish_cases hfin with ⟨_, rfl⟩ | ⟨_, rfl⟩
    · exact ⟨hcov.code, hcov.temps, hcov.parameters, hcov.decls⟩
    · have hcov := hcov.of_emit
      exact ⟨hcov.code, hcov.temps, hcov.parameters, hcov.decls⟩
  rw [runFunction, ← hsite]
  cases hbind : bindParameters env 0 source.parameters with
  | none => trivial
  | some env' =>
    have hcnt := length_lt_of_bindParameters hbind (by decide)
    rw [Nat.zero_add] at hcnt
    have hvld : ValidNames env := henv ▸ hord.standing.validNames
    obtain ⟨henv1, hcode1, hvars1⟩ := find?_defineParameters hpars hvld henv hbind
    have hat1 : stage.At clean b1 store s := ⟨hat.toShows, by rw [hcode1]; exact hat.position⟩
    have hfol := @follows_writeStatement _ _ _ fuel (hkno hcnt) _ _ b b _ _ _ _ _ _ hbody
      hord1 hcov2 ⟨nofun, nofun⟩ henv1 hat1
    rw [Site.execute, hvars1, show _ = number from hnum] at hfol
    dsimp only
    cases hout : stage.site.executeBlock fuel env' number source.body store with
    | normal store' =>
      rw [hout] at hfol
      obtain ⟨s2, hcom, hat2⟩ := hfol
      rcases finish_cases hfin with ⟨_, rfl⟩ | ⟨_, rfl⟩
      · have hpos : s.position < stage.n := by
          rw [hat.position, hn, hempty]
          exact Nat.add_lt_add_left (size_pos_of_back? hlast) _
        have hins := hcom.position_lt (hcov.ended hn hlast) hpos
        rw [hat2.position, hn] at hins
        exact absurd hins (Nat.lt_irrefl _)
      · cases hret : source.returns
        · rw [hret] at hcov
          exact ⟨s2, hcom.returns (returns_return hcov hat2.position rfl), hat2.toShows⟩
        · rw [hret] at hcov
          exact ⟨s2, hcom.returns (returns_return hcov hat2.position rfl), hat2.toShows⟩
    | broke store' =>
      rw [hout] at hfol
      exact absurd rfl hfol.1
    | continued store' =>
      rw [hout] at hfol
      exact absurd rfl hfol.1
    | returned value store' =>
      rw [hout] at hfol
      exact hfol
    | undefined => trivial
    | outOfFuel =>
      rw [hout] at hfol
      exact hfol

end Stage

/-! ## Functions -/

/-- A lawful function of a program whose variables are numbered from `number` on. -/
structure Situated (signatures : Signatures) (globals : List Decl) (source : Tree.Function)
    (number : Nat) (f : Eeyore.Function) : Prop where
  law : FunctionLaw signatures globals source f
  kinds : ∀ d ∈ globals, d.symbol.kind = .variable
  labels : (setLabels f.body.toList).Nodup
  distinct : (declaredVars globals ++ declaredVars f.decls).Nodup
  vars : ∀ i : UInt32, Declared f.decls (.var i) ↔
    number ≤ i.toNat ∧ i.toNat < number + source.body.variables

namespace Situated

theorem declaration?_eq_some (h : Situated signatures globals source number f)
    (hd : d ∈ globals ++ f.decls) : declaration? globals f d.symbol = some d := by
  have hkind : d.symbol.kind ≠ .parameter := by
    rcases List.mem_append.1 hd with hd | hd
    · rw [h.kinds d hd]
      nofun
    · exact h.law.kinds.2 d hd
  have hmem : d ∈ slotDecls f ++ globals := by
    rw [List.mem_append, mem_slotDecls]
    exact (List.mem_append.1 hd).elim .inr fun hd => .inl (.inr hd)
  obtain ⟨e, he⟩ : ∃ e, (slotDecls f ++ globals).find? (·.symbol = d.symbol) = some e :=
    Option.isSome_iff_exists.1 (List.find?_isSome.2 ⟨d, hmem, decide_eq_true rfl⟩)
  rw [declaration?, he]
  have hsym : e.symbol = d.symbol := by simpa using List.find?_some he
  have hmem' : e ∈ globals ++ f.decls := by
    have hmem := List.mem_of_find?_eq_some he
    rw [List.mem_append, mem_slotDecls] at hmem
    rw [List.mem_append]
    rcases hmem with (⟨id, _, rfl⟩ | hmem) | hmem
    · exact absurd (congrArg Symbol.kind hsym).symm hkind
    · exact .inr hmem
    · exact .inl hmem
  exact congrArg some (List.inj_on_of_nodup_map (h.law.nodup h.kinds h.distinct) hmem' hd hsym)

theorem array?_eq_none (h : Situated signatures globals source number f)
    (hx : x.kind ≠ .variable) : world.array? globals f x = none := by
  rw [World.array?, Option.map_eq_none_iff, Option.bind_eq_none_iff]
  intro d hd
  have hmem := List.mem_of_find?_eq_some hd
  have hsym : d.symbol = x := by simpa using List.find?_some hd
  rw [List.mem_append, mem_slotDecls] at hmem
  rcases hmem with (⟨id, _, rfl⟩ | hmem) | hmem
  · rfl
  · obtain ⟨t, v, v', _, _, hdcl⟩ := h.law.declared
    rcases hdcl.known d hmem with ⟨i, rfl, _⟩ | ⟨i, size, rfl, _⟩
    · rfl
    · exact absurd (congrArg Symbol.kind hsym).symm hx
  · exact absurd (hsym ▸ h.kinds d hmem) hx

theorem isLocal_eq (h : Situated signatures globals source number f) (hx : x.isTemp = false) :
    (world.activation globals f).isLocal x = ownVariables source number x := by
  have hloc : (world.activation globals f).isLocal x = true ↔
      ∃ d ∈ slotDecls f, d.symbol = x := by
    simp [World.activation]
  rw [Bool.eq_iff_iff, hloc]
  obtain ⟨kind, i⟩ := x
  cases kind with
  | temporary => cases hx
  | parameter =>
    simp only [ownVariables, ← h.law.parameters, decide_eq_true_eq, UInt32.lt_iff_toNat_lt]
    constructor
    · rintro ⟨d, hd, hsym⟩
      rcases mem_slotDecls.1 hd with ⟨id, hid, rfl⟩ | hd
      · cases hsym
        have := f.parameters.toNat_lt
        rw [UInt32.toNat_ofNat']
        omega
      · exact absurd (congrArg Symbol.kind hsym) (h.law.kinds.2 d hd)
    · intro hi
      exact ⟨_, mem_slotDecls.2 (.inl ⟨i.toNat, hi, rfl⟩), by rw [UInt32.ofNat_toNat]; rfl⟩
  | «variable» =>
    simp only [ownVariables, Bool.and_eq_true, decide_eq_true_eq]
    rw [← h.vars i]
    constructor
    · rintro ⟨d, hd, hsym⟩
      rcases mem_slotDecls.1 hd with ⟨id, hid, rfl⟩ | hd
      · cases hsym
      · exact ⟨d.size, by rw [← show d.symbol = .var i from hsym]; exact hd⟩
    · rintro ⟨size, hd⟩
      exact ⟨_, mem_slotDecls.2 (.inr hd), rfl⟩

end Situated

/-- The stage on which a function runs; what is behind `base` is the code of its statements. -/
def Situated.stage (h : Situated signatures globals source number f) (world : World) (base : Nat) :
    Stage where
  n := f.body.size
  body := f.body.toVector
  base := base
  act := world.activation globals f
  site := ⟨world, ownVariables source number⟩
  unique := get_label_unique h.labels
  own _ hx := h.isLocal_eq hx
  own_temps x hx := by
    obtain ⟨kind, i⟩ := x
    cases kind <;> first | rfl | cases hx
  temps x hx := h.array?_eq_none (by rintro hkind; simp [Symbol.isTemp, hkind] at hx)
  parameters x hx := h.array?_eq_none (by rw [hx]; nofun)
  reply := rfl
  keeps := rfl
  others _ hr := List.mem_append_left _ hr

theorem Situated.array?_eq (h : Situated signatures globals source number f)
    (hd : d ∈ globals ++ f.decls) : (world.activation globals f).array? d.symbol =
      d.size.map fun size => ⟨world.place d.symbol, 4 * size.toNat⟩ := by
  show ((declaration? globals f d.symbol).bind (·.size)).map _ = _
  rw [h.declaration?_eq_some hd]
  rfl

theorem Situated.knows (h : Situated signatures globals source number f) (base : Nat)
    (hcnt : source.parameters.length < wordValues) :
    (h.stage world base).Knows (globals ++ parameterDecls 0 source.parameters) := by
  refine ⟨fun d hd hkind => ?_, fun d hd hkind => ?_⟩ <;> rcases List.mem_append.1 hd with hd | hd
  · cases hkind.symm.trans (h.kinds d hd)
  · obtain ⟨k, _, hk, hd⟩ := mem_parameterDecls hd
    rw [hd]
    unfold wordValues at hcnt
    refine decide_eq_true (UInt32.lt_iff_toNat_lt.2 ?_)
    show (UInt32.ofNat k).toNat < _
    simp only [UInt32.toNat_ofNat']
    omega
  · exact h.array?_eq (List.mem_append_left _ hd)
  · cases hkind.symm.trans (h.law.kinds.1 d hd)

theorem Situated.covers (h : Situated signatures globals source number f)
    (hbody : f.body.toList = front ++ b.code.body.toList) (hdecls : b.code.decls.toList ⊆ f.decls)
    (htemps : ∀ i : UInt32, i.toNat < b.code.temps.toNat → ⟨.temp i, none⟩ ∈ b.code.decls.toList) :
    (h.stage world front.length).Covers b := by
  have hloc : ∀ d ∈ b.code.decls.toList,
      (world.activation globals f).isLocal d.symbol = true := fun d hd =>
    List.any_eq_true.2 ⟨d, mem_slotDecls.2 (.inr (hdecls hd)), decide_eq_true rfl⟩
  refine ⟨fun i instruction hi => ?_, fun i hi => hloc _ (htemps i hi), fun d hd _ => hloc d hd,
    fun d hd => h.array?_eq (List.mem_append_right _ (hdecls hd))⟩
  have hget : f.body.toList[front.length + i]? = some instruction := by
    rw [hbody, List.getElem?_append_right (Nat.le_add_right _ _), Nat.add_sub_cancel_left, hi]
  obtain ⟨hlt, hget⟩ := List.getElem?_eq_some_iff.1 hget
  exact ⟨⟨front.length + i, hlt⟩, rfl, hget⟩

theorem Situated.ends {g : Eeyore.Function} (h : Situated signatures globals source number f)
    (hb : Builds (writeFunction signatures source) b g b')
    (hst : Standing globals { b with code := .empty }) (hnum : b.nextVar.toNat = number)
    (henv : b.scopes.find? = env) (hbody : f.body.toList = front ++ g.body.toList)
    (hdecls : g.decls ⊆ f.decls) (hpos : s.position = front.length) (hshows : Shows clean store s) :
    (h.stage world front.length).Ends fuel s (runFunction world env number source fuel store) := by
  obtain ⟨_, _, _, _, _, hdcl⟩ := law_writeFunction hb hst
  obtain ⟨hw, rfl⟩ := builds_writeFunction hb
  have hcov : (h.stage world front.length).Covers b' :=
    h.covers hbody hdecls fun i hi => hdcl.temps i (Nat.zero_le _) hi
  have hn : f.body.size = front.length + b'.code.body.size := by
    simpa using congrArg List.length hbody
  exact Stage.ends_writeBody hw (h.knows front.length) rfl
    (orderly_empty source.parameters hst) (by simp [Builder.known]) hcov hn hnum rfl henv
    ⟨hshows, hpos⟩

/-! ## Equivalence -/

/-- What a state shows to the source. -/
def shown (s : State) : Store where
  scalars x := if x.isTemp then none else s.scalars x
  memory := s.memory
  calls := callsOf s.events

theorem shown_eq_of_shows (h : Shows clean store s) : shown s = store := by
  obtain ⟨scalars, memory, calls⟩ := store
  have hscalars : (shown s).scalars = scalars := by
    funext x
    cases hx : x.isTemp
    · simpa [shown, hx] using h.scalars x hx
    · simpa [shown, hx] using (h.temps x hx).symm
  have hmemo : (shown s).memory = memory := funext fun a => h.memory a id
  have hcalls : (shown s).calls = calls := h.calls
  rw [← hscalars, ← hmemo, ← hcalls]

theorem shows_shown (s : State) (hcnt : s.calls = (callsOf s.events).length) :
    Shows clean (shown s) s :=
  ⟨fun x hx => by simp [shown, hx], fun x hx => by simp [shown, hx], fun _ _ => rfl, hcnt, rfl⟩

theorem Stage.returns_iff {stage : Stage} {outcome : Nat → Structured.Outcome}
    (hends : ∀ fuel, stage.Ends fuel s (outcome fuel)) (hdfd : ∀ fuel, outcome fuel ≠ .undefined)
    (value : Option Int32) (final : Store) :
    (∃ t, Returns stage.act stage.body s value t ∧ shown t = final) ↔
      ∃ fuel, outcome fuel = .returned value final := by
  constructor
  · rintro ⟨t, hret, rfl⟩
    obtain ⟨fuel, hlasts⟩ := hret.exists_not_lasts
    have hend := hends fuel
    refine ⟨fuel, ?_⟩
    cases hout : outcome fuel with
    | returned value' store' =>
      rw [hout] at hend
      obtain ⟨t', hret', hshows⟩ := hend
      obtain ⟨rfl, rfl⟩ := hret.unique hret'
      rw [shown_eq_of_shows hshows]
    | undefined => exact absurd hout (hdfd fuel)
    | outOfFuel =>
      rw [hout] at hend
      exact absurd hend hlasts
    | normal store' | broke store' | continued store' =>
      rw [hout] at hend
      exact hend.elim
  · rintro ⟨fuel, hout⟩
    have hend := hends fuel
    rw [hout] at hend
    obtain ⟨t, hret, hshows⟩ := hend
    exact ⟨t, hret, shown_eq_of_shows hshows⟩

end SysY.Generation

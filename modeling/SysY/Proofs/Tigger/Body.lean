import SysY.Proofs.Tigger.Calls

/-!
# Steps of three-address code in register code

The code of a body is the code of its instructions, one after the other. A step of three-address
code is a number of steps of register code, from the code of one position to that of another; the
number is not zero if the step does not just go on.
-/

namespace SysY.Tigger

open Eeyore (Activation Decl Value)
open SysY.Flow Allocation Eeyore.Activation Context

variable {n k : Nat} {globals : List Decl} {ctx : Context n k}
  {regs : Vector (Option Register) k} {place : Object k → Option UInt32} {act : Activation}
  {setting : Setting} {entry : Register → Int32} {s s' : Eeyore.State} {t : State} {q : Fin n}
  {target : Label} {result : Option Int32}

/-! ## Positions -/

/-- The code of the instructions of a body, position by position. -/
def CodesOf (ctx : Context n k) (codes : List (List Instruction)) : Prop :=
  codes.length = n ∧ ∀ (p : Fin n) code, codes[p.val]? = some code →
    ctx.lowerInstruction p = .ok code

theorem CodesOf.getElem? {codes : List (List Instruction)} (h : CodesOf ctx codes) {p : Fin n}
    {code : List Instruction} (hdef : (ctx.body.get p).definition = none)
    (hcode : ctx.lowerLive p = .ok code) : codes[p.val]? = some code := by
  have hlt : p.val < codes.length := h.1 ▸ p.isLt
  have hlow := h.2 p _ (List.getElem?_eq_getElem hlt)
  have huse : ctx.isUseless p = false := by simp [isUseless, hdef]
  simp only [lowerInstruction, huse, Bool.false_eq_true, if_false, hcode] at hlow
  rw [List.getElem?_eq_getElem hlt, ← Except.ok.inj hlow]

theorem labelPosition?_code {first : List Instruction} {codes : List (List Instruction)}
    (hcodes : CodesOf ctx codes) {label : Label}
    (hq : Flow.labelPosition? ctx.body label = some q) :
    setting.machine.labelPosition? (first ++ codes.flatten) label =
      some (startOf first codes q) := by
  obtain ⟨hlab, hlast⟩ := Flow.labelPosition?_eq_some.1 hq
  have hcode : codes[q.val]? = some [.label label] :=
    hcodes.getElem? (by rw [hlab]; rfl) (by rw [lowerLive, hlab])
  have hsets : setting.machine.label? (.label label) = some label := rfl
  refine Machine.labelPosition?_blocks hcode hsets (List.forall_mem_nil _)
    fun p code hp hcode' i hi hset => ?_
  obtain rfl : i = .label label := by
    cases i <;> cases hset
    rfl
  have hlt : p < n := hcodes.1 ▸ (List.getElem?_eq_some_iff.1 hcode').1
  have hset := eq_label_of_mem (hcodes.2 ⟨p, hlt⟩ code hcode') hi
  exact hlast ⟨p, hlt⟩ hp hset

/-! ## Instructions after which control goes on -/

variable {p : Fin n}

theorem Matches.edge (hp : Prepared ctx regs place)
    (h : Matches globals ctx place act setting [] p entry s t)
    (hdef : (ctx.body.get p).definition = none) {q : Nat}
    (hq : ∀ q' : Fin n, q'.val = q → q' ∈ targets ctx.body p) :
    Matches globals ctx place act setting [] q entry s t := by
  refine ⟨fun slot home v hlive hbut hhome hv => ?_, h.kept⟩
  have hlive' : ctx.Live p slot :=
    hp.live_of_target (q := ⟨q, hlive.1⟩) hlive (hq ⟨q, hlive.1⟩ rfl) (by simp [hdef])
  exact h.homes slot home v hlive' hbut hhome hv

theorem implements_lowerInstruction (hp : Prepared ctx regs place)
    (hg : Grounds globals ctx place act setting) (hd : Declared globals ctx)
    (h : Matches globals ctx place act setting [] p entry s t)
    (htgt : (ctx.body.get p).target? = none) (hret : ∀ value, ctx.body.get p ≠ .return value)
    (heff : act.effect s (ctx.body.get p) = some s') {code : List Instruction}
    (hcode : ctx.lowerInstruction p = .ok code) :
    Implements globals ctx place act setting (p + 1) entry s' t code := by
  have hjump : ∀ l, ctx.body.get p ≠ .jump l := fun l hl => by
    rw [hl] at htgt
    cases htgt
  unfold lowerInstruction at hcode
  split at hcode
  · rename_i huse
    cases hcode
    simp only [isUseless, Bool.and_eq_true, Bool.not_eq_true', Option.any_eq_true] at huse
    obtain ⟨hcall, dest, hdef, hdead⟩ := huse
    rcases effect_cases heff with ⟨x, v, s1, hx, hasg, hs1⟩ | ⟨hnone, -⟩
    · obtain rfl : x = dest := Option.some.inj (hx.symm.trans hdef)
      rcases hs1 with ⟨rfl, -⟩ | ⟨hcall', -⟩
      · refine ⟨t, rfl, matches_of_dead hp hg ?_ h.kept hjump hdead hasg⟩
        exact hdef ▸ h.homes_next hp hjump
      · rw [hcall] at hcall'
        cases hcall'
    · rw [hdef] at hnone
      cases hnone
  · rename_i huse
    have hdead : ∀ dest, (ctx.body.get p).isCall = false →
        (ctx.body.get p).definition = some dest → ctx.isDeadAfter p dest = false := by
      intro dest hcall hdef
      simpa [isUseless, hcall, hdef] using huse
    unfold lowerLive at hcode
    split at hcode
    · rename_i dest op operand hi
      exact implements_lowerUnary hp hg hd h heff hi
        (hdead dest (by rw [hi]; rfl) (by rw [hi]; rfl)) hcode
    · rename_i dest op left right hi
      exact implements_lowerBinary hp hg hd h heff hi
        (hdead dest (by rw [hi]; rfl) (by rw [hi]; rfl)) hcode
    · rename_i dest value hi
      exact implements_lowerCopy hp hg hd h heff hi
        (hdead dest (by rw [hi]; rfl) (by rw [hi]; rfl)) hcode
    · rename_i array index value hi
      cases hcode
      exact implements_lowerStore hp hg hd h heff hi
    · rename_i dest array index hi
      exact implements_lowerLoad hp hg hd h heff hi
        (hdead dest (by rw [hi]; rfl) (by rw [hi]; rfl)) hcode
    · rename_i left relation right target hi
      rw [hi] at htgt
      cases htgt
    · rename_i target hi
      exact absurd hi (hjump target)
    · rename_i l hi
      cases hcode
      rw [hi] at heff
      cases heff
      refine ⟨t, rfl, h.edge hp (by rw [hi]; rfl) fun q hq => mem_targets.2 (.inr ⟨hjump, hq⟩)⟩
    · rename_i function arguments output hi
      exact implements_lowerCall hp hg hd h hi heff hcode
    · rename_i value hi
      exact absurd hi (hret value)

/-! ## Jumps and returns -/

variable {first : List Instruction} {codes : List (List Instruction)}

theorem run_jump (hp : Prepared ctx regs place) (hcodes : CodesOf ctx codes)
    (h : Matches globals ctx place act setting [] p entry s t) (hi : ctx.body.get p = .jump target)
    (hq : labelPosition? ctx.body target = some q) :
    setting.machine.run (first ++ codes.flatten) 1 (startOf first codes p) t =
        .running (startOf first codes q) t ∧
      Matches globals ctx place act setting [] q entry s t := by
  have hdef : (ctx.body.get p).definition = none := by rw [hi]; rfl
  have hcode : codes[p.val]? = some [.jump target] :=
    hcodes.getElem? hdef (by rw [lowerLive, hi])
  refine ⟨?_, h.edge hp hdef fun q' hq' => mem_targets.2 (.inl ⟨target, by rw [hi]; rfl, ?_⟩)⟩
  · rw [Machine.run, Machine.step_jump (blockAt_startOf hcode).head rfl rfl
      (labelPosition?_code hcodes hq)]
    rfl
  · rw [hq, Fin.ext hq']

theorem Matches.at {p : Nat} (h : Matches globals ctx place act setting [] p entry s t) (q : Nat) :
    Matches globals ctx place act setting [] p entry { s with position := q } t :=
  ⟨h.homes, h.kept.memory, h.kept.globals, h.kept.saved, h.kept.unsaved, h.kept.calls, h.kept.events⟩

variable (hp : Prepared ctx regs place) (hg : Grounds globals ctx place act setting)
  (hd : Declared globals ctx) (hcodes : CodesOf ctx codes)
include hp hg hd hcodes

theorem run_branch (h : Matches globals ctx place act setting [] p entry s t) {left right : Value}
    {relation : Relation} (hi : ctx.body.get p = .branch left relation right target) {a b : Int32}
    (ha : act.value s left = some a) (hb : act.value s right = some b) {q : Nat}
    (hq : relation.holds a b = true ∧ (∃ q', labelPosition? ctx.body target = some q' ∧ q = q'.val) ∨
      relation.holds a b = false ∧ q = p.val + 1) :
    ∃ m t', setting.machine.run (first ++ codes.flatten) m (startOf first codes p) t =
        .running (startOf first codes q) t' ∧
      Matches globals ctx place act setting [] q entry s t' ∧ 0 < m := by
  have hdef : (ctx.body.get p).definition = none := by rw [hi]; rfl
  have hcode : codes[p.val]? = some ((ctx.read left .t0).1 ++ (ctx.read right .t1).1 ++
      [.branch (ctx.read left .t0).2 relation (ctx.read right .t1).2 target]) :=
    hcodes.getElem? hdef (by simp only [lowerLive, hi, lowerBranch_eq])
  have huse : ∀ x, left.symbol? = some x ∨ right.symbol? = some x → x ∈ (ctx.body.get p).uses := by
    intro x hx
    rw [hi]
    simpa [Eeyore.Instruction.uses] using hx
  obtain ⟨t1, hexec, hval1, hval2, honly⟩ := Brings.second
    (brings_read hp hg h (readable_of_operand hp hd fun x hx => huse x (.inl hx)) ha (.refl _ t) .t0
      (by decide))
    fun t1 honly => brings_read hp hg h (readable_of_operand hp hd fun x hx => huse x (.inr hx)) hb
      honly .t1 (by decide)
  have hmat : Matches globals ctx place act setting [] q entry s t1 := by
    refine Matches.edge hp (h.scratch hp restorable_nil honly) hdef fun q' hq' => mem_targets.2 ?_
    rcases hq with ⟨-, r, hr, rfl⟩ | ⟨-, rfl⟩
    · exact .inl ⟨target, by rw [hi]; rfl, by rw [hr, Fin.ext hq']⟩
    · exact .inr ⟨by simp [hi], hq'⟩
  rcases hq with ⟨hholds, r, hr, rfl⟩ | ⟨hholds, rfl⟩
  · have hcrs : setting.machine.course t1
        (.branch (ctx.read left .t0).2 relation (ctx.read right .t1).2 target) = .jump target := by
      show (if _ then _ else _) = _
      rw [hval1, hval2, if_pos hholds]
    exact ⟨_, t1, Machine.run_block_jump (blockAt_startOf hcode) hexec rfl hcrs
      (labelPosition?_code hcodes hr), hmat, Nat.succ_pos _⟩
  · have hpass : setting.machine.pass t1
        (.branch (ctx.read left .t0).2 relation (ctx.read right .t1).2 target) = some t1 := by
      have hcrs : setting.machine.course t1
          (.branch (ctx.read left .t0).2 relation (ctx.read right .t1).2 target) = .next := by
        show (if _ then _ else _) = _
        rw [hval1, hval2, if_neg (by simp [hholds])]
      rw [Machine.pass, hcrs]
      rfl
    exact ⟨_, t1, Machine.run_startOf hcode (by rw [Machine.exec_append_of_exec hexec]; simp [hpass]),
      hmat, by simp only [List.length_append, List.length_singleton]; omega⟩

theorem run_return (h : Matches globals ctx place act setting [] p entry s t) {value : Option Value}
    (hi : ctx.body.get p = .return value)
    (hres : act.direction s (.return value) = some (.return result)) :
    ∃ m t', setting.machine.run (first ++ codes.flatten) m (startOf first codes p) t =
        .returned t' ∧
      Kept globals ctx place act setting entry s t' ∧
      (∀ v, result = some v → t'.value .a0 = v) ∧
      ∀ r, r.isSaved = true → t'.value r = entry r := by
  have hcode : codes[p.val]? = some (ctx.readResult value ++ restoring ctx.frame.saved ++
      [.return]) :=
    hcodes.getElem? (by rw [hi]; rfl) (by simp only [lowerLive, hi, lowerReturn_eq])
  have hread : ∃ t1, setting.machine.exec (ctx.readResult value) t = some t1 ∧
      Only [.a0] t t1 ∧ ∀ v, result = some v → t1.value .a0 = v := by
    cases value with
    | none =>
      cases hres
      exact ⟨t, rfl, .refl _ t, by simp⟩
    | some value =>
      obtain ⟨v, hv, hres⟩ := Option.bind_eq_some_iff.1 hres
      cases hres
      have hx : ∀ x, value = .symbol x → Readable globals ctx p x :=
        readable_of_operand hp hd (by simp [hi, Eeyore.Instruction.uses])
      have ha0 : Register.a0 ≠ .zero := by decide
      obtain ⟨t1, hexec, hval, honly⟩ := exec_readInto hp hg h hx hv ha0
      exact ⟨t1, hexec, honly, fun w hw => by cases hw; exact hval⟩
  obtain ⟨t1, hexec1, honly1, hval1⟩ := hread
  have hsav : ∀ r ∈ ctx.frame.saved.map (·.1), r.isSaved = true := by
    intro r hr
    obtain ⟨⟨x, a⟩, hx, rfl⟩ := List.mem_map.1 hr
    exact (hp.layout.saved x a hx).1
  obtain ⟨t2, hexec2, honly2, hvals2⟩ := exec_restoring setting ctx.frame.saved
    (fun r a hr heq => by
      have := (hp.layout.saved r a hr).1
      rw [heq] at this
      cases this)
    (fun r a b ha hb => Option.some.inj
      ((hp.layout.saved r a ha).2.symm.trans (hp.layout.saved r b hb).2)) t1
  have hkept : Kept globals ctx place act setting entry s t2 := by
    refine (h.kept.only honly1 fun r hr hsav => ?_).only honly2 fun r hr _ => ?_
    · obtain rfl := List.mem_singleton.1 hr
      cases hsav
    · obtain ⟨⟨x, a⟩, hx, rfl⟩ := List.mem_map.1 hr
      exact ⟨a, hx⟩
  refine ⟨_, t2, Machine.run_block_leave (blockAt_startOf hcode)
    (by rw [Machine.exec_append_of_exec hexec1, hexec2]) rfl rfl, hkept, fun v hv => ?_,
    fun r hr => ?_⟩
  · have ha0 : Register.a0 ∉ ctx.frame.saved.map (·.1) := fun hmem => by cases hsav _ hmem
    rw [honly2.value .a0 ha0, hval1 v hv]
  · by_cases hmem : ∃ a, (r, a) ∈ ctx.frame.saved
    · obtain ⟨a, ha⟩ := hmem
      rw [hvals2 r a ha, honly1.memory, h.kept.saved r a ha]
    · exact hkept.unsaved r hr fun a ha => hmem ⟨a, ha⟩

/-! ## Steps -/

theorem run_of_step_running (h : Matches globals ctx place act setting [] s.position entry s t)
    (hstep : act.step ctx.body s = ⟨.running, s'⟩) :
    ∃ m t', setting.machine.run (first ++ codes.flatten) m (startOf first codes s.position) t =
        .running (startOf first codes s'.position) t' ∧
      Matches globals ctx place act setting [] s'.position entry s' t' ∧
      (0 < m ∨ s'.position = s.position + 1) := by
  obtain ⟨p, hpos, s1, direction, heff, hdirection, hfol⟩ :=
    step_eq hstep (by simp)
  obtain ⟨q, rfl, hq⟩ := follow_running hfol
  have hpos1 := position_of_effect heff
  rw [hpos] at h hpos1 ⊢
  rw [hpos1] at hq
  rcases direction_cases hdirection with
    ⟨left, relation, right, target, a, b, hi, ha, hb, hdir⟩ | ⟨target, hi, hdir⟩ |
    ⟨value, result, hi, hdir⟩ | ⟨htgt, hret, hdir⟩
  · rw [hi] at heff
    cases heff
    have hq' : relation.holds a b = true ∧
        (∃ q', labelPosition? ctx.body target = some q' ∧ q = q'.val) ∨
          relation.holds a b = false ∧ q = p.val + 1 := by
      cases hholds : relation.holds a b with
      | true =>
        simp only [hholds, if_true] at hdir
        rcases hq with ⟨hnxt, -⟩ | ⟨label, r, hlab, hr, hqr⟩
        · cases hdir.symm.trans hnxt
        · cases hdir.symm.trans hlab
          exact .inl ⟨rfl, r, hr, hqr⟩
      | false =>
        simp only [hholds, Bool.false_eq_true, if_false] at hdir
        rcases hq with ⟨-, hqp⟩ | ⟨label, r, hlab, -⟩
        · exact .inr ⟨rfl, hqp⟩
        · cases hdir.symm.trans hlab
    obtain ⟨m, t', hrun, hmat, hm⟩ := run_branch hp hg hd hcodes h hi ha hb hq'
    exact ⟨m, t', hrun, hmat.at q, .inl hm⟩
  · rw [hi] at heff
    cases heff
    rcases hq with ⟨hnxt, -⟩ | ⟨label, r, hlab, hr, rfl⟩
    · cases hdir.symm.trans hnxt
    · cases hdir.symm.trans hlab
      obtain ⟨hrun, hmat⟩ := run_jump hp hcodes h hi hr
      exact ⟨1, t, hrun, hmat.at r, .inl Nat.one_pos⟩
  · rcases hq with ⟨hnxt, -⟩ | ⟨label, r, hlab, -⟩
    · cases hdir.symm.trans hnxt
    · cases hdir.symm.trans hlab
  · rcases hq with ⟨-, rfl⟩ | ⟨label, r, hlab, -⟩
    · have hlt : p.val < codes.length := hcodes.1 ▸ p.isLt
      have hcode := List.getElem?_eq_getElem hlt
      obtain ⟨t', hexec, hmat⟩ := implements_lowerInstruction hp hg hd h htgt hret heff
        (hcodes.2 p _ hcode)
      exact ⟨_, t', Machine.run_startOf hcode hexec, hmat.at _, .inr rfl⟩
    · cases hdir.symm.trans hlab

theorem run_of_step_returned (h : Matches globals ctx place act setting [] s.position entry s t) (hstep : act.step ctx.body s = ⟨.returned result, s'⟩) :
    ∃ m t', setting.machine.run (first ++ codes.flatten) m (startOf first codes s.position) t =
        .returned t' ∧
      Kept globals ctx place act setting entry s' t' ∧
      (∀ v, result = some v → t'.value .a0 = v) ∧
      ∀ r, r.isSaved = true → t'.value r = entry r := by
  obtain ⟨p, hpos, s1, direction, heff, hdirection, hfol⟩ :=
    step_eq hstep (by simp)
  cases direction with
  | next => cases hfol
  | goto label =>
    cases hlab : labelPosition? ctx.body label <;> simp [follow, hlab] at hfol
  | «return» value =>
    cases hfol
    rcases direction_cases hdirection with
      ⟨_, _, _, _, _, _, _, _, _, hdir⟩ | ⟨_, _, hdir⟩ | ⟨operand, result, hi, -⟩ | ⟨_, _, hdir⟩
    · split at hdir <;> cases hdir
    · cases hdir
    · rw [hi] at heff hdirection
      cases heff
      rw [hpos] at h ⊢
      exact run_return hp hg hd hcodes h hi hdirection
    · cases hdir

end SysY.Tigger

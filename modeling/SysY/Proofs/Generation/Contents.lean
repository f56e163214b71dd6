import SysY.Proofs.Generation.Addressing
import SysY.Proofs.Generation.Agreement
import SysY.Proofs.Generation.Initialization

/-!
# The contents of definitions

The code of a definition evaluates the expressions of its initializer in the order of the elements.
In between nothing changes but the object that is defined and temporaries that are not in use yet. At
the end each element has the word of its expression, or zero if it has none, whatever was there before.
Only global memory has to be zero from the beginning.
-/

namespace SysY.Generation

open Eeyore Eeyore.Activation Option
open Tree (Definition Expr Formula Initializer)

variable {act : Activation} {signatures : Signatures} {b b' b₁ b₂ c : Builder} {s s' t u : State}
  {symbol : Symbol} {array : Region} {start : UInt32} {memory memory' : Memory} {words : List Int32}
  {x : Value} {v : Int32} {outcome : Option (List (Int32 × State) × State)} {expr : Expr}

/-! ## Words -/

/-- The words of an array, from its beginning on. -/
def Words (start : UInt32) (memory : Memory) (words : List Int32) : Prop :=
  ∀ j v, words[j]? = some v → memory.word (start + .ofNat (4 * j)) = v

theorem Words.append {more : List Int32} (h : Words start memory words)
    (hsm : 4 * (words.length + more.length) < 4294967296)
    (hsame : ∀ a, (a - start).toNat < 4 * words.length → memory' a = memory a)
    (hmore : ∀ j v, more[j]? = some v →
      memory'.word (start + .ofNat (4 * (words.length + j))) = v) :
    Words start memory' (words ++ more) := by
  intro j v hj
  rcases Nat.lt_or_ge j words.length with hlt | hge
  · rw [List.getElem?_append_left hlt] at hj
    rw [← h j v hj]
    refine Memory.word_congr fun k hk => hsame _ ?_
    rw [UInt32.add_assoc, Memory.toNat_add_sub_self, UInt32.toNat_add, UInt32.toNat_ofNat']
    omega
  · rw [List.getElem?_append_right hge] at hj
    have := hmore _ v hj
    rwa [Nat.add_sub_cancel' hge] at this

/-! ## Between expressions -/

/-- Only a variable or the array that it names, and temporaries that are not in use yet change. -/
structure Touches (act : Activation) (symbol : Symbol) (b : Builder) (s t : State) : Prop where
  scalars : ∀ x, x.isTemp = false → x ≠ symbol → t.scalars x = s.scalars x
  temps : ∀ i : UInt32, i.toNat < b.code.temps.toNat → t.scalars (.temp i) = s.scalars (.temp i)
  memory : ∀ a, (act.array? symbol).any (·.contains a) = false → t.memory a = s.memory a
  count : t.calls = s.calls
  calls : callsOf t.events = callsOf s.events

theorem Touches.refl (act : Activation) (symbol : Symbol) (b : Builder) (s : State) :
    Touches act symbol b s s :=
  ⟨fun _ _ _ => rfl, fun _ _ => rfl, fun _ _ => rfl, rfl, rfl⟩

theorem Touches.trans (h : Touches act symbol c s t) (h' : Touches act symbol b t u)
    (hle : c.code.temps.toNat ≤ b.code.temps.toNat) : Touches act symbol c s u where
  scalars x hx hne := (h'.scalars x hx hne).trans (h.scalars x hx hne)
  temps i hi := (h'.temps i (Nat.lt_of_lt_of_le hi hle)).trans (h.temps i hi)
  memory a ha := (h'.memory a ha).trans (h.memory a ha)
  count := h'.count.trans h.count
  calls := h'.calls.trans h.calls

theorem Stage.Spares.touches (h : Stage.Spares b s t)
    (hmemo : ∀ a, (act.array? symbol).any (·.contains a) = false → t.memory a = s.memory a) :
    Touches act symbol b s t :=
  ⟨fun x hx _ => h.scalars x hx, h.temps, hmemo, h.count, h.calls⟩

/-- The expressions of the elements, in order. -/
def slots (cells : List Cell) : List (Option (Formula × Location)) :=
  (cells.flatMap Cell.expand).map (Option.map fun expr => (expr.formula, expr.location))

theorem Evaluated.gaps {between : Builder → State → State → Prop}
    {list : List (Option (Formula × Location))}
    (h : Evaluated act signatures between b s list outcome) (count : Nat) :
    Evaluated act signatures between b s (List.replicate count none ++ list)
      (outcome.map fun r => (List.replicate count (0, s) ++ r.1, r.2)) := by
  induction count with
  | zero => simpa using h
  | succ count ih =>
    have := ih.gap
    rwa [map_map] at this

/-- How the code of an initializer ends: it gets stuck, or the words that were found are where they
should be. -/
def Fills {n : Nat} (act : Activation) (body : Vector Instruction n) (position : Nat)
    (holds : List Int32 → State → Prop) (s : State) (words : List Int32) :
    Option (List (Int32 × State) × State) → Prop
  | none => Sticks act body s
  | some (found, t) => Comes act body s t ∧ t.position = position ∧
    holds (words ++ found.map Prod.fst) t

namespace Stage

variable {stage : Stage} {target : Target} {progress p : Progress}

theorem Covers.owns (h : stage.Covers b) : OwnsTemps stage.act b.code.temps.toNat :=
  fun i hi => ⟨h.temps i hi, stage.temps _ rfl⟩

theorem Covers.hosts (h : stage.Covers b') (hgr : Grows b b') :
    Hosts stage.body (stage.base + b.code.body.size) (written b b') := by
  intro k
  obtain ⟨p, hp, hget⟩ := h.code (b.code.body.size + k) ((written b b').get k) (by
    rw [hgr.append_written, ← Array.length_toList, List.getElem?_append_right (Nat.le_add_right _ _),
      Nat.add_sub_cancel_left]
    exact List.getElem?_eq_getElem k.isLt)
  exact ⟨p, hp.trans (Nat.add_assoc _ _ _).symm, hget⟩

theorem sticks_of_comes (h : Comes stage.act stage.body s t) (h' : Sticks stage.act stage.body t) :
    Sticks stage.act stage.body s := by
  obtain ⟨u, hcom, hstk⟩ := h'
  exact ⟨u, h.trans hcom, hstk⟩

theorem fills_of_comes {position : Nat} {holds : List Int32 → State → Prop}
    {l : List (Int32 × State)}
    (h : Fills stage.act stage.body position holds t (words ++ l.map Prod.fst) outcome)
    (hcom : Comes stage.act stage.body s t) :
    Fills stage.act stage.body position holds s words (outcome.map fun r => (l ++ r.1, r.2)) := by
  cases outcome with
  | none => exact sticks_of_comes hcom h
  | some r =>
    obtain ⟨hrest, hpos, hholds⟩ := h
    refine ⟨hcom.trans hrest, hpos, ?_⟩
    rwa [List.map_append, ← List.append_assoc]

theorem sticks_emit {i : Instruction} (hcov : stage.Covers (b.emit i))
    (hs : s.position = stage.base + b.code.body.size) (heff : stage.act.effect s i = none) :
    Sticks stage.act stage.body s := by
  obtain ⟨p, hp, rfl⟩ := hcov.get
  have hat : s.at p.val = s := by rw [hp, ← hs]; rfl
  exact ⟨s, .refl, hat ▸ step_stuck rfl (by simp [Activation.pass, heff])⟩

theorem comes_eval {formula : Formula} {loc : Location}
    (heval : Builds (eval signatures loc formula) b x b') (hcov : stage.Covers b')
    (hvld : ValidNames b.scopes.find?) (hs : s.position = stage.base + b.code.body.size) :
    (∀ v u, stage.act.compute (written b b') x s = some (v, u) →
      Comes stage.act stage.body s (u.at (stage.base + b'.code.body.size)) ∧
        stage.act.value u x = some v ∧ Leaves stage.act b.code.temps.toNat s u) ∧
    (stage.act.compute (written b b') x s = none → Sticks stage.act stage.body s ∨
      ∃ s1, Comes stage.act stage.body s s1 ∧ s1.position = stage.base + b'.code.body.size ∧
        stage.act.value s1 x = none) := by
  have hgr := (emits_eval heval).toGrows
  have hquiet := quiet_eval heval hvld hcov.owns
  have hhost := hcov.hosts hgr
  have hsz : stage.base + b.code.body.size + (written b b').length =
      stage.base + b'.code.body.size := by
    have := congrArg List.length hgr.append_written
    simp only [Array.length_toList, List.length_append] at this
    omega
  have hat : s.at (stage.base + b.code.body.size) = s := by rw [← hs]; rfl
  refine ⟨fun v u hword => ?_, fun hnone => ?_⟩
  · obtain ⟨hcom, hval⟩ := comes_of_compute stage.unique hhost (hquiet.through s) hword
    rw [hat, hsz] at hcom
    exact ⟨hcom, hval, leaves_of_compute heval hvld hword⟩
  · rcases sticks_of_compute stage.unique hhost (hquiet.through s) hnone with h | ⟨s1, h, hval⟩
    · exact .inl (hat ▸ h)
    · rw [hat, hsz] at h
      exact .inr ⟨_, h, rfl, hval⟩

theorem sticks_element (hb : Builds (initializeElement target progress x) b p b')
    (hcov : stage.Covers b') (htgt : target.isConstant = false ∨ target.isArray = true)
    (harr : progress.zeros.length ≠ 0 → stage.act.array? target.symbol = some array)
    (hins : 4 * (progress.zeros.start + progress.zeros.length) ≤ array.bytes)
    (hsm : array.bytes < 2147483648)
    (hx : ∀ i, x = .symbol (.temp i) → i.toNat < b.code.temps.toNat)
    (hv : stage.act.value s x = none) (hs : s.position = stage.base + b.code.body.size) :
    Sticks stage.act stage.body s := by
  rcases initializeElement_cases hb with ⟨hcst, hsca, _⟩ | ⟨_, ⟨rfl, _⟩ | ⟨_, rfl, b₁, hclr, hw⟩⟩
  · simp [hcst, hsca] at htgt
  · cases hv
  have hrest : ∃ i, b' = b₁.emit i ∧ ∀ t, stage.act.value t x = none → stage.act.effect t i = none := by
    rcases hw with ⟨_, hw⟩ | ⟨_, rfl⟩
    · obtain ⟨offset, _, rfl⟩ := builds_writeElement.1 hw
      exact ⟨_, rfl, fun t ht => by simp [effect, ht]⟩
    · exact ⟨_, rfl, fun t ht => by simp [effect, ht]⟩
  obtain ⟨i, rfl, heff⟩ := hrest
  obtain ⟨s1, hclrs⟩ := clears_clear hclr hcov.of_emit harr hins hsm hs
  exact sticks_of_comes hclrs.comes (sticks_emit hcov hclrs.arrives
    (heff s1 ((hclrs.toSpares.value hx).trans hv)))

/-! ## Arrays -/

/-- An initialization that has come to an element: the words so far are those in memory, and what is
left of a global array is still zero. -/
structure Reached (target : Target) (array : Region) (progress : Progress) (goal : Memory)
    (words : List Int32) (s : State) : Prop
    extends Held array progress.zeros progress.position goal s where
  stored : Words array.start goal words
  length : words.length = progress.position
  values : target.isConstant = true → progress.values.toList = words
  unset : target.isGlobal = true → progress.zeros.length = 0 ∧
    ∀ a, array.contains a = true → 4 * progress.position ≤ (a - array.start).toNat → goal a = 0

theorem reached_blank {count : Nat} (h : Reached target array progress memory words s)
    (hsm : array.bytes < 2147483648) (hins : 4 * (progress.position + count) ≤ array.bytes)
    (hbuild : Builds (initializeCell signatures target progress (.blank count)) b p b') :
    b' = b ∧ ∃ goal, Reached target array p goal (words ++ List.replicate count 0) s := by
  obtain ⟨hb, hpos, hzeros, hvals⟩ := initializeCell_blank hbuild
  refine ⟨hb, fun a => if (Region.words array.start progress.position count).contains a then 0
    else memory a, ?_⟩
  have hrange := fun a => @Region.contains_words array.start a progress.position count (by omega)
  have hlen := h.length
  have hglob : target.isGlobal = true → progress.zeros.length = 0 ∧
      ∀ a, (Region.words array.start progress.position count).contains a = true → memory a = 0 := by
    intro htgt
    obtain ⟨hnone, hz⟩ := h.unset htgt
    refine ⟨hnone, fun a ha => hz a ?_ ((hrange a).1 ha).1⟩
    have := (hrange a).1 ha
    simp only [Region.contains, decide_eq_true_eq]
    omega
  have hheld := h.toHeld.skip (fun _ => rfl) hglob hins hsm
  refine ⟨?_, ?_, ?_, ?_, ?_⟩
  · rw [hpos, hzeros]
    split
    · rename_i hcnt
      subst hcnt
      simpa [Region.words, Region.contains] using h.toHeld
    · exact hheld
  · refine h.stored.append (by simp; omega) (fun a ha => if_neg ?_) fun j v hj => ?_
    · rw [hrange]
      omega
    · obtain ⟨hlt, rfl⟩ : j < count ∧ 0 = v := by simpa [List.getElem?_replicate] using hj
      refine (@Memory.word_congr _ (fun _ => 0) _ fun k hk => if_pos ((hrange _).2 ?_)).trans rfl
      rw [UInt32.add_assoc, Memory.toNat_add_sub_self, UInt32.toNat_add, UInt32.toNat_ofNat']
      omega
  · simp [hlen, hpos]
  · intro hcst
    simp [hvals, hcst, h.values hcst]
  · intro htgt
    refine ⟨?_, fun a ha hle => ?_⟩
    · rw [hzeros]
      split
      · exact (hglob htgt).1
      · rw [Progress.skip, if_pos htgt]
        exact (hglob htgt).1
    · split
      · rfl
      · exact (h.unset htgt).2 a ha (by omega)

theorem Held.outside {run : ZeroRun} {k : Nat} {a : UInt32} (h : Held array run k memory s)
    (hsm : array.bytes < 2147483648) (ha : array.contains a = false) : s.memory a = memory a :=
  h.memory a fun hpend => by
    rw [h.contains hsm hpend] at ha
    cases ha

theorem zeros_initializeElement (h : Builds (initializeElement target progress x) b p b')
    (hglob : target.isGlobal = true) (hnone : progress.zeros.length = 0) : p.zeros.length = 0 := by
  rcases initializeElement_cases h with ⟨_, _, rfl, _⟩ | ⟨_, ⟨_, _, rfl, _⟩ | ⟨_, rfl, _⟩⟩
  · exact hnone
  · rwa [Progress.skip, if_pos hglob]
  · rfl

theorem reached_value {p1 : Progress} (h : Reached target array progress memory words s)
    (htgt : target.isArray = true) (harr : stage.act.array? target.symbol = some array)
    (hkps : ∀ a, array.contains a = true → ∀ k, stage.act.keeps k a = true)
    (hsm : array.bytes < 2147483648) (hins : 4 * (progress.position + 1) ≤ array.bytes)
    (hvld : ValidNames b.scopes.find?) (hx : Builds (evalExpr signatures expr) b x b₁)
    (helt : Builds (initializeElement target progress x) b₁ p1 b') (hcov : stage.Covers b')
    (hpos : p.position = progress.position + 1) (hzeros : p.zeros = p1.zeros)
    (hvals : target.isConstant = true → ∃ c, x = .const c ∧ p.values = progress.values.push c)
    (hs : s.position = stage.base + b.code.body.size)
    (hword : stage.act.compute (written b b₁) x s = some (v, u)) :
    ∃ t goal, Comes stage.act stage.body s t ∧ t.position = stage.base + b'.code.body.size ∧
      Touches stage.act target.symbol b₁ u t ∧ Reached target array p goal (words ++ [v]) t := by
  obtain ⟨hcom, hv, hlvs⟩ :=
    (comes_eval hx (hcov.mono (emits_initializeElement helt).toGrows) hvld hs).1 v u hword
  have hlen := h.length
  -- calls may have changed other memory
  let goal : Memory := fun a => if array.contains a then memory a else u.memory a
  have hgoal : ∀ a, (a - array.start).toNat < array.bytes → goal a = memory a := fun a ha =>
    if_pos (decide_eq_true ha)
  have hheld : Held array progress.zeros progress.position goal (u.at (stage.base + b₁.code.body.size)) := by
    refine ⟨fun a ha => ?_, fun a ha => ?_, h.adjacent, h.before, h.inside⟩
    · show u.memory a = if array.contains a then memory a else u.memory a
      split
      · rename_i hcon
        exact (hlvs.memory a (hkps a hcon)).trans (h.memory a ha)
      · rfl
    · exact (if_pos (h.toHeld.contains hsm ha)).trans (h.zero a ha)
  have hrange := fun a => @Region.contains_words array.start a progress.position 1 (by omega)
  have hglob : target.isGlobal = true → progress.zeros.length = 0 ∧
      ∀ a, (Region.words array.start progress.position 1).contains a = true → goal a = 0 := by
    intro hglob
    obtain ⟨hnone, hz⟩ := h.unset hglob
    refine ⟨hnone, fun a ha => ?_⟩
    have hin := (hrange a).1 ha
    have hlt : (a - array.start).toNat < array.bytes := by omega
    exact (hgoal a hlt).trans (hz a (decide_eq_true hlt) hin.1)
  obtain ⟨t, hcom', hpos', hspr, hheld'⟩ := held_element
    (s := u.at (stage.base + b₁.code.body.size)) htgt harr hsm hins helt hcov
    (below_eval hx hvld) hv rfl hglob hheld
  have hw : ∀ a, ¬ (4 * progress.position ≤ (a - array.start).toNat ∧
      (a - array.start).toNat < 4 * (progress.position + 1)) →
      goal.write (array.start + UInt32.ofNat (4 * progress.position)) v a = goal a := by
    intro a ha
    refine Memory.write_outside _ _ _ ?_
    have := mt (hrange a).1 ha
    simpa [Region.words, Region.contains] using this
  refine ⟨t, goal.write (array.start + UInt32.ofNat (4 * progress.position)) v, hcom.trans hcom',
    hpos', ⟨fun x hx _ => hspr.scalars x hx, hspr.temps, fun a ha => ?_, hspr.count,
      hspr.calls⟩, ?_, ?_, ?_, ?_, ?_⟩
  · rw [harr] at ha
    have hout : array.bytes ≤ (a - array.start).toNat := by simpa [Region.contains] using ha
    rw [hheld'.outside hsm ha, hw a (by omega)]
    exact if_neg (by simpa [Region.contains] using hout)
  · rw [hpos, hzeros]
    exact hheld'
  · refine h.stored.append (by simp; omega) (fun a ha => ?_) fun j w hj => ?_
    · rw [hw a (by omega), hgoal a (by omega)]
    · obtain ⟨rfl, rfl⟩ : j = 0 ∧ v = w := by simpa [List.getElem?_singleton] using hj
      rw [Nat.add_zero, hlen]
      exact Memory.word_write_self _ _ _
  · simp [hlen, hpos]
  · intro hcst
    obtain ⟨c, rfl, hpush⟩ := hvals hcst
    obtain rfl := Option.some.inj hv
    simp [hpush, h.values hcst]
  · intro hglob'
    obtain ⟨hnone, hz⟩ := h.unset hglob'
    rw [hpos, hzeros]
    refine ⟨zeros_initializeElement helt hglob' hnone, fun a ha hle => ?_⟩
    rw [hw a (by omega)]
    exact (if_pos ha).trans (hz a ha (by omega))

theorem fills_cells {cells : List Cell} (h : Reached target array progress memory words s)
    (htgt : target.isArray = true) (harr : stage.act.array? target.symbol = some array)
    (hkps : ∀ a, array.contains a = true → ∀ k, stage.act.keeps k a = true)
    (hsm : array.bytes < 2147483648)
    (hins : 4 * (progress.position + (cells.flatMap Cell.expand).length) ≤ array.bytes)
    (hvld : ValidNames b.scopes.find?)
    (hb : Builds (cells.foldlM (initializeCell signatures target) progress) b p b₁)
    (hclr : Builds (clear target.symbol p.zeros) b₁ () b') (hcov : stage.Covers b')
    (hs : s.position = stage.base + b.code.body.size) (hem : Emits c b)
    (htch : Touches stage.act target.symbol c u s) :
    ∃ outcome, Evaluated stage.act signatures (Touches stage.act target.symbol) c u (slots cells)
      outcome ∧ Fills stage.act stage.body (stage.base + b'.code.body.size) (fun ws t =>
        Words array.start t.memory ws ∧ (target.isConstant = true → p.values.toList = ws)) s words
        outcome := by
  induction cells generalizing b progress memory words s c u with
  | nil =>
    obtain ⟨rfl, rfl⟩ := builds_foldlM_nil.1 hb
    obtain ⟨t, hclrs, hmemo⟩ := h.toHeld.settle hclr hcov harr hsm hs
    have htch' : Touches stage.act target.symbol b₁ s t := by
      refine hclrs.toSpares.touches fun a ha => ?_
      rw [harr] at ha
      exact (hmemo a).trans (h.toHeld.outside hsm ha).symm
    refine ⟨_, .done (htch.trans htch' hem.temps), hclrs.comes, hclrs.arrives, ?_⟩
    rw [List.map_nil, List.append_nil]
    exact ⟨by rw [funext hmemo]; exact h.stored, h.values⟩
  | cons cell cells ih =>
    obtain ⟨p1, b₂, hcell, hrest⟩ := builds_foldlM_cons.1 hb
    have hem2 := emits_initializeCell hcell
    have hcov2 := hcov.mono ((emits_initializeCells hrest).trans (emits_clear hclr)).toGrows
    have hvld2 : ValidNames b₂.scopes.find? := hem2.sameScopes ▸ hvld
    rw [List.flatMap_cons, List.length_append] at hins
    cases cell with
    | blank count =>
      have hlen : (Cell.blank count).expand.length = count := List.length_replicate
      rw [hlen] at hins
      have hpos := (initializeCell_blank hcell).2.1
      obtain ⟨rfl, goal, hrch⟩ := reached_blank h hsm (by omega) hcell
      obtain ⟨outcome, hevl, hfills⟩ := ih hrch (by omega) hvld hrest hs hem htch
      have hfnd : (List.replicate count ((0 : Int32), u)).map Prod.fst = List.replicate count 0 :=
        List.map_replicate
      rw [← hfnd] at hfills
      have hslots : slots (.blank count :: cells) = List.replicate count none ++ slots cells := by
        simp [slots, Cell.expand]
      rw [hslots]
      exact ⟨_, hevl.gaps count, fills_of_comes hfills .refl⟩
    | value expr =>
      have hlen : (Cell.value expr).expand.length = 1 := rfl
      rw [hlen] at hins
      obtain ⟨x, b3, p3, hx, helt, hpos, hzeros, hvals⟩ := initializeCell_value hcell
      have hem3 := emits_initializeElement helt
      cases hword : stage.act.compute (written b b3) x s with
      | none =>
        refine ⟨none, .lost htch hem hx hword, ?_⟩
        rcases (comes_eval hx (hcov2.mono hem3.toGrows) hvld hs).2 hword with hsticks |
          ⟨s1, hcom, hs1, hval⟩
        · exact hsticks
        · have hbef := h.before
          have hins' := h.inside
          exact sticks_of_comes hcom (sticks_element helt hcov2 (.inr htgt) (fun _ => harr)
            (by omega) hsm (below_eval hx hvld) hval hs1)
      | some r =>
        obtain ⟨v, u1⟩ := r
        obtain ⟨t, goal, hcom, ht, htch1, hrch⟩ := reached_value h htgt harr hkps hsm
          (by omega) hvld hx helt hcov2 hpos hzeros hvals hs hword
        obtain ⟨outcome, hevl, hfills⟩ := ih hrch (by omega) hvld2 hrest ht hem3 htch1
        exact ⟨_, .found htch hem hx hword (leaves_of_compute hx hvld hword) hevl,
          fills_of_comes (l := [(v, u1)]) hfills hcom⟩

/-! ## Scalars -/

theorem touches_assign {act : Activation} (hx : symbol.isTemp = false)
    (harr : act.array? symbol = none) (b : Builder) (s : State) (v : Int32) :
    ∃ t, act.assign s symbol v = some t ∧ Touches act symbol b s t ∧ t.scalars symbol = some v := by
  refine ⟨_, assign_eq_some.2 ⟨harr, rfl⟩, ⟨fun y _ hne => if_neg hne, fun i _ => if_neg ?_,
    fun _ _ => rfl, rfl, ?_⟩, if_pos rfl⟩
  · rintro rfl
    cases hx
  · show callsOf (if act.isLocal symbol then s.events else s.events ++ [.assign symbol v]) = _
    split
    · rfl
    · rw [callsOf, List.filterMap_append]
      exact List.append_nil _

theorem fills_scalar (htgt : target.isArray = false)
    (hsym : target.symbol.isTemp = false) (harr : stage.act.array? target.symbol = none)
    (hvld : ValidNames b.scopes.find?) (hx : Builds (evalExpr signatures expr) b x b₁)
    (helt : Builds (initializeElement target ⟨0, .none, #[]⟩ x) b₁ p b')
    (hcov : stage.Covers b') (hs : s.position = stage.base + b.code.body.size)
    (hcst : target.isConstant = true → ∃ c, x = .const c)
    (hz : target.isGlobal = true → s.scalars target.symbol = some 0) :
    ∃ outcome, Evaluated stage.act signatures (Touches stage.act target.symbol) b s
      [some (expr.formula, expr.location)] outcome ∧
      Fills stage.act stage.body (stage.base + b'.code.body.size) (fun ws t =>
        (target.isConstant = false → ws = (t.scalars target.symbol).toList) ∧
          ∀ c, x = .const c → ws = [c]) s [] outcome := by
  have hcov1 := hcov.mono (emits_initializeElement helt).toGrows
  have hbel := below_eval hx hvld
  cases hword : stage.act.compute (written b b₁) x s with
  | none =>
    refine ⟨none, .lost (.refl _ _ _ _) (.refl _) hx hword, ?_⟩
    have hvar : target.isConstant = false := by
      by_contra hconst
      obtain ⟨c, rfl⟩ := hcst (by simpa using hconst)
      obtain rfl := eval_to_const hx
      rw [written_self] at hword
      cases hword
    rcases (comes_eval hx hcov1 hvld hs).2 hword with hsticks | ⟨s1, hcom, hs1, hval⟩
    · exact hsticks
    · exact sticks_of_comes hcom (@sticks_element _ _ _ ⟨0, 0⟩ _ _ _ _ _ helt hcov
        (.inl hvar) (fun hne => absurd rfl hne) (Nat.le_refl 0) (by decide) hbel hval hs1)
  | some r =>
    obtain ⟨v, u⟩ := r
    obtain ⟨hcom, hv, hlvs⟩ := (comes_eval hx hcov1 hvld hs).1 v u hword
    have hconst : ∀ c, x = .const c → [v] = [c] := by
      rintro c rfl
      cases hv
      rfl
    suffices hend : ∃ t, Comes stage.act stage.body (u.at (stage.base + b₁.code.body.size)) t ∧
        t.position = stage.base + b'.code.body.size ∧ Touches stage.act target.symbol b₁ u t ∧
        (target.isConstant = false → t.scalars target.symbol = some v) by
      obtain ⟨t, hcom', hpos, htch, ht⟩ := hend
      exact ⟨_, .found (.refl _ _ _ _) (.refl _) hx hword hlvs (.done htch), hcom.trans hcom',
        hpos, fun hvar => by rw [ht hvar]; rfl, hconst⟩
    rcases initializeElement_cases helt with ⟨hcst', _, rfl, rfl⟩ |
      ⟨_, ⟨rfl, hglob, rfl, rfl⟩ | ⟨_, rfl, b₂, hclr, ⟨harr', _⟩ | ⟨_, rfl⟩⟩⟩
    · refine ⟨_, .refl, rfl, ⟨fun _ _ _ => rfl, fun _ _ => rfl, fun _ _ => rfl, rfl, rfl⟩,
        fun hvar => ?_⟩
      cases hcst'.symm.trans hvar
    · have hglob : target.isGlobal = true := by simpa [htgt] using hglob
      obtain rfl := eval_to_const hx
      rw [written_self] at hword
      cases hword
      exact ⟨_, .refl, rfl, ⟨fun _ _ _ => rfl, fun _ _ => rfl, fun _ _ => rfl, rfl, rfl⟩,
        fun _ => hz hglob⟩
    · cases htgt.symm.trans harr'
    · obtain rfl := builds_clear_none hclr rfl
      obtain ⟨t, hasg, htch, ht⟩ :=
        touches_assign hsym harr b₂ (u.at (stage.base + b₂.code.body.size)) v
      have heff : stage.act.effect (u.at (stage.base + b₂.code.body.size)) (.copy target.symbol x) =
          some t := by
        have hv' : stage.act.value (u.at (stage.base + b₂.code.body.size)) x = some v := hv
        simpa only [effect, hv', bind_eq_bind, bind_some] using hasg
      exact ⟨_, comes_next hcov rfl heff rfl, rfl, ⟨htch.scalars, htch.temps,
        htch.memory, htch.count, htch.calls⟩, fun _ => ht⟩

end Stage

/-! ## Definitions -/

/-- An activation in which temporaries and parameters are variables of the function, and what a builder
declares has its size. -/
structure Accommodates (act : Activation) (b : Builder) : Prop where
  temps : OwnsTemps act b.code.temps.toNat
  parameters : ∀ x, x.kind = .parameter → act.isLocal x = true
  arrays : ∀ x, act.array? x ≠ none → x.kind = .variable
  decls : ∀ d ∈ b.code.decls.toList,
    (act.array? d.symbol).map Region.bytes = d.size.map (4 * ·.toNat)

namespace Accommodates

variable {n base : Nat} {body : Vector Instruction n}

/-- The code of a builder runs with no more around it than there has to be. -/
def stage (h : Accommodates act b) (hbody : SetOnce body) (base : Nat) : Stage where
  n := n
  body := body
  base := base
  act := act
  site := ⟨⟨fun x => (act.array? x).elim 0 Region.start, [], act.byZero, act.reply, act.keeps⟩,
    fun x => x.isTemp || act.isLocal x⟩
  unique := hbody
  own x hx := by simp [hx]
  own_temps x hx := by simp [hx]
  temps x hx := by
    by_contra hne
    simp [Symbol.isTemp, h.arrays x hne] at hx
  parameters x hx := by
    by_contra hne
    cases hx.symm.trans (h.arrays x hne)
  reply := rfl
  keeps := rfl
  others := by simp

theorem covers (h : Accommodates act b) (hbody : SetOnce body)
    (hhost : Hosts body base b.code.body.toList) : (h.stage hbody base).Covers b where
  code i instruction hi := by
    obtain ⟨hlt, rfl⟩ := List.getElem?_eq_some_iff.1 hi
    exact hhost ⟨i, hlt⟩
  temps i hi := (h.temps i hi).1
  parameters d _ := h.parameters d.symbol
  decls d hd := by
    have hbyt := h.decls d hd
    show act.array? d.symbol = d.size.map fun size =>
      ⟨(act.array? d.symbol).elim 0 Region.start, 4 * size.toNat⟩
    cases harr : act.array? d.symbol <;> cases hsz : d.size <;> simp [harr, hsz] at hbyt ⊢
    exact hbyt ▸ rfl

end Accommodates

theorem evalDimensions_to_const {exprs : List Expr} {dims : List Int32}
    (h : Builds (evalDimensions signatures exprs) b dims b') : b' = b := by
  induction exprs generalizing b dims with
  | nil => exact (builds_pure.1 h).2
  | cons expr exprs ih =>
    obtain ⟨d, ds, b₁, -, -, hd, hrest⟩ := builds_evalDimensions_cons h
    exact (ih hrest).trans (eval_to_const hd)

/-- What a variable or an array has in a state. -/
def Contains (act : Activation) (symbol : Symbol) (words : List Int32) (s : State) : Prop :=
  match act.array? symbol with
  | some array => array.bytes = 4 * words.length ∧ Words array.start s.memory words
  | none => words = (s.scalars symbol).toList

/-- A variable or an array that is zero. -/
def Unset (act : Activation) (symbol : Symbol) (s : State) : Prop :=
  match act.array? symbol with
  | some array => ∀ a, array.contains a = true → s.memory a = 0
  | none => s.scalars symbol = some 0

/-- What is defined gets the contents that its initializer describes. -/
theorem define_contents {isConstant isGlobal : Bool} {definition : Definition}
    {initializer : Initializer}
    (hbuild : Builds (define signatures isConstant isGlobal definition) b () b')
    (hinitializer : definition.initializer = some initializer) (hvalid : ValidNames b.scopes.find?) :
    ∃ meaning cells, b'.scopes.find? definition.name.value = some meaning ∧
      distribute (lengths meaning.dimensions) initializer = .ok cells ∧
      (isConstant = true → meaning.dimensions = [] → written b b' = []) ∧
      ∀ (act : Activation) {n : Nat} (body : Vector Instruction n) (base : Nat) (s : State),
        Accommodates act b' → SetOnce body → Hosts body base b'.code.body.toList →
        s.position = base + b.code.body.size →
        (∀ a, (act.array? meaning.symbol).any (·.contains a) = true → ∀ k, act.keeps k a = true) →
        (isGlobal = true → Unset act meaning.symbol s) →
        ∃ outcome, Evaluated act signatures (Touches act meaning.symbol)
            (b.addVar (sizeOf? meaning.dimensions)) s (slots cells) outcome ∧
          Fills act body (base + b'.code.body.size) (fun words t =>
            (isConstant = true → meaning.values = some words.toArray) ∧
              (isConstant = false ∨ meaning.dimensions ≠ [] → Contains act meaning.symbol words t))
            s [] outcome := by
  obtain ⟨dimensions, b₁, values, b₂, hdimensions, hextent, -, hcases, -, rfl⟩ :=
    builds_define hbuild
  obtain rfl := evalDimensions_to_const hdimensions
  obtain ⟨_, hinitializer', hwrite⟩ | ⟨hnone, -⟩ := hcases
  swap
  · cases hinitializer.symm.trans hnone
  cases hinitializer.symm.trans hinitializer'
  have hmember : ⟨.var b₁.nextVar, sizeOf? dimensions⟩ ∈ b₂.code.decls.toList := by
    refine (emits_writeInitializer hwrite).toGrows.mem_decls ?_
    rw [decls_addVar]
    exact List.mem_append_right _ (List.mem_singleton.2 rfl)
  have hfind : (b₂.addName definition.name.value ⟨.var b₁.nextVar, dimensions, values⟩).scopes.find?
      definition.name.value = some ⟨.var b₁.nextVar, dimensions, values⟩ := by
    rw [find?_addName]
    simp [Structured.Environment.define]
  have hvalid₁ : ValidNames (b₁.addVar (sizeOf? dimensions)).scopes.find? := hvalid
  by_cases hdims : dimensions = []
  · subst hdims
    obtain ⟨expr, x, b₃, p, hcells, hx, helement, hcases⟩ := writeInitializer_scalar rfl hwrite
    have hconst : isConstant = true → ∃ c, x = .const c ∧ values = some #[c] := fun hconstant =>
      hcases.elim (·.2) fun h => by cases hconstant.symm.trans h.1
    refine ⟨_, _, hfind, hcells, fun hconstant _ => ?_,
      fun act n body base s hact hbody hhosts hs hkeeps hzero => ?_⟩
    · obtain ⟨c, rfl, -⟩ := hconst hconstant
      obtain rfl := eval_to_const hx
      rcases initializeElement_cases helement with ⟨_, _, _, rfl⟩ | ⟨hvariable, _⟩
      · exact written_eq (List.append_nil _).symm
      · exact absurd ⟨hconstant, rfl⟩ hvariable
    · have hcovers := hact.covers hbody hhosts
      have hcovers₂ : (hact.stage hbody base).Covers b₂ :=
        ⟨hcovers.code, hcovers.temps, hcovers.parameters, hcovers.decls⟩
      have harray : act.array? (.var b₁.nextVar) = none := by
        simpa [sizeOf?] using hact.decls _ hmember
      obtain ⟨outcome, hevaluated, hfills⟩ := Stage.fills_scalar rfl rfl harray hvalid₁ hx helement
        hcovers₂ hs (fun hconstant => (hconst hconstant).imp fun _ h => h.1)
        (by simpa [Unset, harray] using hzero)
      refine ⟨outcome, hevaluated, ?_⟩
      cases outcome with
      | none => exact hfills
      | some r =>
        obtain ⟨hcomes, hposition, hvariable, hfolded⟩ := hfills
        refine ⟨hcomes, hposition, fun hconstant => ?_,
          fun hstored => ?_⟩
        · obtain ⟨c, rfl, rfl⟩ := hconst hconstant
          rw [hfolded c rfl]
        · simp only [Contains, harray]
          exact hvariable (by simpa using hstored)
  · obtain ⟨cells, progress, b₃, hcells, hprogress, hclear, rfl⟩ := builds_writeInitializer hwrite
    refine ⟨_, _, hfind, hcells, fun _ h => absurd h hdims,
      fun act n body base s hact hbody hhosts hs hkeeps hzero => ?_⟩
    have hcovers := hact.covers hbody hhosts
    have hcovers₂ : (hact.stage hbody base).Covers b₂ :=
      ⟨hcovers.code, hcovers.temps, hcovers.parameters, hcovers.decls⟩
    obtain ⟨array, harray, hbytes⟩ : ∃ array, act.array? (.var b₁.nextVar) = some array ∧
        array.bytes = 4 * extent (lengths dimensions) := by
      have hsize : sizeOf? dimensions = some (.ofNat (extent (lengths dimensions))) :=
        if_neg (by simpa using hdims)
      have hbytes := hact.decls _ hmember
      rw [hsize, map_some, UInt32.toNat_ofNat', Nat.mod_eq_of_lt (by unfold maxElements at hextent; omega)] at hbytes
      exact Option.map_eq_some_iff.1 hbytes
    have hlength : (cells.flatMap Cell.expand).length = extent (lengths dimensions) :=
      (distributed_distribute hcells).length
    simp only [harray, any_some, Unset] at hkeeps hzero
    unfold maxElements at hextent
    have hreached : Stage.Reached ⟨.var b₁.nextVar, !dimensions.isEmpty, isConstant, isGlobal⟩ array
        ⟨0, .none, #[]⟩ s.memory [] s :=
      ⟨⟨fun _ _ => rfl, fun a ha => absurd ha (not_pending rfl), fun hne => absurd rfl hne, Nat.le_refl _,
        Nat.zero_le _⟩, by simp [Words], rfl, fun _ => rfl, fun hglobal => ⟨rfl, fun a ha _ => hzero hglobal a ha⟩⟩
    obtain ⟨outcome, hevaluated, hfills⟩ := Stage.fills_cells hreached (by simpa using hdims) harray hkeeps
      (by omega) (by dsimp only; omega) hvalid₁ hprogress hclear hcovers₂ hs (.refl _) (.refl _ _ _ _)
    refine ⟨outcome, hevaluated, ?_⟩
    have hfound := hevaluated.length
    cases outcome with
    | none => exact hfills
    | some r =>
      obtain ⟨hcomes, hposition, hwords, hvalues⟩ := hfills
      refine ⟨hcomes, hposition, fun hconstant => ?_, fun _ => ?_⟩
      · rw [if_pos hconstant, ← hvalues hconstant, Array.toArray_toList]
      · simp only [Contains, harray]
        refine ⟨?_, hwords⟩
        rw [List.nil_append, List.length_map, hfound r rfl, slots, List.length_map, hlength, hbytes]

/-- `int a[6] = {5, 7};`. -/
def six : Definition :=
  ⟨⟨"a", .unknown⟩, [literal 6], some (.list [.expr (literal 5), .expr (literal 7)] .unknown)⟩

/-- The builder behind it: the last four elements are written by a loop. -/
def sixWritten : Builder :=
  { Builder.empty with
    scopes := ⟨[], [("a", ⟨.var 0, [6], none⟩)]⟩
    nextVar := 1
    lastLabel := 1
    code := {
      temps := 1
      decls := #[⟨.var 0, some 6⟩, ⟨.temp 0, none⟩]
      body := #[
        .store (.var 0) (.const 0) (.const 5),
        .store (.var 0) (.const 4) (.const 7),
        .copy (.temp 0) (.const 8),
        .label ⟨1⟩,
        .store (.var 0) (.symbol (.temp 0)) (.const 0),
        .binary (.temp 0) .add (.symbol (.temp 0)) (.const 4),
        .branch (.symbol (.temp 0)) .lt (.const 24) ⟨1⟩] } }

theorem sixWritten_accommodated : Accommodates gridRun sixWritten := by
  refine ⟨fun _ _ => ⟨rfl, rfl⟩, fun _ _ => rfl, fun x hx => ?_, by decide⟩
  have hvar : x = .var 0 := by_contra fun hne => hx (if_neg hne)
  rw [hvar]
  rfl

theorem six_contents :
    Builds (define [] false false six) .empty () sixWritten ∧
    ∃ t, Comes gridRun sixWritten.code.body.toVector (.start (fun _ => none) fun _ => 9) t ∧
      t.position = 7 ∧ Words 64 t.memory [5, 7, 0, 0, 0, 0] := by
  have hbuild : Builds (define [] false false six) .empty () sixWritten := by
    unfold Builds
    cbv
  obtain ⟨meaning, cells, hfind, hcells, -, hruns⟩ := define_contents hbuild rfl (fun _ _ h => by cases h)
  cases hfind
  have hcells' : distribute (lengths [6]) (.list [.expr (literal 5), .expr (literal 7)] .unknown) =
      .ok [.value (literal 5), .value (literal 7), .blank 4] := by cbv
  cases hcells.symm.trans hcells'
  have hslots : slots [.value (literal 5), .value (literal 7), .blank 4] =
      [some (.literal 5, .unknown), some (.literal 7, .unknown), none, none, none, none] := by cbv
  refine ⟨hbuild, ?_⟩
  obtain ⟨outcome, hevaluated, hfills⟩ := hruns gridRun sixWritten.code.body.toVector 0
    (.start (fun _ => none) fun _ => 9) sixWritten_accommodated (get_label_unique (by decide)) (by decide)
    rfl (fun _ _ _ => rfl) (fun h => by cases h)
  rw [hslots] at hevaluated
  obtain ⟨_, _, _, hrest, rfl⟩ := hevaluated.literal
  obtain ⟨_, _, _, hgaps, rfl⟩ := hrest.literal
  iterate 4 obtain - | hgaps := hgaps
  cases hgaps
  obtain ⟨hcomes, hposition, -, hcontains⟩ := hfills
  exact ⟨_, hcomes, hposition, (hcontains (.inl rfl)).2⟩

end SysY.Generation

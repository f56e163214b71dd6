import SysY.Proofs.Generation.Lawful
import SysY.Proofs.Generation.Pricing

/-!
# The code of expressions is lawful

Names stand for declared symbols: for arrays if they have dimensions, and for scalars if they have
none. Then the value of an expression is a constant or a declared symbol, its code is lawful, and there
is no fault as long as the counters have room: the dimensions of an array are small enough to be
multiplied, and a constant has a value.
-/

namespace SysY.Generation

open Eeyore SysY.Tree List
open Structured (elements)

variable {α β : Type} {sigs : Signatures} {env ds ds' : List Decl} {b b1 b2 b' : Builder}
  {meaning : Meaning} {y x z : Value} {r : Resolved} {name fn : String} {loc : Location}
  {args : List Value} {indices m n : Nat} {step : Build α} {next : α → Build β}
  {mid : α → Builder → Prop} {post : β → Builder → Prop} {dimensions : List Int32}

/-! ## Scopes -/

namespace Scopes

/-- A meaning that a name has in some scope, visible or not. -/
def Defines (scopes : Scopes) (meaning : Meaning) : Prop :=
  ∃ scope ∈ scopes.inner ++ [scopes.global], ∃ name, (name, meaning) ∈ scope

def extend (scopes : Scopes) (added : Scope) : Scopes :=
  match scopes.inner with
  | [] => { scopes with global := added ++ scopes.global }
  | scope :: inner => { scopes with inner := (added ++ scope) :: inner }

theorem extend_nil (scopes : Scopes) : scopes.extend [] = scopes := by
  obtain ⟨inner, global⟩ := scopes
  cases inner <;> rfl

theorem extend_extend (scopes : Scopes) (first second : Scope) :
    (scopes.extend first).extend second = scopes.extend (second ++ first) := by
  obtain ⟨inner, global⟩ := scopes
  cases inner <;> simp [extend]

theorem add_eq_extend (scopes : Scopes) (name : String) (meaning : Meaning) :
    scopes.add name meaning = scopes.extend [(name, meaning)] := by
  obtain ⟨inner, global⟩ := scopes
  cases inner <;> rfl

variable {scopes : Scopes} {meaning : Meaning}

theorem defines_enter :
    scopes.enter.Defines meaning ↔ scopes.Defines meaning := by
  simp [Defines, enter]

theorem defines_extend {added : Scope} :
    (scopes.extend added).Defines meaning ↔
      (∃ name, (name, meaning) ∈ added) ∨ scopes.Defines meaning := by
  obtain ⟨inner, global⟩ := scopes
  cases inner with
  | nil => simp [Defines, extend, exists_or]
  | cons scope inner =>
    simp only [Defines, extend, cons_append, mem_cons, mem_append, exists_eq_or_imp,
      exists_or, or_assoc]

theorem defines_of_find? (h : scopes.find? name = some meaning) : scopes.Defines meaning := by
  obtain ⟨scope, hscope, hlook⟩ := exists_of_findSome?_eq_some h
  obtain ⟨l1, l2, hspl, _⟩ := List.lookup_eq_some_iff.1 hlook
  exact ⟨scope, hscope, name, by simp [hspl]⟩

end Scopes

/-! ## What names stand for -/

/-- What a name can stand for among declarations. -/
structure Stands (ds : List Decl) (meaning : Meaning) : Prop where
  valid : meaning.Valid
  declared : ∃ size, ⟨meaning.symbol, size⟩ ∈ ds ∧ (size = none ↔ meaning.dimensions = [])
  /-- The first dimension of a parameter is not known. -/
  positive : ∀ d ∈ meaning.dimensions.tail, 0 < d
  small : extent (lengths meaning.dimensions.tail) ≤ maxElements
  filled : ∀ values, meaning.values = some values → meaning.dimensions = [] → values ≠ #[]
  sized : meaning.symbol.kind = .variable →
    ⟨meaning.symbol, sizeOf? meaning.dimensions⟩ ∈ ds ∧ ∀ d ∈ meaning.dimensions, 0 < d

def Standing (env : List Decl) (b : Builder) : Prop :=
  ∀ meaning, b.scopes.Defines meaning → Stands (b.known env) meaning

theorem Stands.mono (hsub : ds ⊆ ds') (h : Stands ds meaning) :
    Stands ds' meaning := by
  obtain ⟨size, hmem, hsz⟩ := h.declared
  exact ⟨h.valid, ⟨size, hsub hmem, hsz⟩, h.positive, h.small, h.filled,
    fun hkind => ⟨hsub (h.sized hkind).1, (h.sized hkind).2⟩⟩

theorem Stands.scalar (h : Stands ds meaning) (hdims : meaning.dimensions = []) :
    ⟨meaning.symbol, none⟩ ∈ ds := by
  obtain ⟨size, hmem, hsz⟩ := h.declared
  rwa [hsz.2 hdims] at hmem

theorem Stands.array (h : Stands ds meaning) (hdims : meaning.dimensions ≠ []) :
    DeclaredArray ds meaning.symbol := by
  obtain ⟨size, hmem, hsz⟩ := h.declared
  cases size with
  | none => exact absurd (hsz.1 rfl) hdims
  | some size => exact ⟨size, hmem⟩

theorem Stands.known (h : Stands ds meaning) :
    Known ds (.symbol meaning.symbol) := by
  obtain ⟨size, hmem, _⟩ := h.declared
  exact known_symbol ⟨size, hmem⟩

theorem Standing.mono (hsc : b'.scopes = b.scopes) (hsub : b.known env ⊆ b'.known env)
    (h : Standing env b) : Standing env b' := by
  intro meaning hdfs
  rw [hsc] at hdfs
  exact (h meaning hdfs).mono hsub

theorem Standing.emits (h : Standing env b) (hem : Emits b b') : Standing env b' :=
  h.mono hem.sameScopes (hem.known_subset env)

theorem Standing.find? (h : Standing env b)
    (hfind : b.scopes.find? name = some meaning) : Stands (b.known env) meaning :=
  h meaning (Scopes.defines_of_find? hfind)

theorem Standing.validNames (h : Standing env b) : ValidNames b.scopes.find? :=
  fun _ _ hfind => (h.find? hfind).valid

/-! ## Single steps -/

/-- A step of an expression: it writes lawful code that goes nowhere else. -/
abbrev Works (sigs : Signatures) (env : List Decl) (n : Nat) (step : Build α) (b : Builder)
    (post : α → Builder → Prop) : Prop :=
  Meets n step b fun a b' => (Emits b b' ∧ Lays sigs env nowhere b b') ∧ post a b'

/-- A value that later code can use. -/
def usable (env : List Decl) (x : Value) (b : Builder) : Prop := Known (b.known env) x

namespace Works

theorem bind (h : Works sigs env m step b mid)
    (hnxt : ∀ a b', Emits b b' → mid a b' → Works sigs env n (next a) b' post) :
    Works sigs env (m + n) (step >>= next) b post := by
  refine Meets.bind h ?_
  rintro a b1 ⟨⟨hem, hlays⟩, hmid⟩
  refine (hnxt a b1 hem hmid).imp ?_
  rintro z b' ⟨⟨hem', hlays'⟩, hpost⟩
  exact ⟨⟨hem.trans hem', hlays.trans hlays'⟩, hpost⟩

theorem andThen (h : Works sigs env n step b mid)
    (hnxt : ∀ a b', Emits b b' → mid a b' → Works sigs env 0 (next a) b' post) :
    Works sigs env n (step >>= next) b post :=
  bind h hnxt

theorem pure {post : α → Builder → Prop} {a : α} (h : post a b) :
    Works sigs env n (pure a) b post :=
  meets_pure ⟨⟨.refl _, .refl _⟩, h⟩

end Works

theorem mem_known_addTemp (b : Builder) (env : List Decl) :
    ⟨.temp b.code.temps, none⟩ ∈ b.addTemp.known env := by
  simp [Builder.known]

/-- One instruction that computes a value. -/
theorem works_compute {i : Symbol → Instruction} {f : Symbol → α} {post : α → Builder → Prop}
    (hdef : ∀ x, (i x).definition = some x) (htgt : ∀ x, (i x).target? = none)
    (hlaw : ∀ x ds, b.known env ⊆ ds → ⟨x, none⟩ ∈ ds → Lawful sigs ds (i x))
    (hpost : ∀ x b', usable env (.symbol x) b' → post (f x) b') :
    Works sigs env 4 (do let dest ← newTemp; push (i dest); return f dest) b post := by
  refine meets_newTemp.andThen ?_
  rintro _ _ ⟨hroom, rfl, rfl⟩
  refine meets_push.andThen ?_
  rintro _ _ rfl
  have hmem := mem_known_addTemp b env
  have hadd : Lays sigs env nowhere b b.addTemp := .addTemp hroom
  have hcomp : Computes b i (.temp b.code.temps) (b.addTemp.emit (i (.temp b.code.temps))) :=
    ⟨hroom, rfl, rfl⟩
  have hem := hcomp.emits (hdef _)
  refine meets_pure ⟨⟨hem, hem.toGrows, fun j hj => ?_, fun j hj l hl => ?_⟩,
    hpost _ _ (known_symbol ⟨none, hmem⟩)⟩
  · rw [written_of_computes hcomp, mem_singleton] at hj
    exact hj ▸ hlaw _ _ (hadd.known_subset env) hmem
  · rw [written_of_computes hcomp, mem_singleton] at hj
    rw [hj, htgt] at hl
    cases hl

theorem works_applyUnary {op : UnaryOp} (hy : usable env y b) :
    Works sigs env 4 (applyUnary op y) b (usable env) := by
  cases y with
  | const c => exact .pure (known_const _)
  | symbol x =>
    exact works_compute (fun _ => rfl) (fun _ => rfl)
      (fun x ds hsub hmem => .unary hmem (hy.mono hsub)) fun _ _ h => h

theorem works_applyOperator {op : UnaryOperator} (hy : usable env y b) :
    Works sigs env 4 (applyOperator op y) b (usable env) := by
  cases op with
  | plus => exact .pure hy
  | minus => exact works_applyUnary hy
  | not => exact works_applyUnary hy

theorem works_applyBinary {op : BinaryOp} (hy : usable env y b) (hz : usable env z b) :
    Works sigs env 4 (applyBinary op y z loc) b (usable env) := by
  unfold applyBinary
  split
  · split
    · exact .pure (known_const _)
    · exact meets_reject
  · rename_i hfold
    refine works_compute (fun _ => rfl) (fun _ => rfl) (fun x ds hsub hmem => ?_) fun _ _ h => h
    refine .binary hmem (hy.mono hsub) (hz.mono hsub) ?_
    rintro a c ⟨rfl, rfl⟩
    exact hfold a c rfl rfl

theorem works_scale {factor : Int32} (hy : usable env y b) :
    Works sigs env 4 (scale y factor loc) b (usable env) := by
  unfold scale
  split
  · exact .pure hy
  · exact works_applyBinary hy (known_const _)

theorem meets_truthInto {dest : Symbol} :
    Meets 0 (truthInto dest y) b fun _ b' => b' = b.emit (truthInstruction dest y) := by
  cases y <;> exact meets_push

theorem lays_truthInstruction {id : UInt32} (hx : ⟨.temp id, none⟩ ∈ b.known env)
    (hy : Known (b.known env) y) :
    Lays sigs env nowhere b (b.emit (truthInstruction (.temp id) y)) := by
  cases y with
  | const c => exact .emit _ rfl trivial (.copy hx (known_const _)) nofun
  | symbol l => exact .emit _ rfl rfl (.binary hx hy (known_const _) (by simp)) nofun

theorem length_passedArguments (fn : String) (args : List Value) (loc : Location) :
    (passedArguments fn args loc).length =
      args.length + if isTiming fn then 1 else 0 := by
  unfold passedArguments
  split <;> simp [*]

theorem known_passedArguments (h : ∀ v ∈ args, Known ds v) :
    ∀ v ∈ passedArguments fn args loc, Known ds v := by
  intro v hv
  unfold passedArguments at hv
  split at hv
  · rcases List.mem_append.1 hv with hv | hv
    · exact h v hv
    · rw [List.mem_singleton.1 hv]
      exact known_const _
  · exact h v hv

theorem works_emitCall {signature : Signature} (hsig : sigs.lookup fn = some signature)
    (hlen : args.length = signature.arity) (hargs : ∀ v ∈ args, usable env v b) :
    Works sigs env 4 (emitCall fn signature.returns args loc) b
      fun x b' => ∀ y, x = some y → usable env (.symbol y) b' := by
  have hpsd := (length_passedArguments fn args loc).trans (by rw [hlen])
  cases hret : signature.returns with
  | int =>
    refine works_compute (fun _ => rfl) (fun _ => rfl) (fun x ds hsub hmem => ?_) ?_
    · refine .call hsig hpsd (known_passedArguments fun v hv => (hargs v hv).mono hsub) ?_
      rintro _ ⟨⟩
      exact hmem
    · rintro x b' h _ ⟨⟩
      exact h
  | void =>
    refine (meets_push.andThen ?_).mono (Nat.zero_le 4)
    rintro _ _ rfl
    refine meets_pure ⟨⟨.emit _ rfl trivial, .emit _ rfl trivial ?_ nofun⟩, nofun⟩
    exact .call hsig hpsd (known_passedArguments hargs) nofun

theorem works_callWith {fn : Name} {count : Nat} {arguments : Build (List Value)}
    (h : Works sigs env n arguments b fun values b' =>
      values.length = count ∧ ∀ v ∈ values, usable env v b') :
    Works sigs env (n + 4) (callWith sigs fn count loc arguments) b
      fun x b' => ∀ y, x = some y → usable env (.symbol y) b' := by
  unfold callWith
  split
  · exact meets_reject
  · rename_i signature hsig
    split
    · exact meets_reject
    · rename_i hcnt
      refine h.bind ?_
      rintro values b1 _ ⟨hlen, hkn⟩
      exact works_emitCall hsig (hlen.trans (not_not.1 hcnt)) hkn

/-! ## Dimensions -/

theorem extent_pos (h : ∀ d ∈ dimensions, 0 < d) :
    0 < extent (lengths dimensions) := by
  induction dimensions with
  | nil => exact Nat.one_pos
  | cons d dimensions ih =>
    have hd : 0 < d.toInt := by simpa [Int32.lt_iff_toInt_lt] using h d (mem_cons_self ..)
    have hrest := ih fun d' hd' => h d' (mem_cons_of_mem _ hd')
    have hfst : 0 < d.toNatClampNeg := by
      rw [Int32.toNatClampNeg]
      omega
    exact Nat.mul_pos hfst hrest

theorem elements_eq_extent (h : ∀ d ∈ dimensions, 0 < d) :
    elements dimensions = extent (lengths dimensions) := by
  induction dimensions with
  | nil => rfl
  | cons d dimensions ih =>
    have hd : 0 < d.toInt := by simpa [Int32.lt_iff_toInt_lt] using h d (mem_cons_self ..)
    have hfst : (d.toNatClampNeg : Int) = d.toInt := by
      rw [Int32.toNatClampNeg]
      omega
    rw [elements, ih fun d' hd' => h d' (mem_cons_of_mem _ hd'), ← hfst]
    exact (Int.natCast_mul _ _).symm

theorem extent_tail_le (h : ∀ d ∈ dimensions, 0 < d) :
    extent (lengths dimensions.tail) ≤ extent (lengths dimensions) := by
  cases dimensions with
  | nil => exact Nat.le_refl _
  | cons d dimensions =>
    have hd : 0 < d.toInt := by simpa [Int32.lt_iff_toInt_lt] using h d (mem_cons_self ..)
    have hfst : 0 < d.toNatClampNeg := by
      rw [Int32.toNatClampNeg]
      omega
    exact Nat.le_mul_of_pos_left _ hfst

theorem elements_pos (h : ∀ d ∈ dimensions, 0 < d) :
    0 < elements dimensions := by
  rw [elements_eq_extent h]
  exact Int.natCast_pos.2 (extent_pos h)

theorem foldlM_signedMul_ok {factors : List Int32} (h : ∀ d ∈ factors, 0 < d) {a : Int32}
    (ha : 0 ≤ a.toInt) (hsm : a.toInt * elements factors ≤ maxElements) :
    ∃ c, factors.foldlM signedMul a = .ok c := by
  induction factors generalizing a with
  | nil => exact ⟨a, rfl⟩
  | cons d factors ih =>
    have hd : 0 < d.toInt := by simpa [Int32.lt_iff_toInt_lt] using h d mem_cons_self
    have hrest : ∀ d ∈ factors, 0 < d := fun d' hd' => h d' (mem_cons_of_mem _ hd')
    have hprod : 0 ≤ a.toInt * d.toInt := Int.mul_nonneg ha (Int.le_of_lt hd)
    have hwhole : a.toInt * d.toInt * elements factors ≤ maxElements := by
      rwa [Int.mul_assoc]
    have hle : a.toInt * d.toInt ≤ maxElements := by
      have hgr := Int.mul_le_mul_of_nonneg_left (elements_pos hrest) hprod
      rw [Int.zero_add, Int.mul_one] at hgr
      exact Int.le_trans hgr hwhole
    have hok : signedMul a d = .ok (a * d) := by
      unfold maxElements at hle
      exact signedMul_ok (by omega) (by omega)
    have htoInt := toInt_of_signedMul hok
    rw [foldlM_cons, hok, ok_bind]
    exact ih hrest (htoInt ▸ hprod) (htoInt ▸ hwhole)

theorem extent_drop_le (h : ∀ d ∈ dimensions, 0 < d) (k : Nat) :
    extent (lengths (dimensions.drop k)) ≤ extent (lengths dimensions) := by
  induction k with
  | zero => exact Nat.le_refl _
  | succ k ih =>
    have htail := @extent_tail_le (dimensions.drop k) fun d hd => h d (mem_of_mem_drop hd)
    rw [tail_drop] at htail
    exact Nat.le_trans htail ih

theorem stride_ok (h : ∀ d ∈ dimensions.tail, 0 < d)
    (hsm : extent (lengths dimensions.tail) ≤ maxElements) (hids : 0 < indices) :
    ∃ factor, stride dimensions indices = .ok factor := by
  obtain ⟨k, rfl⟩ := Nat.exists_eq_add_of_lt hids
  have hdrop : dimensions.drop (0 + k + 1) = dimensions.tail.drop k := by
    rw [Nat.zero_add, drop_tail]
  have hposv : ∀ d ∈ dimensions.tail.drop k, 0 < d := fun d hd => h d (mem_of_mem_drop hd)
  have hsm : elements (dimensions.tail.drop k) ≤ maxElements := by
    rw [elements_eq_extent hposv]
    exact Int.ofNat_le.2 (Nat.le_trans (extent_drop_le h k) hsm)
  obtain ⟨c, hc⟩ := foldlM_signedMul_ok hposv (a := 1) (by decide) (by simpa using hsm)
  have hprod : signedProduct (dimensions.drop (0 + k + 1)) = .ok c := by
    rw [hdrop]
    exact hc
  have hval : c.toInt = elements (dimensions.tail.drop k) := by
    rw [← hdrop]
    exact toInt_of_signedProduct hprod
  have hpos := elements_pos hposv
  have hsz : wordSize.toInt = 4 := by decide
  unfold maxElements at hsm
  refine ⟨c * wordSize, ?_⟩
  rw [stride, hprod, ok_bind]
  exact signedMul_ok (by rw [hsz]; omega) (by rw [hsz]; omega)

/-! ## Places -/

/-- What the place of a name refers to. -/
def Resolved.Known (ds : List Decl) : Resolved → Prop
  | .constant _ => True
  | .scalar x => ⟨x, none⟩ ∈ ds
  | .pointer address => Generation.Known ds address
  | .element array index => DeclaredArray ds array ∧ Generation.Known ds index

/-- A place that can be written to. -/
def Resolved.Writable : Resolved → Prop
  | .scalar _ | .element .. => True
  | .constant _ | .pointer _ => False

/-- What it costs to read a place. -/
def Resolved.price : Resolved → Nat
  | .element .. => 4
  | _ => 0

theorem meets_checkAccess {name : Name} {write : Bool} :
    Meets 0 (checkAccess name meaning indices write) b fun _ b' =>
      (indices ≤ meaning.dimensions.length ∧
        (write = true → meaning.values = none ∧ indices = meaning.dimensions.length)) ∧ b' = b := by
  have hstep : Meets 0 (checkAccess name meaning indices write) b fun _ _ => True := by
    unfold checkAccess
    split
    · exact meets_reject
    · split
      · exact meets_reject
      · split
        · exact meets_reject
        · exact meets_pure trivial
  exact ⟨fun _ _ h => by simpa [and_assoc] using builds_checkAccess.1 h, hstep.takes, hstep.safe⟩

theorem works_resolveName {write : Bool} {next : Resolved → Build β} (hstd : Stands (b.known env) meaning)
    (hwr : write = true → meaning.values = none ∧ meaning.dimensions = [])
    (hnxt : ∀ r, r.Known (b.known env) → (write = true → r.Writable) → r.price = 0 →
      Works sigs env n (next r) b post) :
    Works sigs env n (resolveName meaning >>= next) b post := by
  unfold resolveName
  split
  · rename_i hdims
    rw [pure_bind]
    exact hnxt _ hstd.known (fun h => by simp [(hwr h).2] at hdims) rfl
  · rename_i hdims
    have hnil : meaning.dimensions = [] := by simpa using hdims
    split
    · rw [pure_bind]
      exact hnxt _ (hstd.scalar hnil) (fun _ => trivial) rfl
    · rename_i values hvals
      have hpos : 0 < values.size := Array.size_pos_iff.2 (hstd.filled values hvals hnil)
      rw [show values[0]? = some values[0] from Array.getElem?_eq_getElem hpos]
      simp only [pure_bind]
      exact hnxt _ trivial (fun h => by simp [(hwr h).1] at hvals) rfl

theorem works_resolveOffset {name : Name} {write : Bool} {offset : Value} {next : Resolved → Build β}
    (hposv : 0 < indices) (hle : indices ≤ meaning.dimensions.length)
    (hwr : write = true → meaning.values = none ∧ indices = meaning.dimensions.length)
    (hstd : Stands (b.known env) meaning) (hoff : usable env offset b)
    (hnxt : ∀ r b', Emits b b' → r.Known (b'.known env) → (write = true → r.Writable) →
      Works sigs env (n + r.price) (next r) b' post) :
    Works sigs env (4 + n) (resolveOffset name meaning indices offset >>= next) b post := by
  unfold resolveOffset
  split
  · rename_i hlt
    simp only [bind_assoc, pure_bind]
    refine (works_applyBinary hstd.known hoff).bind fun x b1 hem hx => ?_
    exact hnxt (.pointer x) b1 hem hx fun h => absurd (hwr h).2 (Nat.ne_of_lt hlt)
  · split
    · rename_i values hvals
      unfold constantElement
      dsimp only
      split
      · simp only [pure_bind]
        refine (hnxt (.constant _) b (.refl b) trivial fun h => ?_).mono (Nat.le_add_left n 4)
        rw [(hwr h).1] at hvals
        cases hvals
      · exact meets_reject
    · rw [pure_bind]
      refine (hnxt (.element meaning.symbol _) b (.refl b) ⟨hstd.array ?_, hoff⟩
        fun _ => trivial).mono (Nat.le_of_eq (Nat.add_comm n 4))
      rintro hnil
      rw [hnil] at hle
      exact absurd hposv (by simpa using hle)

/-- What follows on the place of a name can count on its being known. Where a place is an element, the
offset of another one has been saved. -/
theorem works_resolveWith {name : Name} {write : Bool} {position : List Int32 → Build (Option Value)}
    {c : Nat} {next : Resolved → Build β} (hst : Standing env b)
    (hpos : ∀ dims, Works sigs env m (position dims) b fun index b' =>
      index.elim (indices = 0) fun x => 0 < indices ∧ usable env x b')
    (hcost : m ≤ c) (hcost' : 0 < indices → m + 8 ≤ c)
    (hnxt : ∀ r b', Emits b b' → r.Known (b'.known env) → (write = true → r.Writable) →
      Works sigs env (n + r.price) (next r) b' post) :
    Works sigs env (c + n) (resolveWith name indices write position >>= next) b post := by
  simp only [resolveWith, bind_assoc]
  refine meets_lookupName.after ?_
  rintro meaning _ ⟨hfind, rfl⟩
  refine meets_checkAccess.after ?_
  rintro _ _ ⟨⟨hle, hwr⟩, rfl⟩
  refine ((hpos meaning.dimensions).bind fun index b1 hem hidx => ?_).mono (m := m + (c - m + n))
    (by omega)
  have hstd := (hst.find? hfind).mono (hem.known_subset env)
  cases index with
  | none =>
    refine works_resolveName hstd (fun h => ⟨(hwr h).1, ?_⟩) fun r hr hwrite hprice => ?_
    · exact length_eq_zero_iff.1 ((hwr h).2.symm.trans hidx)
    · exact (hnxt r b1 hem hr hwrite).mono (by omega)
  | some x =>
    obtain ⟨hposv, hx⟩ := hidx
    have := hcost' hposv
    obtain ⟨factor, hfac⟩ := stride_ok hstd.positive hstd.small hposv
    simp only [bind_assoc]
    refine .free (builds_checked.2 ⟨hfac, rfl⟩) ?_
    refine ((works_scale hx).bind fun offset b2 hem2 hoff => ?_).mono (m := 4 + (4 + n)) (by omega)
    exact works_resolveOffset hposv hle hwr (hstd.mono (hem2.known_subset env)) hoff
      fun r b' hem' => hnxt r b' (hem.trans (hem2.trans hem'))

theorem works_readResolved (hr : r.Known (b.known env)) :
    Works sigs env r.price (readResolved r) b (usable env) := by
  cases r with
  | constant c => exact .pure (known_const _)
  | scalar x => exact .pure (known_symbol ⟨none, hr⟩)
  | pointer x => exact .pure hr
  | element array index =>
    obtain ⟨⟨size, harr⟩, hidx⟩ := hr
    exact works_compute (fun _ => rfl) (fun _ => rfl)
      (fun x ds hsub hmem => .load hmem ⟨size, hsub harr⟩ (hidx.mono hsub)) fun _ _ h => h

/-! ## Whole expressions -/

theorem emits_head (htemp : b.code.temps.toNat + 1 < wordValues)
    (hlab : b.lastLabel.toNat + 1 < wordValues) (conn : Connective) (l : Symbol) :
    Emits b (b.connect conn l) := by
  have hfst : Emits b b.addTemp.addLabel := (Emits.addTemp htemp).trans (Emits.addLabel hlab)
  have hsnd : Emits b.addTemp.addLabel (b.connect conn l) :=
    (emits_truthInstruction _ _ _).trans (.emit _ rfl trivial)
  exact hfst.trans hsnd

theorem lays_connect {conn : Connective} {l : Symbol}
    (htemp : b.code.temps.toNat + 1 < wordValues) (hlab : b.lastLabel.toNat + 1 < wordValues)
    (hl : Known (b.known env) (.symbol l))
    (h : Lays sigs env nowhere (b.connect conn l) b')
    (hz : Known (b'.known env) z) : Lays sigs env nowhere b (b.join b' z) := by
  have hmem : ⟨.temp b.code.temps, none⟩ ∈ b.addTemp.addLabel.known env := mem_known_addTemp b env
  have hsub := (Emits.addTemp htemp).known_subset env
  refine (Lays.addTemp htemp).trans (Lays.mark hlab ?_)
  have hhead : Lays sigs env (fun l => l = ⟨b.lastLabel + 1⟩ ∨ nowhere l) b.addTemp.addLabel
      (b.connect conn l) := by
    refine (lays_truthInstruction hmem (hl.mono hsub)).of_nowhere.trans (.emit _ rfl trivial ?_ ?_)
    · exact .branch (known_symbol ⟨none, hmem⟩) (known_const _)
    · rintro _ ⟨⟩
      exact .inl rfl
  have hmem' := h.known_subset env (hhead.known_subset env hmem)
  exact hhead.trans (h.trans (lays_truthInstruction hmem' hz)).of_nowhere

theorem eight_le_price {formulas : Formulas} (h : 0 < formulas.length) : 8 ≤ formulas.price := by
  cases formulas with
  | nil => cases h
  | cons formula place rest =>
    rw [Formulas.price]
    omega

mutual

theorem works_eval {loc : Location} {formula : Formula} {b : Builder} (hst : Standing env b) :
    Works sigs env formula.price (eval sigs loc formula) b (usable env) := by
  cases formula with
  | literal value =>
    rw [eval]
    exact .pure (known_const _)
  | read name indices =>
    rw [eval, Formula.price]
    refine works_resolveWith (n := 0) hst (fun dims => works_evalPosition hst) (Nat.sub_le _ 8) ?_
      fun r b1 _ hr _ => (works_readResolved hr).mono (Nat.le_of_eq (Nat.zero_add _).symm)
    intro hposv
    exact Nat.le_of_eq (Nat.sub_add_cancel (eight_le_price hposv))
  | call fn args place =>
    rw [eval, Formula.price]
    refine (works_callWith (works_evalAll hst)).andThen fun output b1 _ hout => ?_
    cases output with
    | none => exact meets_reject
    | some dest => exact .pure (hout dest rfl)
  | unary op operand =>
    rw [eval, Formula.price]
    exact (works_eval hst).bind fun y b1 _ hy => works_applyOperator hy
  | binary op left right =>
    rw [eval, Formula.price]
    exact (works_eval hst).bind fun y b1 hem hy => (works_eval (hst.emits hem)).bind
      fun z b2 hem' hz => works_applyBinary (hy.mono (hem'.known_subset env)) hz
  | logic conn left right =>
    rw [eval, Formula.price]
    refine (works_eval hst).bind fun y b1 hem hy => ?_
    have hst1 := hst.emits hem
    cases y with
    | const c =>
      dsimp only
      split
      · refine ((works_eval hst1).bind fun z b2 _ hz =>
          works_applyBinary hz (known_const _)).mono ?_
        omega
      · exact .pure (known_const _)
    | symbol l =>
      refine meets_newTemp.bind ?_
      rintro _ _ ⟨htemp, rfl, rfl⟩
      refine meets_newLabel.bind ?_
      rintro _ _ ⟨hlab, rfl, rfl⟩
      refine meets_truthInto.after ?_
      rintro _ _ rfl
      refine meets_push.after ?_
      rintro _ _ rfl
      refine Meets.andThen (works_eval (hst1.emits (emits_head htemp hlab conn l))) ?_
      rintro z b2 ⟨⟨hem2, hlays2⟩, hz⟩
      refine meets_truthInto.andThen ?_
      rintro _ _ rfl
      refine meets_push.andThen ?_
      rintro _ _ rfl
      refine meets_pure ⟨⟨emits_connect htemp hlab hem2, lays_connect htemp hlab hy hlays2 hz⟩, ?_⟩
      exact known_symbol ⟨none, hlays2.known_subset env (mem_known_addTemp b1 env)⟩
  | malformed fault =>
    rw [eval, Formula.price]
    refine ⟨fun _ _ h => ?_, fun _ _ h => ?_, fun hroom => ?_⟩
    · cases (builds_checked.1 h).1
    · cases (builds_checked.1 h).1
    · exact absurd hroom.labels (Nat.not_lt_of_le (Nat.le_add_left _ _))

theorem works_evalAll {formulas : Formulas} {b : Builder} (hst : Standing env b) :
    Works sigs env formulas.price (evalAll sigs formulas) b fun values b' =>
      values.length = formulas.length ∧ ∀ v ∈ values, usable env v b' := by
  cases formulas with
  | nil =>
    rw [evalAll]
    exact .pure ⟨rfl, by simp⟩
  | cons formula place rest =>
    rw [evalAll, Formulas.price]
    refine ((works_eval hst).bind fun y b1 hem hy => (works_evalAll (hst.emits hem)).andThen
      fun ys b2 hem' hys => .pure ⟨?_, ?_⟩).mono (by omega)
    · rw [length_cons, hys.1, Formulas.length]
    · exact forall_mem_cons.2 ⟨hy.mono (hem'.known_subset env), hys.2⟩

theorem works_evalPosition {loc : Location} {dims : List Int32} {formulas : Formulas} {b : Builder}
    (hst : Standing env b) :
    Works sigs env (formulas.price - 8) (evalPosition sigs loc dims formulas) b fun index b' =>
      index.elim (formulas.length = 0) fun x => 0 < formulas.length ∧ usable env x b' := by
  cases formulas with
  | nil =>
    rw [evalPosition]
    exact .pure rfl
  | cons formula place rest =>
    rw [evalPosition, Formulas.price]
    refine ((works_eval hst).bind fun y b1 hem hy => (works_addIndices (hst.emits hem) hy).andThen
      fun z b2 _ hz => .pure ⟨Nat.succ_pos _, hz⟩).mono ?_
    omega

theorem works_addIndices {loc : Location} {dims : List Int32} {position : Value}
    {formulas : Formulas} {b : Builder} (hst : Standing env b) (hpos : usable env position b) :
    Works sigs env formulas.price (addIndices sigs loc dims position formulas) b (usable env) := by
  cases formulas with
  | nil =>
    rw [addIndices]
    exact .pure hpos
  | cons formula place rest =>
    cases dims with
    | nil =>
      rw [addIndices]
      exact .pure hpos
    | cons dimension dims =>
      rw [addIndices, Formulas.price]
      refine (works_scale hpos).bind fun scaled b1 hem1 hscd => ?_
      have hst1 := hst.emits hem1
      refine (works_eval hst1).bind fun y b2 hem2 hy => ?_
      refine (works_applyBinary (hscd.mono (hem2.known_subset env)) hy).bind fun sum b3 hem3 hsum => ?_
      exact works_addIndices ((hst1.emits hem2).emits hem3) hsum

end

end SysY.Generation

import SysY.Generation.Program
import SysY.Proofs.Generation.Layout

/-!
# Generated programs are lawful

Every function of a generated program is lawful by itself, and the numbers of labels and variables
are unique in the whole program. The code that initializes the globals is written piece by piece
between the functions and ends up in front of `main`: there its temporaries get numbers behind those
of `main`, and everything else stays as it was.
-/

namespace SysY.Generation

open Eeyore SysY.Tree Logged List

variable {α : Type} {code : Code} {id : Nat} {u : Unit} {w' : Written} {builder : Builder}
  {main main' : Eeyore.Function} {gs : List Decl} {tree : Tree.Program} {program : Eeyore.Program}

/-! ## Unique numbers -/

/-- Different things, with numbers below a bound. -/
structure Numbered {α : Type} (number : α → Nat) (bound : Nat) (xs : List α) : Prop where
  distinct : xs.Nodup
  below : ∀ x ∈ xs, number x < bound

theorem Numbered.insert {number : α → Nat} {n n' : Nat} {a new c : List α}
    (h : Numbered number n (a ++ c)) (hnew : Numbered number n' new) (hle : n ≤ n')
    (hge : ∀ x ∈ new, n ≤ number x) : Numbered number n' (a ++ new ++ c) := by
  have hperm : (a ++ new ++ c).Perm (new ++ (a ++ c)) := by
    rw [← append_assoc]
    exact List.perm_append_comm.append_right c
  refine ⟨hperm.nodup_iff.2 (List.nodup_append.2 ⟨hnew.distinct, h.distinct, ?_⟩), fun x hx => ?_⟩
  · rintro x hx y hy rfl
    have := hge x hx
    have := h.below x hy
    omega
  · rcases List.mem_append.1 (hperm.mem_iff.1 hx) with hx | hx
    · exact hnew.below x hx
    · have := h.below x hx
      omega

def labelNumber (l : Label) : Nat := l.id.toNat

def symbolNumber (x : Symbol) : Nat := x.id.toNat

def declaredVars (ds : List Decl) : List Symbol :=
  (ds.map (·.symbol)).filter (·.kind = .variable)

variable {ds : List Decl}

theorem mem_declaredVars {x : Symbol} :
    x ∈ declaredVars ds ↔ Declared ds x ∧ x.kind = .variable := by
  rw [declaredVars, mem_filter, mem_map]
  constructor
  · rintro ⟨⟨⟨_, size⟩, hd, rfl⟩, hkind⟩
    exact ⟨⟨size, hd⟩, by simpa using hkind⟩
  · rintro ⟨⟨size, hd⟩, hkind⟩
    exact ⟨⟨_, hd, rfl⟩, by simpa using hkind⟩

theorem declaredVars_append (ds ds' : List Decl) :
    declaredVars (ds ++ ds') = declaredVars ds ++ declaredVars ds' := by
  simp [declaredVars]

def labelsOf (functions : List Eeyore.Function) : List Label :=
  functions.flatMap fun f => setLabels f.body.toList

def varsOf (functions : List Eeyore.Function) : List Symbol :=
  functions.flatMap fun f => declaredVars f.decls

theorem Fresh.numbered {low high : Nat} {code : List Instruction} (h : Fresh low high code) :
    Numbered labelNumber (high + 1) (setLabels code) :=
  ⟨h.distinct, fun l hl => Nat.lt_succ_of_le (h.range l hl).2⟩

theorem Declares.numbered {t t' v v' : Nat} (h : Declares t t' v v' ds) :
    Numbered symbolNumber v' (declaredVars ds) ∧ ∀ x ∈ declaredVars ds, v ≤ symbolNumber x := by
  have hrange : ∀ x ∈ declaredVars ds, v ≤ symbolNumber x ∧ symbolNumber x < v' := by
    intro x hx
    obtain ⟨⟨size, hd⟩, hkind⟩ := mem_declaredVars.1 hx
    rcases h.known _ hd with ⟨i, heq, _, _⟩ | ⟨i, _, heq, hlow, hhigh⟩
    · cases heq
      cases hkind
    · cases heq
      exact ⟨hlow, hhigh⟩
  exact ⟨⟨h.distinct.filter _, fun x hx => (hrange x hx).2⟩, fun x hx => (hrange x hx).1⟩

theorem Declares.tempCount {t v v' : Nat} {ds : List Decl} (h : Declares 0 t v v' ds)
    (ht : t ≤ wordValues) : tempCount ds = t := by
  have hnd : ((ds.filter (·.symbol.isTemp)).map (·.symbol.id.toNat)).Nodup := by
    have hsyms : ((ds.filter (·.symbol.isTemp)).map (·.symbol)).Nodup :=
      h.distinct.sublist (List.filter_sublist.map _)
    rw [List.Nodup, pairwise_map] at hsyms ⊢
    refine hsyms.imp_of_mem fun {d e} hd he hne heq => hne ?_
    have hkind : ∀ d ∈ ds.filter (·.symbol.isTemp), d.symbol.kind = .temporary := by
      intro d hd
      simpa [Symbol.isTemp] using (List.mem_filter.1 hd).2
    have hid := UInt32.toNat_inj.1 heq
    have hk := (hkind d hd).trans (hkind e he).symm
    cases hx : d.symbol
    cases hy : e.symbol
    simp_all
  have hperm : ((ds.filter (·.symbol.isTemp)).map (·.symbol.id.toNat)).Perm (List.range t) := by
    refine (perm_ext_iff_of_nodup hnd nodup_range).2 fun n => ?_
    rw [mem_range, mem_map]
    constructor
    · rintro ⟨d, hd, rfl⟩
      obtain ⟨hd, htemp⟩ := List.mem_filter.1 hd
      rcases h.known d hd with ⟨i, rfl, _, hlt⟩ | ⟨i, _, rfl, _⟩
      · exact hlt
      · cases htemp
    · intro hn
      have hid : (UInt32.ofNat n).toNat = n := by
        unfold wordValues at ht
        simp only [UInt32.toNat_ofNat']
        omega
      refine ⟨⟨.temp (.ofNat n), none⟩, List.mem_filter.2 ⟨h.temps _ (Nat.zero_le _) ?_, rfl⟩, hid⟩
      omega
  have hlen := hperm.length_eq
  rwa [length_map, length_range] at hlen

/-! ## Functions -/

variable {signatures : Signatures} {env globals : List Decl} {b b' : Builder}
  {source : Tree.Function} {f : Eeyore.Function} {w : Written} {sources : List Tree.Function}
  {offset : UInt32}

/-- Parameters as declarations, numbered from `id` on. -/
def parameterDecls (id : Nat) : List Parameter → List Decl
  | [] => []
  | parameter :: rest =>
    ⟨.param (.ofNat id), if parameter.dimensions.isSome then some 0 else none⟩ ::
      parameterDecls (id + 1) rest

theorem works_parameterDimensions {parameter : Parameter} (hst : Standing env b)
    (hmem : ⟨.param (.ofNat id), if parameter.dimensions.isSome then some 0 else none⟩ ∈ b.known env) :
    Works signatures env parameter.price (parameterDimensions signatures parameter) b
      fun dimensions b' => Stands (b'.known env) ⟨.param (.ofNat id), dimensions, none⟩ := by
  unfold parameterDimensions Parameter.price
  split
  · rename_i hnone
    rw [hnone] at hmem
    exact .pure ⟨⟨rfl, absurd rfl, nofun⟩, ⟨_, hmem, by simp⟩, nofun,
      show 1 ≤ maxElements by decide, nofun, nofun⟩
  · rename_i exprs hsome
    rw [hsome] at hmem ⊢
    refine (works_evalDimensions hst).andThen fun ds b1 hem hposv => ?_
    refine meets_elementCount.andThen ?_
    rintro _ _ ⟨hsm, -, rfl⟩
    exact Works.pure ⟨⟨rfl, absurd rfl, nofun⟩, ⟨_, hem.known_subset env hmem, by simp⟩, hposv,
      hsm, nofun, nofun⟩

theorem meets_defineParameters {parameters : List Parameter} (hord : Orderly env b)
    (hsub : parameterDecls id parameters ⊆ b.known env) :
    Meets (parameters.map Parameter.price).sum (defineParameters signatures id parameters) b
      fun _ b' => Enlarges signatures env nowhere 0 b b' := by
  induction parameters generalizing b id with
  | nil => exact meets_pure (.refl hord)
  | cons parameter rest ih =>
    rw [defineParameters, map_cons, sum_cons]
    refine Meets.bind (works_parameterDimensions hord.standing (hsub (mem_cons_self ..))) ?_
    rintro dimensions b1 ⟨⟨hem, hlays⟩, hstd⟩
    refine meets_defineName.after ?_
    rintro _ _ rfl
    have hord1 := hord.emits hem
    have hfst : Enlarges signatures env nowhere 0 b
        (b1.addName parameter.name.value ⟨.param (.ofNat id), dimensions, none⟩) := by
      refine ⟨hlays.withScopes b.scopes _, ⟨hord1.neat, hord1.standing.addName hstd⟩,
        ⟨[(parameter.name.value, ⟨.param (.ofNat id), dimensions, none⟩)], ?_⟩,
        congrArg _ hem.sameVars⟩
      rw [Builder.addName, Scopes.add_eq_extend, hem.sameScopes]
    exact (ih hfst.orderly fun d hd => hem.known_subset env (hsub (mem_cons_of_mem _ hd))).imp
      fun _ _ h => hfst.trans h

/-- A function that obeys the declarations around it. -/
structure FunctionLaw (signatures : Signatures) (globals : List Decl) (source : Tree.Function)
    (f : Eeyore.Function) : Prop where
  name : f.name = source.name.value
  parameters : f.parameters = .ofNat source.parameters.length
  declared : ∃ t v v', t ≤ wordValues ∧ v ≤ v' ∧ Declares 0 t v v' f.decls
  lawful : ∀ i ∈ f.body.toList,
    Lawful signatures (globals ++ parameterDecls 0 source.parameters ++ f.decls) i
  aimed : ∀ i ∈ f.body.toList, ∀ l, i.target? = some l → l ∈ setLabels f.body.toList
  ended : f.body.back?.any (·.isTerminator) = true

theorem meets_finish (signatures : Signatures) (env : List Decl) {returns : ReturnType} :
    Meets 0 (finish returns) b fun _ b' =>
    Lays signatures env nowhere b b' ∧ b'.scopes = b.scopes ∧ b'.nextVar = b.nextVar ∧
      b'.code.body.back?.any (·.isTerminator) = true := by
  refine .free (builds_get.2 ⟨rfl, rfl⟩) ?_
  dsimp only
  split
  · rename_i hlast
    exact meets_pure ⟨.refl _, rfl, rfl, hlast⟩
  · have hreturn : ∀ value, (∀ v, value = some v → Known (b.known env) v) →
        Meets 0 (push (.return value)) b fun _ b' =>
          Lays signatures env nowhere b b' ∧ b'.scopes = b.scopes ∧ b'.nextVar = b.nextVar ∧
            b'.code.body.back?.any (·.isTerminator) = true := by
      intro value hvalue
      refine meets_push.imp ?_
      rintro _ _ rfl
      exact ⟨.emit _ rfl trivial (.return hvalue) nofun, rfl, rfl, by rw [back?_emit]; rfl⟩
    cases returns with
    | int => exact hreturn _ (by rintro _ ⟨⟩; exact known_const 0)
    | void => exact hreturn _ nofun

theorem meets_writeBody {function : Tree.Function} (hord : Orderly env b)
    (hsub : parameterDecls 0 function.parameters ⊆ b.known env) :
    Meets function.price (writeBody signatures function) b fun _ b' =>
      Lays signatures env nowhere b b' ∧ b'.scopes = b.scopes ∧
        b'.nextVar.toNat = b.nextVar.toNat + function.body.variables ∧
        b'.code.body.back?.any (·.isTerminator) = true := by
  rw [Function.price]
  refine meets_enterScope.after ?_
  rintro _ _ rfl
  have hord0 : Orderly env { b with scopes := b.scopes.enter } := ⟨hord.neat, hord.standing.enter⟩
  refine (meets_defineParameters hord0 hsub).bind fun _ b1 hpars => ?_
  have hstm : Meets (Statement.block function.body).price (writeStatement
      ⟨signatures, function.returns⟩ none (.block function.body)) b1 fun _ b' => States signatures
      env none (Statement.block function.body).variables b1 b' := meets_writeStatement hpars.orderly
  rw [Statement.price, Statement.variables] at hstm
  refine hstm.andThen fun _ b2 hbody => ?_
  obtain ⟨added, hsc⟩ := hpars.scopes
  refine (meets_leaveScope b.scopes (by rw [hbody.scopes, hsc]; rfl)).andThen ?_
  rintro _ _ rfl
  have hnone : ∀ l, loopGoals none l → nowhere l := by
    rintro l ⟨_, ⟨⟩, _⟩
  have hlays := (hpars.lays.trans (hbody.lays.weaken hnone)).withScopes b.scopes b.scopes
  refine (meets_finish signatures env).imp ?_
  rintro _ b' ⟨hlays', hsc', hvars', hended⟩
  refine ⟨hlays.trans hlays', hsc', ?_, hended⟩
  rw [hvars', ← show b1.nextVar.toNat = b.nextVar.toNat from hpars.vars]
  exact hbody.vars

theorem orderly_empty (parameters : List Parameter)
    (hst : Standing globals { b with code := .empty }) :
    Orderly (globals ++ parameterDecls 0 parameters) { b with code := .empty } := by
  have hsub : globals ++ [] ⊆ globals ++ parameterDecls 0 parameters ++ [] := by simp
  exact ⟨by simp [Code.empty], fun meaning hdfs => (hst meaning hdfs).mono hsub⟩

theorem law_writeFunction (h : Builds (writeFunction signatures source) b f b')
    (hst : Standing globals { b with code := .empty }) :
    FunctionLaw signatures globals source f ∧ b'.scopes = b.scopes ∧
      b.lastLabel.toNat ≤ b'.lastLabel.toNat ∧ b.nextVar.toNat ≤ b'.nextVar.toNat ∧
      Fresh b.lastLabel.toNat b'.lastLabel.toNat f.body.toList ∧
      Declares 0 b'.code.temps.toNat b.nextVar.toNat b'.nextVar.toNat f.decls := by
  obtain ⟨hbody, rfl⟩ := builds_writeFunction h
  have hord := orderly_empty source.parameters hst
  obtain ⟨hlays, hsc, _, hended⟩ :=
    (meets_writeBody hord (by simp [Builder.known])).post _ _ hbody
  have hwr : written { b with code := .empty } b' = b'.code.body.toList := rfl
  have hfr := hlays.toGrows.fresh
  rw [hwr] at hfr
  obtain ⟨ds, hdecls, hdcl⟩ := hlays.decls
  obtain rfl : b'.code.decls.toList = ds := hdecls
  have htemps : b'.code.temps.toNat < wordValues := b'.code.temps.toNat_lt
  refine ⟨⟨rfl, rfl, ⟨_, _, _, Nat.le_of_lt htemps, hlays.vars, hdcl⟩, hlays.lawful, fun i hi l hl => ?_,
    hended⟩, hsc, hlays.labels, hlays.vars, hfr, hdcl⟩
  exact (hlays.aimed i hi l hl).resolve_right id

/-! ## Items -/

theorem FunctionLaw.mono {globals' : List Decl} (h : FunctionLaw signatures globals source f)
    (hsub : globals ⊆ globals') :
    FunctionLaw signatures globals' source f where
  name := h.name
  parameters := h.parameters
  declared := h.declared
  lawful i hi := (h.lawful i hi).mono fun d hd => by
    rw [append_assoc, mem_append] at hd ⊢
    exact hd.imp (fun hd => hsub hd) id
  aimed := h.aimed
  ended := h.ended

/-- The declarations of globals; the temporaries of their initializers are left out. -/
def globalDecls (code : Code) : List Decl := code.decls.toList.filter (!·.symbol.isTemp)

/-- The code that initializes the globals. -/
structure InitLaw (signatures : Signatures) (code : Code) : Prop where
  neat : ∀ i ∈ code.body.toList, Neat i
  lawful : ∀ i ∈ code.body.toList, Lawful signatures code.decls.toList i
  aimed : ∀ i ∈ code.body.toList, ∀ l, i.target? = some l → l ∈ setLabels code.body.toList
  distinct : (code.decls.toList.map (·.symbol)).Nodup
  known : ∀ d ∈ code.decls.toList,
    (∃ i, d = ⟨.temp i, none⟩ ∧ i.toNat < code.temps.toNat) ∨ ∃ i size, d = ⟨.var i, size⟩
  temps : ∀ i : UInt32, i.toNat < code.temps.toNat → ⟨.temp i, none⟩ ∈ code.decls.toList
  small : ∀ d ∈ code.decls.toList, ∀ size, d.size = some size → size.toNat ≤ maxElements

/-- What holds between two items of a program; `sources` are the functions so far. -/
structure ItemsLaw (signatures : Signatures) (sources : List Tree.Function) (w : Written) :
    Prop where
  standing : Standing [] { w.builder with code := w.globals }
  init : InitLaw signatures w.globals
  functions : List.Forall₂ (fun source f => FunctionLaw signatures (globalDecls w.globals) source f ∧
    tempCount f.decls < wordValues) sources w.functions.toList
  labels : Numbered labelNumber (w.builder.lastLabel.toNat + 1)
    (setLabels w.globals.body.toList ++ labelsOf w.functions.toList)
  vars : Numbered symbolNumber w.builder.nextVar.toNat
    (declaredVars w.globals.decls.toList ++ varsOf w.functions.toList)

theorem itemsLaw_empty (signatures : Signatures) :
    ItemsLaw signatures [] ⟨.empty, .empty, #[]⟩ := by
  refine ⟨?_, ⟨by simp [Code.empty], by simp [Code.empty], by simp [Code.empty], by simp [Code.empty],
    by simp [Code.empty], fun i hi => absurd hi (Nat.not_lt_zero _), by simp [Code.empty]⟩, .nil, ?_,
    ?_⟩
  · rintro meaning ⟨scope, hscope, name, hmem⟩
    simp only [Builder.empty, Scopes.empty, nil_append, mem_singleton] at hscope
    rw [hscope] at hmem
    cases hmem
  · exact ⟨nodup_nil, nofun⟩
  · exact ⟨nodup_nil, nofun⟩

theorem result_writeItem {item : Item} (h : (writeItem signatures w item).result = .ok w') :
    (∃ declaration builder, item = .declaration declaration ∧
      Builds (declare signatures true declaration) { w.builder with code := w.globals } () builder ∧
      w' = { w with builder := builder, globals := builder.code }) ∨
    (∃ source f builder, item = .function source ∧
      Builds (writeFunction signatures source) w.builder f builder ∧
      w' = { w with builder := builder, functions := w.functions.push f }) := by
  cases item with
  | declaration declaration =>
    rw [writeItem] at h
    simp only [result_bind, result_ofExcept] at h
    obtain ⟨⟨⟨⟩, builder⟩, hb, h⟩ := bind_eq_ok.1 h
    cases h
    exact .inl ⟨declaration, builder, rfl, hb, rfl⟩
  | function source =>
    rw [writeItem] at h
    simp only [result_bind, result_ofExcept] at h
    obtain ⟨⟨f, builder⟩, hb, h⟩ := bind_eq_ok.1 h
    cases h
    exact .inr ⟨source, f, builder, rfl, hb, rfl⟩

theorem InitLaw.lays (h : InitLaw signatures b.code) (hlays : Lays signatures [] nowhere b b')
    (hord : Orderly [] b')
    (hvars : ∀ x ∈ declaredVars b.code.decls.toList, symbolNumber x < b.nextVar.toNat) :
    InitLaw signatures b'.code := by
  have hbody := hlays.toGrows.append_written
  obtain ⟨ds, hdecls, hdcl⟩ := hlays.decls
  have hset : setLabels b'.code.body.toList =
      setLabels b.code.body.toList ++ setLabels (written b b') := by
    rw [hbody, setLabels, filterMap_append]
    rfl
  refine ⟨hord.neat, fun i hi => ?_, fun i hi l hl => ?_, ?_, fun d hd => ?_, fun i hi => ?_,
    fun d hd => ?_⟩
  · rw [hbody, mem_append] at hi
    rcases hi with hi | hi
    · exact (h.lawful i hi).mono fun d hd => hlays.mem_decls hd
    · exact hlays.lawful i hi
  · rw [hbody, mem_append] at hi
    rw [hset, mem_append]
    rcases hi with hi | hi
    · exact .inl (h.aimed i hi l hl)
    · exact .inr ((hlays.aimed i hi l hl).resolve_right id)
  · rw [hdecls, map_append, nodup_append]
    refine ⟨h.distinct, hdcl.distinct, ?_⟩
    rintro _ hx _ hy rfl
    obtain ⟨d, hd, rfl⟩ := List.mem_map.1 hx
    obtain ⟨e, he, heq⟩ := List.mem_map.1 hy
    rcases h.known d hd with ⟨i, rfl, hi⟩ | ⟨i, size, rfl⟩ <;>
      rcases hdcl.known e he with ⟨j, rfl, hj, _⟩ | ⟨j, _, rfl, hj, _⟩ <;>
      cases heq
    · omega
    · have hlt : i.toNat < b.nextVar.toNat := hvars _ (mem_declaredVars.2 ⟨⟨size, hd⟩, rfl⟩)
      omega
  · rw [hdecls, mem_append] at hd
    rcases hd with hd | hd
    · rcases h.known d hd with ⟨i, rfl, hi⟩ | hvar
      · have := hlays.temps
        exact .inl ⟨i, rfl, by omega⟩
      · exact .inr hvar
    · rcases hdcl.known d hd with ⟨i, rfl, _, hi⟩ | ⟨i, size, rfl, _⟩
      · exact .inl ⟨i, rfl, hi⟩
      · exact .inr ⟨i, size, rfl⟩
  · rw [hdecls, mem_append]
    by_cases hlt : i.toNat < b.code.temps.toNat
    · exact .inl (h.temps i hlt)
    · exact .inr (hdcl.temps i (by omega) hi)
  · rw [hdecls, mem_append] at hd
    rcases hd with hd | hd
    · exact h.small d hd
    · exact hdcl.small d hd

theorem itemsLaw_declaration {declaration : Declaration} (h : ItemsLaw signatures sources w)
    (hb : Builds (declare signatures true declaration) { w.builder with code := w.globals } ()
      builder) :
    ItemsLaw signatures sources { w with builder := builder, globals := builder.code } := by
  obtain ⟨hlays, hord, _⟩ := (meets_declare ⟨h.init.neat, h.standing⟩).post _ _ hb
  obtain ⟨ds, hdecls, hdcl⟩ := hlays.decls
  obtain ⟨hnmd, hge⟩ := hdcl.numbered
  have hbody : builder.code.body.toList = w.globals.body.toList ++ written _ builder :=
    hlays.toGrows.append_written
  have hfr := hlays.toGrows.fresh
  have hvars : ∀ x ∈ declaredVars w.globals.decls.toList,
      symbolNumber x < w.builder.nextVar.toNat := fun x hx =>
    h.vars.below x (mem_append_left _ hx)
  refine ⟨hord.standing, h.init.lays hlays hord hvars, ?_, ?_, ?_⟩
  · refine h.functions.imp fun source f hlaw => ⟨hlaw.1.mono fun d hd => ?_, hlaw.2⟩
    rw [globalDecls, mem_filter] at hd ⊢
    exact ⟨hlays.mem_decls hd.1, hd.2⟩
  · rw [hbody, setLabels, filterMap_append]
    refine h.labels.insert hfr.numbered (Nat.succ_le_succ hlays.labels) fun l hl => ?_
    exact Nat.succ_le_of_lt (hfr.range l hl).1
  · rw [hdecls, declaredVars_append]
    exact h.vars.insert hnmd hlays.vars hge

theorem Standing.outside (h : Standing [] { b with code := code }) :
    Standing (globalDecls code) { b with code := .empty } := by
  intro meaning hdfs
  obtain ⟨hvld, ⟨size, hmem, hsz⟩, hposv, hsm, hfilled, hsized⟩ := h meaning hdfs
  have hglob : ∀ size, ⟨meaning.symbol, size⟩ ∈ code.decls.toList →
      ⟨meaning.symbol, size⟩ ∈ globalDecls code ++ [] := fun size hmem =>
    mem_append_left _ (List.mem_filter.2 ⟨hmem, by simp [hvld.symbol]⟩)
  exact ⟨hvld, ⟨size, hglob size hmem, hsz⟩, hposv, hsm, hfilled,
    fun hkind => ⟨hglob _ (hsized hkind).1, (hsized hkind).2⟩⟩

theorem itemsLaw_function (h : ItemsLaw signatures sources w)
    (hb : Builds (writeFunction signatures source) w.builder f builder) :
    ItemsLaw signatures (sources ++ [source])
      { w with builder := builder, functions := w.functions.push f } := by
  obtain ⟨hlaw, hsc, hlabs, hvars, hfr, hdcl⟩ := law_writeFunction hb (Standing.outside h.standing)
  have ht : builder.code.temps.toNat < wordValues := builder.code.temps.toNat_lt
  obtain ⟨hnmd, hge⟩ := hdcl.numbered
  refine ⟨fun meaning hdfs => ?_, h.init, ?_, ?_, ?_⟩
  · rw [hsc] at hdfs
    exact h.standing meaning hdfs
  · rw [Array.toList_push]
    have htemps : tempCount f.decls < wordValues := by
      rwa [hdcl.tempCount (Nat.le_of_lt ht)]
    exact rel_append h.functions (.cons ⟨hlaw, htemps⟩ .nil)
  · have hnew : labelsOf (w.functions.push f).toList =
        labelsOf w.functions.toList ++ setLabels f.body.toList := by simp [labelsOf]
    rw [hnew, ← append_assoc, ← append_nil (_ ++ setLabels f.body.toList)]
    refine Numbered.insert (by simpa using h.labels) hfr.numbered (Nat.succ_le_succ hlabs)
      fun l hl => ?_
    exact Nat.succ_le_of_lt (hfr.range l hl).1
  · have hnew : varsOf (w.functions.push f).toList =
        varsOf w.functions.toList ++ declaredVars f.decls := by simp [varsOf]
    rw [hnew, ← append_assoc, ← append_nil (_ ++ declaredVars f.decls)]
    exact Numbered.insert (by simpa using h.vars) hnmd hvars hge

def functionsOf (items : List Item) : List Tree.Function :=
  items.filterMap fun
    | .declaration _ => none
    | .function function => some function

theorem itemsLaw_items {items : List Item} (h : ItemsLaw signatures sources w)
    (hres : (items.foldlM (writeItem signatures) w).result = .ok w') :
    ItemsLaw signatures (sources ++ functionsOf items) w' := by
  induction items generalizing w sources with
  | nil =>
    cases hres
    rw [functionsOf, filterMap_nil, append_nil]
    exact h
  | cons item items ih =>
    rw [foldlM_cons, result_bind] at hres
    obtain ⟨w1, hfst, hrest⟩ := bind_eq_ok.1 hres
    rcases result_writeItem hfst with ⟨declaration, builder, rfl, hb, rfl⟩ |
      ⟨source, f, builder, rfl, hb, rfl⟩
    · exact ih (itemsLaw_declaration h hb) hrest
    · have := ih (itemsLaw_function h hb) hrest
      rwa [append_assoc] at this

/-! ## The code in front of `main` -/

theorem label?_mapSymbols (f : Symbol → Symbol) (i : Instruction) :
    (i.mapSymbols f).label? = i.label? := by
  cases i <;> rfl

theorem target?_mapSymbols (f : Symbol → Symbol) (i : Instruction) :
    (i.mapSymbols f).target? = i.target? := by
  cases i <;> rfl

theorem setLabels_mapSymbols (f : Symbol → Symbol) (code : List Instruction) :
    setLabels (code.map (·.mapSymbols f)) = setLabels code := by
  rw [setLabels, filterMap_map]
  exact congrArg (filterMap · code) (funext fun i => label?_mapSymbols f i)

theorem Lawful.mapSymbols {ds' : List Decl} {f : Symbol → Symbol} {i : Instruction}
    (h : Lawful signatures ds i) (hmap : ∀ x size, ⟨x, size⟩ ∈ ds → ⟨f x, size⟩ ∈ ds') :
    Lawful signatures ds' (i.mapSymbols f) := by
  have hval : ∀ v, Known ds v → Known ds' (v.mapSymbol f) := by
    intro v hv
    cases v with
    | const c => exact known_const c
    | symbol x =>
      obtain ⟨size, hmem⟩ := hv x rfl
      exact known_symbol ⟨size, hmap x size hmem⟩
  have hsca : ∀ x, i.definition = some x → ⟨f x, none⟩ ∈ ds' := fun x hx =>
    hmap x none (h.scalar x hx)
  have harr : ∀ x, i.base? = some x → DeclaredArray ds' (f x) := by
    intro x hx
    obtain ⟨size, hmem⟩ := h.array x hx
    exact ⟨size, hmap x _ hmem⟩
  have hops : ∀ v ∈ i.operands, Known ds' (v.mapSymbol f) := fun v hv =>
    hval v (h.operands v hv)
  cases i with
  | unary dest op operand =>
    exact .unary (hsca dest rfl) (hops operand (by simp [Instruction.operands]))
  | binary dest op left right =>
    refine .binary (hsca dest rfl) (hops left (by simp [Instruction.operands]))
      (hops right (by simp [Instruction.operands])) ?_
    intro a c hconst
    cases left with
    | symbol x => cases hconst.1
    | const a' =>
      cases right with
      | symbol y => cases hconst.2
      | const c' => exact h.folded dest op a' c' rfl
  | copy dest value =>
    exact .copy (hsca dest rfl) (hops value (by simp [Instruction.operands]))
  | store array index value =>
    exact .store (harr array rfl) (hops index (by simp [Instruction.operands]))
      (hops value (by simp [Instruction.operands]))
  | load dest array index =>
    exact .load (hsca dest rfl) (harr array rfl) (hops index (by simp [Instruction.operands]))
  | branch left relation right target =>
    exact .branch (hops left (by simp [Instruction.operands]))
      (hops right (by simp [Instruction.operands]))
  | jump target => exact .jump target
  | label l => exact .label l
  | call function arguments output =>
    obtain ⟨signature, hsig, hlen⟩ := h.arguments _ _ _ rfl
    refine .call hsig (by rw [length_map, hlen]) ?_ ?_
    · intro v hv
      obtain ⟨w, hw, rfl⟩ := List.mem_map.1 hv
      exact hops w hw
    · intro x hx
      obtain ⟨y, hy, rfl⟩ := Option.map_eq_some_iff.1 hx
      exact hsca y hy
  | «return» value =>
    refine .return fun v hv => ?_
    obtain ⟨w, rfl, rfl⟩ := Option.map_eq_some_iff.1 hv
    exact hops w (by simp [Instruction.operands])

theorem relocate_eq_ok (h : relocate code main = .ok (gs, main')) :
    gs = globalDecls code ∧
      (∀ d ∈ code.decls.toList, d.symbol.isTemp = true →
        d.symbol.id.toNat + (UInt32.ofNat (tempCount main.decls)).toNat < wordValues) ∧
      main' = { main with
        decls := main.decls ++ (code.decls.toList.filter (·.symbol.isTemp)).map fun d =>
          { d with symbol := shiftTemp (.ofNat (tempCount main.decls)) d.symbol }
        body := code.body.map (·.mapSymbols (shiftTemp (.ofNat (tempCount main.decls)))) ++
          main.body } := by
  unfold relocate at h
  simp only [partition_eq_filter_filter] at h
  split at h
  · rename_i hshf
    cases h
    refine ⟨rfl, fun d hd htemp => ?_, rfl⟩
    have hmem : d.symbol ∈ (code.decls.toList.filter (·.symbol.isTemp)).map (·.symbol) :=
      mem_map_of_mem (List.mem_filter.2 ⟨hd, htemp⟩)
    have hcan := List.all_eq_true.1 hshf _ (mem_append_left _ hmem)
    simpa [canShift, htemp] using hcan
  · cases h

theorem toNat_shift {i : UInt32} (h : i.toNat + offset.toNat < wordValues) :
    (i + offset).toNat = i.toNat + offset.toNat := by
  unfold wordValues at h
  rw [UInt32.toNat_add]
  omega

theorem declares_shifted (h : InitLaw signatures code) (v : Nat)
    (hshf : ∀ d ∈ code.decls.toList, d.symbol.isTemp = true →
      d.symbol.id.toNat + offset.toNat < wordValues) :
    Declares offset.toNat (offset.toNat + code.temps.toNat) v v
      ((code.decls.toList.filter (·.symbol.isTemp)).map fun d =>
        { d with symbol := shiftTemp offset d.symbol }) := by
  have htemps : ∀ d ∈ code.decls.toList.filter (·.symbol.isTemp),
      ∃ i, d = ⟨.temp i, none⟩ ∧ i.toNat < code.temps.toNat ∧
        (i + offset).toNat = i.toNat + offset.toNat := by
    intro d hd
    obtain ⟨hd, htemp⟩ := List.mem_filter.1 hd
    rcases h.known d hd with ⟨i, rfl, hi⟩ | ⟨i, size, rfl⟩
    · exact ⟨i, rfl, hi, toNat_shift (hshf _ hd htemp)⟩
    · cases htemp
  refine ⟨?_, fun d hd => ?_, fun i hlow hhigh => ?_, fun i hlow hhigh => by omega, fun d hd => ?_⟩
  · rw [map_map, List.Nodup, pairwise_map]
    have hdist : (code.decls.toList.filter (·.symbol.isTemp)).Pairwise
        fun d e => d.symbol ≠ e.symbol :=
      List.pairwise_map.1 (h.distinct.sublist (List.filter_sublist.map _))
    refine hdist.imp_of_mem fun {d e} hd he hne heq => hne ?_
    obtain ⟨i, rfl, _, hi⟩ := htemps d hd
    obtain ⟨j, rfl, _, hj⟩ := htemps e he
    have hsum : i + offset = j + offset := congrArg Symbol.id heq
    have hij : i = j := UInt32.toNat_inj.1 (by
      have := congrArg UInt32.toNat hsum
      omega)
    rw [hij]
  · obtain ⟨e, he, rfl⟩ := List.mem_map.1 hd
    obtain ⟨i, rfl, hi, hsum⟩ := htemps e he
    exact .inl ⟨i + offset, rfl, by omega, by omega⟩
  · have hsub : (i - offset).toNat = i.toNat - offset.toNat := by
      rw [UInt32.toNat_sub_of_le _ _ (UInt32.le_iff_toNat_le.2 hlow)]
    refine List.mem_map.2 ⟨⟨.temp (i - offset), none⟩, List.mem_filter.2 ⟨h.temps _ ?_, rfl⟩, ?_⟩
    · omega
    · show (⟨⟨.temporary, i - offset + offset⟩, none⟩ : Decl) = ⟨.temp i, none⟩
      rw [UInt32.sub_add_cancel]
      rfl
  · obtain ⟨e, he, rfl⟩ := List.mem_map.1 hd
    obtain ⟨i, rfl, -⟩ := htemps e he
    exact nofun

theorem temps_le (h : InitLaw signatures code) (hoff : offset.toNat ≤ wordValues)
    (hshf : ∀ d ∈ code.decls.toList, d.symbol.isTemp = true →
      d.symbol.id.toNat + offset.toNat < wordValues) :
    offset.toNat + code.temps.toNat ≤ wordValues := by
  by_cases hz : code.temps.toNat = 0
  · omega
  · have hone : (1 : UInt32) ≤ code.temps := by
      rw [UInt32.le_iff_toNat_le]
      exact Nat.one_le_iff_ne_zero.2 hz
    have hpred : (code.temps - 1).toNat = code.temps.toNat - 1 := UInt32.toNat_sub_of_le _ _ hone
    have hbnd := hshf _ (h.temps (code.temps - 1) (by omega)) rfl
    change (code.temps - 1).toNat + offset.toNat < wordValues at hbnd
    omega

theorem declaredVars_filter (ds : List Decl) :
    declaredVars (ds.filter (!·.symbol.isTemp)) = declaredVars ds := by
  induction ds with
  | nil => rfl
  | cons d ds ih =>
    obtain ⟨⟨kind, id⟩, size⟩ := d
    cases kind <;> simp_all [declaredVars, Symbol.isTemp]

theorem law_relocate (hinit : InitLaw signatures code)
    (hmain : FunctionLaw signatures (globalDecls code) source main)
    (htemps : tempCount main.decls < wordValues) (h : relocate code main = .ok (gs, main')) :
    gs = globalDecls code ∧ FunctionLaw signatures gs source main' ∧
      setLabels main'.body.toList = setLabels code.body.toList ++ setLabels main.body.toList ∧
      declaredVars main'.decls = declaredVars main.decls ∧
      tempCount main'.decls = tempCount main.decls + code.temps.toNat := by
  obtain ⟨rfl, hshf, hmain'⟩ := relocate_eq_ok h
  obtain ⟨t, v, v', ht, hv, hdcl⟩ := hmain.declared
  have hcnt := hdcl.tempCount ht
  have hoff : (UInt32.ofNat (tempCount main.decls)).toNat = t := by
    unfold wordValues at htemps
    rw [UInt32.toNat_ofNat', ← hcnt]
    omega
  generalize UInt32.ofNat (tempCount main.decls) = offset at hshf hmain' hoff
  have hshifted := declares_shifted hinit v' hshf
  rw [hoff] at hshifted
  have hset : setLabels main'.body.toList =
      setLabels code.body.toList ++ setLabels main.body.toList := by
    rw [hmain', Array.toList_append, Array.toList_map, setLabels, filterMap_append]
    exact congrArg (· ++ _) (setLabels_mapSymbols _ _)
  have hvars : declaredVars main'.decls = declaredVars main.decls := by
    have hnone : declaredVars ((code.decls.toList.filter (·.symbol.isTemp)).map fun d =>
        { d with symbol := shiftTemp offset d.symbol }) = [] := by
      refine List.eq_nil_iff_forall_not_mem.2 fun x hx => ?_
      obtain ⟨⟨size, hmem⟩, hkind⟩ := mem_declaredVars.1 hx
      rcases hshifted.known _ hmem with ⟨i, heq, _⟩ | ⟨i, _, _, _, _⟩
      · cases heq
        cases hkind
      · omega
    rw [hmain', declaredVars_append, hnone, append_nil]
  have hwords : t + code.temps.toNat ≤ wordValues := by
    rw [← hoff]
    exact temps_le hinit (hoff ▸ ht) hshf
  have hboth : Declares 0 (t + code.temps.toNat) v v' main'.decls := by
    rw [hmain']
    exact hdcl.append hshifted (Nat.zero_le _) (Nat.le_add_right _ _) hv (Nat.le_refl _)
  refine ⟨rfl, ⟨?_, ?_, ⟨_, v, v', hwords, hv, hboth⟩, fun i hi => ?_, fun i hi l hl => ?_, ?_⟩, hset,
    hvars, ?_⟩
  · rw [hmain']
    exact hmain.name
  · rw [hmain']
    exact hmain.parameters
  · rw [hmain'] at hi ⊢
    rw [Array.toList_append, mem_append, Array.toList_map] at hi
    rcases hi with hi | hi
    · obtain ⟨j, hj, rfl⟩ := List.mem_map.1 hi
      refine (hinit.lawful j hj).mapSymbols fun x size hmem => ?_
      by_cases htemp : x.isTemp = true
      · refine mem_append_right _ (mem_append_right _ (List.mem_map.2 ⟨⟨x, size⟩, ?_, rfl⟩))
        exact List.mem_filter.2 ⟨hmem, htemp⟩
      · rw [shiftTemp, if_neg htemp]
        refine mem_append_left _ (mem_append_left _ (List.mem_filter.2 ⟨hmem, ?_⟩))
        simpa using htemp
    · refine (hmain.lawful i hi).mono fun d hd => ?_
      rw [mem_append] at hd ⊢
      exact hd.imp id fun hd => mem_append_left _ hd
  · rw [hset, mem_append]
    rw [hmain', Array.toList_append, mem_append, Array.toList_map] at hi
    rcases hi with hi | hi
    · obtain ⟨j, hj, rfl⟩ := List.mem_map.1 hi
      rw [target?_mapSymbols] at hl
      exact .inl (hinit.aimed j hj l hl)
    · exact .inr (hmain.aimed i hi l hl)
  · have hended := hmain.ended
    rw [hmain', Array.back?_append]
    cases hlast : main.body.back? with
    | none =>
      rw [hlast] at hended
      cases hended
    | some last =>
      rw [hlast] at hended
      exact hended
  · rw [hboth.tempCount hwords, hcnt]

/-! ## Programs -/

theorem nodup_of_collectSignatures {known : Signatures} {functions : List Tree.Function}
    (h : collectSignatures known functions = .ok signatures) :
    (functions.map (·.name.value)).Nodup ∧
      ∀ f ∈ functions, known.lookup f.name.value = none := by
  induction functions generalizing known with
  | nil => exact ⟨nodup_nil, nofun⟩
  | cons function rest ih =>
    rw [collectSignatures] at h
    split at h
    · cases h
    · rename_i hnew
      obtain ⟨hnd, hrest⟩ := ih h
      have hoth : ∀ f ∈ rest, f.name.value ≠ function.name.value ∧
          known.lookup f.name.value = none := by
        intro f hf
        have hnone := hrest f hf
        rw [lookup_cons] at hnone
        split at hnone
        · cases hnone
        · rename_i hne
          exact ⟨by simpa using hne, hnone⟩
      rw [map_cons, nodup_cons]
      refine ⟨⟨fun hmem => ?_, hnd⟩, fun f hf => ?_⟩
      · obtain ⟨f, hf, heq⟩ := List.mem_map.1 hmem
        exact (hoth f hf).1 heq
      · rcases List.mem_cons.1 hf with rfl | hf
        · exact Option.not_isSome_iff_eq_none.1 hnew
        · exact (hoth f hf).2

/-- A program whose functions are lawful, whose labels and variables have unique numbers and whose
globals are variables, none of them too large. -/
structure ProgramLaw (signatures : Signatures) (sources : List Tree.Function)
    (program : Eeyore.Program) : Prop where
  functions : List.Forall₂ (FunctionLaw signatures program.globals) sources program.code
  labels : (labelsOf program.code).Nodup
  vars : (declaredVars program.globals ++ varsOf program.code).Nodup
  globals : ∀ d ∈ program.globals, d.symbol.kind = .variable
  small : ∀ d ∈ program.globals, ∀ size, d.size = some size → size.toNat ≤ maxElements

theorem replaceFirst_eq {p : α → Bool} {a : α} {xs : List α} (new : α) (h : xs.find? p = some a) :
    ∃ front back, xs = front ++ a :: back ∧ replaceFirst p new xs = front ++ new :: back := by
  induction xs with
  | nil => cases h
  | cons x xs ih =>
    rw [find?_cons] at h
    rw [replaceFirst]
    split at h
    · rename_i hp
      cases h
      exact ⟨[], xs, rfl, by rw [if_pos hp]; rfl⟩
    · rename_i hp
      obtain ⟨front, back, rfl, hrep⟩ := ih h
      refine ⟨x :: front, back, rfl, ?_⟩
      rw [if_neg (by simp [hp]), hrep]
      rfl

theorem generate_eq_ok (h : (generate tree).result = .ok program) :
    ∃ signatures w main main', collectSignatures library tree.functions = .ok signatures ∧
      (tree.items.foldlM (writeItem signatures) ⟨.empty, .empty, #[]⟩).result = .ok w ∧
      w.functions.toList.find? (·.name == "main") = some main ∧
      relocate w.globals main = .ok (program.globals, main') ∧
      program.code = replaceFirst (·.name == "main") main' w.functions.toList := by
  unfold generate at h
  simp only [result_bind, result_ofExcept] at h
  obtain ⟨signatures, hsigs, h⟩ := bind_eq_ok.1 h
  obtain ⟨w, hitems, h⟩ := bind_eq_ok.1 h
  cases hfind : w.functions.toList.find? (·.name == "main") with
  | none =>
    rw [hfind] at h
    cases h
  | some main =>
    rw [hfind] at h
    simp only [result_bind, result_ofExcept] at h
    obtain ⟨⟨gs, main'⟩, hrel, h⟩ := bind_eq_ok.1 h
    obtain ⟨_, _, h⟩ := bind_eq_ok.1 h
    cases h
    exact ⟨signatures, w, main, main', mapError_eq_ok.1 hsigs, hitems, hfind,
      mapError_eq_ok.1 hrel, rfl⟩

theorem law_generate (h : (generate tree).result = .ok program) :
    ∃ signatures, collectSignatures library tree.functions = .ok signatures ∧
      ProgramLaw signatures tree.functions program := by
  obtain ⟨signatures, w, main, main', hsigs, hitems, hfind, hrel, hcode⟩ := generate_eq_ok h
  refine ⟨signatures, hsigs, ?_⟩
  have hlaw := itemsLaw_items (itemsLaw_empty signatures) hitems
  obtain ⟨front, back, hspl, hrep⟩ := replaceFirst_eq main' hfind
  rw [hrep] at hcode
  have hfns := hlaw.functions
  rw [hspl] at hfns
  have hfro := forall₂_take_append _ _ _ hfns
  have hrest := forall₂_drop_append _ _ _ hfns
  obtain ⟨source, sources2, hmain, hback, hsrcs⟩ := List.forall₂_cons_right_iff.1 hrest
  obtain ⟨hglobs, hmain', hset, hvars, _⟩ := law_relocate hlaw.init hmain.1 hmain.2 hrel
  have htree : tree.functions = tree.functions.take front.length ++ source :: sources2 :=
    (take_append_drop front.length _).symm.trans (congrArg (_ ++ ·) hsrcs)
  refine ⟨?_, ?_, ?_, fun d hd => ?_, fun d hd => ?_⟩
  · rw [hcode, htree]
    rw [hglobs] at hmain' ⊢
    exact rel_append (hfro.imp fun _ _ hf => hf.1)
      (.cons hmain' (hback.imp fun _ _ hf => hf.1))
  · have hperm : (labelsOf program.code).Perm
        (setLabels w.globals.body.toList ++ labelsOf w.functions.toList) := by
      rw [hcode, hspl]
      simp only [labelsOf, flatMap_append, flatMap_cons, hset]
      rw [append_assoc (setLabels w.globals.body.toList)]
      exact perm_append_comm_assoc _ _ _
    exact hperm.nodup_iff.2 hlaw.labels.distinct
  · have hsame : declaredVars program.globals ++ varsOf program.code =
        declaredVars w.globals.decls.toList ++ varsOf w.functions.toList := by
      rw [hglobs, globalDecls, declaredVars_filter, hcode, hspl]
      simp only [varsOf, flatMap_append, flatMap_cons, hvars]
    rw [hsame]
    exact hlaw.vars.distinct
  · rw [hglobs, globalDecls, mem_filter] at hd
    rcases hlaw.init.known d hd.1 with ⟨i, rfl, _⟩ | ⟨i, size, rfl⟩
    · cases hd.2
    · rfl
  · rw [hglobs, globalDecls, mem_filter] at hd
    exact hlaw.init.small d hd.1

end SysY.Generation

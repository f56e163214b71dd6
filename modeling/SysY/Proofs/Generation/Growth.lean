import SysY.Proofs.Generation.Builds

/-!
# How code grows

Code under construction only grows. What is appended sets new labels, each one once, and declares new
symbols: those with the numbers that the counters pass. The code of an expression leaves the scopes
and the variables alone.

An operation on two operands always has a temporary as its destination. Therefore a comparison that
is the last instruction and computes the value of an expression was written for this expression, and
taking it back leaves the code of its operands.
-/

namespace SysY.Eeyore

def Instruction.label? : Instruction → Option Label
  | .label l => some l
  | _ => none

def setLabels (code : List Instruction) : List Label := code.filterMap Instruction.label?

theorem get_label_unique {n : Nat} {body : Vector Instruction n} (h : (setLabels body.toList).Nodup)
    (p q : Fin n) (l : Label) (hp : body.get p = .label l) (hq : body.get q = .label l) : p = q := by
  have hpairs := List.pairwise_iff_getElem.1 (List.pairwise_filterMap.1 h)
  have hdist : ∀ p q : Fin n, body.get p = .label l → body.get q = .label l → ¬ p.val < q.val := by
    intro p q hp hq hlt
    refine hpairs p.val q.val (by simp) (by simp) hlt l ?_ l ?_ rfl
    · exact congrArg Instruction.label? hp
    · exact congrArg Instruction.label? hq
  exact Fin.ext (Nat.le_antisymm (Nat.le_of_not_lt (hdist q p hq hp))
    (Nat.le_of_not_lt (hdist p q hp hq)))

end SysY.Eeyore

namespace SysY.Generation

open Eeyore SysY.Tree

variable {code : List Instruction} {low high : Nat}

/-! ## New labels and new symbols -/

/-- Instructions that set labels with numbers from `low + 1` to `high`, each one at most once. -/
structure Fresh (low high : Nat) (code : List Instruction) : Prop where
  distinct : (setLabels code).Nodup
  range : ∀ l ∈ setLabels code, low < l.id.toNat ∧ l.id.toNat ≤ high

namespace Fresh

theorem of_setLabels_nil (low high : Nat) (h : setLabels code = []) :
    Fresh low high code := ⟨by simp [h], by simp [h]⟩

theorem append {mid : Nat} {first second : List Instruction} (h1 : Fresh low mid first)
    (h2 : Fresh mid high second) (hlow : low ≤ mid) (hhigh : mid ≤ high) :
    Fresh low high (first ++ second) := by
  refine ⟨?_, fun l hl => ?_⟩
  · rw [setLabels, List.filterMap_append, List.nodup_append]
    refine ⟨h1.distinct, h2.distinct, fun l hl l' hl' heq => ?_⟩
    have := (h1.range l hl).2
    have := (h2.range l' hl').1
    subst heq
    omega
  · rw [setLabels, List.filterMap_append, List.mem_append] at hl
    rcases hl with hl | hl
    · have := h1.range l hl
      omega
    · have := h2.range l hl
      omega

theorem mark {l : Label} (h : Fresh (low + 1) high code)
    (hl : l.id.toNat = low + 1) (hhigh : low + 1 ≤ high) : Fresh low high (code ++ [.label l]) := by
  have hset : setLabels (code ++ [.label l]) = setLabels code ++ [l] := by
    simp [setLabels, Instruction.label?]
  refine ⟨?_, fun l' hl' => ?_⟩
  · rw [hset, List.nodup_append]
    refine ⟨h.distinct, by simp, fun l' hl' m hm heq => ?_⟩
    rw [List.mem_singleton] at hm
    subst heq hm
    have := (h.range _ hl').1
    omega
  · rw [hset, List.mem_append, List.mem_singleton] at hl'
    rcases hl' with hl' | rfl
    · have := h.range l' hl'
      omega
    · omega

end Fresh

/-- Declarations of the temporaries and of the variables in a range of numbers, each one once, and
of no array that is too large. -/
structure Declares (temp temp' var var' : Nat) (decls : List Decl) : Prop where
  distinct : (decls.map (·.symbol)).Nodup
  known : ∀ d ∈ decls,
    (∃ i, d = ⟨.temp i, none⟩ ∧ temp ≤ i.toNat ∧ i.toNat < temp') ∨
    (∃ i size, d = ⟨.var i, size⟩ ∧ var ≤ i.toNat ∧ i.toNat < var')
  temps : ∀ i : UInt32, temp ≤ i.toNat → i.toNat < temp' → ⟨.temp i, none⟩ ∈ decls
  vars : ∀ i : UInt32, var ≤ i.toNat → i.toNat < var' → ∃ size, ⟨.var i, size⟩ ∈ decls
  small : ∀ d ∈ decls, ∀ size, d.size = some size → size.toNat ≤ maxElements

namespace Declares

theorem nil (temp var : Nat) : Declares temp temp var var [] :=
  ⟨List.nodup_nil, by simp, fun _ _ _ => by omega, fun _ _ _ => by omega, by simp⟩

theorem temp_singleton (i : UInt32) (var : Nat) :
    Declares i.toNat (i.toNat + 1) var var [⟨.temp i, none⟩] := by
  refine ⟨by simp, fun d hd => ?_, fun j _ _ => ?_, fun _ _ _ => by omega, by simp⟩
  · rw [List.mem_singleton] at hd
    exact .inl ⟨i, hd, Nat.le_refl _, Nat.lt_succ_self _⟩
  · obtain rfl : j = i := UInt32.toNat_inj.1 (by omega)
    exact List.mem_singleton.2 rfl

theorem var_singleton (i : UInt32) (temp : Nat) {size : Option UInt32}
    (hsm : ∀ s, size = some s → s.toNat ≤ maxElements) :
    Declares temp temp i.toNat (i.toNat + 1) [⟨.var i, size⟩] := by
  refine ⟨by simp, fun d hd => ?_, fun _ _ _ => by omega, fun j _ _ => ?_, by simpa using hsm⟩
  · rw [List.mem_singleton] at hd
    exact .inr ⟨i, size, hd, Nat.le_refl _, Nat.lt_succ_self _⟩
  · obtain rfl : j = i := UInt32.toNat_inj.1 (by omega)
    exact ⟨size, List.mem_singleton.2 rfl⟩

theorem append {t1 t2 t3 v1 v2 v3 : Nat} {first second : List Decl}
    (h1 : Declares t1 t2 v1 v2 first) (h2 : Declares t2 t3 v2 v3 second) (ht : t1 ≤ t2)
    (ht' : t2 ≤ t3) (hv : v1 ≤ v2) (hv' : v2 ≤ v3) :
    Declares t1 t3 v1 v3 (first ++ second) := by
  refine ⟨?_, fun d hd => ?_, fun i hlow hhigh => ?_, fun i hlow hhigh => ?_, fun d hd => ?_⟩
  · rw [List.map_append, List.nodup_append]
    refine ⟨h1.distinct, h2.distinct, fun x hx y hy heq => ?_⟩
    obtain ⟨d, hd, rfl⟩ := List.mem_map.1 hx
    obtain ⟨e, he, rfl⟩ := List.mem_map.1 hy
    rcases h1.known d hd with ⟨i, rfl, _, _⟩ | ⟨i, _, rfl, _, _⟩ <;>
      rcases h2.known e he with ⟨j, rfl, _, _⟩ | ⟨j, _, rfl, _, _⟩ <;>
      simp only [Symbol.temp, Symbol.var, Symbol.mk.injEq, reduceCtorEq, false_and, true_and] at heq
    all_goals
      subst heq
      omega
  · rcases List.mem_append.1 hd with hd | hd
    · rcases h1.known d hd with ⟨i, rfl, _, _⟩ | ⟨i, size, rfl, _, _⟩
      · exact .inl ⟨i, rfl, by omega, by omega⟩
      · exact .inr ⟨i, size, rfl, by omega, by omega⟩
    · rcases h2.known d hd with ⟨i, rfl, _, _⟩ | ⟨i, size, rfl, _, _⟩
      · exact .inl ⟨i, rfl, by omega, by omega⟩
      · exact .inr ⟨i, size, rfl, by omega, by omega⟩
  · by_cases h : i.toNat < t2
    · exact List.mem_append_left _ (h1.temps i hlow h)
    · exact List.mem_append_right _ (h2.temps i (by omega) hhigh)
  · by_cases h : i.toNat < v2
    · obtain ⟨size, hmem⟩ := h1.vars i hlow h
      exact ⟨size, List.mem_append_left _ hmem⟩
    · obtain ⟨size, hmem⟩ := h2.vars i (by omega) hhigh
      exact ⟨size, List.mem_append_right _ hmem⟩
  · rcases List.mem_append.1 hd with hd | hd
    · exact h1.small d hd
    · exact h2.small d hd

end Declares

/-! ## Growth -/

/-- Operations on two operands have a temporary as their destination. -/
def Neat : Instruction → Prop
  | .binary dest .. => dest.isTemp = true
  | _ => True

/-- How a builder changes. -/
structure Grows (b b' : Builder) : Prop where
  labels : b.lastLabel.toNat ≤ b'.lastLabel.toNat
  temps : b.code.temps.toNat ≤ b'.code.temps.toNat
  vars : b.nextVar.toNat ≤ b'.nextVar.toNat
  body : ∃ code, b'.code.body.toList = b.code.body.toList ++ code ∧
    Fresh b.lastLabel.toNat b'.lastLabel.toNat code ∧ ∀ i ∈ code, Neat i
  decls : ∃ decls, b'.code.decls.toList = b.code.decls.toList ++ decls ∧
    Declares b.code.temps.toNat b'.code.temps.toNat b.nextVar.toNat b'.nextVar.toNat decls

/-- How the code of an expression changes a builder. -/
structure Emits (b b' : Builder) : Prop extends Grows b b' where
  sameScopes : b'.scopes = b.scopes
  sameVars : b'.nextVar = b.nextVar

variable {b b1 b2 b3 b' : Builder}

theorem toNat_succ {n : UInt32} (h : n.toNat + 1 < wordValues) : (n + 1).toNat = n.toNat + 1 := by
  rw [UInt32.toNat_add]
  unfold wordValues at h
  simp only [UInt32.reduceToNat]
  omega

@[simp] theorem toList_emit (b : Builder) (i : Instruction) :
    (b.emit i).code.body.toList = b.code.body.toList ++ [i] := by
  simp [Builder.emit]

@[simp] theorem decls_emit (b : Builder) (i : Instruction) :
    (b.emit i).code.decls = b.code.decls := rfl

@[simp] theorem decls_addTemp (b : Builder) :
    b.addTemp.code.decls.toList = b.code.decls.toList ++ [⟨.temp b.code.temps, none⟩] := by
  simp [Builder.addTemp]

@[simp] theorem decls_addVar (b : Builder) (size : Option UInt32) :
    (b.addVar size).code.decls.toList = b.code.decls.toList ++ [⟨.var b.nextVar, size⟩] := by
  simp [Builder.addVar]

namespace Grows

theorem refl (b : Builder) : Grows b b :=
  ⟨Nat.le_refl _, Nat.le_refl _, Nat.le_refl _,
    ⟨[], (List.append_nil _).symm, .of_setLabels_nil _ _ rfl, by simp⟩,
    [], (List.append_nil _).symm, .nil _ _⟩

theorem trans (h1 : Grows b1 b2) (h2 : Grows b2 b3) : Grows b1 b3 := by
  obtain ⟨code1, hbody1, hfr1, hneat1⟩ := h1.body
  obtain ⟨code2, hbody2, hfr2, hneat2⟩ := h2.body
  obtain ⟨decls1, hdecls1, hnew1⟩ := h1.decls
  obtain ⟨decls2, hdecls2, hnew2⟩ := h2.decls
  refine ⟨Nat.le_trans h1.labels h2.labels, Nat.le_trans h1.temps h2.temps,
    Nat.le_trans h1.vars h2.vars, ⟨code1 ++ code2, ?_, ?_, fun i hi => ?_⟩, decls1 ++ decls2, ?_, ?_⟩
  · rw [hbody2, hbody1, List.append_assoc]
  · exact hfr1.append hfr2 h1.labels h2.labels
  · rcases List.mem_append.1 hi with hi | hi
    · exact hneat1 i hi
    · exact hneat2 i hi
  · rw [hdecls2, hdecls1, List.append_assoc]
  · exact hnew1.append hnew2 h1.temps h2.temps h1.vars h2.vars

theorem neat (h : Grows b b') (hb : ∀ i ∈ b.code.body.toList, Neat i) :
    ∀ i ∈ b'.code.body.toList, Neat i := by
  obtain ⟨code, hbody, _, hneat⟩ := h.body
  intro i hi
  rw [hbody] at hi
  rcases List.mem_append.1 hi with hi | hi
  · exact hb i hi
  · exact hneat i hi

theorem mark (h : b.lastLabel.toNat + 1 < wordValues) (hb : Grows b.addLabel b') :
    Grows b (b'.emit (.label ⟨b.lastLabel + 1⟩)) := by
  have hlab : b.addLabel.lastLabel.toNat = b.lastLabel.toNat + 1 := toNat_succ h
  obtain ⟨code, hbody, hfr, hneat⟩ := hb.body
  have hhigh : b.lastLabel.toNat + 1 ≤ b'.lastLabel.toNat := hlab ▸ hb.labels
  rw [hlab] at hfr
  refine ⟨Nat.le_of_succ_le hhigh, hb.temps, hb.vars,
    ⟨code ++ [.label ⟨b.lastLabel + 1⟩], ?_, ?_, fun i hi => ?_⟩, hb.decls⟩
  · rw [toList_emit, hbody, List.append_assoc]
    rfl
  · exact hfr.mark (toNat_succ h) hhigh
  · rcases List.mem_append.1 hi with hi | hi
    · exact hneat i hi
    · rw [List.mem_singleton.1 hi]
      trivial

theorem mem_decls (h : Grows b b') {d : Decl} (hd : d ∈ b.code.decls.toList) :
    d ∈ b'.code.decls.toList := by
  obtain ⟨decls, hdecls, _⟩ := h.decls
  rw [hdecls]
  exact List.mem_append_left _ hd

end Grows

namespace Emits

theorem refl (b : Builder) : Emits b b := ⟨.refl b, rfl, rfl⟩

theorem trans (h1 : Emits b1 b2) (h2 : Emits b2 b3) : Emits b1 b3 :=
  ⟨h1.toGrows.trans h2.toGrows, h2.sameScopes.trans h1.sameScopes, h2.sameVars.trans h1.sameVars⟩

theorem find?_eq {env : String → Option Meaning} (h : Emits b b')
    (henv : b.scopes.find? = env) : b'.scopes.find? = env :=
  (congrArg Scopes.find? h.sameScopes).trans henv

theorem emit (b : Builder) {i : Instruction} (hlab : i.label? = none) (hneat : Neat i) :
    Emits b (b.emit i) := by
  refine ⟨⟨Nat.le_refl _, Nat.le_refl _, Nat.le_refl _, ⟨[i], by simp, ?_, by simpa using hneat⟩,
    [], by simp, .nil _ _⟩, rfl, rfl⟩
  exact .of_setLabels_nil _ _ (by simp [setLabels, hlab])

theorem addTemp (h : b.code.temps.toNat + 1 < wordValues) : Emits b b.addTemp := by
  have htemps : b.addTemp.code.temps.toNat = b.code.temps.toNat + 1 := toNat_succ h
  refine ⟨⟨Nat.le_refl _, by omega, Nat.le_refl _,
    ⟨[], (List.append_nil _).symm, .of_setLabels_nil _ _ rfl, by simp⟩, _, decls_addTemp b, ?_⟩,
    rfl, rfl⟩
  rw [htemps]
  exact .temp_singleton _ _

theorem addLabel (h : b.lastLabel.toNat + 1 < wordValues) : Emits b b.addLabel := by
  have hlab : b.addLabel.lastLabel.toNat = b.lastLabel.toNat + 1 := toNat_succ h
  refine ⟨⟨by omega, Nat.le_refl _, Nat.le_refl _,
    ⟨[], (List.append_nil _).symm, .of_setLabels_nil _ _ rfl, by simp⟩, [],
    (List.append_nil _).symm, .nil _ _⟩, rfl, rfl⟩

theorem mark (h : b.lastLabel.toNat + 1 < wordValues) (hb : Emits b.addLabel b') :
    Emits b (b'.emit (.label ⟨b.lastLabel + 1⟩)) :=
  ⟨hb.toGrows.mark h, hb.sameScopes, hb.sameVars⟩

end Emits

end SysY.Generation

import Mathlib.Data.List.Nodup
import Mathlib.Logic.Relation
import SysY.Eeyore.Symbol

/-!
# The control skeleton of code

Where control goes depends on three things about each instruction: the label that it sets, the label
that it can go to, and whether it may go on to the instruction behind it. Code of any language is
reduced to a list of these, its skeleton.

Two properties of a skeleton are what the rest needs. All labels that are gone to are set (`Aimed`),
and the last instruction does not go on (`Ended`); then control stays inside the code
(`Ended.not_runsOff`).
-/

namespace SysY

open List

/-- What an instruction means for the flow of control. -/
structure Control where
  /-- The label that it sets. -/
  label : Option Label
  /-- The label that it can go to. -/
  target : Option Label
  /-- Whether it never goes on to the next instruction. -/
  stops : Bool
deriving DecidableEq

namespace Control

variable {code other : List Control} {functions : List (List Control)}

/-- What all instructions without labels and jumps mean. -/
def plain : Control := ⟨none, none, false⟩

/-- The labels that are set, in order. -/
def labels (code : List Control) : List Label := code.filterMap label

/-- Every label that is gone to is set. -/
def Aimed (code : List Control) : Prop := ∀ c ∈ code, ∀ l, c.target = some l → l ∈ labels code

/-- The last instruction does not go on. -/
def Ended (code : List Control) : Prop := ∃ front c, code = front ++ [c] ∧ c.stops = true

/-! ## Labels -/

/-- In each function every label that is gone to is set once, and in all functions together no label
is set twice. -/
structure LabelsSound (functions : List (List Control)) : Prop where
  once : ∀ code ∈ functions, ∀ c ∈ code, ∀ l, c.target = some l → (labels code).count l = 1
  distinct : (functions.flatMap labels).Nodup

theorem labelsSound_of_aimed (haimed : ∀ code ∈ functions, Aimed code)
    (hdist : (functions.flatMap labels).Nodup) : LabelsSound functions := by
  refine ⟨fun code hcode c hc l hl => ?_, hdist⟩
  have hnd : (labels code).Nodup := (List.nodup_flatMap.1 hdist).1 code hcode
  exact count_eq_one_of_mem hnd (haimed code hcode c hc l hl)

/-! ## Ways through code -/

/-- Control can go from one position to another. -/
inductive Leads (code : List Control) (p : Nat) : Nat → Prop
  | jump {c d : Control} {q : Nat} {l : Label} : code[p]? = some c → c.target = some l →
    code[q]? = some d → d.label = some l → Leads code p q
  | next {c : Control} : code[p]? = some c → c.stops = false → Leads code p (p + 1)

/-- Some way from the entry leads behind the last instruction. -/
def RunsOff (code : List Control) : Prop := Relation.ReflTransGen (Leads code) 0 code.length

theorem Ended.length_pos (h : Ended code) : 0 < code.length := by
  obtain ⟨front, c, rfl, -⟩ := h
  simp

theorem Leads.lt_length (h : Ended code) {p q : Nat} (hleads : Leads code p q) :
    q < code.length := by
  cases hleads with
  | jump _ _ hq _ => exact (List.getElem?_eq_some_iff.1 hq).1
  | next hp hgoes =>
    obtain ⟨front, last, rfl, hstp⟩ := h
    have hlt := (List.getElem?_eq_some_iff.1 hp).1
    rw [length_append, length_singleton] at hlt ⊢
    by_contra hge
    obtain rfl : p = front.length := by omega
    rw [getElem?_concat_length] at hp
    cases hp
    rw [hstp] at hgoes
    cases hgoes

theorem Ended.not_runsOff (h : Ended code) : ¬ RunsOff code := by
  intro hruns
  have hins : ∀ q, Relation.ReflTransGen (Leads code) 0 q → q < code.length := by
    intro q hq
    cases hq with
    | refl => exact h.length_pos
    | tail _ hlast => exact hlast.lt_length h
  exact Nat.lt_irrefl _ (hins _ hruns)

/-! ## Plain instructions do not matter -/

/-- The instructions that matter to control. -/
def significant (code : List Control) : List Control := code.filter (· ≠ plain)

theorem significant_append (code other : List Control) :
    significant (code ++ other) = significant code ++ significant other := filter_append ..

theorem labels_significant (code : List Control) : labels (significant code) = labels code := by
  induction code with
  | nil => rfl
  | cons c code ih =>
    by_cases hc : c = plain
    · subst hc
      exact ih
    · have hcons : significant (c :: code) = c :: significant code :=
        filter_cons_of_pos (decide_eq_true hc)
      rw [hcons]
      unfold labels at ih ⊢
      rw [filterMap_cons, filterMap_cons, ih]

theorem labels_congr (h : significant code = significant other) : labels code = labels other := by
  rw [← labels_significant, h, labels_significant]

theorem Aimed.congr (h : significant code = significant other) (haimed : Aimed other) :
    Aimed code := by
  intro c hc l hl
  have hmem : c ∈ significant code := by
    refine List.mem_filter.2 ⟨hc, decide_eq_true ?_⟩
    rintro rfl
    cases hl
  rw [labels_congr h]
  exact haimed c (List.mem_filter.1 (h ▸ hmem)).1 l hl

end Control

end SysY

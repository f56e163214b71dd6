import Mathlib.Data.Fintype.Card
import SysY.Flow.Dominators
import SysY.Proofs.Flow.Semidominators

/-!
# Depth-first numbering

The edges along which a depth-first search comes to new nodes form a tree, and the search numbers the
nodes. `Searching` is what the search keeps: the nodes on its stack lie above each other, and whatever
it has met since it came to one of them lies below that one. In the end the tree and the numbers span
the graph, as `Spanning` asks for (`Graph.spanning`).
-/

namespace SysY.Flow

variable {n : Nat} {α : Type} {entries : List (Fin n × α)} {a b : Fin n}

/-! ## Rows filled from a list -/

theorem get_putAll_of_not_mem {p : Fin n} (h : p ∉ entries.map (·.1))
    (row : Vector α n) : (putAll row entries).get p = row.get p := by
  induction entries generalizing row with
  | nil => rfl
  | cons entry entries ih =>
    rw [List.map_cons] at h
    have hkeep := ih (List.not_mem_of_not_mem_cons h) (put row entry.1 entry.2)
    rw [putAll, List.foldl_cons, ← putAll, hkeep,
      get_put_of_ne _ _ (List.ne_of_not_mem_cons h).symm]

theorem get_putAll_of_mem {p : Fin n} {a : α}
    (hnd : (entries.map (·.1)).Nodup) (h : (p, a) ∈ entries) (row : Vector α n) :
    (putAll row entries).get p = a := by
  induction entries generalizing row with
  | nil => cases h
  | cons entry entries ih =>
    rw [List.map_cons, List.nodup_cons] at hnd
    rw [putAll, List.foldl_cons, ← putAll]
    rcases List.mem_cons.1 h with rfl | h
    · rw [get_putAll_of_not_mem hnd.1, get_put_self]
    · exact ih hnd.2 h _

/-! ## The tree of a search -/

/-- The nodes that a search has come to. -/
def orderOf (root : Fin n) (found : List (Fin n × Fin n)) : List (Fin n) := root :: found.map (·.1)

/-- The place of a node in the order of a search. -/
def placeOf (root : Fin n) (found : List (Fin n × Fin n)) (v : Fin n) : Nat :=
  (orderOf root found).idxOf v

/-- The edges of a search lead from one node to another one. -/
inductive Descends (found : List (Fin n × Fin n)) (a : Fin n) : Fin n → Prop
  | refl : Descends found a a
  | step {p q : Fin n} : Descends found a p → (q, p) ∈ found → Descends found a q

theorem Descends.mono {found found' : List (Fin n × Fin n)} (h : ∀ edge ∈ found, edge ∈ found') (hab : Descends found a b) : Descends found' a b := by
  induction hab with
  | refl => exact .refl
  | step _ hedge ih => exact .step ih (h _ hedge)

section concat
variable {root : Fin n} {found : List (Fin n × Fin n)} {p q v : Fin n}

theorem orderOf_concat (root : Fin n) (found : List (Fin n × Fin n)) (p q : Fin n) :
    orderOf root (found ++ [(q, p)]) = orderOf root found ++ [q] := by
  simp [orderOf]

theorem placeOf_lt (h : v ∈ orderOf root found) :
    placeOf root found v < (orderOf root found).length := List.idxOf_lt_length_of_mem h

theorem placeOf_inj (h : a ∈ orderOf root found)
    (heq : placeOf root found a = placeOf root found b) : a = b := (List.idxOf_inj h).1 heq

theorem placeOf_concat_of_mem (h : v ∈ orderOf root found) :
    placeOf root (found ++ [(q, p)]) v = placeOf root found v := by
  rw [placeOf, orderOf_concat, List.idxOf_append_of_mem h, placeOf]

theorem placeOf_concat_self (h : q ∉ orderOf root found) :
    placeOf root (found ++ [(q, p)]) q = (orderOf root found).length := by
  rw [placeOf, orderOf_concat, List.idxOf_append_of_notMem h]
  simp

theorem mem_orderOf_concat : v ∈ orderOf root (found ++ [(q, p)]) ↔ v ∈ orderOf root found ∨ v = q := by
  rw [orderOf_concat, List.mem_append, List.mem_singleton]

theorem placeOf_concat_lt (hq : q ∉ orderOf root found) (hv : v ∈ orderOf root found) :
    placeOf root (found ++ [(q, p)]) v < placeOf root (found ++ [(q, p)]) q := by
  rw [placeOf_concat_of_mem hv, placeOf_concat_self hq]
  exact placeOf_lt hv

theorem mem_orderOf_of_found (h : (q, p) ∈ found) : q ∈ orderOf root found :=
  List.mem_cons_of_mem _ (List.mem_map.2 ⟨_, h, rfl⟩)

theorem Descends.concat (h : Descends found a b) : Descends (found ++ [(q, p)]) a b :=
  h.mono fun _ hedge => List.mem_append_left _ hedge

theorem Descends.of_concat (hparents : ∀ p q, (q, p) ∈ found → p ∈ orderOf root found)
    (hq : q ∉ orderOf root found) (hab : Descends (found ++ [(q, p)]) a b)
    (hb : b ∈ orderOf root found) : Descends found a b ∧ a ∈ orderOf root found := by
  induction hab with
  | refl => exact ⟨.refl, hb⟩
  | @step r b _ hedge ih =>
    rcases List.mem_append.1 hedge with hedge | hedge
    · obtain ⟨hr, ha⟩ := ih (hparents _ _ hedge)
      exact ⟨.step hr hedge, ha⟩
    · obtain ⟨rfl, _⟩ : b = q ∧ r = p := by simpa using hedge
      exact absurd hb hq

end concat

/-! ## What a search keeps -/

/-- What a search keeps of its stack. -/
structure Stacked (next : Fin n → List (Fin n)) (root : Fin n) (found : List (Fin n × Fin n))
    (stack : List (Fin n × List (Fin n))) : Prop where
  /-- The stack holds nodes that were met, the last one on top. -/
  met : ∀ frame ∈ stack, frame.1 ∈ orderOf root found
  sorted : stack.Pairwise fun x y => placeOf root found y.1 < placeOf root found x.1
  pending : ∀ frame ∈ stack, ∀ w ∈ frame.2, w ∈ next frame.1
  /-- The stack holds what lies above its nodes. -/
  parents : ∀ frame ∈ stack, ∀ p, (frame.1, p) ∈ found → ∃ rest, (p, rest) ∈ stack
  /-- What was met after a node of the stack lies below it. -/
  since : ∀ frame ∈ stack, ∀ c ∈ orderOf root found,
    placeOf root found frame.1 ≤ placeOf root found c → Descends found frame.1 c

namespace Stacked

variable {next : Fin n → List (Fin n)} {root p q : Fin n} {found : List (Fin n × Fin n)}
  {rest : List (Fin n)} {below stack : List (Fin n × List (Fin n))}

theorem mem_of_descends (h : Stacked next root found stack)
    (hab : Descends found a b) : ∀ rest, (b, rest) ∈ stack → ∃ rest, (a, rest) ∈ stack := by
  induction hab with
  | refl => exact fun rest hmem => ⟨rest, hmem⟩
  | step _ hedge ih =>
    intro rest hmem
    obtain ⟨rest', hmem'⟩ := h.parents _ hmem _ hedge
    exact ih rest' hmem'

theorem pop (h : Stacked next root found ((p, []) :: below))
    (hedges : ∀ p q, (q, p) ∈ found → placeOf root found p < placeOf root found q) :
    Stacked next root found below where
  met frame hfrm := h.met frame (List.mem_cons_of_mem _ hfrm)
  sorted := (List.pairwise_cons.1 h.sorted).2
  pending frame hfrm := h.pending frame (List.mem_cons_of_mem _ hfrm)
  parents frame hfrm r hr := by
    obtain ⟨rest, hmem⟩ := h.parents frame (List.mem_cons_of_mem _ hfrm) r hr
    rcases List.mem_cons.1 hmem with heq | hmem
    · -- the dropped node was met last and is no parent
      cases heq
      have hlt := (List.pairwise_cons.1 h.sorted).1 frame hfrm
      exact absurd hlt (Nat.lt_asymm (hedges _ _ hr))
    · exact ⟨rest, hmem⟩
  since frame hfrm := h.since frame (List.mem_cons_of_mem _ hfrm)

theorem advance (h : Stacked next root found ((p, q :: rest) :: below)) :
    Stacked next root found ((p, rest) :: below) where
  met := List.forall_mem_cons.2 (List.forall_mem_cons.1 h.met)
  sorted := List.pairwise_cons.2 (List.pairwise_cons.1 h.sorted)
  pending := by
    obtain ⟨htop, hbel⟩ := List.forall_mem_cons.1 h.pending
    exact List.forall_mem_cons.2 ⟨fun w hw => htop w (List.mem_cons_of_mem _ hw), hbel⟩
  parents frame hfrm r hr := by
    have hprt : ∃ rest', (r, rest') ∈ (p, q :: rest) :: below := by
      rcases List.mem_cons.1 hfrm with rfl | hfrm
      · exact h.parents _ List.mem_cons_self r hr
      · exact h.parents _ (List.mem_cons_of_mem _ hfrm) r hr
    obtain ⟨rest', hmem⟩ := hprt
    rcases List.mem_cons.1 hmem with heq | hmem
    · cases heq
      exact ⟨rest, List.mem_cons_self⟩
    · exact ⟨rest', List.mem_cons_of_mem _ hmem⟩
  since := List.forall_mem_cons.2 (List.forall_mem_cons.1 h.since)

theorem push (h : Stacked next root found ((p, rest) :: below)) (hq : q ∉ orderOf root found) :
    Stacked next root (found ++ [(q, p)]) ((q, next q) :: (p, rest) :: below) where
  met := List.forall_mem_cons.2 ⟨mem_orderOf_concat.2 (.inr rfl), fun frame hfrm =>
    mem_orderOf_concat.2 (.inl (h.met frame hfrm))⟩
  sorted := by
    refine List.pairwise_cons.2 ⟨fun frame hfrm => placeOf_concat_lt hq (h.met frame hfrm), ?_⟩
    refine h.sorted.imp_of_mem fun {x y} hx hy hlt => ?_
    rwa [placeOf_concat_of_mem (h.met x hx), placeOf_concat_of_mem (h.met y hy)]
  pending := List.forall_mem_cons.2 ⟨fun w hw => hw, h.pending⟩
  parents frame hfrm r hr := by
    have hprt : ∃ rest', (r, rest') ∈ (p, rest) :: below := by
      rcases List.mem_append.1 hr with hr | hr
      · rcases List.mem_cons.1 hfrm with rfl | hfrm
        · exact absurd (mem_orderOf_of_found hr) hq
        · exact h.parents frame hfrm r hr
      · obtain ⟨_, rfl⟩ : frame.1 = q ∧ r = p := by simpa using hr
        exact ⟨rest, List.mem_cons_self⟩
    obtain ⟨rest', hmem⟩ := hprt
    exact ⟨rest', List.mem_cons_of_mem _ hmem⟩
  since frame hfrm c hc hle := by
    rcases List.mem_cons.1 hfrm with rfl | hold
    · rcases mem_orderOf_concat.1 hc with hc' | rfl
      · exact absurd (placeOf_concat_lt hq hc') (Nat.not_lt.2 hle)
      · exact .refl
    · rcases mem_orderOf_concat.1 hc with hc' | rfl
      · rw [placeOf_concat_of_mem (h.met frame hold), placeOf_concat_of_mem hc'] at hle
        exact (h.since frame hold c hc' hle).concat
      · -- the top of the stack was met last of its nodes, and so lies below them all
        have htop : Descends found frame.1 p := by
          refine h.since frame hold p (h.met _ List.mem_cons_self) ?_
          rcases List.mem_cons.1 hold with rfl | hbel
          · exact Nat.le_refl _
          · exact Nat.le_of_lt ((List.pairwise_cons.1 h.sorted).1 frame hbel)
        exact .step htop.concat (List.mem_append_right _ List.mem_cons_self)

end Stacked

/-- What a search keeps of the edges that it has found, and of its stack. -/
structure Searching (next : Fin n → List (Fin n)) (root : Fin n) (found : List (Fin n × Fin n))
    (stack : List (Fin n × List (Fin n))) : Prop extends Stacked next root found stack where
  nodup : (orderOf root found).Nodup
  edges : ∀ p q, (q, p) ∈ found →
    q ∈ next p ∧ p ∈ orderOf root found ∧ placeOf root found p < placeOf root found q
  contiguous : ∀ a b, Descends found a b → b ∈ orderOf root found → ∀ c ∈ orderOf root found,
    placeOf root found a ≤ placeOf root found c → placeOf root found c ≤ placeOf root found b →
    Descends found a c
  /-- An edge has been looked at, or it is left on the stack. -/
  left : ∀ v ∈ orderOf root found, ∀ w ∈ next v,
    (w ∈ orderOf root found ∧ (placeOf root found v < placeOf root found w → Descends found v w)) ∨
    ∃ rest, (v, rest) ∈ stack ∧ w ∈ rest

namespace Searching

variable {next : Fin n → List (Fin n)} {root p q : Fin n} {found : List (Fin n × Fin n)}
  {rest : List (Fin n)} {below stack : List (Fin n × List (Fin n))}

theorem start (next : Fin n → List (Fin n)) (root : Fin n) :
    Searching next root [] [(root, next root)] where
  nodup := by simp [orderOf]
  edges := by simp
  met := by simp [orderOf]
  sorted := by simp
  pending := by simp
  parents := by simp
  since := by
    intro frame hfrm c hc _
    obtain rfl : frame = (root, next root) := by simpa using hfrm
    obtain rfl : c = root := by simpa [orderOf] using hc
    exact .refl
  contiguous := by
    intro a b hab hb c hc _ _
    obtain rfl : b = root := by simpa [orderOf] using hb
    obtain rfl : c = b := by simpa [orderOf] using hc
    exact hab
  left := by
    intro v hv w hw
    obtain rfl : v = root := by simpa [orderOf] using hv
    exact .inr ⟨next v, List.mem_cons_self, hw⟩

theorem pop (h : Searching next root found ((p, []) :: below)) :
    Searching next root found below where
  toStacked := h.toStacked.pop fun p q hedge => (h.edges p q hedge).2.2
  nodup := h.nodup
  edges := h.edges
  contiguous := h.contiguous
  left v hv w hw := by
    rcases h.left v hv w hw with hdone | ⟨rest, hmem, hl⟩
    · exact .inl hdone
    · rcases List.mem_cons.1 hmem with heq | hmem
      · cases heq
        cases hl
      · exact .inr ⟨rest, hmem, hl⟩

theorem skip (h : Searching next root found ((p, q :: rest) :: below))
    (hq : q ∈ orderOf root found) : Searching next root found ((p, rest) :: below) where
  toStacked := h.toStacked.advance
  nodup := h.nodup
  edges := h.edges
  contiguous := h.contiguous
  left v hv w hw := by
    rcases h.left v hv w hw with hdone | ⟨rest', hmem, hl⟩
    · exact .inl hdone
    · rcases List.mem_cons.1 hmem with heq | hmem
      · cases heq
        rcases List.mem_cons.1 hl with rfl | hl
        · refine .inl ⟨hq, fun hlt => ?_⟩
          exact h.since _ List.mem_cons_self w hq (Nat.le_of_lt hlt)
        · exact .inr ⟨rest, List.mem_cons_self, hl⟩
      · exact .inr ⟨rest', List.mem_cons_of_mem _ hmem, hl⟩

theorem contiguous_concat (h : Searching next root found ((p, rest) :: below))
    (hq : q ∉ orderOf root found) {c : Fin n} (hab : Descends (found ++ [(q, p)]) a b)
    (hb : b ∈ orderOf root (found ++ [(q, p)])) (hc : c ∈ orderOf root (found ++ [(q, p)]))
    (hac : placeOf root (found ++ [(q, p)]) a ≤ placeOf root (found ++ [(q, p)]) c)
    (hcb : placeOf root (found ++ [(q, p)]) c ≤ placeOf root (found ++ [(q, p)]) b) :
    Descends (found ++ [(q, p)]) a c := by
  have hparents : ∀ p q, (q, p) ∈ found → p ∈ orderOf root found :=
    fun p q hedge => (h.edges p q hedge).2.1
  rcases mem_orderOf_concat.1 hb with hb' | rfl
  · obtain ⟨hab', ha⟩ := hab.of_concat hparents hq hb'
    rcases mem_orderOf_concat.1 hc with hc' | rfl
    · rw [placeOf_concat_of_mem ha, placeOf_concat_of_mem hc'] at hac
      rw [placeOf_concat_of_mem hc', placeOf_concat_of_mem hb'] at hcb
      exact (h.contiguous a b hab' hb' c hc' hac hcb).concat
    · exact absurd (placeOf_concat_lt hq hb') (Nat.not_lt.2 hcb)
  · rcases mem_orderOf_concat.1 hc with hc' | rfl
    · cases hab with
      | refl => exact absurd (placeOf_concat_lt hq hc') (Nat.not_lt.2 hac)
      | @step r _ har hr =>
        -- what lies above the new node was on the stack
        obtain rfl : r = p := by
          rcases List.mem_append.1 hr with hr | hr
          · exact absurd (mem_orderOf_of_found hr) hq
          · simpa using hr
        obtain ⟨har', ha⟩ := har.of_concat hparents hq (h.met _ List.mem_cons_self)
        obtain ⟨rest', ha'⟩ := h.mem_of_descends har' _ List.mem_cons_self
        rw [placeOf_concat_of_mem ha, placeOf_concat_of_mem hc'] at hac
        exact (h.since _ ha' c hc' hac).concat
    · exact hab

theorem meet (h : Searching next root found ((p, q :: rest) :: below))
    (hq : q ∉ orderOf root found) :
    Searching next root (found ++ [(q, p)]) ((q, next q) :: (p, rest) :: below) where
  toStacked := h.toStacked.advance.push hq
  nodup := by
    rw [orderOf_concat, List.nodup_append]
    refine ⟨h.nodup, by simp, fun a ha b hb heq => ?_⟩
    obtain rfl : b = q := by simpa using hb
    exact hq (heq ▸ ha)
  edges r b hrb := by
    rcases List.mem_append.1 hrb with hrb | hrb
    · obtain ⟨hnxt, hr, hlt⟩ := h.edges _ _ hrb
      refine ⟨hnxt, mem_orderOf_concat.2 (.inl hr), ?_⟩
      rwa [placeOf_concat_of_mem hr, placeOf_concat_of_mem (mem_orderOf_of_found hrb)]
    · obtain ⟨rfl, rfl⟩ : b = q ∧ r = p := by simpa using hrb
      have hr := h.met _ List.mem_cons_self
      exact ⟨h.pending _ List.mem_cons_self _ List.mem_cons_self, mem_orderOf_concat.2 (.inl hr),
        placeOf_concat_lt hq hr⟩
  contiguous _ _ hab hb _ hc hac hcb := h.contiguous_concat hq hab hb hc hac hcb
  left v hv w hw := by
    rcases mem_orderOf_concat.1 hv with hv' | rfl
    · rcases h.left v hv' w hw with ⟨hw', hdown⟩ | ⟨rest', hfrm, hl⟩
      · refine .inl ⟨mem_orderOf_concat.2 (.inl hw'), fun hlt => (hdown ?_).concat⟩
        rwa [placeOf_concat_of_mem hv', placeOf_concat_of_mem hw'] at hlt
      · rcases List.mem_cons.1 hfrm with heq | hfrm
        · cases heq
          rcases List.mem_cons.1 hl with rfl | hl
          · refine .inl ⟨mem_orderOf_concat.2 (.inr rfl), fun _ => .step .refl ?_⟩
            exact List.mem_append_right _ List.mem_cons_self
          · exact .inr ⟨rest, List.mem_cons_of_mem _ List.mem_cons_self, hl⟩
        · exact .inr ⟨rest', List.mem_cons_of_mem _ (List.mem_cons_of_mem _ hfrm), hl⟩
    · exact .inr ⟨next v, List.mem_cons_self, hw⟩

theorem run {seen : NodeSet n} (h : Searching next root found stack)
    (hseen : ∀ v, seen.get v = true ↔ v ∈ orderOf root found) :
    Searching next root (found ++ spanFrom next stack seen) [] := by
  induction stack, seen using spanFrom.induct next generalizing found with
  | case1 seen => simpa [spanFrom] using h
  | case2 seen p below ih =>
    rw [spanFrom]
    exact ih h.pop hseen
  | case3 seen p q rest below hq ih =>
    rw [spanFrom, dif_pos hq]
    exact ih (h.skip ((hseen q).1 hq)) hseen
  | case4 seen p q rest below hq ih =>
    have hnew : q ∉ orderOf root found := fun hmem => hq ((hseen q).2 hmem)
    have hrun := ih (h.meet hnew) fun v => by
      rw [NodeSet.get_add, hseen, orderOf_concat, List.mem_append, List.mem_singleton]
      exact Or.comm
    rw [spanFrom, dif_neg hq]
    simpa using hrun

theorem mem_of_reached (h : Searching next root found [])
    (hfst : Graph.firstPosition? = some root) {v : Fin n} (hv : Reached next v) :
    v ∈ orderOf root found := by
  induction hv with
  | @start v hv =>
    obtain rfl : v = root := by simpa [hfst] using hv
    exact List.mem_cons_self
  | @step v w _ hw ih =>
    rcases h.left v ih w hw with hdone | ⟨rest, hmem, _⟩
    · exact hdone.1
    · cases hmem

end Searching

/-! ## The numbering of a graph -/

/-- A numbering that has the order, the numbers and the tree of a search through all positions. -/
structure Numbering.Spans {next : Fin n → List (Fin n)} (numbering : Numbering n)
    (t : Spanning next) : Prop where
  number : ∀ v, numbering.number.get v = t.number v
  parent : ∀ v, numbering.parent.get v = t.parent v
  head : numbering.order.head? = some t.root
  place : ∀ before v after, numbering.order = before ++ v :: after → t.number v = before.length
  nodup : numbering.order.Nodup
  all : ∀ v, v ∈ numbering.order

namespace Graph

variable {next : Fin n → List (Fin n)} {root : Fin n}

/-- The edges along which a search from a position comes to the others. -/
def foundFrom (next : Fin n → List (Fin n)) (root : Fin n) : List (Fin n × Fin n) :=
  spanFrom next [(root, next root)] (NodeSet.none.add root)

theorem searching_foundFrom (next : Fin n → List (Fin n)) (root : Fin n) :
    Searching next root (foundFrom next root) [] :=
  (Searching.start next root).run fun v => by simp [NodeSet.get_add, orderOf]

theorem order_numberFrom (next : Fin n → List (Fin n)) (root : Fin n) :
    ((ofSuccessors next).numberFrom root).order = orderOf root (foundFrom next root) := by
  simp only [numberFrom, successors_get, get_successors]
  rfl

theorem number_numberFrom {v : Fin n} (h : v ∈ orderOf root (foundFrom next root)) :
    ((ofSuccessors next).numberFrom root).number.get v = placeOf root (foundFrom next root) v := by
  have hent : (v, placeOf root (foundFrom next root) v) ∈
      (orderOf root (foundFrom next root)).zipIdx := by
    rw [List.mk_mem_zipIdx_iff_getElem?]
    exact List.getElem?_idxOf h
  have hnd := (searching_foundFrom next root).nodup
  simp only [numberFrom, successors_get, get_successors]
  exact get_putAll_of_mem (by rwa [List.zipIdx_map_fst]) hent _

theorem parent_numberFrom {p q : Fin n} (h : (q, p) ∈ foundFrom next root) :
    ((ofSuccessors next).numberFrom root).parent.get q = p := by
  have hnd := (List.nodup_cons.1 (searching_foundFrom next root).nodup).2
  simp only [numberFrom, successors_get, get_successors]
  exact get_putAll_of_mem hnd h _

theorem descends_iff_above (hall : ∀ v, v ∈ orderOf root (foundFrom next root)) :
    Descends (foundFrom next root) a b ↔
      Above root ((ofSuccessors next).numberFrom root).parent.get a b := by
  have hroot := (List.nodup_cons.1 (searching_foundFrom next root).nodup).1
  constructor
  · intro h
    induction h with
    | refl => exact .refl
    | @step p q _ hedge ih =>
      refine .step ?_ (parent_numberFrom hedge ▸ ih)
      rintro rfl
      exact hroot (List.mem_map.2 ⟨_, hedge, rfl⟩)
  · intro h
    induction h with
    | refl => exact .refl
    | @step b hb _ ih =>
      obtain ⟨⟨_, p⟩, hedge, rfl⟩ := List.mem_map.1 ((List.mem_cons.1 (hall b)).resolve_left hb)
      exact .step (parent_numberFrom hedge ▸ ih) hedge

/-- A depth-first search from the entry spans a graph all of whose positions are reached. -/
def spanning (hfst : firstPosition? = some root) (hrch : ∀ p, Reached next p) :
    Spanning next :=
  have hsrch := searching_foundFrom next root
  have hall v : v ∈ orderOf root (foundFrom next root) := hsrch.mem_of_reached hfst (hrch v)
  have hnum v := number_numberFrom (hall v)
  have hprt {v} (hv : v ≠ root) :
      (v, ((ofSuccessors next).numberFrom root).parent.get v) ∈ foundFrom next root := by
    obtain ⟨⟨_, p⟩, hedge, rfl⟩ := List.mem_map.1 ((List.mem_cons.1 (hall v)).resolve_left hv)
    exact (parent_numberFrom hedge).symm ▸ hedge
  { root
    first := hfst
    number := ((ofSuccessors next).numberFrom root).number.get
    parent := ((ofSuccessors next).numberFrom root).parent.get
    number_lt := fun v => by
      rw [hnum]
      have hlen := hsrch.nodup.length_le_card
      rw [Fintype.card_fin] at hlen
      exact Nat.lt_of_lt_of_le (placeOf_lt (hall v)) hlen
    injective := fun {a b} h => by
      rw [hnum, hnum] at h
      exact placeOf_inj (hall a) h
    parent_lt := fun {v} hv => by
      rw [hnum, hnum]
      exact (hsrch.edges _ _ (hprt hv)).2.2
    edge := fun {v} hv => (hsrch.edges _ _ (hprt hv)).1
    forward := fun {v w} hw hlt => by
      rw [hnum, hnum] at hlt
      rcases hsrch.left v (hall v) w hw with hdone | ⟨rest, hmem, _⟩
      · exact (descends_iff_above hall).1 (hdone.2 hlt)
      · cases hmem
    contiguous := fun {a b c} hab hac hcb => by
      rw [hnum, hnum] at hac hcb
      exact (descends_iff_above hall).1 (hsrch.contiguous a b ((descends_iff_above hall).2 hab)
        (hall b) c (hall c) hac hcb) }

theorem spans_numberFrom (hfst : firstPosition? = some root) (hrch : ∀ p, Reached next p) :
    ((ofSuccessors next).numberFrom root).Spans (spanning hfst hrch) where
  number _ := rfl
  parent _ := rfl
  head := rfl
  place before v after hspl := by
    have hsrch := searching_foundFrom next root
    have hall := hsrch.mem_of_reached hfst (hrch v)
    rw [order_numberFrom] at hspl
    have hnd := hspl ▸ hsrch.nodup
    have hnot : v ∉ before := fun hmem =>
      (List.nodup_append.1 hnd).2.2 v hmem v List.mem_cons_self rfl
    refine (number_numberFrom hall).trans ?_
    rw [placeOf, hspl, List.idxOf_append_of_notMem hnot]
    simp
  nodup := by
    rw [order_numberFrom]
    exact (searching_foundFrom next root).nodup
  all v := by
    rw [order_numberFrom]
    exact (searching_foundFrom next root).mem_of_reached hfst (hrch v)

end Graph

end SysY.Flow

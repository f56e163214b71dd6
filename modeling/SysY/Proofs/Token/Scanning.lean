import SysY.Proofs.Text.Lines
import SysY.Proofs.Token.Numerals

/-!
# Scanning characters

What the lexer finds in a text does not depend on locations or on lines: `scan` runs the same machine
over the bare characters of the text. A line end is found where a line feed stands, whether or not a
carriage return stands in front of it, and the end of the text ends a line, too.
-/

namespace SysY.Lexer

open List

variable {c : Char} {state next : State}

/-- A token or an error, without its location. -/
abbrev Finding := Except LexicalError Token

/-- What has been found, without its location. -/
def Result.finding : Result → Finding
  | .ok token => .ok token.value
  | .error error => .error error.value

/-! ## The machine without locations -/

/-- The state behind a character that is wrong. -/
def recover (c : Char) : State := if c = '\n' then .start else .skipping

/-- What is found when a character begins a token, and the state behind it. -/
def enter (c : Char) : List Finding × State :=
  match begin c with
  | .ok state => ([], state)
  | .error error => ([.error error], recover c)

/-- What is found at a character, and the state behind it. -/
def step (state : State) (c : Char) : List Finding × State :=
  match extend state c with
  | .take next => ([], next)
  | .reject error => ([.error error], recover c)
  | .yield token => (.ok token :: (enter c).1, (enter c).2)

/-- Everything found in characters. -/
def scan (state : State) : List Char → List Finding
  | [] => (finish state).toList
  | c :: rest => (step state c).1 ++ scan (step state c).2 rest

theorem scan_cons (state : State) (c : Char) (rest : List Char) :
    scan state (c :: rest) = (step state c).1 ++ scan (step state c).2 rest := rfl

theorem scan_yield {token : Token} (h : extend state c = .yield token) (rest : List Char) :
    scan state (c :: rest) = .ok token :: scan .start (c :: rest) := by
  rw [scan_cons, scan_cons, step, h]
  simp only [step, extend, enter]
  cases begin c <;> rfl

/-! ## States that occur -/

/-- A mark that doubles a character is none of blanks, and a number fits into a literal. -/
def State.Proper : State → Prop
  | .doubled c _ => isBlank c = false
  | .integer value _ _ => value ≤ maxLiteral
  | _ => True

theorem proper_recover (c : Char) : (recover c).Proper := by
  unfold recover
  split <;> trivial

theorem proper_begin (h : begin c = .ok state) : state.Proper := by
  unfold begin at h
  split at h
  case h_18 | h_19 =>
    cases h
    rfl
  case h_21 =>
    split at h
    · cases h
      trivial
    · split at h
      · rename_i hdigit
        cases h
        exact Nat.le_trans (Nat.le_of_lt (digit?_lt hdigit)) (by decide)
      · split at h <;> cases h
        trivial
  all_goals
    cases h
    trivial

theorem proper_enter (c : Char) : (enter c).2.Proper := by
  unfold enter
  split
  · exact proper_begin ‹_›
  · exact proper_recover c

theorem proper_extendInteger {value : Nat} {radix : Radix} {digits : Bool}
    (h : extendInteger value radix digits c = .take next) : next.Proper := by
  unfold extendInteger at h
  split at h
  · dsimp only at h
    split at h <;> cases h
    exact Nat.le_of_not_lt ‹_›
  · split at h
    · cases h
    · split at h <;> cases h

theorem proper_extend (h : extend state c = .take next) :
    next.Proper := by
  cases state with
  | start =>
    simp only [extend] at h
    split at h
    · rename_i hbegin
      cases h
      exact proper_begin hbegin
    · cases h
  | zero =>
    simp only [extend] at h
    split at h
    · cases h
      exact Nat.zero_le _
    · split at h
      · exact proper_extendInteger h
      · split at h <;> cases h
  | integer value radix digits => exact proper_extendInteger h
  | skipping | lineComment | blockComment =>
    cases h
    split <;> trivial
  | complete mark => cases h
  | _ =>
    simp only [extend] at h
    repeat' split at h
    all_goals
      cases h
      try trivial

theorem proper_step (state : State) (c : Char) : (step state c).2.Proper := by
  unfold step
  split
  · exact proper_extend ‹_›
  · exact proper_recover c
  · exact proper_enter c

theorem scan_append_congr {xs ys : List Char}
    (h : ∀ state : State, state.Proper → scan state xs = scan state ys) (cs : List Char)
    (hstate : state.Proper) : scan state (cs ++ xs) = scan state (cs ++ ys) := by
  induction cs generalizing state with
  | nil => exact h state hstate
  | cons c cs ih =>
    rw [cons_append, cons_append, scan_cons, scan_cons, ih (proper_step state c)]

/-! ## Line ends -/

theorem extend_doubled {d : Char} {mark : Mark} (hc : isBlank c = false) (hd : isBlank d = true) :
    extend (.doubled c mark) d = .reject (.expected c) := by
  refine if_neg fun heq => ?_
  rw [heq, hc] at hd
  cases hd

theorem scan_return_newline (h : state.Proper) (rest : List Char) :
    scan state ('\r' :: '\n' :: rest) = scan state ('\n' :: rest) := by
  cases state with
  | integer value radix digits => cases radix <;> cases digits <;> rfl
  | doubled c mark =>
    simp only [scan_cons, step, extend_doubled h (show isBlank '\r' = true from rfl),
      extend_doubled h (show isBlank '\n' = true from rfl)]
    rfl
  | _ => rfl

theorem scan_newline (h : state.Proper) : scan state ['\n'] = scan state [] := by
  cases state with
  | integer value radix digits => cases radix <;> cases digits <;> rfl
  | doubled c mark =>
    simp only [scan_cons, step, extend_doubled h (show isBlank '\n' = true from rfl)]
    rfl
  | _ => rfl

open Text (charLines dropReturnChar)

theorem scan_charLines (line cs : List Char) (h : state.Proper) :
    scan state ((charLines line cs).flatMap (· ++ ['\n'])) = scan state (line ++ cs) := by
  induction cs generalizing line state with
  | nil =>
    rw [charLines, append_nil]
    cases line with
    | nil => rfl
    | cons c line =>
      show scan state ((c :: line) ++ ['\n'] ++ []) = _
      rw [append_nil]
      have hend := scan_append_congr (fun state hstate => scan_newline hstate) (c :: line) h
      rw [hend, append_nil]
  | cons c cs ih =>
    rw [charLines]
    split
    · rename_i hc
      subst hc
      -- behind the line the induction hypothesis holds from every state
      have hrest : ∀ state : State, state.Proper →
          scan state ('\n' :: (charLines [] cs).flatMap (· ++ ['\n'])) = scan state ('\n' :: cs) := by
        intro state hstate
        rw [scan_cons, scan_cons, ih [] (proper_step state '\n'), nil_append]
      rw [flatMap_cons, append_assoc, singleton_append, scan_append_congr hrest _ h]
      unfold dropReturnChar
      split
      · rename_i hlast
        obtain ⟨front, rfl⟩ := List.getLast?_eq_some_iff.1 hlast
        rw [dropLast_concat, append_assoc, singleton_append]
        exact (scan_append_congr (fun state hstate => scan_return_newline hstate cs) front h).symm
      · rfl
    · rw [ih _ h, append_assoc, singleton_append]

/-! ## The lexer -/

/-- The characters of a stream. -/
def characters (items : List Text.Item) : List Char :=
  items.filterMap fun
    | .char c _ => some c
    | .unreadable => none

theorem characters_lineItems (source : Source) (p : Position) (cs : List Char) :
    characters (Text.lineItems source p cs) = cs := by
  induction cs generalizing p with
  | nil => rfl
  | cons c cs ih => exact congrArg (c :: ·) (ih (p.after c))

theorem unreadable_notMem_lineItems (source : Source) (p : Position) (cs : List Char) :
    .unreadable ∉ Text.lineItems source p cs := by
  induction cs generalizing p with
  | nil => simp [Text.lineItems]
  | cons c cs ih => simp [Text.lineItems, ih]

namespace Cursor

theorem state_anchored (cursor : Cursor) : cursor.anchored.state = cursor.state := by
  unfold anchored
  split <;> rfl

theorem feedStart_step (cursor : Cursor) (c : Char) (behind : Location) :
    (cursor.feedStart c behind).1.map Result.finding = (enter c).1 ∧
      (cursor.feedStart c behind).2.state = (enter c).2 := by
  unfold feedStart enter
  dsimp only
  cases begin c <;> exact ⟨rfl, rfl⟩

theorem feed_step (cursor : Cursor) (c : Char) (behind : Location) :
    (cursor.feed c behind).1.map Result.finding = (step cursor.state c).1 ∧
      (cursor.feed c behind).2.state = (step cursor.state c).2 := by
  obtain ⟨hfnd, hstate⟩ := cursor.anchored.feedStart_step c behind
  unfold feed step
  dsimp only
  rw [state_anchored]
  cases extend cursor.state c with
  | take next => exact ⟨rfl, rfl⟩
  | reject error => exact ⟨rfl, rfl⟩
  | yield token => exact ⟨congrArg (_ :: ·) hfnd, hstate⟩

theorem run_scan {items : List Text.Item} (h : .unreadable ∉ items) (cursor : Cursor) :
    (cursor.run items).map Result.finding = scan cursor.state (characters items) := by
  induction items generalizing cursor with
  | nil =>
    rw [run]
    show _ = (finish cursor.state).toList
    cases finish cursor.state with
    | none => rfl
    | some found => cases found <;> rfl
  | cons item items ih =>
    rw [mem_cons, not_or] at h
    cases item with
    | unreadable => exact absurd rfl h.1
    | char c behind =>
      obtain ⟨hfnd, hstate⟩ := cursor.feed_step c behind
      show ((cursor.feed c behind).1 ++ (cursor.feed c behind).2.run items).map Result.finding =
        (step cursor.state c).1 ++ scan (step cursor.state c).2 (characters items)
      rw [map_append, hfnd, ih h.2, hstate]

end Cursor

/-- The lexer reads the characters of all lines, one behind the other. -/
theorem results_eq_run (name text : String) :
    results (Stream.ofBytes name text.toUTF8.toList) =
      (Cursor.initial (.single (Stream.ofBytes name text.toUTF8.toList).source .first)).run
        (Text.lineItems (Stream.ofBytes name text.toUTF8.toList).source .first
          ((charLines [] text.toList).flatMap (· ++ ['\n']))) := by
  have hitems : (Stream.ofBytes name text.toUTF8.toList).items = _ :=
    congrArg (Text.items _ 1) (Text.decodeLines_toUTF8 text)
  rw [results, hitems,
    Text.items_eq_lineItems _ 1 (Text.newline_notMem_charLines [] text.toList not_mem_nil)]
  rfl

theorem results_toUTF8 (name text : String) :
    (results (Stream.ofBytes name text.toUTF8.toList)).map Result.finding =
      scan .start text.toList := by
  rw [results_eq_run, Cursor.run_scan (unreadable_notMem_lineItems _ _ _), characters_lineItems]
  exact scan_charLines [] text.toList trivial

theorem tokens_cases (stream : Stream) :
    (∃ located, results stream = located.map .ok ∧ tokens stream = .ok located) ∨
      errors (results stream) ≠ [] ∧ tokens stream = .error (errors (results stream)) := by
  unfold tokens
  generalize results stream = found
  induction found with
  | nil => exact .inl ⟨[], rfl, rfl⟩
  | cons result found ih =>
    rcases ih with ⟨located, rfl, hfold⟩ | ⟨herrors, hfold⟩
    · cases result with
      | ok token => exact .inl ⟨token :: located, rfl, by rw [foldr_cons, hfold]⟩
      | error error =>
        have hnone : errors (located.map .ok) = [] := by simp [errors]
        have hcons : errors (.error error :: located.map .ok) = [error] :=
          congrArg (error :: ·) hnone
        rw [foldr_cons, hfold, hcons]
        exact .inr ⟨nofun, rfl⟩
    · rw [foldr_cons, hfold]
      cases result with
      | ok token => exact .inr ⟨herrors, rfl⟩
      | error error => exact .inr ⟨nofun, rfl⟩

theorem tokens_eq_ok_iff {stream : Stream} {located : List (Located Token)} :
    tokens stream = .ok located ↔ results stream = located.map .ok := by
  rcases tokens_cases stream with ⟨found, hres, htok⟩ | ⟨herrors, htok⟩
  · rw [htok, hres, Except.ok.injEq, map_inj_right fun _ _ => Except.ok.inj]
  · rw [htok]
    refine ⟨nofun, fun hres => absurd ?_ herrors⟩
    rw [hres]
    simp [errors]

theorem tokens_of_results {stream : Stream} {tokens : List Token}
    (h : (results stream).map Result.finding = tokens.map .ok) :
    ∃ located, Lexer.tokens stream = .ok located ∧ located.map (·.value) = tokens := by
  rcases tokens_cases stream with ⟨located, hres, htok⟩ | ⟨herrors, -⟩
  · have hvalues : (located.map (·.value)).map (.ok : Token → Finding) = tokens.map .ok := by
      rw [← h, hres, map_map, map_map]
      rfl
    exact ⟨located, htok, (map_inj_right fun _ _ => Except.ok.inj).1 hvalues⟩
  · obtain ⟨error, hmem⟩ := exists_mem_of_ne_nil _ herrors
    obtain ⟨result, hres, herr⟩ := mem_filterMap.1 hmem
    have hfinding : result.finding ∈ tokens.map .ok := h ▸ mem_map_of_mem hres
    cases result with
    | ok token => cases herr
    | error error => simp [Result.finding] at hfinding

end SysY.Lexer

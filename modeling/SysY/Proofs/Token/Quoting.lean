import SysY.Diagnostic
import SysY.Token.Lexer

/-!
# The lines that diagnostics quote

A line that cannot be read has a number but is not recorded. So the line that is quoted for a number is
the one with that number among the lines that can be read: behind a line that cannot be read, every
quote is late.
-/

namespace SysY.Lexer

open List

variable {c : Char} {behind : Location} {error : Located LexicalError} {source : Source}
  {items : List Text.Item}

/-! ## Where errors are -/

namespace Cursor

theorem next_anchored (cursor : Cursor) : cursor.anchored.next = cursor.next := by
  unfold anchored
  split <;> rfl

theorem feedStart_located (cursor : Cursor) (c : Char) (behind : Location) :
    (cursor.feedStart c behind).2.next = behind ∧
      ∀ error, .error error ∈ (cursor.feedStart c behind).1 → error.location = cursor.next := by
  unfold feedStart
  dsimp only
  cases begin c with
  | ok state => exact ⟨rfl, nofun⟩
  | error found =>
    refine ⟨rfl, fun error h => ?_⟩
    cases List.mem_singleton.1 h
    rfl

theorem feed_located (cursor : Cursor) (c : Char) (behind : Location) :
    (cursor.feed c behind).2.next = behind ∧
      ∀ error, .error error ∈ (cursor.feed c behind).1 → error.location = cursor.next := by
  rw [← cursor.next_anchored]
  unfold feed
  dsimp only
  cases extend cursor.anchored.state c with
  | take state => exact ⟨rfl, nofun⟩
  | reject found =>
    refine ⟨rfl, fun error h => ?_⟩
    cases List.mem_singleton.1 h
    rfl
  | yield token =>
    obtain ⟨hnext, herror⟩ := cursor.anchored.feedStart_located c behind
    refine ⟨hnext, fun error h => herror error ?_⟩
    cases h with
    | tail _ h => exact h

/-- An error is where the lexer begins or behind some character. -/
theorem run_located {cursor : Cursor} (h : .error error ∈ cursor.run items) :
    error.location = cursor.next ∨ ∃ c, .char c error.location ∈ items := by
  induction items generalizing cursor with
  | nil =>
    rw [run] at h
    split at h
    · cases h
    · cases List.mem_singleton.1 h
    · cases List.mem_singleton.1 h
      exact .inl rfl
  | cons item items ih =>
    cases item with
    | unreadable =>
      rcases List.mem_cons.1 h with h | h
      · cases h
        exact .inl rfl
      · exact (ih h).imp_right fun ⟨c, hc⟩ => ⟨c, .tail _ hc⟩
    | char c behind =>
      obtain ⟨hnext, herror⟩ := cursor.feed_located c behind
      rcases List.mem_append.1 h with h | h
      · exact .inl (herror error h)
      · rcases ih h with heq | ⟨c, hc⟩
        · exact .inr ⟨c, heq.trans hnext ▸ .head _⟩
        · exact .inr ⟨c, .tail _ hc⟩

end Cursor

theorem single_of_mem_lineItems {cs : List Char} {p : Position}
    (h : .char c behind ∈ Text.lineItems source p cs) : ∃ p, behind = .single source p := by
  induction cs generalizing p with
  | nil => cases h
  | cons d cs ih =>
    rcases List.mem_cons.1 h with h | h
    · cases h
      exact ⟨_, rfl⟩
    · exact ih h

theorem single_of_mem_items {lines : List (Option String)} {number : Nat}
    (h : .char c behind ∈ Text.items source number lines) : ∃ p, behind = .single source p := by
  induction lines generalizing number with
  | nil => cases h
  | cons line lines ih =>
    cases line with
    | none =>
      cases h with
      | tail _ h => exact ih h
    | some line => exact (List.mem_append.1 h).elim single_of_mem_lineItems ih

theorem single_of_mem_errors {stream : Stream} {lines : List (Option String)} {number : Nat}
    (hitems : stream.items = Text.items stream.source number lines)
    (h : error ∈ errors (results stream)) : ∃ p, error.location = .single stream.source p := by
  obtain ⟨result, hres, herror⟩ := List.mem_filterMap.1 h
  cases result with
  | ok token => cases herror
  | error found =>
    cases herror
    rcases Cursor.run_located hres with heq | ⟨c, hc⟩
    · exact ⟨_, heq⟩
    · exact single_of_mem_items (hitems ▸ hc)

/-! ## What is quoted -/

section Lines

variable {lines : List (Option String)} {number : Nat} (name : String)

theorem line_of_recorded {k : Nat} {text : String} (h : lines[k]? = some (some text)) :
    Source.line ⟨name, lines.filterMap id⟩ (((lines.take k).filterMap id).length + 1) = text := by
  obtain ⟨hk, heq⟩ := List.getElem?_eq_some_iff.1 h
  have hsplit := congrArg (filterMap id) (take_append_drop k lines)
  rw [drop_eq_getElem_cons hk, heq, filterMap_append] at hsplit
  rw [Source.line, ← hsplit, getD_eq_getElem?_getD, getElem?_append_right (Nat.le_refl _),
    Nat.sub_self]
  rfl

theorem line_of_unrecorded (h : (lines.filterMap id).length < number) :
    Source.line ⟨name, lines.filterMap id⟩ number = "" := by
  cases number with
  | zero => rfl
  | succ n =>
    rw [Source.line, getD_eq_getElem?_getD, getElem?_eq_none (Nat.le_of_lt_succ h)]
    rfl

theorem line_of_readable (h : ∀ line ∈ lines.take number, line.isSome) :
    Source.line ⟨name, lines.filterMap id⟩ number =
      Source.line ⟨name, lines.map (·.getD "")⟩ number := by
  induction lines generalizing number with
  | nil => rfl
  | cons line lines ih =>
    cases number with
    | zero => rfl
    | succ n =>
      obtain ⟨hline, hrest⟩ := List.forall_mem_cons.1 h
      obtain ⟨text, rfl⟩ := Option.isSome_iff_exists.1 hline
      cases n with
      | zero => rfl
      | succ n => exact ih hrest

end Lines

/-- An error quotes one line, the one with the number of its line among the lines that can be read. If
all lines up to it can be read, this is the line with that number. -/
theorem quotes_readable_line {name : String} {bytes : List UInt8}
    (h : error ∈ errors (results (Stream.ofBytes name bytes))) (width : Nat) :
    let lines := Text.decodeLines bytes
    let number := error.location.start.line
    ∃ quote, Diagnostics.quotedLines error.location width =
        Diagnostics.padded width number ++ " | " ++ quote ++ "\n" ∧
      (∀ k text, lines[k]? = some (some text) →
        number = ((lines.take k).filterMap id).length + 1 → quote = text) ∧
      ((lines.filterMap id).length < number → quote = "") ∧
      ((∀ line ∈ lines.take number, line.isSome) →
        quote = Source.line ⟨name, lines.map (·.getD "")⟩ number) := by
  obtain ⟨p, hp⟩ := single_of_mem_errors rfl h
  dsimp only
  rw [hp]
  refine ⟨(Stream.ofBytes name bytes).source.line p.line, ?_, fun k text hline hnumber => ?_,
    line_of_unrecorded name, line_of_readable name⟩
  · simp [Diagnostics.quotedLines, Location.single, Position.advance, String.join]
  · rw [show p.line = _ from hnumber]
    exact line_of_recorded name hline

/-- Three lines of which the first one is no valid UTF-8. -/
def spoiled : List UInt8 := [255, 10, 97, 10, 36, 10]

theorem spoiled_quotes_next : ∃ error ∈ errors (results (Stream.ofBytes "t.sy" spoiled)),
    Diagnostics.quotedLines error.location 1 = "1 | a\n" ∧
      (Text.decodeLines spoiled)[0]? = some none := by
  refine ⟨_, .head _, ?_, rfl⟩
  obtain ⟨quote, hquoted, hline, -⟩ :=
    @quotes_readable_line _ "t.sy" spoiled (.head _) 1
  rw [hquoted, hline 1 "a" rfl rfl]
  rfl

theorem readable_line_unquoted : ∃ error ∈ errors (results (Stream.ofBytes "t.sy" spoiled)),
    error.location.start.line = 3 ∧ (Text.decodeLines spoiled)[2]? = some (some "$") ∧
      Diagnostics.quotedLines error.location 1 = "3 | \n" :=
  ⟨_, .tail _ (.head _), rfl, rfl, by decide⟩

end SysY.Lexer

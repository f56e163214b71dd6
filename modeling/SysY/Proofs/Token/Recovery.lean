import SysY.Proofs.Token.Scanning

/-!
# Going on after an error

Whatever state an error is found in, the lexer drops the rest of the line and nothing else. What it
finds from then on is what a lexer finds that begins with the next line.
-/

namespace SysY.Lexer

variable {source : Source} {p : Position} {c : Char} {cs : List Char} {again : Nat → List Result}
  {cursor : Cursor}

/-- What a lexer finds that begins at a position. -/
def freshly (source : Source) (p : Position) (cs : List Char) : List Result :=
  (Cursor.initial (.single source p)).run (Text.lineItems source p cs)

/-- What `again` says of each line is found behind it. -/
def Resumes (source : Source) (again : Nat → List Result) : Position → List Char → Prop
  | p, [] => again p.line = []
  | p, c :: cs => (c = '\n' → again p.line = freshly source (p.after c) cs) ∧
    Resumes source again (p.after c) cs

/-- What `again` says of the line of an error is what is found behind the error. -/
def Recovers (again : Nat → List Result) : List Result → Prop
  | [] => True
  | .ok _ :: rest => Recovers again rest
  | .error error :: rest => rest = again error.location.start.line ∧ Recovers again rest

theorem Recovers.after {before after : List Result} {error : Located LexicalError}
    (h : Recovers again (before ++ .error error :: after)) :
    after = again error.location.start.line := by
  induction before with
  | nil => exact h.1
  | cons result before ih =>
    cases result with
    | ok token => exact ih h
    | error first => exact ih h.2

/-! ## Dropping a line -/

namespace Cursor

theorem run_idle (h : cursor.state = .start) (p : Position) (cs : List Char) :
    cursor.run (Text.lineItems source p cs) =
      (initial cursor.next).run (Text.lineItems source p cs) := by
  obtain ⟨_, start, last, next⟩ := cursor
  cases h
  cases cs with
  | nil => rfl
  | cons c cs =>
    simp only [Text.lineItems, run, feed, anchored, extend, initial]
    cases begin c <;> rfl

theorem run_skip (h : Resumes source again p (c :: cs)) (cursor : Cursor) :
    (cursor.skip c (.single source (p.after c))).run (Text.lineItems source (p.after c) cs) =
      again p.line := by
  induction cs generalizing c p cursor with
  | nil =>
    by_cases hc : c = '\n'
    · rw [h.1 hc, run_idle (if_pos hc)]
      rfl
    · rw [← Text.line_after hc, h.2, skip, if_neg hc]
      rfl
  | cons d cs ih =>
    by_cases hc : c = '\n'
    · rw [h.1 hc, run_idle (if_pos hc)]
      rfl
    · rw [← Text.line_after hc, ← ih h.2, skip, if_neg hc]
      rfl

theorem recovers_run (h : Resumes source again p cs) (hnext : cursor.next = .single source p) :
    Recovers again (cursor.run (Text.lineItems source p cs)) := by
  induction cs generalizing p cursor with
  | nil =>
    rw [Text.lineItems, run]
    split
    · trivial
    · trivial
    · exact ⟨by rw [hnext]; exact h.symm, trivial⟩
  | cons c cs ih =>
    have hrest : ∀ cursor : Cursor, cursor.next = .single source (p.after c) →
        Recovers again (cursor.run (Text.lineItems source (p.after c) cs)) := fun _ => ih h.2
    -- an error is at the character that comes next, wherever the token began
    have herror : ∀ (cursor : Cursor) error, cursor.next = .single source p →
        Recovers again (cursor.failed error ::
          (cursor.skip c (.single source (p.after c))).run (Text.lineItems source (p.after c) cs)) :=
      fun cursor error hnext => ⟨by rw [run_skip h, hnext]; rfl, hrest _ rfl⟩
    have hanchor : cursor.anchored.next = .single source p := by
      rw [← hnext, anchored]
      split <;> rfl
    rw [Text.lineItems, run, feed]
    dsimp only
    cases extend cursor.anchored.state c with
    | take state => exact hrest _ rfl
    | reject error => exact herror _ error hanchor
    | yield token =>
      simp only [feedStart]
      cases begin c with
      | ok state => exact hrest _ rfl
      | error error => exact herror _ error hanchor

end Cursor

/-! ## Lines -/

theorem resumes_line {line : List Char} (h : '\n' ∉ line)
    (hagain : again p.line = freshly source { line := p.line + 1 } cs)
    (hrest : Resumes source again { line := p.line + 1 } cs) :
    Resumes source again p (line ++ '\n' :: cs) := by
  induction line generalizing p with
  | nil => exact ⟨fun _ => hagain, hrest⟩
  | cons c line ih =>
    rw [List.mem_cons, not_or] at h
    have hc := Ne.symm h.1
    have hline : (p.after c).line = p.line := Text.line_after hc
    rw [← hline] at hagain hrest
    exact ⟨fun heq => absurd heq hc, ih h.2 hagain hrest⟩

theorem resumes_lines {lines : List (List Char)} (h : ∀ line ∈ lines, '\n' ∉ line) {number : Nat}
    (hagain : ∀ k, again (number + k) = freshly source { line := number + k + 1 }
      ((lines.drop (k + 1)).flatMap (· ++ ['\n']))) :
    Resumes source again { line := number } (lines.flatMap (· ++ ['\n'])) := by
  induction lines generalizing number with
  | nil => exact hagain 0
  | cons line lines ih =>
    rw [List.flatMap_cons, List.append_assoc]
    refine resumes_line (h line List.mem_cons_self) (hagain 0) ?_
    refine ih (fun line hline => h line (List.mem_cons_of_mem _ hline)) fun k => ?_
    rw [Nat.add_right_comm number 1 k]
    exact hagain (k + 1)

/-- Behind an error there is found what a lexer finds that begins with the next line. There are tokens
if there is no error, and all errors otherwise. -/
theorem recovers_at_next_line (name text : String) :
    let stream := Stream.ofBytes name text.toUTF8.toList
    (∀ before error after, results stream = before ++ .error error :: after →
      after = (Cursor.initial (.single stream.source { line := error.location.start.line + 1 })).run
        (Text.items stream.source (error.location.start.line + 1)
          ((Text.decodeLines text.toUTF8.toList).drop error.location.start.line))) ∧
    (∀ located, tokens stream = .ok located ↔ results stream = located.map .ok) ∧
    (errors (results stream) ≠ [] → tokens stream = .error (errors (results stream))) := by
  intro stream
  refine ⟨fun before error after hfound => ?_, fun located => ?_, fun herrors => ?_⟩
  · let lines := Text.charLines [] text.toList
    have hlines : ∀ line ∈ lines, '\n' ∉ line :=
      Text.newline_notMem_charLines [] text.toList List.not_mem_nil
    have hrec : Recovers (fun k => freshly stream.source { line := k + 1 }
        ((lines.drop k).flatMap (· ++ ['\n']))) (results stream) := by
      rw [results_eq_run]
      exact Cursor.recovers_run (resumes_lines hlines fun k => by rw [Nat.add_comm 1 k]) rfl
    rw [hfound] at hrec
    rw [hrec.after, Text.decodeLines_toUTF8, ← List.map_drop, Text.items_eq_lineItems]
    · rfl
    · exact fun line hline => hlines line (List.mem_of_mem_drop hline)
  · exact tokens_eq_ok_iff
  · rcases tokens_cases stream with ⟨found, hres, htok⟩ | ⟨-, htok⟩
    · rw [hres] at herrors
      simp [errors] at herrors
    · exact htok

end SysY.Lexer

import Mathlib.Data.List.Induction
import Mathlib.Tactic.IntervalCases
import SysY.Proofs.Token.Literals

/-!
# Reading back what is written

Tokens are written one behind the other, with blanks and comments between them. The lexer reads such a
text back: it finds exactly these tokens, whatever stands between them, as long as each token has a
blank behind it or ends the text.
-/

namespace SysY

open List

/-! ## Texts of tokens -/

def asciiBlanks : List Char := [' ', '\t', '\n', '\x0c', '\r']

/-- A letter or an underscore, then letters, digits and underscores, and not a keyword. -/
structure IsName (name : String) : Prop where
  word : ∃ c rest, name.toList = c :: rest ∧ (c.isAlpha ∨ c = '_') ∧
    ∀ d ∈ rest, d.isAlphanum ∨ d = '_'
  unreserved : ∀ keyword : Keyword, keyword.text ≠ name

/-- A token that can be written: an identifier has to be a name. -/
def Token.IsWritable : Token → Prop
  | .identifier name => IsName name
  | _ => True

/-- How a token is written. A literal is the unsigned decimal number of its bits. -/
def Token.spelling : Token → String
  | .identifier name => name
  | .keyword word => word.text
  | .literal value => toString value.toUInt32.toNat
  | .mark sign => sign.text

/-- A token that can be written. -/
structure Word where
  token : Token
  writable : token.IsWritable

/-- A blank or a whole comment. -/
inductive Filler
  | blank (c : Char) (isBlank : c ∈ asciiBlanks)
  /-- A comment up to the end of its line. -/
  | line (body : List Char) (inLine : '\n' ∉ body)
  /-- A comment up to the first star with a slash behind it. -/
  | block (body : List Char) (isOpen : ¬ ['*', '/'] <:+: body)

def Filler.text : Filler → List Char
  | .blank c _ => [c]
  | .line body _ => '/' :: '/' :: (body ++ ['\n'])
  | .block body _ => '/' :: '*' :: (body ++ ['*', '/'])

/-- What stands between two tokens: a blank, then blanks and comments. -/
structure Separator where
  first : Char
  isBlank : first ∈ asciiBlanks
  rest : List Filler

def Separator.text (separator : Separator) : List Char :=
  separator.first :: separator.rest.flatMap Filler.text

/-- What a text ends with. -/
inductive Ending
  | nothing
  | word (word : Word)
  /-- A comment whose line ends with the text. -/
  | comment (body : List Char) (inLine : '\n' ∉ body)

/-- A text of tokens: blanks and comments, then tokens with separators behind them. The last token
needs none. -/
structure Writing where
  lead : List Filler
  words : List (Word × Separator)
  ending : Ending

namespace Ending

def text : Ending → List Char
  | .nothing => []
  | .word w => w.token.spelling.toList
  | .comment body _ => '/' :: '/' :: body

def tokens : Ending → List Token
  | .word w => [w.token]
  | _ => []

end Ending

namespace Writing

def text (writing : Writing) : String :=
  String.ofList (writing.lead.flatMap Filler.text ++
    (writing.words.flatMap (fun (word, separator) =>
      word.token.spelling.toList ++ separator.text) ++ writing.ending.text))

def tokens (writing : Writing) : List Token :=
  writing.words.map (·.1.token) ++ writing.ending.tokens

end Writing

namespace Lexer

/-! ## Blanks and comments are passed -/

variable {c : Char} {cs : List Char} {state : State} {token : Token} {n : Nat}

theorem isWordChar_of_blank (h : c ∈ asciiBlanks) : isWordChar c = false := by
  have hall : asciiBlanks.all (fun c => !isWordChar c) = true := by decide
  simpa using List.all_eq_true.1 hall c h

theorem begin_blank (h : c ∈ asciiBlanks) : begin c = .ok .start := by
  simp only [asciiBlanks, mem_cons, not_mem_nil, or_false] at h
  rcases h with rfl | rfl | rfl | rfl | rfl <;> rfl

theorem scan_blank (h : c ∈ asciiBlanks) (rest : List Char) :
    scan .start (c :: rest) = scan .start rest := by
  rw [scan_cons, step, extend, begin_blank h]
  rfl

theorem scan_lineComment {body : List Char} (h : '\n' ∉ body) (rest : List Char) :
    scan .lineComment (body ++ rest) = scan .lineComment rest := by
  induction body with
  | nil => rfl
  | cons c body ih =>
    rw [mem_cons, not_or] at h
    have hstep : step .lineComment c = ([], .lineComment) := by
      rw [step, extend, if_neg (Ne.symm h.1)]
    rw [cons_append, scan_cons, hstep, ih h.2]
    rfl

theorem scan_blockComment (body rest : List Char) (h : ¬ ['*', '/'] <:+: body) :
    scan .blockComment (body ++ '*' :: '/' :: rest) = scan .start rest ∧
      (body.head? ≠ some '/' →
        scan .blockCommentStar (body ++ '*' :: '/' :: rest) = scan .start rest) := by
  induction body with
  | nil => exact ⟨rfl, fun _ => rfl⟩
  | cons c body ih =>
    have hbody : ¬ ['*', '/'] <:+: body := fun hinfix => h (infix_cons hinfix)
    obtain ⟨hopen, hstar⟩ := ih hbody
    by_cases hc : c = '*'
    · subst hc
      have hhead : body.head? ≠ some '/' := by
        intro hslash
        obtain ⟨tail, rfl⟩ := List.head?_eq_some_iff.1 hslash
        exact h ⟨[], tail, rfl⟩
      exact ⟨hstar hhead, fun _ => hstar hhead⟩
    · constructor
      · have hstep : step .blockComment c = ([], .blockComment) := by
          rw [step, extend, if_neg hc]
        rw [cons_append, scan_cons, hstep]
        exact hopen
      · intro hslash
        have hstep : step .blockCommentStar c = ([], .blockComment) := by
          rw [step, extend, if_neg (by simpa using hslash), if_neg hc]
        rw [cons_append, scan_cons, hstep]
        exact hopen

theorem scan_filler (filler : Filler) (rest : List Char) :
    scan .start (filler.text ++ rest) = scan .start rest := by
  cases filler with
  | blank c hc => exact scan_blank hc rest
  | line body hbody =>
    show scan .lineComment (body ++ ['\n'] ++ rest) = _
    rw [append_assoc, scan_lineComment hbody]
    rfl
  | block body hbody =>
    show scan .blockComment (body ++ ['*', '/'] ++ rest) = _
    rw [append_assoc]
    exact (scan_blockComment body rest hbody).1

theorem scan_fillers (fillers : List Filler) (rest : List Char) :
    scan .start (fillers.flatMap Filler.text ++ rest) = scan .start rest := by
  induction fillers with
  | nil => rfl
  | cons filler fillers ih =>
    rw [flatMap_cons, append_assoc, scan_filler, ih]

/-! ## Tokens are found -/

/-- Characters that lead from the beginning of a token to a state. -/
def Leads (cs : List Char) (state : State) : Prop :=
  ∀ rest, scan .start (cs ++ rest) = scan state rest

/-- A state in which a token is whole: a blank ends it, and the end of the text does. -/
structure Ends (state : State) (token : Token) : Prop where
  blank : ∀ c ∈ asciiBlanks, extend state c = .yield token
  finish : finish state = some (.ok token)

theorem Leads.snoc {next : State} (h : Leads cs state)
    (hc : extend state c = .take next) : Leads (cs ++ [c]) next := by
  intro rest
  rw [append_assoc, h, singleton_append, scan_cons, step, hc]
  rfl

theorem leads_singleton (h : begin c = .ok state) : Leads [c] state := by
  intro rest
  rw [singleton_append, scan_cons, step, extend, h]
  rfl

theorem scan_token (hcs : Leads cs state) (hstate : Ends state token) (hc : c ∈ asciiBlanks)
    (rest : List Char) :
    scan .start (cs ++ c :: rest) = .ok token :: scan .start rest := by
  rw [hcs, scan_cons, step, hstate.blank c hc]
  simp only [enter, begin_blank hc]
  rfl

theorem scan_token_end (hcs : Leads cs state)
    (hstate : Ends state token) : scan .start cs = [.ok token] := by
  have hend := hcs []
  rw [append_nil] at hend
  rw [hend, scan, hstate.finish]
  rfl

/-! ### Words -/

theorem begin_wordStart (h : c.isAlpha ∨ c = '_') : begin c = .ok (.word [c]) := by
  have hstart : isWordStart c = true := by simpa [isWordStart] using h
  unfold begin
  split
  case h_21 => rw [if_pos hstart]
  all_goals exact absurd hstart (by decide)

theorem leads_word {rest : List Char} (hc : c.isAlpha ∨ c = '_')
    (hrest : ∀ d ∈ rest, d.isAlphanum ∨ d = '_') :
    Leads (c :: rest) (.word (c :: rest).reverse) := by
  -- the word grows at its end, so the induction takes the last character away
  induction rest using reverseRecOn with
  | nil => exact leads_singleton (begin_wordStart hc)
  | append_singleton front d ih =>
    have hd : isWordChar d = true := by simpa [isWordChar] using hrest d (by simp)
    have hfro := ih fun e he => hrest e (mem_append_left _ he)
    have hnxt : extend (.word (c :: front).reverse) d =
        .take (.word (c :: (front ++ [d])).reverse) := by
      rw [extend, if_pos hd]
      simp
    exact hfro.snoc hnxt

theorem ends_word (reversed : List Char) : Ends (.word reversed) (wordToken reversed) where
  blank := by
    intro c hc
    rw [extend, isWordChar_of_blank hc]
    rfl
  finish := rfl

theorem wordToken_keyword (word : Keyword) :
    wordToken word.text.toList.reverse = .keyword word := by
  cases word <;> decide

theorem wordToken_name {name : String} (h : ∀ keyword : Keyword, keyword.text ≠ name) :
    wordToken name.toList.reverse = .identifier name := by
  have hnone : Keyword.ofText? name = none := by
    rw [Keyword.ofText?, find?_eq_none]
    intro keyword _
    simpa using h keyword
  rw [wordToken, reverse_reverse, String.ofList_toList, hnone]

theorem keyword_word (word : Keyword) : ∃ c rest, word.text.toList = c :: rest ∧
    (c.isAlpha ∨ c = '_') ∧ ∀ d ∈ rest, d.isAlphanum ∨ d = '_' := by
  have hhead : word.text.toList.head?.any (fun c => c.isAlpha || c == '_') = true := by
    cases word <;> decide
  have htail : word.text.toList.tail.all (fun d => d.isAlphanum || d == '_') = true := by
    cases word <;> decide
  cases hword : word.text.toList with
  | nil =>
    rw [hword] at hhead
    cases hhead
  | cons c rest =>
    rw [hword] at hhead htail
    exact ⟨c, rest, rfl, by simpa using hhead, by simpa using htail⟩

/-! ### Literals -/

theorem writes_toDigits (hpos : 0 < n) : Radix.decimal.Writes (Nat.toDigits 10 n) n := by
  induction n using Nat.strongRecOn with
  | ind n ih =>
    by_cases hn : n < 10
    · rw [Nat.toDigits_of_lt_base hn]
      refine ⟨.single ⟨hn, .inl rfl⟩, ?_⟩
      interval_cases n <;> decide
    · rw [Nat.toDigits_of_base_le (by decide) (Nat.le_of_not_lt hn)]
      have hfront := ih (n / 10) (by omega) (by omega)
      have hwrites := hfront.snoc ⟨Nat.mod_lt n (by decide), .inl rfl⟩
      rwa [show n / 10 * Radix.decimal.size + n % Radix.decimal.size = n from
        Nat.div_add_mod' n 10] at hwrites

theorem ends_integer (n : Nat) : Ends (.integer n .decimal true) (.literal (Int32.ofNat n)) where
  blank := by
    intro c hc
    rw [extend, extendInteger, digit?_of_not_word (isWordChar_of_blank hc), isWordChar_of_blank hc]
    rfl
  finish := rfl

theorem ends_zero : Ends .zero (.literal 0) where
  blank := by
    intro c hc
    simp only [asciiBlanks, mem_cons, not_mem_nil, or_false] at hc
    rcases hc with rfl | rfl | rfl | rfl | rfl <;> rfl
  finish := rfl

/-! ### All tokens -/

theorem ends_complete (mark : Mark) : Ends (.complete mark) (.mark mark) where
  blank _ _ := rfl
  finish := rfl

theorem ends_slash : Ends .slash (.mark .div) where
  blank := by
    intro c hc
    simp only [asciiBlanks, mem_cons, not_mem_nil, or_false] at hc
    rcases hc with rfl | rfl | rfl | rfl | rfl <;> rfl
  finish := rfl

theorem ends_maybeEqual (alone extended : Mark) :
    Ends (.maybeEqual alone extended) (.mark alone) where
  blank := by
    intro c hc
    simp only [asciiBlanks, mem_cons, not_mem_nil, or_false] at hc
    rcases hc with rfl | rfl | rfl | rfl | rfl <;> rfl
  finish := rfl

theorem leads_spelling (h : token.IsWritable) :
    ∃ state, Leads token.spelling.toList state ∧ Ends state token := by
  cases token with
  | identifier name =>
    obtain ⟨⟨c, rest, hname, hc, hrest⟩, hunreserved⟩ := h
    rw [← wordToken_name hunreserved]
    refine ⟨_, ?_, ends_word _⟩
    rw [wordToken_name hunreserved, Token.spelling, hname]
    exact leads_word hc hrest
  | keyword keyword =>
    obtain ⟨c, rest, htext, hc, hrest⟩ := keyword_word keyword
    rw [← wordToken_keyword keyword]
    refine ⟨_, ?_, ends_word _⟩
    rw [wordToken_keyword, Token.spelling, htext]
    exact leads_word hc hrest
  | literal value =>
    have hlt := value.toUInt32.toNat_lt
    have hval : Int32.ofNat value.toUInt32.toNat = value := by
      rw [← Int32.toBitVec_inj, Int32.toBitVec_ofNat']
      exact BitVec.ofNat_toNat _ _
    have hends := ends_integer value.toUInt32.toNat
    rw [Token.spelling, show toString value.toUInt32.toNat = value.toUInt32.toNat.repr from rfl,
      Nat.toList_repr]
    rcases Nat.eq_zero_or_pos value.toUInt32.toNat with hz | hpos
    · rw [hz] at hval
      rw [hz, Nat.toDigits_zero, ← hval]
      exact ⟨.zero, leads_singleton rfl, ends_zero⟩
    · rw [hval] at hends
      refine ⟨_, fun rest => ?_, hends⟩
      rw [(writes_toDigits hpos).scan, holding, if_pos hlt]
  | mark sign =>
    cases sign with
    | div => exact ⟨_, fun _ => rfl, ends_slash⟩
    | assign | not | less | greater => exact ⟨_, fun _ => rfl, ends_maybeEqual _ _⟩
    | _ => exact ⟨_, fun _ => rfl, ends_complete _⟩

/-! ## Whole texts -/

theorem scan_word (word : Word) (separator : Separator) (rest : List Char) :
    scan .start (word.token.spelling.toList ++ separator.text ++ rest) =
      .ok word.token :: scan .start rest := by
  obtain ⟨state, hleads, hends⟩ := leads_spelling word.writable
  rw [Separator.text, append_assoc, cons_append,
    scan_token hleads hends separator.isBlank, scan_fillers]

theorem scan_words (words : List (Word × Separator)) (rest : List Char) :
    scan .start (words.flatMap (fun (word, separator) =>
        word.token.spelling.toList ++ separator.text) ++ rest) =
      words.map (fun entry => .ok entry.1.token) ++ scan .start rest := by
  induction words with
  | nil => rfl
  | cons entry words ih =>
    rw [flatMap_cons, append_assoc, scan_word, ih]
    rfl

theorem scan_ending (ending : Ending) : scan .start ending.text = ending.tokens.map .ok := by
  cases ending with
  | nothing => rfl
  | word word =>
    obtain ⟨state, hleads, hends⟩ := leads_spelling word.writable
    exact scan_token_end hleads hends
  | comment body hbody =>
    show scan .lineComment body = []
    rw [← append_nil body, scan_lineComment hbody]
    rfl

/-- The lexer reads the tokens of a text back. -/
theorem tokens_written (name : String) (writing : Writing) :
    ∃ located, Lexer.tokens (Stream.ofBytes name writing.text.toUTF8.toList) = .ok located ∧
      located.map (·.value) = writing.tokens := by
  apply tokens_of_results
  rw [results_toUTF8, Writing.text, String.toList_ofList, scan_fillers, scan_words, scan_ending,
    Writing.tokens, map_append, map_map]
  rfl

end Lexer

end SysY

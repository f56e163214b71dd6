import SysY.Text.Stream

/-!
# Lines by characters

Lines are cut out of bytes. In a text that is valid UTF-8 this is the same as cutting them out of its
characters: the bytes of a line feed and of a carriage return belong to no other character, and what
lies between two line ends can be decoded on its own.
-/

namespace SysY.Text

open List

variable {c : Char}

/-! ## Bytes of characters -/

def encode (cs : List Char) : List UInt8 := cs.flatMap String.utf8EncodeChar

theorem encode_append (cs ds : List Char) : encode (cs ++ ds) = encode cs ++ encode ds :=
  flatMap_append

theorem encode_singleton (c : Char) : encode [c] = String.utf8EncodeChar c :=
  flatMap_singleton _ c

theorem encode_eq_nil {cs : List Char} : encode cs = [] ↔ cs = [] := by
  cases cs with
  | nil => simp [encode]
  | cons c cs => simp [encode, flatMap_cons, String.utf8EncodeChar_ne_nil]

theorem toList_byteArray (bytes : ByteArray) : bytes.toList = bytes.data.toList := by
  have hloop : ∀ i r, ByteArray.toList.loop bytes i r = r.reverse ++ bytes.data.toList.drop i := by
    intro i r
    fun_induction ByteArray.toList.loop bytes i r with
    | case1 i r hi ih =>
      have hsz : i < bytes.data.toList.length := hi
      have hget : bytes.get! i = bytes.data.toList[i] := by
        show bytes.data[i]! = _
        rw [getElem!_pos bytes.data i hi, Array.getElem_toList]
      rw [ih, hget, reverse_cons, append_assoc, singleton_append,
        getElem_cons_drop]
    | case2 i r hi =>
      have hsz : bytes.data.toList.length ≤ i := Nat.le_of_not_lt hi
      rw [drop_of_length_le hsz, append_nil]
  exact hloop 0 []

theorem toList_toUTF8 (s : String) : s.toUTF8.toList = encode s.toList := by
  rw [toList_byteArray, String.toUTF8_eq_toByteArray, ← String.utf8Encode_toList, utf8Encode,
    data_toByteArray]
  rfl

theorem fromUTF8?_encode (cs : List Char) :
    String.fromUTF8? ⟨(encode cs).toArray⟩ = some (String.ofList cs) := by
  have hbyt : (⟨(encode cs).toArray⟩ : ByteArray) = (String.ofList cs).toByteArray := by
    rw [String.toByteArray_ofList, utf8Encode, ← data_toByteArray]
    rfl
  rw [hbyt, String.fromUTF8?, dif_pos (String.ofList cs).isValidUTF8]
  rfl

theorem eq_of_mem_utf8EncodeChar {b : UInt8} (hb : b ∈ String.utf8EncodeChar c)
    (hsm : b.toNat < 128) : c.toNat = b.toNat ∧ String.utf8EncodeChar c = [b] := by
  have hval : c.val.toNat = c.toNat := rfl
  unfold String.utf8EncodeChar at hb ⊢
  simp only [hval] at hb ⊢
  split at hb
  · rename_i hle
    obtain rfl := List.mem_singleton.1 hb
    rw [if_pos hle]
    exact ⟨by rw [UInt8.toNat_ofNat']; omega, rfl⟩
  · exfalso
    split at hb
    · simp only [mem_cons, not_mem_nil, or_false] at hb
      rcases hb with rfl | rfl <;> rw [UInt8.toNat_ofNat'] at hsm <;> omega
    · split at hb
      · simp only [mem_cons, not_mem_nil, or_false] at hb
        rcases hb with rfl | rfl | rfl <;> rw [UInt8.toNat_ofNat'] at hsm <;> omega
      · simp only [mem_cons, not_mem_nil, or_false] at hb
        rcases hb with rfl | rfl | rfl | rfl <;> rw [UInt8.toNat_ofNat'] at hsm <;> omega

theorem utf8EncodeChar_newline : String.utf8EncodeChar '\n' = [10] := by decide

theorem utf8EncodeChar_return : String.utf8EncodeChar '\r' = [13] := by decide

theorem newline_notMem_utf8EncodeChar (h : c ≠ '\n') : 10 ∉ String.utf8EncodeChar c :=
  fun hmem => h (Char.toNat_inj.1 (eq_of_mem_utf8EncodeChar hmem (by decide)).1)

/-! ## Lines of characters -/

/-- Drops one carriage return at the end. -/
def dropReturnChar (line : List Char) : List Char :=
  if line.getLast? = some '\r' then line.dropLast else line

/-- The lines of characters; `line` is the beginning of the open line. -/
def charLines (line : List Char) : List Char → List (List Char)
  | [] => if line.isEmpty then [] else [line]
  | c :: rest =>
    if c = '\n' then dropReturnChar line :: charLines [] rest else charLines (line ++ [c]) rest

theorem dropReturn_encode (line : List Char) :
    dropReturn (encode line) = encode (dropReturnChar line) := by
  rcases eq_nil_or_concat line with rfl | ⟨front, c, rfl⟩
  · rfl
  · rw [concat_eq_append]
    have hlast : (encode (front ++ [c])).getLast? = (String.utf8EncodeChar c).getLast? := by
      rw [encode_append, encode_singleton, getLast?_append]
      exact Option.or_of_isSome (List.getLast?_isSome.2 String.utf8EncodeChar_ne_nil)
    by_cases hc : c = '\r'
    · subst hc
      simp [dropReturn, dropReturnChar, encode_append, encode_singleton, utf8EncodeChar_return]
    · have hoth : (encode (front ++ [c])).getLast? ≠ some 13 := by
        rw [hlast]
        intro hsome
        have hmem := mem_of_getLast? hsome
        exact hc (Char.toNat_inj.1 (eq_of_mem_utf8EncodeChar hmem (by decide)).1)
      rw [dropReturn, if_neg hoth, dropReturnChar, if_neg (by simpa using hc)]

theorem splitLines_append {bytes : List UInt8} (h : 10 ∉ bytes) (current rest : List UInt8) :
    splitLines current (bytes ++ rest) = splitLines (bytes.reverse ++ current) rest := by
  induction bytes generalizing current with
  | nil => rfl
  | cons b bytes ih =>
    rw [mem_cons, not_or] at h
    rw [cons_append, splitLines, if_neg (Ne.symm h.1), ih h.2]
    simp

theorem splitLines_encode (line cs : List Char) :
    splitLines (encode line).reverse (encode cs) = (charLines line cs).map encode := by
  induction cs generalizing line with
  | nil =>
    show splitLines (encode line).reverse [] = _
    rw [splitLines, charLines]
    by_cases hline : line = []
    · subst hline
      rfl
    · have hbyt : encode line ≠ [] := mt encode_eq_nil.1 hline
      simp [hline, hbyt]
  | cons c cs ih =>
    have hcons : encode (c :: cs) = String.utf8EncodeChar c ++ encode cs := rfl
    by_cases hc : c = '\n'
    · subst hc
      rw [hcons, utf8EncodeChar_newline, singleton_append, splitLines, if_pos rfl,
        reverse_reverse, dropReturn_encode, charLines, if_pos rfl, map_cons, ← ih []]
      rfl
    · rw [hcons, splitLines_append (newline_notMem_utf8EncodeChar hc), ← reverse_append,
        ← encode_singleton, ← encode_append, ih, charLines, if_neg hc]

theorem decodeLines_toUTF8 (s : String) :
    decodeLines s.toUTF8.toList = (charLines [] s.toList).map fun line => some (String.ofList line) := by
  have hspl : splitLines [] (encode s.toList) = (charLines [] s.toList).map encode :=
    splitLines_encode [] s.toList
  rw [toList_toUTF8, decodeLines, hspl, map_map]
  exact map_congr_left fun line _ => fromUTF8?_encode line

/-! ## Lines one behind the other -/

theorem newline_notMem_charLines (line cs : List Char) (h : '\n' ∉ line) :
    ∀ found ∈ charLines line cs, '\n' ∉ found := by
  induction cs generalizing line with
  | nil =>
    rw [charLines]
    split
    · exact nofun
    · simpa using h
  | cons c cs ih =>
    rw [charLines]
    split
    · have hdrop : '\n' ∉ dropReturnChar line := by
        unfold dropReturnChar
        split
        · exact fun hmem => h (dropLast_subset _ hmem)
        · exact h
      exact forall_mem_cons.2 ⟨hdrop, ih [] not_mem_nil⟩
    · rename_i hc
      exact ih _ (by simp [h, Ne.symm hc])

theorem line_after {p : Position} (h : c ≠ '\n') : (p.after c).line = p.line := by
  unfold Position.after
  rw [if_neg h]
  split <;> rfl

theorem lineItems_line (source : Source) {line : List Char} (h : '\n' ∉ line) (p : Position)
    (rest : List Char) : lineItems source p (line ++ '\n' :: rest) =
      lineItems source p (line ++ ['\n']) ++ lineItems source { line := p.line + 1 } rest := by
  induction line generalizing p with
  | nil => rfl
  | cons c line ih =>
    rw [mem_cons, not_or] at h
    rw [cons_append, lineItems, ih h.2, line_after (Ne.symm h.1)]
    rfl

theorem items_eq_lineItems (source : Source) (number : Nat) {lines : List (List Char)}
    (h : ∀ line ∈ lines, '\n' ∉ line) :
    items source number (lines.map fun line => some (String.ofList line)) =
      lineItems source { line := number } (lines.flatMap (· ++ ['\n'])) := by
  induction lines generalizing number with
  | nil => rfl
  | cons line lines ih =>
    obtain ⟨hline, hlines⟩ := forall_mem_cons.1 h
    rw [flatMap_cons, append_assoc, singleton_append, lineItems_line source hline,
      ← ih (number + 1) hlines, map_cons, items, String.toList_ofList]

end SysY.Text

import Enquanto.Proofs.TextInput

/-!
# The words of an input

An input that is text is read word by word: which words wait and which are still in the lines
behind them shows nowhere. So what an input amounts to is the list of its words, and the words of a
text are the same whether it is taken line by line or at once.

* `Text.words_append_blank`: a blank ends a word;
* `Input.words` and `Input.words_ofString`: the words of an input, and those of a text;
* `Input.IsText.next_of_words_nil`, `Input.IsText.next_of_words_cons`: the next word is the first.
-/

namespace Enquanto

/-! ## Words of a text -/

namespace Text

/-- The pieces of a text between its blanks, empty ones among them. -/
def pieces (text : List Char) : List (List Char) := text.foldr addToWords [[]]

theorem words_eq (text : List Char) : words text = (pieces text).filter (· ≠ []) := rfl

theorem pieces_ne_nil (text : List Char) : pieces text ≠ [] := by
  cases text with
  | nil => exact List.cons_ne_nil _ _
  | cons c text =>
    rw [pieces, List.foldr_cons]
    unfold addToWords
    split <;> split <;> exact List.cons_ne_nil _ _

theorem addToWords_append (c : Char) {before : List (List Char)} (h : before ≠ [])
    (after : List (List Char)) :
    addToWords c (before ++ after) = addToWords c before ++ after := by
  cases before with
  | nil => exact absurd rfl h
  | cons piece rest =>
    simp only [List.cons_append, addToWords]
    split <;> rfl

theorem addToWords_of_isBlank {c : Char} (hc : isBlank c = true) (text : List Char) :
    addToWords c (pieces text) = [] :: pieces text := by
  cases h : pieces text with
  | nil => exact absurd h (pieces_ne_nil text)
  | cons piece rest => simp only [addToWords, hc, if_true]

theorem pieces_append_blank (text : List Char) {c : Char} (hc : isBlank c = true)
    (rest : List Char) : pieces (text ++ c :: rest) = pieces text ++ pieces rest := by
  induction text with
  | nil => exact addToWords_of_isBlank hc rest
  | cons d text ih =>
    show addToWords d (pieces (text ++ c :: rest)) = addToWords d (pieces text) ++ pieces rest
    rw [ih, addToWords_append d (pieces_ne_nil text)]

/-- A blank ends a word. -/
theorem words_append_blank (text : List Char) {c : Char} (hc : isBlank c = true)
    (rest : List Char) : words (text ++ c :: rest) = words text ++ words rest := by
  rw [words_eq, words_eq, words_eq, pieces_append_blank text hc, List.filter_append]

end Text

/-! ## Words of an input -/

namespace Input

/-- The words that are left: those that wait, and those of the lines that are text. -/
def words (input : Input) : List String :=
  input.waiting ++ input.lines.flatMap fun line => (lineWords line).getD []

theorem lineWords_encode (chars : List Char) :
    lineWords (Text.encode chars) = some ((Text.words chars).map String.ofList) := by
  unfold lineWords
  rw [Text.fromUTF8?_encode, Option.map_some, String.toList_ofList]

theorem newline_notMem_encode {chars : List Char} (h : '\n' ∉ chars) : 10 ∉ Text.encode chars := by
  intro hm
  obtain ⟨c, hc, hb⟩ := List.mem_flatMap.mp hm
  exact h (Text.eq_newline_of_mem hb ▸ hc)

theorem encode_append (chars more : List Char) :
    Text.encode (chars ++ more) = Text.encode chars ++ Text.encode more :=
  List.flatMap_append

/-- Up to its first line feed, a text is a line. -/
theorem splitLines_encode {line : List Char} (h : '\n' ∉ line) (chars : List Char) :
    splitLines (Text.encode (line ++ '\n' :: chars)) =
      Text.encode (line ++ ['\n']) :: splitLines (Text.encode chars) := by
  have hfeed : Text.encode ('\n' :: chars) = 10 :: Text.encode chars := rfl
  rw [encode_append, encode_append, hfeed]
  by_cases hnil : Text.encode line = []
  · rw [hnil]
    rfl
  · rw [splitLines_append hnil (newline_notMem_encode h)]
    rfl

/-- A text without a line feed is one line, or none. -/
theorem splitLines_encode_of_notMem {line : List Char} (h : '\n' ∉ line) (hne : line ≠ []) :
    splitLines (Text.encode line) = [Text.encode line] := by
  obtain ⟨c, line, rfl⟩ := List.exists_cons_of_ne_nil hne
  have hbytes : Text.encode (c :: line) ≠ [] := by
    rw [Text.encode_cons]
    exact List.append_ne_nil_of_left_ne_nil String.utf8EncodeChar_ne_nil _
  have hsplit := splitLines_append hbytes (newline_notMem_encode h) []
  rwa [List.append_nil] at hsplit

/-- The words of the lines of a text are those of the text. -/
theorem flatMap_lineWords (chars : List Char) :
    (splitLines (Text.encode chars)).flatMap (fun line => (lineWords line).getD []) =
      (Text.words chars).map String.ofList := by
  -- The first line is read up to its end, with what is read of it so far in front.
  suffices h : ∀ line : List Char, '\n' ∉ line →
      (splitLines (Text.encode (line ++ chars))).flatMap (fun line => (lineWords line).getD []) =
        (Text.words (line ++ chars)).map String.ofList from h [] List.not_mem_nil
  induction chars with
  | nil =>
    intro line hline
    rw [List.append_nil]
    by_cases hnil : line = []
    · subst hnil
      rfl
    · rw [splitLines_encode_of_notMem hline hnil, List.flatMap_singleton, lineWords_encode]
      rfl
  | cons c chars ih =>
    intro line hline
    by_cases hc : c = '\n'
    · subst hc
      have hrest := ih [] List.not_mem_nil
      rw [List.nil_append] at hrest
      rw [splitLines_encode hline, List.flatMap_cons, lineWords_encode, hrest,
        Text.words_append_blank line rfl, Text.words_append_blank line rfl, List.map_append]
      simp [Text.words_eq, Text.pieces]
    · have h := ih (line ++ [c]) (by simp [hline, Ne.symm hc])
      rwa [List.append_assoc] at h

theorem lines_ofString (text : String) :
    (ofString text).lines = splitLines (Text.encode text.toList) := by
  have hbytes : text.toUTF8 = text.toList.utf8Encode := by
    rw [← String.toByteArray_ofList, String.ofList_toList]
    rfl
  show splitLines text.toUTF8.toList = _
  rw [Text.toList_eq_data, hbytes, Text.data_utf8Encode]

/-- The words of a text as an input are its words. -/
theorem words_ofString (text : String) :
    (ofString text).words = (Text.words text.toList).map String.ofList := by
  unfold words
  rw [lines_ofString, flatMap_lineWords]
  rfl

/-- Behind the end of a line, more words follow. -/
theorem words_ofString_append (text more : String) :
    (ofString (text ++ "\n" ++ more)).words = (ofString text).words ++ (ofString more).words := by
  rw [words_ofString, words_ofString, words_ofString, ← List.map_append,
    ← Text.words_append_blank text.toList (c := '\n') rfl more.toList]
  simp

/-! ## Reading -/

theorem nextOfLines_of_isTextLine {lines : List (List UInt8)}
    (h : ∀ line ∈ lines, IsTextLine line) :
    ∃ rest : Input, nextOfLines lines =
        (.ok (lines.flatMap fun line => (lineWords line).getD []).head?, rest) ∧
      rest.IsText ∧ rest.words = (lines.flatMap fun line => (lineWords line).getD []).tail := by
  induction lines with
  | nil => exact ⟨⟨[], []⟩, rfl, nofun, rfl⟩
  | cons line lines ih =>
    have hlines : ∀ l ∈ lines, IsTextLine l := fun l hl => h l (List.mem_cons_of_mem _ hl)
    obtain ⟨words, hwords⟩ := lineWords_of_isTextLine (h line List.mem_cons_self)
    rw [nextOfLines, hwords, List.flatMap_cons, hwords]
    cases words with
    | nil => exact ih hlines
    | cons word waiting => exact ⟨⟨waiting, lines⟩, rfl, hlines, rfl⟩

/-- Text is read word by word. -/
theorem IsText.next_eq {input : Input} (h : input.IsText) : ∃ rest,
    input.next = (.ok input.words.head?, rest) ∧ rest.IsText ∧ rest.words = input.words.tail := by
  obtain ⟨waiting, lines⟩ := input
  cases waiting with
  | nil => exact nextOfLines_of_isTextLine h
  | cons word waiting => exact ⟨⟨waiting, lines⟩, rfl, h, rfl⟩

/-- Without words, text is at its end. -/
theorem IsText.readInt_of_words_nil {input : Input} (h : input.IsText) (hw : input.words = []) :
    ∃ rest, input.readInt = (.error .exhausted, rest) := by
  obtain ⟨rest, hnext, -⟩ := h.next_eq
  rw [hw] at hnext
  exact ⟨rest, by rw [Input.readInt, hnext]; rfl⟩

/-- What is read of the first word does not depend on the others, and they are left. -/
theorem IsText.readInt_of_words_cons {input : Input} (h : input.IsText) {word : String}
    {ws : List String} (hw : input.words = word :: ws) : ∃ rest, rest.IsText ∧ rest.words = ws ∧
      input.readInt = (match Decimal.parse? word.toList with
        | some value => .ok value
        | none => .error (.malformed word), rest) := by
  obtain ⟨rest, hnext, hrest, hws⟩ := h.next_eq
  rw [hw] at hnext hws
  refine ⟨rest, hrest, hws, ?_⟩
  rw [Input.readInt, hnext]
  simp only [List.head?_cons]
  cases Decimal.parse? word.toList <;> rfl

end Input

end Enquanto

import Enquanto.Proofs.InputWords
import Mathlib.Data.List.Forall2

/-!
# The items of an input

What the lines of an input are shows nowhere in what is read from it. Each line has items: its
words, or one failure if it is not text. The input is read item by item, in the order of the lines,
and is at its end for good behind the last one.

* `lines_iff`: bytes have lines in one way only, which their line feeds end;
* `Input.items`: the items that are left of an input;
* `Input.next_eq`: the next answer is the first item, and the others are left;
* `Input.drop`: an input behind some of its items;
* `Input.reads_items`: what is read of bytes, and of a text, however it is broken into lines.
-/

namespace Enquanto

/-! ## Lines of bytes -/

/-- The bytes consist of the lines. A line ends behind its line feed; the last one may have none,
but is not empty then. -/
inductive Lines : List UInt8 → List (List UInt8) → Prop where
  | none : Lines [] []
  | last {line : List UInt8} : line ≠ [] → 10 ∉ line → Lines line [line]
  | feed {line bytes : List UInt8} {lines : List (List UInt8)} :
      10 ∉ line → Lines bytes lines → Lines (line ++ 10 :: bytes) ((line ++ [10]) :: lines)

theorem splitLines_feed {line : List UInt8} (h : 10 ∉ line) (bytes : List UInt8) :
    splitLines (line ++ 10 :: bytes) = (line ++ [10]) :: splitLines bytes := by
  by_cases hnil : line = []
  · subst hnil
    rfl
  · rw [splitLines_append hnil h]
    rfl

/-- One more byte in front is in the first line. -/
theorem Lines.splitLines (bytes : List UInt8) : Lines bytes (splitLines bytes) := by
  induction bytes with
  | nil => exact .none
  | cons b bytes ih =>
    by_cases hb : b = 10
    · subst hb
      exact @Lines.feed [] bytes _ List.not_mem_nil ih
    · have hnot {line : List UInt8} (h : 10 ∉ line) : 10 ∉ b :: line := by
        simp [h, Ne.symm hb]
      rw [splitLines_cons hb]
      generalize Enquanto.splitLines bytes = lines at ih
      cases ih with
      | none => exact .last (List.cons_ne_nil _ _) (hnot List.not_mem_nil)
      | last _ h => exact .last (List.cons_ne_nil _ _) (hnot h)
      | @feed line rest _ h hrest => exact @Lines.feed (b :: line) rest _ (hnot h) hrest

/-- Bytes consist of lines in one way only. -/
theorem lines_iff {bytes : List UInt8} {lines : List (List UInt8)} :
    Lines bytes lines ↔ splitLines bytes = lines := by
  constructor
  · intro h
    induction h with
    | none => rfl
    | @last line hne h =>
      have hsplit := splitLines_append hne h []
      rwa [List.append_nil] at hsplit
    | feed h _ ih => rw [splitLines_feed h, ih]
  · rintro rfl
    exact Lines.splitLines bytes

/-! ## Words of a text -/

/-- The pieces between blanks are those of the library. -/
theorem Text.pieces_eq_splitOnP (text : List Char) : pieces text = text.splitOnP isBlank := by
  induction text with
  | nil => rfl
  | cons c text ih =>
    show addToWords c (pieces text) = _
    rw [List.splitOnP_cons_eq_if_modifyHead, ← ih]
    cases h : pieces text with
    | nil => exact absurd h (pieces_ne_nil text)
    | cons piece rest => rfl

namespace Input

/-! ## Items -/

/-- What can be read of a line: its words, or one failure if it is not text. -/
inductive LineItems : List UInt8 → List (Except String String) → Prop where
  | text (chars : List Char) :
      LineItems (Text.encode chars)
        (((chars.splitOnP Text.isBlank).filter (· ≠ [])).map fun word => .ok (String.ofList word))
  | invalid {line : List UInt8} :
      (∀ chars, line ≠ Text.encode chars) → LineItems line [.error invalidLineMessage]

/-- The items of a line. -/
def lineItems (line : List UInt8) : List (Except String String) :=
  match lineWords line with
  | some words => words.map .ok
  | none => [.error invalidLineMessage]

theorem lineItems_encode (chars : List Char) : lineItems (Text.encode chars) =
    ((chars.splitOnP Text.isBlank).filter (· ≠ [])).map fun word => .ok (String.ofList word) := by
  rw [lineItems, lineWords_encode, Text.words_eq, Text.pieces_eq_splitOnP]
  exact List.map_map

theorem lineWords_eq_none {line : List UInt8} (h : ∀ chars, line ≠ Text.encode chars) :
    lineWords line = none := by
  have hinvalid : ¬ (ByteArray.mk line.toArray).IsValidUTF8 := by
    rw [Text.isValidUTF8_iff, Text.toList_eq_data]
    rintro ⟨chars, hchars⟩
    exact h chars hchars
  rw [lineWords, String.fromUTF8?, dif_neg hinvalid]
  rfl

theorem lineItems_spec (line : List UInt8) : LineItems line (lineItems line) := by
  by_cases h : ∃ chars, line = Text.encode chars
  · obtain ⟨chars, rfl⟩ := h
    rw [lineItems_encode]
    exact .text chars
  · have hnot : ∀ chars, line ≠ Text.encode chars := fun chars hc => h ⟨chars, hc⟩
    rw [lineItems, lineWords_eq_none hnot]
    exact .invalid hnot

/-- The items that are left: the words that wait, and the items of the lines behind them. -/
def items (input : Input) : List (Except String String) :=
  input.waiting.map .ok ++ input.lines.flatMap lineItems

theorem items_ofBytes (bytes : ByteArray) :
    (ofBytes bytes).items = (splitLines bytes.toList).flatMap lineItems := rfl

/-- A text has its words for items. -/
theorem IsText.items_eq {input : Input} (h : input.IsText) : input.items = input.words.map .ok := by
  have hline : ∀ line ∈ input.lines, lineItems line = ((lineWords line).getD []).map .ok := by
    intro line hl
    obtain ⟨words, hwords⟩ := lineWords_of_isTextLine (h line hl)
    rw [lineItems, hwords]
    rfl
  rw [items, words, List.map_append, List.map_flatMap]
  exact congrArg _ (List.flatMap_congr hline)

/-! ## Reading -/

/-- How an item is handed out as a word; there is no word behind the last item. -/
def answer : Option (Except String String) → Except String (Option String)
  | some (.ok word) => .ok (some word)
  | some (.error message) => .error message
  | none => .ok none

/-- How an item is handed out as an integer. -/
def answerInt : Option (Except String String) → Except ReadError Int32
  | some (.ok word) =>
    match Decimal.parse? word.toList with
    | some value => .ok value
    | none => .error (.malformed word)
  | some (.error message) => .error (.failed message)
  | none => .error .exhausted

theorem nextOfLines_eq (lines : List (List UInt8)) :
    (nextOfLines lines).1 = answer (lines.flatMap lineItems).head? ∧
      (nextOfLines lines).2.items = (lines.flatMap lineItems).tail := by
  induction lines with
  | nil => exact ⟨rfl, rfl⟩
  | cons line lines ih =>
    cases hwords : lineWords line with
    | none =>
      rw [nextOfLines, List.flatMap_cons, lineItems, hwords]
      exact ⟨rfl, rfl⟩
    | some words =>
      rw [nextOfLines, List.flatMap_cons, lineItems, hwords]
      cases words with
      | nil => exact ih
      | cons word waiting => exact ⟨rfl, rfl⟩

/-- The next answer is the first item, and the others are left. -/
theorem next_eq (input : Input) :
    input.next.1 = answer input.items.head? ∧ input.next.2.items = input.items.tail := by
  obtain ⟨waiting, lines⟩ := input
  cases waiting with
  | nil => exact nextOfLines_eq lines
  | cons word waiting => exact ⟨rfl, rfl⟩

/-- An integer is read off the next item, whatever the item is. -/
theorem readInt_eq (input : Input) :
    input.readInt = (answerInt input.items.head?, input.next.2) := by
  have hanswer := input.next_eq.1
  unfold readInt
  rcases hnext : input.next with ⟨result, rest⟩
  rw [hnext] at hanswer
  simp only at hanswer
  subst hanswer
  cases input.items.head? with
  | none => rfl
  | some item =>
    cases item with
    | error message => rfl
    | ok word =>
      simp only [answer, answerInt]
      cases Decimal.parse? word.toList <;> rfl

/-- The input behind its next `n` items. -/
def drop : Nat → Input → Input
  | 0, input => input
  | n + 1, input => (drop n input).next.2

theorem drop_add (n k : Nat) (input : Input) : input.drop (n + k) = (input.drop n).drop k := by
  induction k with
  | zero => rfl
  | succ k ih => exact congrArg (fun input : Input => input.next.2) ih

theorem items_drop (n : Nat) (input : Input) : (input.drop n).items = input.items.drop n := by
  induction n with
  | zero => rfl
  | succ n ih => rw [drop, (next_eq _).2, ih, List.tail_drop]

theorem head?_items_drop (n : Nat) (input : Input) :
    (input.drop n).items.head? = input.items[n]? := by
  rw [items_drop, List.head?_drop]

/-- Which characters a text may have where another has `c`: its white space may be any other. -/
def Relaid (c c' : Char) : Prop := c = c' ∨ Text.isBlank c = true ∧ Text.isBlank c' = true

theorem splitOnP_relaid {text other : List Char} (h : List.Forall₂ Relaid text other) :
    text.splitOnP Text.isBlank = other.splitOnP Text.isBlank := by
  induction h with
  | nil => rfl
  | cons hc _ ih =>
    rw [List.splitOnP_cons_eq_if_modifyHead, List.splitOnP_cons_eq_if_modifyHead, ih]
    rcases hc with rfl | ⟨hc, hc'⟩
    · rfl
    · rw [if_pos hc, if_pos hc']

theorem items_ofString (text : String) : (ofString text).items =
    ((text.toList.splitOnP Text.isBlank).filter (· ≠ [])).map fun word =>
      .ok (String.ofList word) := by
  rw [(isText_ofString text).items_eq, words_ofString, Text.words_eq, Text.pieces_eq_splitOnP]
  exact List.map_map

/-- What is read does not show where lines end. Of bytes, which have lines in one way only, the
items of their lines are handed out one for each call, as words or as integers, and nothing behind
the last; of a text, the runs of characters between its white space are, whichever white space it
is. -/
theorem reads_items :
    (∀ bytes : ByteArray, ∃ lines items, (∀ lines', Lines bytes.toList lines' ↔ lines = lines') ∧
      List.Forall₂ LineItems lines items ∧ ∀ n,
        ((ofBytes bytes).drop n).next = (answer items.flatten[n]?, (ofBytes bytes).drop (n + 1)) ∧
        ((ofBytes bytes).drop n).readInt =
          (answerInt items.flatten[n]?, (ofBytes bytes).drop (n + 1))) ∧
    (∀ (text : String) (n : Nat), ((ofString text).drop n).next.1 =
      .ok (((text.toList.splitOnP Text.isBlank).filter (· ≠ []))[n]?.map String.ofList)) ∧
    ∀ (text other : String) (n : Nat), List.Forall₂ Relaid text.toList other.toList →
      ((ofString text).drop n).next.1 = ((ofString other).drop n).next.1 ∧
        ((ofString text).drop n).readInt.1 = ((ofString other).drop n).readInt.1 := by
  refine ⟨fun bytes => ?bytes, fun text n => ?text, fun text other n h => ?relaid⟩
  case bytes =>
    refine ⟨splitLines bytes.toList, (splitLines bytes.toList).map lineItems, fun _ => lines_iff,
      List.forall₂_map_right_iff.mpr (List.forall₂_same.mpr fun line _ => lineItems_spec line),
      fun n => ?_⟩
    have hitem : ((ofBytes bytes).drop n).items.head? =
        ((splitLines bytes.toList).map lineItems).flatten[n]? := by
      rw [head?_items_drop, items_ofBytes, List.flatMap_def]
    rw [readInt_eq, ← hitem]
    exact ⟨Prod.ext (next_eq _).1 rfl, rfl⟩
  case text =>
    rw [(next_eq _).1, head?_items_drop, items_ofString, List.getElem?_map]
    cases ((text.toList.splitOnP Text.isBlank).filter (· ≠ []))[n]? <;> rfl
  case relaid =>
    have hitems : (ofString text).items = (ofString other).items := by
      rw [items_ofString, items_ofString, splitOnP_relaid h]
    rw [(next_eq _).1, (next_eq _).1, readInt_eq, readInt_eq, head?_items_drop, head?_items_drop,
      hitems]
    exact ⟨rfl, rfl⟩

end Input

end Enquanto

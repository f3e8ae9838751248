import Enquanto.Input

/-!
# Input that is text

The bytes of a text, taken line by line, are lines of text: the byte of a line feed is part of no
other character. So reading from a text never fails for its encoding, whatever was read before.

* `Input.IsText`: all lines that are left are text;
* `Input.isText_ofBytes_iff` and `Input.isText_ofString`: those of valid bytes are, and of no other;
* `Input.IsText.readInt`: reading leaves text behind, and does not fail for its encoding.
-/

namespace Enquanto

/-! ## Bytes of characters -/

namespace Text

/-- The bytes of an array from `i` on are put behind those already `seen`. -/
theorem bytes_from (bytes : ByteArray) (i : Nat) (seen : List UInt8) :
    ByteArray.toList.loop bytes i seen = seen.reverse ++ bytes.data.toList.drop i := by
  fun_induction ByteArray.toList.loop bytes i seen with
  | case1 i seen hi ih =>
    have hlt : i < bytes.data.toList.length := hi
    have hget : bytes.get! i = bytes.data.toList.get ⟨i, hlt⟩ := by
      show bytes.data[i]! = _
      rw [getElem!_pos bytes.data i hi]
      rfl
    rw [ih, List.drop_eq_getElem_cons hlt, List.reverse_cons, List.append_assoc, hget]
    rfl
  | case2 i seen hi =>
    have hle : bytes.data.toList.length ≤ i := Nat.le_of_not_lt hi
    rw [List.drop_eq_nil_of_le hle, List.append_nil]

/-- The bytes of characters. -/
def encode (chars : List Char) : List UInt8 := chars.flatMap String.utf8EncodeChar

theorem encode_cons (c : Char) (chars : List Char) :
    encode (c :: chars) = String.utf8EncodeChar c ++ encode chars :=
  List.flatMap_cons

/-- A character beyond the first 128 has no byte below 128. -/
theorem le_of_mem_encode {c : Char} {b : UInt8} (hc : ¬ c.val.toNat ≤ 0x7f)
    (h : b ∈ String.utf8EncodeChar c) : 128 ≤ b.toNat := by
  have hbyte (n : Nat) (hn : 128 ≤ n) (hn' : n < 256) : 128 ≤ (UInt8.ofNat n).toNat := by
    rw [UInt8.toNat_ofNat']
    omega
  unfold String.utf8EncodeChar at h
  rw [if_neg hc] at h
  split at h
  · simp only [List.mem_cons, List.not_mem_nil, or_false] at h
    rcases h with rfl | rfl <;> exact hbyte _ (by omega) (by omega)
  · split at h
    · simp only [List.mem_cons, List.not_mem_nil, or_false] at h
      rcases h with rfl | rfl | rfl <;> exact hbyte _ (by omega) (by omega)
    · simp only [List.mem_cons, List.not_mem_nil, or_false] at h
      rcases h with rfl | rfl | rfl | rfl <;> exact hbyte _ (by omega) (by omega)

/-- Only a line feed has the byte of a line feed. -/
theorem eq_newline_of_mem {c : Char} (h : 10 ∈ String.utf8EncodeChar c) : c = '\n' := by
  by_cases hc : c.val.toNat ≤ 0x7f
  · unfold String.utf8EncodeChar at h
    rw [if_pos hc, List.mem_singleton] at h
    have hmod : 10 = c.val.toNat % 256 := by simpa using congrArg UInt8.toNat h
    have hval : c.val.toNat = '\n'.val.toNat := by
      show c.val.toNat = 10
      omega
    exact Char.toNat_inj.mp hval
  · have hle := le_of_mem_encode hc h
    simp at hle

theorem toList_eq_data (bytes : ByteArray) : bytes.toList = bytes.data.toList :=
  bytes_from bytes 0 []

/-- The bytes of characters, packed. -/
theorem data_utf8Encode (chars : List Char) : chars.utf8Encode.data.toList = encode chars :=
  List.toList_data_toByteArray

/-- Valid bytes are those of characters. -/
theorem isValidUTF8_iff {bytes : ByteArray} :
    bytes.IsValidUTF8 ↔ ∃ chars, bytes.toList = encode chars := by
  rw [toList_eq_data]
  constructor
  · rintro ⟨chars, rfl⟩
    exact ⟨chars, data_utf8Encode chars⟩
  · rintro ⟨chars, h⟩
    rw [← data_utf8Encode] at h
    exact ⟨chars, ByteArray.ext (Array.toList_inj.mp h)⟩

/-- The bytes of characters are valid, and stand for the characters. -/
theorem fromUTF8?_encode (chars : List Char) :
    String.fromUTF8? ⟨(encode chars).toArray⟩ = some (String.ofList chars) := by
  have hbytes : ByteArray.mk (encode chars).toArray = chars.utf8Encode :=
    ByteArray.ext (Array.toList_inj.mp (data_utf8Encode chars).symm)
  have hvalid : (ByteArray.mk (encode chars).toArray).IsValidUTF8 := ⟨chars, hbytes⟩
  unfold String.fromUTF8?
  rw [dif_pos hvalid, Option.some_inj, ← String.toByteArray_inj, String.toByteArray_ofList]
  exact hbytes

end Text

/-! ## Lines -/

theorem splitLines_cons {b : UInt8} (hb : b ≠ 10) (bytes : List UInt8) :
    splitLines (b :: bytes) =
      match splitLines bytes with
      | [] => [[b]]
      | line :: lines => (b :: line) :: lines :=
  if_neg hb

/-- Bytes without a line feed stand at the start of the first line. -/
theorem splitLines_append {bytes : List UInt8} (hb : bytes ≠ []) (h : 10 ∉ bytes)
    (rest : List UInt8) : splitLines (bytes ++ rest) =
      match splitLines rest with
      | [] => [bytes]
      | line :: lines => (bytes ++ line) :: lines := by
  induction bytes with
  | nil => exact absurd rfl hb
  | cons b bytes ih =>
    have hb10 : b ≠ 10 := fun he => h (he ▸ List.mem_cons_self)
    rw [List.cons_append, splitLines_cons hb10]
    by_cases hnil : bytes = []
    · subst hnil
      rfl
    · rw [ih hnil fun hm => h (List.mem_cons_of_mem _ hm)]
      cases splitLines rest <;> rfl

/-- The line is text. -/
def IsTextLine (line : List UInt8) : Prop := ∃ chars, line = Text.encode chars

/-- The lines of a text are text. -/
theorem isTextLine_of_mem_splitLines (chars : List Char) :
    ∀ line ∈ splitLines (Text.encode chars), IsTextLine line := by
  induction chars with
  | nil => exact nofun
  | cons c chars ih =>
    by_cases hc : c = '\n'
    · subst hc
      intro line hline
      rcases List.mem_cons.mp hline with rfl | hline
      · exact ⟨['\n'], rfl⟩
      · exact ih line hline
    · rw [Text.encode_cons, splitLines_append String.utf8EncodeChar_ne_nil
        fun h => hc (Text.eq_newline_of_mem h)]
      intro line hline
      split at hline
      · obtain rfl := List.mem_singleton.mp hline
        exact ⟨[c], (List.append_nil _).symm⟩
      · next first lines hs =>
        rw [hs] at ih
        rcases List.mem_cons.mp hline with rfl | hline
        · obtain ⟨others, rfl⟩ := ih first List.mem_cons_self
          exact ⟨c :: others, (Text.encode_cons c others).symm⟩
        · exact ih line (List.mem_cons_of_mem _ hline)

/-- Lines of text make a text. -/
theorem exists_encode_flatten {lines : List (List UInt8)} (h : ∀ line ∈ lines, IsTextLine line) :
    ∃ chars, lines.flatten = Text.encode chars := by
  induction lines with
  | nil => exact ⟨[], rfl⟩
  | cons line lines ih =>
    obtain ⟨first, rfl⟩ := h line List.mem_cons_self
    obtain ⟨others, ho⟩ := ih fun l hl => h l (List.mem_cons_of_mem _ hl)
    refine ⟨first ++ others, ?_⟩
    rw [List.flatten_cons, ho]
    exact List.flatMap_append.symm

/-- No byte is lost. -/
theorem flatten_splitLines (bytes : List UInt8) : (splitLines bytes).flatten = bytes := by
  induction bytes with
  | nil => rfl
  | cons b bytes ih =>
    by_cases hb : b = 10
    · subst hb
      exact congrArg (List.cons 10) ih
    · rw [splitLines_cons hb]
      split
      · next hs =>
        rw [hs] at ih
        exact congrArg (List.cons b) ih
      · next line lines hs =>
        rw [hs] at ih
        exact congrArg (List.cons b) ih

/-! ## Reading -/

namespace Input

/-- All lines that are left are text. Of an input of which nothing was read this says that its bytes
are valid. -/
def IsText (input : Input) : Prop := ∀ line ∈ input.lines, IsTextLine line

/-- Bytes are text exactly if they are valid. -/
theorem isText_ofBytes_iff {bytes : ByteArray} : (ofBytes bytes).IsText ↔ bytes.IsValidUTF8 := by
  rw [Text.isValidUTF8_iff]
  constructor
  · intro h
    obtain ⟨chars, hchars⟩ := exists_encode_flatten h
    rw [show (ofBytes bytes).lines = splitLines bytes.toList from rfl, flatten_splitLines] at hchars
    exact ⟨chars, hchars⟩
  · rintro ⟨chars, h⟩
    show ∀ line ∈ splitLines bytes.toList, IsTextLine line
    rw [h]
    exact isTextLine_of_mem_splitLines chars

theorem isText_ofString (text : String) : (ofString text).IsText :=
  isText_ofBytes_iff.mpr text.isValidUTF8

theorem lineWords_of_isTextLine {line : List UInt8} (h : IsTextLine line) :
    ∃ words, lineWords line = some words := by
  obtain ⟨chars, rfl⟩ := h
  unfold lineWords
  rw [Text.fromUTF8?_encode]
  exact ⟨_, rfl⟩

/-- Taking a word off lines of text leaves lines of text, and does not fail. -/
theorem nextOfLines_of_isText {lines : List (List UInt8)} (h : ∀ line ∈ lines, IsTextLine line) :
    ∃ word rest, nextOfLines lines = (.ok word, rest) ∧ rest.IsText := by
  induction lines with
  | nil => exact ⟨none, ⟨[], []⟩, rfl, nofun⟩
  | cons line lines ih =>
    have hlines : ∀ l ∈ lines, IsTextLine l := fun l hl => h l (List.mem_cons_of_mem _ hl)
    obtain ⟨words, hwords⟩ := lineWords_of_isTextLine (h line List.mem_cons_self)
    unfold nextOfLines
    rw [hwords]
    cases words with
    | nil => exact ih hlines
    | cons word waiting => exact ⟨some word, ⟨waiting, lines⟩, rfl, hlines⟩

theorem IsText.next {input : Input} (h : input.IsText) :
    ∃ word rest, input.next = (.ok word, rest) ∧ rest.IsText := by
  obtain ⟨waiting, lines⟩ := input
  cases waiting with
  | nil => exact nextOfLines_of_isText h
  | cons word waiting => exact ⟨some word, ⟨waiting, lines⟩, rfl, h⟩

/-- Reading from text leaves text, and does not fail for its encoding. -/
theorem IsText.readInt {input rest : Input} (h : input.IsText) {result : Except ReadError Int32}
    (hr : input.readInt = (result, rest)) :
    rest.IsText ∧ ∀ message, result ≠ .error (.failed message) := by
  obtain ⟨word, rest', hnext, hrest⟩ := h.next
  unfold Input.readInt at hr
  rw [hnext] at hr
  cases word with
  | none =>
    cases hr
    exact ⟨hrest, nofun⟩
  | some word =>
    cases hp : Decimal.parse? word.toList with
    | none =>
      simp only [hp] at hr
      cases hr
      exact ⟨hrest, nofun⟩
    | some value =>
      simp only [hp] at hr
      cases hr
      exact ⟨hrest, nofun⟩

end Input

end Enquanto

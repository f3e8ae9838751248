import Enquanto.Proofs.InputItems
import Enquanto.Proofs.Spelling

/-!
# The text of an integer

An integer is written with its digits, behind a minus sign if it is negative. The text is one word,
which is read back as the integer, and the lines of several integers are read back one by one.

* `Decimal.toList_text`: the sign and the digits;
* `Decimal.parse?_text`: reading a text as an integer undoes writing it;
* `Decimal.printed` and `Decimal.readInts_printed`: the lines of integers as an input.
-/

namespace Enquanto

open Lexical

namespace Decimal

/-! ## Signs and digits -/

/-- The number that the digits of an integer stand for. -/
def magnitude (v : Int32) : UInt32 := UInt32.ofNat v.toInt.natAbs

theorem toNat_magnitude (v : Int32) : (magnitude v).toNat = v.toInt.natAbs := by
  have hle := v.le_toInt
  have hlt := v.toInt_lt
  exact UInt32.toNat_ofNat_of_lt' (by simp only [UInt32.size]; omega)

theorem toList_text (v : Int32) : (text v).toList =
    (if v.toInt < 0 then ['-'] else []) ++ Nat.toDigits 10 (magnitude v).toNat := by
  rw [toNat_magnitude, text, Int.toString_eq_repr, Int.repr_eq_if]
  by_cases h : v.toInt < 0
  · have habs : (-v.toInt).toNat = v.toInt.natAbs := by omega
    rw [if_neg (by omega), if_pos h, String.toList_append, Nat.toList_repr, habs]
    rfl
  · have habs : v.toInt.toNat = v.toInt.natAbs := by omega
    rw [if_pos (by omega), if_neg h, Nat.toList_repr, habs, List.nil_append]

theorem toList_text_ne_nil (v : Int32) : (text v).toList ≠ [] := by
  rw [toList_text]
  exact List.append_ne_nil_of_right_ne_nil _ Nat.toDigits_ne_nil

/-! ## Reading a text -/

theorem fit?_toInt (v : Int32) : fit? v.toInt = some v := by
  have hle := v.le_toInt
  have hlt := v.toInt_lt
  rw [fit?, if_pos (by omega), Int32.ofInt_toInt]

theorem digits?_toDigits (n : Nat) : digits? (Nat.toDigits 10 n) = some n := by
  have hall : (Nat.toDigits 10 n).all Char.isDigit = true :=
    List.all_eq_true.mpr fun c hc => Nat.isDigit_of_mem_toDigits (by decide) (by decide) hc
  rw [digits?, if_pos ⟨Nat.toDigits_ne_nil, hall⟩, value_toDigits]

/-- Text that starts with a digit has no sign. -/
theorem parse?_toDigits (n : Nat) : parse? (Nat.toDigits 10 n) = fit? n := by
  have hdigits := digits?_toDigits n
  have hdigit (c : Char) (hc : c ∈ Nat.toDigits 10 n) : IsDigit c := isDigit_of_mem_toDigits hc
  obtain ⟨c, rest, hcs⟩ := List.exists_cons_of_ne_nil (Nat.toDigits_ne_nil (n := n) (b := 10))
  rw [hcs] at hdigits hdigit ⊢
  have hc := hdigit c List.mem_cons_self
  unfold parse?
  split
  · rename_i h
    cases h
    exact absurd hc (by decide)
  · rename_i h
    cases h
    exact absurd hc (by decide)
  · rw [hdigits, Option.bind_some]

/-- Reading undoes writing. -/
theorem parse?_text (v : Int32) : parse? (text v).toList = some v := by
  rw [toList_text, toNat_magnitude]
  by_cases h : v.toInt < 0
  · have habs : -(v.toInt.natAbs : Int) = v.toInt := by omega
    rw [if_pos h, List.cons_append, List.nil_append, parse?, digits?_toDigits, Option.bind_some,
      habs, fit?_toInt]
  · have habs : (v.toInt.natAbs : Int) = v.toInt := by omega
    rw [if_neg h, List.nil_append, parse?_toDigits, habs, fit?_toInt]

/-! ## Texts as input -/

theorem isBlank_of_isDigit {c : Char} (h : IsDigit c) : Text.isBlank c = false := by
  obtain ⟨hle, hge⟩ := h
  have hle : 48 ≤ c.toNat := hle
  have hge : c.toNat ≤ 57 := hge
  simp only [Text.isBlank, Text.blanks, List.contains_eq_mem, List.mem_cons, List.not_mem_nil,
    or_false, decide_eq_false_iff_not]
  omega

/-- The text of an integer is one word. -/
theorem words_text (v : Int32) : (Input.ofString (text v)).words = [text v] := by
  have hblank : ∀ c ∈ (text v).toList, Text.isBlank c = false := by
    intro c hc
    rw [toList_text] at hc
    rcases List.mem_append.mp hc with hc | hc
    · split at hc
      · obtain rfl := List.mem_singleton.mp hc
        rfl
      · cases hc
    · exact isBlank_of_isDigit (isDigit_of_mem_toDigits hc)
  rw [Input.words_ofString, Text.words_eq, Text.pieces_eq_splitOnP,
    List.splitOnP_eq_singleton hblank]
  simp [toList_text_ne_nil v]

/-- The lines of integers: the text of each, and a line feed. -/
def printed (values : List Int32) : String := String.join (values.map fun v => text v ++ "\n")

theorem printed_cons (v : Int32) (values : List Int32) :
    printed (v :: values) = text v ++ "\n" ++ printed values :=
  String.join_cons

theorem words_printed (values : List Int32) :
    (Input.ofString (printed values)).words = values.map text := by
  induction values with
  | nil =>
    rw [Input.words_ofString]
    rfl
  | cons v values ih =>
    rw [printed_cons, Input.words_ofString_append, words_text, ih]
    rfl

theorem items_printed (values : List Int32) :
    (Input.ofString (printed values)).items = values.map fun v => .ok (text v) := by
  rw [(Input.isText_ofString _).items_eq, words_printed, List.map_map]
  rfl

end Decimal

/-- What `n` reads of an integer give, one after the other. -/
def Input.readInts : Nat → Input → List (Except ReadError Int32)
  | 0, _ => []
  | n + 1, input => input.readInt.1 :: readInts n input.readInt.2

namespace Input

theorem readInts_of_items_nil {input : Input} (h : input.items = []) (n : Nat) :
    input.readInts n = List.replicate n (.error .exhausted) := by
  induction n generalizing input with
  | zero => rfl
  | succ n ih =>
    have hrest : input.next.2.items = [] := by rw [input.next_eq.2, h, List.tail_nil]
    rw [readInts, readInt_eq, ih hrest, h]
    rfl

/-- Integers that are the items of an input are read in order, and nothing behind them. -/
theorem readInts_of_items {input : Input} {values : List Int32}
    (h : input.items = values.map fun v => .ok (Decimal.text v)) (n : Nat) :
    input.readInts (values.length + n) =
      values.map .ok ++ List.replicate n (.error .exhausted) := by
  induction values generalizing input with
  | nil => simpa using readInts_of_items_nil h n
  | cons v values ih =>
    have hrest : input.next.2.items = values.map fun v => .ok (Decimal.text v) := by
      rw [input.next_eq.2, h, List.map_cons, List.tail_cons]
    have hread : answerInt input.items.head? = .ok v := by
      rw [h, List.map_cons, List.head?_cons, answerInt, Decimal.parse?_text]
    rw [List.length_cons, Nat.succ_add, readInts, readInt_eq, hread, ih hrest]
    rfl

end Input

/-- Lines of integers are read back in order, and then the input is exhausted. -/
theorem Decimal.readInts_printed (values : List Int32) (n : Nat) :
    (Input.ofString (printed values)).readInts (values.length + n) =
      values.map .ok ++ List.replicate n (.error .exhausted) :=
  Input.readInts_of_items (items_printed values) n

end Enquanto

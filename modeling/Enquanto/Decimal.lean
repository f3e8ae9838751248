/-!
# Decimal integers

The decimal text of an integer and its value. `Decimal.value` is the number that a run of digits
stands for, `Decimal.text` writes an integer, and `Decimal.parse?` reads one of 32 bits: at most
one sign, then one digit or more.
-/

namespace Enquanto.Decimal

/-- The value of a decimal digit. -/
def digit (c : Char) : Nat := c.toNat - '0'.toNat

/-- The number that a list of decimal digits stands for. -/
def value (digits : List Char) : Nat :=
  digits.foldl (fun n c => 10 * n + digit c) 0

/-- The integer of 32 bits with a given value. -/
def fit? (n : Int) : Option Int32 :=
  if -2147483648 ≤ n ∧ n ≤ 2147483647 then some (Int32.ofInt n) else none

/-- The number that a non-empty list of decimal digits stands for, and nothing for other text. -/
def digits? (text : List Char) : Option Nat :=
  if text ≠ [] ∧ text.all Char.isDigit then some (value text) else none

/-- Reads an integer of 32 bits: a sign or none, then digits, and nothing else. -/
def parse? (text : List Char) : Option Int32 :=
  match text with
  | '-' :: digits => (digits? digits).bind fun n => fit? (-(n : Int))
  | '+' :: digits => (digits? digits).bind fun n => fit? n
  | digits => (digits? digits).bind fun n => fit? n

/-- Writes an integer of 32 bits: a minus sign if it is negative, then its digits without leading
zeros. -/
def text (n : Int32) : String := toString n.toInt

end Enquanto.Decimal

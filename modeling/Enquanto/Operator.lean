/-!
# Operators

The operators of the language and what they do to values. A value is a signed integer of 32 bits.
Addition, subtraction, multiplication and negation wrap around; division goes toward zero, wraps at
the least integer divided by minus one, and has no value when the divisor is zero. A power is the
real power cut off toward zero and then held between the least and the greatest value.

`ArithOp.toInt_of_apply` and `ArithOp.apply_eq_none_iff` say this over the integers.
-/

namespace Enquanto

/-- The arithmetic operators. -/
inductive ArithOp where
  | add | sub | mul | div | pow
  deriving DecidableEq, Repr

/-- The logical connectives. Both sides of a connective are always evaluated. -/
inductive LogicOp where
  | and | or | xor
  deriving DecidableEq, Repr

/-- The relations between values. -/
inductive RelOp where
  | eq | ne | lt | le | gt | ge
  deriving DecidableEq, Repr

/-! ## Powers -/

namespace Power

/-- The value nearest to an integer. -/
def clamp (n : Int) : Int32 :=
  if n < -2147483648 then Int32.minValue
  else if 2147483647 < n then Int32.maxValue
  else Int32.ofInt n

/-- The power with an exponent that is not negative. From a base other than -1, 0 and 1 the
exponent 32 is already out of range, so a greater one changes nothing but the sign. -/
def natural (base : Int) (exponent : Nat) : Int32 :=
  if base.natAbs ≤ 1 then clamp (base.pow (if exponent = 0 then 0 else 2 - exponent % 2))
  else clamp (base.pow (if exponent ≤ 33 then exponent else 32 + exponent % 2))

/-- The power with a negative exponent, by the parity of the exponent: the reciprocal is an integer
only for the bases 1 and -1, is infinite for the base 0, and is cut off to zero for all others. -/
def reciprocal (base : Int) (odd : Bool) : Int32 :=
  if base = 1 then 1
  else if base = -1 then if odd then -1 else 1
  else if base = 0 then Int32.maxValue
  else 0

end Power

/-- The power of two values. -/
def power (base exponent : Int32) : Int32 :=
  if 0 ≤ exponent.toInt then Power.natural base.toInt exponent.toInt.toNat
  else Power.reciprocal base.toInt (exponent.toInt.natAbs % 2 == 1)

/-! ## Meaning -/

namespace ArithOp

/-- How an operator is written. -/
def spelling : ArithOp → String
  | .add => "+"
  | .sub => "-"
  | .mul => "*"
  | .div => "/"
  | .pow => "^"

def all : List ArithOp := [.add, .sub, .mul, .div, .pow]

/-- The value of an operator; only a division by zero has none. -/
def apply (op : ArithOp) (left right : Int32) : Option Int32 :=
  match op with
  | .add => some (left + right)
  | .sub => some (left - right)
  | .mul => some (left * right)
  | .div => if right = 0 then none else some (left / right)
  | .pow => some (power left right)

theorem apply_eq_none_iff (op : ArithOp) (left right : Int32) :
    op.apply left right = none ↔ op = .div ∧ right = 0 := by
  cases op <;> simp [apply]

/-- The value of an operator is that of the operation on integers, wrapped around to 32 bits. A
quotient goes toward zero, and a power has bounds of its own. -/
theorem toInt_of_apply {op : ArithOp} {left right value : Int32} :
    op.apply left right = some value →
    match op with
    | .add => value.toInt = (left.toInt + right.toInt).bmod Int32.size
    | .sub => value.toInt = (left.toInt - right.toInt).bmod Int32.size
    | .mul => value.toInt = (left.toInt * right.toInt).bmod Int32.size
    | .div => right ≠ 0 ∧ value.toInt = (left.toInt.tdiv right.toInt).bmod Int32.size
    | .pow => value = power left right := by
  intro h
  cases op with
  | add => exact Option.some.inj h ▸ Int32.toInt_add left right
  | sub => exact Option.some.inj h ▸ Int32.toInt_sub left right
  | mul => exact Option.some.inj h ▸ Int32.toInt_mul left right
  | div =>
    obtain ⟨hright, hvalue⟩ := Option.ite_none_left_eq_some.mp h
    exact ⟨hright, Option.some.inj hvalue ▸ Int32.toInt_div left right⟩
  | pow => exact (Option.some.inj h).symm

example : div.apply (-7) 2 = some (-3) ∧ div.apply Int32.minValue (-1) = some Int32.minValue := by
  decide

end ArithOp

namespace LogicOp

/-- How a connective is written. -/
def spelling : LogicOp → String
  | .and => "e"
  | .or => "ou"
  | .xor => "xor"

def all : List LogicOp := [.and, .or, .xor]

def apply : LogicOp → Bool → Bool → Bool
  | .and => (· && ·)
  | .or => (· || ·)
  | .xor => Bool.xor

end LogicOp

namespace RelOp

/-- How a relation is written. -/
def spelling : RelOp → String
  | .eq => "="
  | .ne => "<>"
  | .lt => "<"
  | .le => "<="
  | .gt => ">"
  | .ge => ">="

def all : List RelOp := [.eq, .ne, .lt, .le, .gt, .ge]

def apply (op : RelOp) (left right : Int32) : Bool :=
  match op with
  | .eq => left == right
  | .ne => left != right
  | .lt => left < right
  | .le => left ≤ right
  | .gt => right < left
  | .ge => right ≤ left

end RelOp

end Enquanto

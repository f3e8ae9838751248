import Enquanto.Operator
import Enquanto.Proofs.FloatingPoint
import Mathlib.Algebra.Order.Field.Power
import Mathlib.Algebra.Order.Ring.Int
import Mathlib.Algebra.Ring.Int.Parity

/-!
# Powers

The power of two values is their real power, rounded to a floating-point number and cut off toward
zero. It can be said without floating-point numbers: with an exponent that is not negative it is the
power over the integers, held between the least and the greatest value, and with a negative one it
depends on little more than the base.

* `Power.toInt_clamp`: the value nearest to an integer;
* `Power.natural_eq`: powers out of range depend on the sign only, which few exponents show;
* `Power.toInt32_of_rounds`: cutting off the rounded real power gives the power;
* `power_exact`: what the power of two values is, with whatever correct rounding.
-/

namespace Enquanto

open FloatingPoint Float.Model

namespace Power

theorem clamp_eq (n : ℤ) : clamp n = Int32.ofIntClamp n := by
  have hleast : Int32.minValue.toInt = -2147483648 := rfl
  have hgreatest : Int32.maxValue.toInt = 2147483647 := rfl
  unfold clamp
  split
  · rw [ofIntClamp_of_le (by omega)]
  · split
    · rw [ofIntClamp_of_ge (by omega)]
    · rw [Int32.ofIntClamp, dif_pos (by omega), dif_pos (by omega), Int32.ofIntLE]

/-- Integers out of range are held at the least and the greatest value. -/
theorem toInt_clamp (n : ℤ) : (clamp n).toInt = max (-2 ^ 31) (min n (2 ^ 31 - 1)) := by
  have hleast : Int32.minValue.toInt = -2147483648 := rfl
  have hgreatest : Int32.maxValue.toInt = 2147483647 := rfl
  rw [clamp_eq]
  rcases lt_or_ge n (-2147483648) with hlow | hlow
  · rw [ofIntClamp_of_le hlow.le, hleast]
    omega
  · rcases lt_or_ge 2147483647 n with hhigh | hhigh
    · rw [ofIntClamp_of_ge hhigh.le, hgreatest]
      omega
    · rw [Int32.toInt_ofIntClamp (by omega) (by omega)]
      omega

/-! ## Powers of integers -/

/-- From the exponent 32 on a power is out of range, on the side that its sign says. -/
theorem clamp_pow {base : ℤ} {exponent : ℕ} (hbase : 2 ≤ base.natAbs) (hexponent : 32 ≤ exponent) :
    clamp (base ^ exponent) =
      if 0 < base ∨ Even exponent then Int32.maxValue else Int32.minValue := by
  have hbig : 2 ^ 32 ≤ (base ^ exponent).natAbs := by
    rw [Int.natAbs_pow]
    calc 2 ^ 32 ≤ 2 ^ exponent := Nat.pow_le_pow_right two_pos hexponent
      _ ≤ base.natAbs ^ exponent := Nat.pow_le_pow_left hbase exponent
  rw [clamp_eq]
  split
  · rename_i hsign
    have hpos : 0 < base ^ exponent :=
      hsign.elim (fun h => pow_pos h exponent) fun h => h.pow_pos (by omega)
    exact ofIntClamp_of_ge (by omega)
  · rename_i hsign
    obtain ⟨hbase, hodd⟩ := not_or.mp hsign
    have hneg : base ^ exponent < 0 := (Nat.not_even_iff_odd.mp hodd).pow_neg (by omega)
    exact ofIntClamp_of_le (by omega)

/-- Powers of -1, 0 and 1 depend on the parity of the exponent, and on its being zero. -/
theorem pow_of_natAbs_le_one {base : ℤ} (h : base.natAbs ≤ 1) (exponent : ℕ) :
    base ^ (if exponent = 0 then 0 else 2 - exponent % 2) = base ^ exponent := by
  by_cases hzero : exponent = 0
  · rw [if_pos hzero, hzero]
  rw [if_neg hzero]
  obtain rfl | rfl | rfl : base = 0 ∨ base = 1 ∨ base = -1 := by omega
  · rw [zero_pow (by omega), zero_pow hzero]
  · rw [one_pow, one_pow]
  · refine neg_one_pow_congr ?_
    rw [Nat.even_iff, Nat.even_iff]
    omega

/-- The power is that of the integers, cut to the range. -/
theorem natural_eq (base : ℤ) (exponent : ℕ) : natural base exponent = clamp (base ^ exponent) := by
  unfold natural
  split
  · exact congrArg clamp (pow_of_natAbs_le_one ‹_› exponent)
  · split
    · rfl
    · have hparity : Even (32 + exponent % 2) ↔ Even exponent := by
        rw [Nat.even_iff, Nat.even_iff]
        omega
      show clamp (base ^ (32 + exponent % 2)) = _
      rw [clamp_pow (by omega) (by omega), clamp_pow (by omega) (by omega)]
      simp only [hparity]

/-- What `reciprocal` is told of the exponent. -/
theorem natAbs_mod_two_iff {n : ℤ} : (n.natAbs % 2 == 1) = true ↔ ¬Even n := by
  rw [beq_iff_eq, ← Nat.odd_iff, Int.natAbs_odd, Int.not_even_iff_odd]

/-! ## Real powers -/

theorem zpow_eq_intCast {exponent : ℤ} (h : 0 ≤ exponent) (base : ℤ) :
    (base : ℚ) ^ exponent = (base ^ exponent.toNat : ℤ) := by
  conv_lhs => rw [← Int.toNat_of_nonneg h]
  rw [zpow_natCast, Int.cast_pow]

/-- The reciprocal of a power of a base other than -1, 0 and 1 is at most one half. -/
theorem abs_zpow_le_half {base exponent : ℤ} (hbase : 2 ≤ base.natAbs) (h : exponent < 0) :
    |(base : ℚ) ^ exponent| ≤ 1 / 2 := by
  have htwo : (2 : ℚ) ≤ |(base : ℚ)| := by
    rw [← Int.cast_abs, Int.abs_eq_natAbs]
    exact_mod_cast hbase
  calc |(base : ℚ) ^ exponent| = |(base : ℚ)| ^ exponent := abs_zpow _ _
    _ ≤ |(base : ℚ)| ^ (-1 : ℤ) := zpow_le_zpow_right₀ (by linarith) (by omega)
    _ = |(base : ℚ)|⁻¹ := zpow_neg_one _
    _ ≤ 1 / 2 := by
      rw [one_div]
      exact inv_anti₀ two_pos htwo

/-- Cutting off the rounded real power gives the power. -/
theorem toInt32_of_rounds {base exponent : Int32} {r : UnpackedFloat}
    (hbase : base.toInt ≠ 0 ∨ 0 ≤ exponent.toInt)
    (h : Rounds ((base.toInt : ℚ) ^ exponent.toInt) r) : r.toInt32 = power base exponent := by
  unfold power
  split
  · rename_i hexponent
    rw [zpow_eq_intCast hexponent] at h
    rw [toInt32_of_rounds_intCast h, natural_eq, clamp_eq]
  · rename_i hexponent
    have hneg : exponent.toInt < 0 := lt_of_not_ge hexponent
    unfold reciprocal
    split
    · rename_i hone
      rw [hone, Int.cast_one, one_zpow, ← Int.cast_one] at h
      rw [toInt32_of_rounds_intCast h]
      rfl
    · split
      · rename_i hminus
        rw [hminus, Int.cast_neg, Int.cast_one] at h
        rcases Int.even_or_odd exponent.toInt with heven | hodd
        · rw [heven.neg_one_zpow, ← Int.cast_one] at h
          rw [toInt32_of_rounds_intCast h, if_neg (natAbs_mod_two_iff.not.mpr (not_not.mpr heven))]
          rfl
        · rw [hodd.neg_one_zpow, ← Int.cast_one, ← Int.cast_neg] at h
          have hnot := Int.not_even_iff_odd.mpr hodd
          rw [toInt32_of_rounds_intCast h, if_pos (natAbs_mod_two_iff.mpr hnot)]
          rfl
      · rw [if_neg (by omega)]
        exact toInt32_of_rounds_half h (abs_zpow_le_half (by omega) hneg)

end Power

/-- What the power of two values is. It is what cutting off the real power gives, in whatever way
that is rounded correctly. With an exponent that is not negative it is the power of the integers,
held between the least and the greatest value; with a negative one it is 1, or -1 for the odd powers
of -1, and otherwise zero, but the greatest value for the base zero. -/
theorem power_exact {powf : UnpackedFloat → UnpackedFloat → UnpackedFloat} (h : RoundsPowers powf)
    (base exponent : Int32) :
    (powf (.ofInt32 .binary64 base) (.ofInt32 .binary64 exponent)).toInt32 = power base exponent ∧
    (0 ≤ exponent.toInt → (power base exponent).toInt =
      max (-2 ^ 31) (min (base.toInt ^ exponent.toInt.toNat) (2 ^ 31 - 1))) ∧
    (exponent.toInt < 0 → power base exponent =
      if base = 1 then 1
      else if base = -1 then if Even exponent.toInt then 1 else -1
      else if base = 0 then Int32.maxValue
      else 0) := by
  refine ⟨?_, fun hexponent => ?natural, fun hexponent => ?reciprocal⟩
  · by_cases hpole : base.toInt ≠ 0 ∨ 0 ≤ exponent.toInt
    · exact Power.toInt32_of_rounds hpole
        (h.rounds (value?_ofInt32 base) (value?_ofInt32 exponent) hpole)
    · obtain ⟨hbase, hexponent⟩ := not_or.mp hpole
      obtain rfl : base = 0 := Int32.toInt.inj (not_not.mp hbase)
      rw [power, if_neg hexponent]
      exact congrArg UnpackedFloat.toInt32
        (h.pole (value?_ofInt32 exponent) (lt_of_not_ge hexponent))
  case natural =>
    rw [power, if_pos hexponent, Power.natural_eq, Power.toInt_clamp]
  case reciprocal =>
    have hone : base.toInt = 1 ↔ base = 1 := Int32.toInt_inj (y := 1)
    have hminus : base.toInt = -1 ↔ base = -1 := Int32.toInt_inj (y := -1)
    have hzero : base.toInt = 0 ↔ base = 0 := Int32.toInt_inj (y := 0)
    rw [power, if_neg (not_le_of_gt hexponent)]
    refine if_congr hone rfl (if_congr hminus ?_ (if_congr hzero rfl rfl))
    exact (if_congr Power.natAbs_mod_two_iff rfl rfl).trans (ite_not _ _ _)

/-- The greatest cube in range, with a negative base, and the next one, which is out of range. -/
theorem power_exact_cubes : RoundsPowers roundedPower ∧
    (roundedPower (.ofInt32 .binary64 (-1290)) (.ofInt32 .binary64 3)).toInt32 = -2146689000 ∧
    (power (-1290) 3).toInt = (-1290) ^ 3 ∧ (power (-1291) 3).toInt = -2 ^ 31 ∧
    power (-1) (-3) = -1 := by
  obtain ⟨hreal, hrange, -⟩ := power_exact roundsPowers_roundedPower (-1290) 3
  have hbeyond := (power_exact roundsPowers_roundedPower (-1291) 3).2.1 (by decide)
  have hodd := (power_exact roundsPowers_roundedPower (-1) (-3)).2.2 (by decide)
  exact ⟨roundsPowers_roundedPower, hreal.trans (by decide), (hrange (by decide)).trans (by decide),
    hbeyond.trans (by decide), hodd.trans (by decide)⟩

end Enquanto

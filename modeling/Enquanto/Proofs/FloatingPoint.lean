import Mathlib.Algebra.Order.Floor.Semifield
import Mathlib.Data.Finite.Prod
import Mathlib.Data.Int.Interval
import Mathlib.Data.Rat.Floor
import Mathlib.Data.Set.Finite.Lemmas
import Mathlib.Tactic.Linarith
import Mathlib.Tactic.NormNum

/-!
# Floating-point numbers

What the powers of the language need of floating-point numbers of 64 bits: which numbers there are,
what it is to round to them, and how integers of 32 bits are turned into them and back.

* `FloatingPoint.value?` and `FloatingPoint.Representable`: the number that a floating-point number
  stands for, and the numbers of the format;
* `FloatingPoint.Rounds`: rounding to a nearest number, or to an infinity;
* `FloatingPoint.RoundsPowers`: powers of integers that are rounded correctly;
* `FloatingPoint.toInt_eq_truncate`: a floating-point number is cut off toward zero;
* `FloatingPoint.value?_ofInt32`: a value is turned into a floating-point number exactly.
-/

namespace Enquanto.FloatingPoint

open Float.Model Float.Model.UnpackedFloat

/-- The number that a finite floating-point number stands for. -/
def value? : UnpackedFloat → Option ℚ
  | .zero _ => some 0
  | .finite sign mantissa exponent _ => some ((sign.apply mantissa : ℤ) * 2 ^ exponent)
  | _ => none

theorem value?_finite (sign : Sign) (mantissa : ℕ) (exponent : ℤ) (h : 0 < mantissa) :
    value? (.finite sign mantissa exponent h) =
      some (((sign.apply mantissa : ℤ) : ℚ) * 2 ^ exponent) := rfl

/-- The numbers of the format: a significand of 53 bits times a power of two. -/
def Representable (x : ℚ) : Prop :=
  ∃ significand exponent : ℤ,
    significand.natAbs < 2 ^ 53 ∧ -1074 ≤ exponent ∧ exponent ≤ 971 ∧ x = significand * 2 ^ exponent

/-- Half a unit above the greatest number of the format. -/
def overflow : ℚ := 2 ^ 1024 - 2 ^ 970

/-- A number is rounded to a number of the format that no other one is nearer than, and from half a
unit above the greatest number on to an infinity. Which of two numbers that are equally near is
taken is left open. -/
inductive Rounds (x : ℚ) : UnpackedFloat → Prop
  | nearest {r : UnpackedFloat} {v : ℚ} : |x| < overflow → value? r = some v → Representable v →
    (∀ w, Representable w → |x - v| ≤ |x - w|) → Rounds x r
  | above : overflow ≤ x → Rounds x (.infinity .positive)
  | below : x ≤ -overflow → Rounds x (.infinity .negative)

/-- Powers of integers are rounded correctly; zero to a negative exponent is infinite. -/
structure RoundsPowers (powf : UnpackedFloat → UnpackedFloat → UnpackedFloat) : Prop where
  rounds : ∀ {x y : UnpackedFloat} {base exponent : ℤ}, value? x = some (base : ℚ) →
    value? y = some (exponent : ℚ) → base ≠ 0 ∨ 0 ≤ exponent →
      Rounds ((base : ℚ) ^ exponent) (powf x y)
  pole : ∀ {y : UnpackedFloat} {exponent : ℤ}, value? y = some (exponent : ℚ) → exponent < 0 →
    powf (.zero .positive) y = .infinity .positive

/-! ## Numbers of the format -/

theorem representable_intCast {n : ℤ} (h : n.natAbs < 2 ^ 53) : Representable n :=
  ⟨n, 0, h, by decide, by decide, by rw [zpow_zero, mul_one]⟩

theorem finite_representable : {x | Representable x}.Finite := by
  refine (((Set.finite_Ioo (-2 ^ 53) (2 ^ 53)).prod (Set.finite_Icc (-1074) 971)).image
    fun p : ℤ × ℤ => (p.1 * 2 ^ p.2 : ℚ)).subset ?_
  rintro x ⟨m, e, hm, hmin, hmax, rfl⟩
  exact ⟨(m, e), ⟨⟨by omega, by omega⟩, hmin, hmax⟩, rfl⟩

theorem exists_value?_eq {x : ℚ} (h : Representable x) : ∃ r, value? r = some x := by
  obtain ⟨m, e, -, -, -, rfl⟩ := h
  rcases lt_trichotomy m 0 with hm | rfl | hm
  · refine ⟨.finite .negative m.natAbs e (Int.natAbs_pos.mpr hm.ne), ?_⟩
    have habs : -(m.natAbs : ℤ) = m := by omega
    rw [value?_finite, Sign.apply, habs]
  · exact ⟨.zero .positive, congrArg some (by simp)⟩
  · refine ⟨.finite .positive m.natAbs e (Int.natAbs_pos.mpr hm.ne'), ?_⟩
    have habs : (m.natAbs : ℤ) = m := by omega
    rw [value?_finite, Sign.apply, habs]

/-- Every number can be rounded. -/
theorem exists_rounds (x : ℚ) : ∃ r, Rounds x r := by
  by_cases habove : overflow ≤ x
  · exact ⟨_, .above habove⟩
  by_cases hbelow : x ≤ -overflow
  · exact ⟨_, .below hbelow⟩
  obtain ⟨v, hv, hnearest⟩ := Set.exists_min_image _ (fun w => |x - w|) finite_representable
    ⟨0, by simpa using representable_intCast (n := 0) (by decide)⟩
  obtain ⟨r, hr⟩ := exists_value?_eq hv
  exact ⟨r, .nearest (abs_lt.mpr ⟨lt_of_not_ge hbelow, lt_of_not_ge habove⟩) hr hv hnearest⟩

/-- A power function that rounds the powers of integers correctly. -/
noncomputable def roundedPower (x y : UnpackedFloat) : UnpackedFloat :=
  match value? x, value? y with
  | some a, some b =>
    if a = 0 ∧ b < 0 then .infinity .positive else (exists_rounds (a ^ b.num)).choose
  | _, _ => .notANumber

theorem roundsPowers_roundedPower : RoundsPowers roundedPower where
  rounds := by
    intro x y base exponent hx hy hpole
    have hfinite : ¬((base : ℚ) = 0 ∧ (exponent : ℚ) < 0) := by
      rintro ⟨hbase, hexponent⟩
      exact hpole.elim (fun hne => hne (Int.cast_eq_zero.mp hbase))
        fun hle => not_le_of_gt (Int.cast_lt_zero.mp hexponent) hle
    simp only [roundedPower, hx, hy, if_neg hfinite, Rat.num_intCast]
    exact (exists_rounds _).choose_spec
  pole := by
    intro y exponent hy hneg
    have hzero : value? (.zero .positive) = some 0 := rfl
    unfold roundedPower
    rw [hzero, hy]
    exact if_pos ⟨rfl, Int.cast_lt_zero.mpr hneg⟩

/-! ## Rounding keeps bounds -/

section
variable {x v w : ℚ}

/-- A nearest number does not pass a number of the format. -/
theorem le_of_nearest (h : |x - v| ≤ |x - w|) (hx : x ≤ w) : v ≤ w := by
  by_contra hlt
  rw [abs_of_nonpos (by linarith), abs_of_nonpos (by linarith)] at h
  linarith

theorem ge_of_nearest (h : |x - v| ≤ |x - w|) (hx : w ≤ x) : w ≤ v := by
  by_contra hlt
  rw [abs_of_nonneg (by linarith), abs_of_nonneg (by linarith)] at h
  linarith

/-- A number of the format is rounded to itself. -/
theorem eq_of_nearest (h : |x - v| ≤ |x - x|) : v = x :=
  le_antisymm (le_of_nearest h le_rfl) (ge_of_nearest h le_rfl)

end

/-! ## Cutting off -/

/-- The integer that is left of a number when its digits behind the point are cut off. -/
def truncate (x : ℚ) : ℤ := if 0 ≤ x then ⌊x⌋ else ⌈x⌉

theorem mantissa_shiftRight (m : ExtendedMantissa) (k : ℕ) :
    (m >>> k).mantissa = m.mantissa / 2 ^ k := by
  show (k.repeat ExtendedMantissa.shiftRightOne m).mantissa = _
  induction k with
  | zero => rw [Nat.repeat, pow_zero, Nat.div_one]
  | succ k ih =>
    rw [Nat.repeat, ExtendedMantissa.shiftRightOne, ih, Nat.div_div_eq_div_mul, pow_succ]

theorem zpow_eq_div (e : ℤ) : (2 : ℚ) ^ e = (2 ^ e.toNat : ℕ) / (2 ^ (-e).toNat : ℕ) := by
  conv_lhs => rw [← Int.toNat_sub_toNat_neg e]
  rw [zpow_sub₀ two_ne_zero, zpow_natCast, zpow_natCast]
  push_cast
  rfl

theorem roundToInt_eq (sign : Sign) (mantissa : ℕ) (exponent : ℤ) :
    roundToInt sign mantissa exponent = sign.apply ⌊(mantissa * 2 ^ exponent : ℚ)⌋₊ := by
  have hshift : (0 - (exponent - exponent.toNat)).toNat = (-exponent).toNat := by omega
  have hfloor : ⌊(mantissa * 2 ^ exponent : ℚ)⌋₊ =
      mantissa * 2 ^ exponent.toNat / 2 ^ (-exponent).toNat := by
    rw [zpow_eq_div, ← mul_div_assoc, ← Nat.cast_mul, Nat.floor_div_eq_div]
  show sign.apply (ExtendedMantissa.ofMantissaAndAccuracy
    (mantissa <<< (exponent - 0).toNat) .exact >>>
      (0 - (exponent - (exponent - 0).toNat)).toNat).mantissa = _
  rw [mantissa_shiftRight, hfloor, Int.sub_zero, hshift, ← Nat.shiftLeft_eq]
  rfl

/-- A floating-point number is cut off toward zero. -/
theorem toInt_eq_truncate {r : UnpackedFloat} {v : ℚ} (h : value? r = some v) (least greatest : ℤ) :
    r.toInt least greatest = truncate v := by
  cases r with
  | infinity | notANumber => cases h
  | zero =>
    cases h
    rfl
  | finite sign mantissa exponent hpos =>
    cases h
    have hscaled : (0 : ℚ) < mantissa * 2 ^ exponent :=
      mul_pos (Nat.cast_pos.mpr hpos) (zpow_pos two_pos _)
    have hfloor : ((⌊(mantissa * 2 ^ exponent : ℚ)⌋₊ : ℕ) : ℤ) = ⌊(mantissa * 2 ^ exponent : ℚ)⌋ :=
      Int.natCast_floor_eq_floor hscaled.le
    show roundToInt sign mantissa exponent = _
    rw [roundToInt_eq]
    cases sign with
    | positive =>
      simp only [Sign.apply, Int.cast_natCast]
      rw [truncate, if_pos hscaled.le, hfloor]
    | negative =>
      simp only [Sign.apply, Int.cast_neg, Int.cast_natCast, neg_mul]
      rw [truncate, if_neg (by linarith), Int.ceil_neg, hfloor]

theorem truncate_intCast (n : ℤ) : truncate n = n := by
  rw [truncate, Int.floor_intCast, Int.ceil_intCast, ite_self]

theorem le_truncate {n : ℤ} {v : ℚ} (hn : 0 ≤ n) (h : n ≤ v) : n ≤ truncate v := by
  rw [truncate, if_pos ((Int.cast_nonneg hn).trans h)]
  exact Int.le_floor.mpr h

theorem truncate_le {n : ℤ} {v : ℚ} (hn : n < 0) (h : v ≤ n) : truncate v ≤ n := by
  rw [truncate, if_neg (not_le_of_gt (h.trans_lt (Int.cast_lt_zero.mpr hn)))]
  exact Int.ceil_le.mpr h

theorem truncate_eq_zero {v : ℚ} (h : |v| < 1) : truncate v = 0 := by
  obtain ⟨hlow, hhigh⟩ := abs_lt.mp h
  unfold truncate
  split
  · exact Int.floor_eq_zero_iff.mpr ⟨‹_›, hhigh⟩
  · rw [Int.ceil_eq_zero_iff]
    exact ⟨hlow, le_of_not_ge ‹_›⟩

/-! ## Integers as floating-point numbers -/

theorem log2_shiftLeft {m : ℕ} (hm : m ≠ 0) (k : ℕ) : (m <<< k).log2 = m.log2 + k := by
  have hpos := Nat.two_pow_pos k
  have hlow := Nat.mul_le_mul_right (2 ^ k) (Nat.log2_self_le hm)
  have hhigh := Nat.mul_lt_mul_of_pos_right (Nat.lt_log2_self (n := m)) hpos
  rw [← pow_add] at hlow hhigh
  rw [Nat.shiftLeft_eq, Nat.log2_eq_iff (Nat.mul_ne_zero hm hpos.ne')]
  exact ⟨hlow, by rwa [Nat.add_right_comm]⟩

theorem targetExponent_eq (e : ℤ) : Format.binary64.targetExponent e = max (e - 53) (-1074) := rfl

/-- A significand of 53 bits stays as it is. -/
theorem shiftToTargetExponent_eq {m : ℕ} {e : ℤ} (hm : m.log2 = 52) (he : -1074 ≤ e) :
    shiftToTargetExponent .binary64 m e .exact = (⟨m, false, false⟩, e) := by
  have htarget : Format.binary64.targetExponent (totalExponent m e) = e := by
    rw [targetExponent_eq, totalExponent, hm]
    omega
  rw [shiftToTargetExponent, htarget, shiftToExponent, Int.sub_self]
  simp [ExtendedMantissa.ofMantissaAndAccuracy]
  rfl

theorem roundWithAccuracy_eq (sign : Sign) {m : ℕ} {e : ℤ} (hm : m.log2 = 52) (he : -1074 ≤ e) :
    ∃ hpos, roundWithAccuracy .binary64 sign m e .exact = .finite sign m e hpos := by
  have hne : m ≠ 0 := by
    rintro rfl
    cases hm
  have hrounded : (⟨m, false, false⟩ : ExtendedMantissa).roundedMantissa = m := rfl
  refine ⟨Nat.pos_of_ne_zero hne, ?_⟩
  rw [roundWithAccuracy, shiftToTargetExponent_eq hm he]
  dsimp only
  rw [hrounded, shiftToTargetExponent_eq hm he]
  exact dif_neg hne

/-- A number of up to 53 bits is shifted until its first bit is in place. -/
theorem round_eq (sign : Sign) {m : ℕ} (hne : m ≠ 0) (hlt : m < 2 ^ 53) : ∃ (k : ℕ) (hpos : _),
    UnpackedFloat.round .binary64 sign m 0 = .finite sign (m <<< k) (-k) hpos := by
  have hlog : m.log2 < 53 := (Nat.log2_lt hne).mpr hlt
  have htarget : (0 - Format.binary64.targetExponent (totalExponent m 0)).toNat = 52 - m.log2 := by
    rw [targetExponent_eq, totalExponent]
    omega
  have hshifted : (m <<< (52 - m.log2)).log2 = 52 := by
    rw [log2_shiftLeft hne]
    omega
  refine ⟨52 - m.log2, ?_⟩
  obtain ⟨hpos, heq⟩ := roundWithAccuracy_eq sign (e := -(52 - m.log2 : ℕ)) hshifted (by omega)
  refine ⟨hpos, ?_⟩
  rw [← heq, UnpackedFloat.round, decreaseExponent, htarget, Int.zero_sub]

theorem value?_round (sign : Sign) {m : ℕ} (hne : m ≠ 0) (hlt : m < 2 ^ 53) :
    value? (UnpackedFloat.round .binary64 sign m 0) = some ((sign.apply m : ℤ) : ℚ) := by
  obtain ⟨k, hpos, heq⟩ := round_eq sign hne hlt
  have hpow : ((m <<< k : ℕ) : ℚ) * 2 ^ (-k : ℤ) = m := by
    rw [Nat.shiftLeft_eq, zpow_neg, zpow_natCast]
    push_cast
    exact mul_inv_cancel_right₀ (by positivity) _
  rw [heq, value?_finite]
  cases sign with
  | positive => rw [Sign.apply, Int.cast_natCast, hpow, Sign.apply, Int.cast_natCast]
  | negative =>
    rw [Sign.apply, Int.cast_neg, Int.cast_natCast, neg_mul, hpow, Sign.apply, Int.cast_neg,
      Int.cast_natCast]

/-- Integers of up to 53 bits are floating-point numbers as they are. -/
theorem value?_ofInt {n : ℤ} (hlt : n.natAbs < 2 ^ 53) :
    value? (UnpackedFloat.ofInt .binary64 n) = some (n : ℚ) := by
  rw [UnpackedFloat.ofInt, UnpackedFloat.normalize]
  rcases lt_trichotomy n 0 with hn | rfl | hn
  · have habs : (-n).toNat = n.natAbs := by omega
    rw [compare_lt_iff_lt.mpr hn]
    show value? (UnpackedFloat.round .binary64 .negative (-n).toNat 0) = _
    rw [habs, value?_round _ (Int.natAbs_ne_zero.mpr hn.ne) hlt, Sign.apply]
    congr 2
    omega
  · rfl
  · have habs : n.toNat = n.natAbs := by omega
    rw [compare_gt_iff_gt.mpr hn]
    show value? (UnpackedFloat.round .binary64 .positive n.toNat 0) = _
    rw [habs, value?_round _ (Int.natAbs_ne_zero.mpr hn.ne') hlt, Sign.apply]
    congr 2
    omega

theorem value?_ofInt32 (n : Int32) :
    value? (UnpackedFloat.ofInt32 .binary64 n) = some (n.toInt : ℚ) := by
  have hle := n.le_toInt
  have hlt := n.toInt_lt
  exact value?_ofInt (by omega)

/-! ## Values of rounded numbers -/

theorem ofIntClamp_of_ge {n : ℤ} (h : 2147483647 ≤ n) : Int32.ofIntClamp n = Int32.maxValue := by
  have hleast : Int32.minValue.toInt = -2147483648 := rfl
  have hgreatest : Int32.maxValue.toInt = 2147483647 := rfl
  rw [Int32.ofIntClamp, dif_pos (by omega)]
  split
  · obtain rfl : n = 2147483647 := by omega
    rfl
  · rfl

theorem ofIntClamp_of_le {n : ℤ} (h : n ≤ -2147483648) : Int32.ofIntClamp n = Int32.minValue := by
  have hleast : Int32.minValue.toInt = -2147483648 := rfl
  rw [Int32.ofIntClamp]
  split
  · obtain rfl : n = -2147483648 := by omega
    rfl
  · rfl

theorem lt_overflow : (2147483648 : ℚ) < overflow := by
  have hunit : (1 : ℚ) ≤ 2 ^ 970 := one_le_pow₀ one_le_two
  have hsplit : (2 : ℚ) ^ 1024 = 2 ^ 970 * 2 ^ 54 := (pow_add 2 970 54)
  rw [overflow, hsplit]
  generalize (2 : ℚ) ^ 970 = unit at hunit
  norm_num
  linarith

/-- Rounding an integer changes nothing that is not cut off to the least or the greatest value. -/
theorem toInt32_of_rounds_intCast {n : ℤ} {r : UnpackedFloat} (h : Rounds n r) :
    r.toInt32 = Int32.ofIntClamp n := by
  cases h with
  | @nearest _ v _ hv _ hnearest =>
    rw [UnpackedFloat.toInt32, toInt_eq_truncate hv]
    have hgreat := hnearest _ (representable_intCast (n := 2147483648) (by decide))
    have hleast := hnearest _ (representable_intCast (n := -2147483648) (by decide))
    rcases lt_or_ge n (-2147483648) with hlow | hlow
    · have hle : v ≤ (-2147483648 : ℤ) := le_of_nearest hleast (Int.cast_le.mpr hlow.le)
      rw [ofIntClamp_of_le (truncate_le (by decide) hle), ofIntClamp_of_le hlow.le]
    · rcases lt_or_ge 2147483648 n with hhigh | hhigh
      · have hge : (2147483648 : ℤ) ≤ v := ge_of_nearest hgreat (Int.cast_le.mpr hhigh.le)
        have htruncate := le_truncate (by decide) hge
        rw [ofIntClamp_of_ge (by omega), ofIntClamp_of_ge (by omega)]
      · have hsame : v = n := eq_of_nearest (hnearest _ (representable_intCast (by omega)))
        rw [hsame, truncate_intCast]
  | above h =>
    have hge : (2147483648 : ℤ) ≤ n := by exact_mod_cast (lt_overflow.trans_le h).le
    rw [ofIntClamp_of_ge (by omega)]
    rfl
  | below h =>
    have hle : n ≤ (-2147483648 : ℤ) := by
      have := lt_overflow
      exact_mod_cast (by linarith : (n : ℚ) ≤ -2147483648)
    rw [ofIntClamp_of_le hle]
    rfl

/-- Of a number below one nothing is left. -/
theorem toInt32_of_rounds_half {x : ℚ} {r : UnpackedFloat} (h : Rounds x r) (hx : |x| ≤ 1 / 2) :
    r.toInt32 = 0 := by
  obtain ⟨hlow, hhigh⟩ := abs_le.mp hx
  have hoverflow := lt_overflow
  cases h with
  | @nearest _ v _ hv _ hnearest =>
    have hone : Representable (1 / 2) := ⟨1, -1, by decide, by decide, by decide, by norm_num⟩
    have hminus : Representable (-(1 / 2)) := ⟨-1, -1, by decide, by decide, by decide, by norm_num⟩
    have hle := le_of_nearest (hnearest _ hone) hhigh
    have hge := ge_of_nearest (hnearest _ hminus) hlow
    have hsmall : |v| < 1 := abs_lt.mpr ⟨by linarith, by linarith⟩
    rw [UnpackedFloat.toInt32, toInt_eq_truncate hv, truncate_eq_zero hsmall]
    rfl
  | above h => linarith
  | below h => linarith

end Enquanto.FloatingPoint

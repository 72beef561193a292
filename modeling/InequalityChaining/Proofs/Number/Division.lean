import Mathlib.Algebra.Order.Field.Power
import Mathlib.Algebra.Order.Field.Rat
import Mathlib.Algebra.Order.AbsoluteValue.Basic
import Mathlib.Data.Rat.Cast.Order
import Mathlib.Data.Nat.Log
import Mathlib.Tactic.Ring
import Mathlib.Tactic.Linarith
import Mathlib.Tactic.LinearCombination
import Mathlib.Tactic.FieldSimp
import InequalityChaining.Number.Arithmetic

/-!
# Division in binary64

The quotient of two positive floats is the real whose rounding interval it lies in. Dividing keeps
two bits beyond the mantissa, which tell how the exact quotient lies relative to the mantissa and to
the midpoint behind it; shifting keeps what the bits tell, and rounding reads it off.

## Main definitions

* `Binary64.IsCanonical` — magnitudes and exponents of finite patterns
* `Binary64.ReadsAs` — the rational numbers that round to a magnitude and an exponent
* `extendedQuotient` — a quotient as a mantissa with two further bits

## Main results

* `roundedMantissa_extendedQuotient` — rounding finds the nearest integer
* `div_eq_finite` — the quotient of two positive floats
* `mul_eq_finite` — their product
-/

open Float.Model (Format UnpackedFloat totalExponent)
open Float.Model.UnpackedFloat

namespace InequalityChaining

/-! ### The bits behind a mantissa -/

/-- The quotient of two natural numbers as a mantissa with two bits behind it: the next binary
digit, and whether anything is left after that. -/
def extendedQuotient (a b : ℕ) : ExtendedMantissa where
  mantissa := a / b
  roundBit := 2 * a / b % 2 == 1
  stickyBit := 2 * a % b != 0

variable {a b n : ℕ}

/-- Shifting by a bit doubles the divisor. -/
theorem shiftRightOne_extendedQuotient (a b : ℕ) :
    (extendedQuotient a b).shiftRightOne = extendedQuotient a (b * 2) := by
  have half : 2 * a / (b * 2) = a / b := by rw [Nat.mul_comm b 2, Nat.mul_div_mul_left a b two_pos]
  have rest : 2 * a % (b * 2) = 2 * a % b + b * (2 * a / b % 2) := Nat.mod_mul
  have round : (a / b % 2 != 0) = (a / b % 2 == 1) := by
    rcases Nat.mod_two_eq_zero_or_one (a / b) with even | odd
    · simp [even]
    · simp [odd]
  have sticky : (2 * a / b % 2 == 1 || 2 * a % b != 0) = (2 * a % (b * 2) != 0) := by
    rcases Nat.mod_two_eq_zero_or_one (2 * a / b) with even | odd
    · simp [rest, even]
    · have positive : b ≠ 0 := by
        rintro rfl
        simp at odd
      simp [rest, odd, positive]
  simp only [extendedQuotient, ExtendedMantissa.shiftRightOne, Nat.div_div_eq_div_mul, half, round,
    sticky]

/-- Shifting multiplies the divisor by a power of two. -/
theorem shiftRight_extendedQuotient (a b k : ℕ) :
    extendedQuotient a b >>> k = extendedQuotient a (b * 2 ^ k) := by
  induction k with
  | zero => simp; rfl
  | succ k ih =>
    change (extendedQuotient a b >>> k).shiftRightOne = _
    rw [ih, shiftRightOne_extendedQuotient, pow_succ, mul_assoc]

/-- Quotient and remainder of a division tell all about its exact result. -/
theorem ofMantissaAndAccuracy_division (a : ℕ) (positive : 0 < b) :
    ExtendedMantissa.ofMantissaAndAccuracy (a / b) (accuracyOfFraction (a % b) b) =
      extendedQuotient a b := by
  have below : a % b < b := Nat.mod_lt a positive
  have twice : 2 * a = 2 * (a % b) + b * (2 * (a / b)) := by
    have parts := Nat.mod_add_div a b
    linarith
  have quotient : 2 * a / b = 2 * (a % b) / b + 2 * (a / b) := by
    rw [twice, Nat.add_mul_div_left _ _ positive]
  have remainder : 2 * a % b = 2 * (a % b) % b := by
    rw [twice, Nat.add_mul_mod_self_left]
  rw [extendedQuotient, quotient, remainder, Nat.add_mul_mod_self_left, accuracyOfFraction]
  split
  · next exact =>
    simp [ExtendedMantissa.ofMantissaAndAccuracy, exact]
  · next inexact =>
    -- what is left over is compared with half of the divisor
    rcases Nat.lt_trichotomy (2 * (a % b)) b with less | equal | greater
    · have compared : compare (2 * (a % b)) b = .lt := compare_lt_iff_lt.2 less
      simp [ExtendedMantissa.ofMantissaAndAccuracy, compared, Nat.div_eq_of_lt less,
        Nat.mod_eq_of_lt less, inexact]
    · simp [ExtendedMantissa.ofMantissaAndAccuracy, equal, positive]
    · have compared : compare (2 * (a % b)) b = .gt := compare_gt_iff_gt.2 greater
      have one : 2 * (a % b) / b = 1 := Nat.div_eq_of_lt_le (by omega) (by omega)
      have left : 2 * a % b ≠ 0 := by
        have parts := Nat.mod_add_div (2 * (a % b)) b
        rw [one, mul_one] at parts
        omega
      simp [ExtendedMantissa.ofMantissaAndAccuracy, compared, one, left]

/-- A quotient is rounded to the nearest integer, and a midpoint to the even neighbour. -/
theorem roundedMantissa_extendedQuotient (positive : 0 < b) (lower : 2 * n * b ≤ 2 * a + b)
    (upper : 2 * a ≤ (2 * n + 1) * b)
    (even : 2 * n * b = 2 * a + b ∨ 2 * a = (2 * n + 1) * b → n % 2 = 0) :
    (extendedQuotient a b).roundedMantissa = n := by
  have rest : 2 * a % b < b := Nat.mod_lt _ positive
  have parts : b * (2 * a / b) + 2 * a % b = 2 * a := Nat.div_add_mod _ _
  have half : a / b = 2 * a / b / 2 := by
    rw [Nat.div_div_eq_div_mul, Nat.mul_comm b 2, Nat.mul_div_mul_left a b two_pos]
  rw [extendedQuotient, half, ExtendedMantissa.roundedMantissa]
  -- what is rounded is half of `q`, and `r` tells whether it is exactly that
  generalize 2 * a / b = q at *
  generalize 2 * a % b = r at *
  have least : 2 * n < q + 2 := by
    refine lt_of_mul_lt_mul_left ?_ (Nat.zero_le b)
    linarith
  have greatest : q ≤ 2 * n + 1 := by
    refine le_of_mul_le_mul_left ?_ positive
    linarith
  obtain below | rfl | rfl : q + 1 = 2 * n ∨ q = 2 * n ∨ q = 2 * n + 1 := by omega
  · have odd : q % 2 = 1 := by omega
    cases sticky : r != 0 with
    | false =>
      have midpoint : r = 0 := by simpa using sticky
      have nEven := even (.inl (by rw [← below, ← parts, midpoint]; ring))
      simp [ExtendedMantissa.accuracy, odd, Accuracy.roundToNearestEven]
      omega
    | true =>
      simp [ExtendedMantissa.accuracy, odd, Accuracy.roundToNearestEven]
      omega
  · have even : 2 * n % 2 = 0 := Nat.mul_mod_right 2 n
    cases r != 0 with
    | false => simp [ExtendedMantissa.accuracy, even, Accuracy.roundToNearestEven]
    | true => simp [ExtendedMantissa.accuracy, even, Accuracy.roundToNearestEven]
  · have midpoint : r = 0 := by linarith
    have nEven := even (.inr (by linarith))
    have odd : (2 * n + 1) % 2 = 1 := by omega
    simp [ExtendedMantissa.accuracy, odd, midpoint, Accuracy.roundToNearestEven]
    omega

/-! ### Binary places -/

theorem zpow_totalExponent_le {m : ℕ} (positive : 0 < m) (e : ℤ) :
    (2 : ℚ) ^ (totalExponent m e - 1) ≤ m * 2 ^ e := by
  have split : (2 : ℚ) ^ (totalExponent m e - 1) = 2 ^ m.log2 * 2 ^ e := by
    rw [← zpow_natCast, ← zpow_add₀ two_ne_zero]
    congr 1
    rw [totalExponent]
    ring
  rw [split]
  refine mul_le_mul_of_nonneg_right ?_ (zpow_pos two_pos e).le
  exact_mod_cast Nat.log2_self_le positive.ne'

theorem add_one_le_zpow_totalExponent (m : ℕ) (e : ℤ) :
    ((m : ℚ) + 1) * 2 ^ e ≤ 2 ^ totalExponent m e := by
  have split : (2 : ℚ) ^ totalExponent m e = 2 ^ (m.log2 + 1) * 2 ^ e := by
    rw [← zpow_natCast, ← zpow_add₀ two_ne_zero]
    congr 1
  rw [split]
  refine mul_le_mul_of_nonneg_right ?_ (zpow_pos two_pos e).le
  exact_mod_cast @Nat.lt_log2_self m

theorem targetExponent_binary64 (e : ℤ) :
    Format.binary64.targetExponent e = max (e - 53) (-1074) := rfl

/-- The exponent of a quotient after the first shift, where the quotient is known up to its last
place. -/
theorem targetExponent_eq {m : ℕ} {q : ℚ} {t e : ℤ} (below : m * 2 ^ t ≤ q)
    (above : q < (m + 1) * 2 ^ t) (le : t ≤ e) (least : -1074 ≤ e) (upper : q < 2 ^ (53 + e))
    (lower : 2 ^ (52 + e) ≤ q ∨ e = -1074) :
    Format.binary64.targetExponent (totalExponent m t) = e := by
  have places : totalExponent m t ≤ 53 + e := by
    rcases m.eq_zero_or_pos with rfl | positive
    · rw [totalExponent]
      simp
      omega
    · have exponents : (2 : ℚ) ^ (totalExponent m t - 1) < 2 ^ (53 + e) :=
        (zpow_totalExponent_le positive t).trans_lt (below.trans_lt upper)
      have := (zpow_lt_zpow_iff_right₀ one_lt_two).1 exponents
      omega
  rw [targetExponent_binary64]
  rcases lower with lower | rfl
  · have exponents : (2 : ℚ) ^ (52 + e) < 2 ^ totalExponent m t :=
      lower.trans_lt (above.trans_le (add_one_le_zpow_totalExponent m t))
    have := (zpow_lt_zpow_iff_right₀ one_lt_two).1 exponents
    omega
  · omega

namespace Binary64

/-- The magnitude and the exponent of a finite pattern: there are as many binary places before the
point as possible, unless the exponent is the least. -/
structure IsCanonical (magnitude : ℕ) (exponent : ℤ) : Prop where
  magnitude_lt : magnitude < 2 ^ 53
  le_exponent : -1074 ≤ exponent
  exponent_le : exponent ≤ 971
  leading : 2 ^ 52 ≤ magnitude ∨ exponent = -1074

/-- The rational numbers that round to `magnitude * 2 ^ exponent`, from the midpoint between it and
the smaller neighbour to the one between it and the larger neighbour. -/
structure ReadsAs (magnitude : ℕ) (exponent : ℤ) (q : ℚ) : Prop where
  lower : (4 * magnitude - if opensBinade magnitude exponent then 1 else 2) * 2 ^ exponent ≤ 4 * q
  upper : 4 * q ≤ (4 * magnitude + 2) * 2 ^ exponent
  even : (4 * magnitude - if opensBinade magnitude exponent then 1 else 2) * 2 ^ exponent = 4 * q ∨
    4 * q = (4 * magnitude + 2) * 2 ^ exponent → magnitude % 2 = 0

/-- A float lies in its own rounding interval. -/
theorem readsAs_self (magnitude : ℕ) (exponent : ℤ) :
    ReadsAs magnitude exponent (magnitude * 2 ^ exponent) := by
  have unit : (0 : ℚ) < 2 ^ exponent := zpow_pos two_pos exponent
  refine ⟨?_, by linarith, ?_⟩
  · split
    all_goals linarith
  · rintro (midpoint | midpoint)
    · split at midpoint
      all_goals linarith
    · linarith

end Binary64

open Binary64 (IsCanonical ReadsAs)

/-! ### Rounding a quotient -/

section Rounding

variable {m₁ m₂ magnitude : ℕ} {e₁ e₂ t e exponent : ℤ} {q : ℚ}

/-- A magnitude that is not too large is not shifted. -/
theorem shiftToTargetExponent_of_lt (small : n < 2 ^ 53) (least : -1074 ≤ e) :
    shiftToTargetExponent Format.binary64 n e .exact = (⟨n, false, false⟩, e) := by
  have places : n.log2 ≤ 52 := by
    rcases n.eq_zero_or_pos with rfl | positive
    · simp
    · exact Nat.le_of_lt_succ ((Nat.log2_lt positive.ne').2 small)
  have noShift : (Format.binary64.targetExponent (totalExponent n e) - e).toNat = 0 := by
    rw [targetExponent_binary64, totalExponent]
    omega
  rw [shiftToTargetExponent, shiftToExponent, noShift]
  simp
  rfl

/-- A magnitude with one place too many is shifted by it. -/
theorem shiftToTargetExponent_two_pow (least : -1074 ≤ e) :
    shiftToTargetExponent Format.binary64 (2 ^ 53) e .exact = (⟨2 ^ 52, false, false⟩, e + 1) := by
  have oneShift : (Format.binary64.targetExponent (totalExponent (2 ^ 53) e) - e).toNat = 1 := by
    rw [targetExponent_binary64, totalExponent, Nat.log2_two_pow]
    omega
  rw [shiftToTargetExponent, shiftToExponent, oneShift]
  rfl

/-- A quotient is rounded after shifting it to the exponent that it takes. -/
theorem roundWithAccuracy_division (positive : 0 < b) (sign : Sign)
    (target : Format.binary64.targetExponent (totalExponent (a / b) t) = e) (le : t ≤ e)
    (rounded : (extendedQuotient a (b * 2 ^ (e - t).toNat)).roundedMantissa = n)
    (shifted : shiftToTargetExponent Format.binary64 n e .exact =
      (⟨magnitude, false, false⟩, exponent))
    (nonzero : 0 < magnitude) :
    roundWithAccuracy Format.binary64 sign (a / b) t (accuracyOfFraction (a % b) b) =
      .finite sign magnitude exponent nonzero := by
  have first : shiftToTargetExponent Format.binary64 (a / b) t (accuracyOfFraction (a % b) b) =
      (extendedQuotient a (b * 2 ^ (e - t).toNat), e) := by
    rw [shiftToTargetExponent, target, shiftToExponent, ofMantissaAndAccuracy_division a positive,
      shiftRight_extendedQuotient, Int.toNat_of_nonneg (Int.sub_nonneg.2 le), add_sub_cancel]
  rw [roundWithAccuracy, first]
  dsimp only
  rw [rounded, shifted]
  exact dif_neg nonzero.ne'

/-- A quotient is rounded to the nearest multiple of the power of two that belongs to its size. -/
theorem roundWithAccuracy_eq_of_nearest (positive : 0 < b) (sign : Sign)
    (value : a * 2 ^ t = q * b) (le : t ≤ e) (least : -1074 ≤ e) (upper : q < 2 ^ (53 + e))
    (lower : 2 ^ (52 + e) ≤ q ∨ e = -1074) (above : (2 * n - 1) * 2 ^ e ≤ 2 * q)
    (below : 2 * q ≤ (2 * n + 1) * 2 ^ e)
    (even : (2 * n - 1) * 2 ^ e = 2 * q ∨ 2 * q = (2 * n + 1) * 2 ^ e → n % 2 = 0)
    (shifted : shiftToTargetExponent Format.binary64 n e .exact =
      (⟨magnitude, false, false⟩, exponent))
    (nonzero : 0 < magnitude) :
    roundWithAccuracy Format.binary64 sign (a / b) t (accuracyOfFraction (a % b) b) =
      .finite sign magnitude exponent nonzero := by
  have divisor : (0 : ℚ) < b := by exact_mod_cast positive
  have unit : (0 : ℚ) < 2 ^ t := zpow_pos two_pos t
  -- without its fraction the quotient still has the same number of places
  have target : Format.binary64.targetExponent (totalExponent (a / b) t) = e := by
    refine targetExponent_eq ?_ ?_ le least upper lower
    · have floor : ((a / b : ℕ) : ℚ) * b ≤ a := by exact_mod_cast Nat.div_mul_le_self a b
      refine le_of_mul_le_mul_right ?_ divisor
      rw [← value, mul_right_comm]
      exact mul_le_mul_of_nonneg_right floor unit.le
    · have ceil : (a : ℚ) < b * ((a / b : ℕ) + 1) := by
        exact_mod_cast Nat.lt_mul_div_succ a positive
      refine lt_of_mul_lt_mul_right ?_ divisor.le
      rw [← value, mul_right_comm, mul_comm _ (b : ℚ)]
      exact mul_lt_mul_of_pos_right ceil unit
  have scaled : ((b * 2 ^ (e - t).toNat : ℕ) : ℚ) * 2 ^ t = b * 2 ^ e := by
    have shift : ((e - t).toNat : ℤ) + t = e := by omega
    rw [Nat.cast_mul, Nat.cast_pow, Nat.cast_ofNat, ← zpow_natCast, mul_assoc,
      ← zpow_add₀ two_ne_zero, shift]
  refine roundWithAccuracy_division positive sign target le ?_ shifted nonzero
  have product : 0 < b * 2 ^ (e - t).toNat := Nat.mul_pos positive (Nat.two_pow_pos _)
  -- the bounds hold in multiples of the shifted divisor `d`
  generalize b * 2 ^ (e - t).toNat = d at scaled product ⊢
  refine roundedMantissa_extendedQuotient product ?_ ?_ ?_
  · have bound := mul_le_mul_of_nonneg_right above divisor.le
    have cast : (2 * n * d : ℚ) ≤ 2 * a + d := by
      refine le_of_mul_le_mul_right ?_ unit
      linear_combination bound + 2 * n * scaled - 2 * value - scaled
    exact_mod_cast cast
  · have bound := mul_le_mul_of_nonneg_right below divisor.le
    have cast : (2 * a : ℚ) ≤ (2 * n + 1) * d := by
      refine le_of_mul_le_mul_right ?_ unit
      linear_combination bound + 2 * value - (2 * n + 1) * scaled
    exact_mod_cast cast
  · rintro (midpoint | midpoint)
    · have cast : (2 * n * d : ℚ) = 2 * a + d := by exact_mod_cast midpoint
      refine even (.inl (mul_right_cancel₀ divisor.ne' ?_))
      linear_combination 2 ^ t * cast + 2 * value - (2 * n - 1) * scaled
    · have cast : (2 * a : ℚ) = (2 * n + 1) * d := by exact_mod_cast midpoint
      refine even (.inr (mul_right_cancel₀ divisor.ne' ?_))
      linear_combination 2 ^ t * cast - 2 * value + (2 * n + 1) * scaled

/-- What rounds to a magnitude has no place in front of those of the mantissa. -/
theorem Binary64.ReadsAs.lt_zpow (reads : ReadsAs magnitude exponent q)
    (small : magnitude < 2 ^ 53) : q < 2 ^ (53 + exponent) := by
  have unit : (0 : ℚ) < 2 ^ exponent := zpow_pos two_pos exponent
  have size : (magnitude : ℚ) + 1 ≤ 2 ^ 53 := by exact_mod_cast small
  rw [zpow_add₀ two_ne_zero]
  norm_num at size ⊢
  nlinarith [reads.upper]

/-- What lies below a binade rounds to its least magnitude only. -/
theorem Binary64.ReadsAs.magnitude_eq (reads : ReadsAs magnitude exponent q)
    (leading : 2 ^ 52 ≤ magnitude) (below : q < 2 ^ (52 + exponent)) : magnitude = 2 ^ 52 := by
  have unit : (0 : ℚ) < 2 ^ exponent := zpow_pos two_pos exponent
  rw [zpow_add₀ two_ne_zero] at below
  have atMost : (magnitude : ℚ) < 2 ^ 52 + 1 := by
    have nearest := reads.lower
    split_ifs at nearest
    all_goals
      norm_num at below
      refine lt_of_mul_lt_mul_right ?_ unit.le
      linarith
  have : magnitude < 2 ^ 52 + 1 := by exact_mod_cast atMost
  omega

/-- A quotient that has as many places as the magnitude, or that takes the least exponent, is
rounded to the number in whose rounding interval it lies. -/
theorem roundWithAccuracy_eq_of_regular (positive : 0 < b) (sign : Sign)
    (value : a * 2 ^ t = q * b) (le : t ≤ exponent) (canonical : IsCanonical magnitude exponent)
    (nonzero : 0 < magnitude) (reads : ReadsAs magnitude exponent q)
    (regular : 2 ^ (52 + exponent) ≤ q ∨ exponent = -1074) :
    roundWithAccuracy Format.binary64 sign (a / b) t (accuracyOfFraction (a % b) b) =
      .finite sign magnitude exponent nonzero := by
  have unit : (0 : ℚ) < 2 ^ exponent := zpow_pos two_pos exponent
  have smaller : (4 * magnitude - 2) * 2 ^ exponent ≤
      (4 * magnitude - if Binary64.opensBinade magnitude exponent then 1 else 2 : ℚ) *
        2 ^ exponent := by
    refine mul_le_mul_of_nonneg_right ?_ unit.le
    split <;> linarith
  refine roundWithAccuracy_eq_of_nearest positive sign value le canonical.le_exponent
    (reads.lt_zpow canonical.magnitude_lt) regular ?_ ?_ ?_
    (shiftToTargetExponent_of_lt canonical.magnitude_lt canonical.le_exponent) nonzero
  · linarith [reads.lower]
  · linarith [reads.upper]
  · rintro (midpoint | midpoint)
    · exact reads.even (.inl (le_antisymm reads.lower (by linarith)))
    · exact reads.even (.inr (by linarith))

/-- Just below the least magnitude of its binade a quotient has one place more, and is rounded
up to it. -/
theorem roundWithAccuracy_eq_of_below (positive : 0 < b) (sign : Sign)
    (value : a * 2 ^ t = q * b) (le : t ≤ exponent - 1) (least : -1074 < exponent)
    (nonzero : 0 < 2 ^ 52) (reads : ReadsAs (2 ^ 52) exponent q)
    (below : q < 2 ^ (52 + exponent)) :
    roundWithAccuracy Format.binary64 sign (a / b) t (accuracyOfFraction (a % b) b) =
      .finite sign (2 ^ 52) exponent nonzero := by
  have unit : (0 : ℚ) < 2 ^ exponent := zpow_pos two_pos exponent
  have split : ∀ n : ℤ, (2 : ℚ) ^ (n + exponent) = 2 ^ n * 2 ^ exponent :=
    fun n => zpow_add₀ two_ne_zero n exponent
  have opens : Binary64.opensBinade (2 ^ 52) exponent = true := by
    simp [Binary64.opensBinade, least]
  have nearest := reads.lower
  rw [opens, if_pos rfl] at nearest
  have shifted := @shiftToTargetExponent_two_pow (exponent - 1) (by omega)
  rw [sub_add_cancel] at shifted
  have halfUnit : (2 : ℚ) ^ (exponent - 1) = 2 ^ exponent / 2 := zpow_sub_one₀ two_ne_zero _
  have upper : q < 2 ^ (53 + (exponent - 1)) := by
    rwa [← add_sub_assoc, show (53 : ℤ) + exponent - 1 = 52 + exponent by ring]
  rw [split] at below
  refine roundWithAccuracy_eq_of_nearest positive sign value le (by omega) upper (.inl ?_) ?_ ?_
    (fun _ => by norm_num) shifted nonzero
  · rw [← add_sub_assoc, show (52 : ℤ) + exponent - 1 = 51 + exponent by ring, split]
    push_cast at nearest
    norm_num at nearest ⊢
    linarith
  · rw [halfUnit]
    push_cast at nearest ⊢
    norm_num at nearest ⊢
    linarith
  · rw [halfUnit]
    push_cast
    norm_num at below ⊢
    linarith

/-- A quotient is rounded to the number in whose rounding interval it lies. -/
theorem roundWithAccuracy_eq_finite (positive : 0 < b) (sign : Sign)
    (value : a * 2 ^ t = q * b) (le : ∀ e, q < 2 ^ (53 + e) → -1074 ≤ e → t ≤ e)
    (canonical : IsCanonical magnitude exponent) (nonzero : 0 < magnitude)
    (reads : ReadsAs magnitude exponent q) :
    roundWithAccuracy Format.binary64 sign (a / b) t (accuracyOfFraction (a % b) b) =
      .finite sign magnitude exponent nonzero := by
  have upper := reads.lt_zpow canonical.magnitude_lt
  by_cases regular : (2 : ℚ) ^ (52 + exponent) ≤ q ∨ exponent = -1074
  · exact roundWithAccuracy_eq_of_regular positive sign value
      (le exponent upper canonical.le_exponent) canonical nonzero reads regular
  · obtain ⟨below, notLeast⟩ := not_or.1 regular
    rw [not_le] at below
    have least : -1074 < exponent := lt_of_le_of_ne canonical.le_exponent (Ne.symm notLeast)
    obtain rfl := reads.magnitude_eq (canonical.leading.resolve_right notLeast) below
    have upper' : q < 2 ^ (53 + (exponent - 1)) := by
      rwa [← add_sub_assoc, show (53 : ℤ) + exponent - 1 = 52 + exponent by ring]
    exact roundWithAccuracy_eq_of_below positive sign value (le _ upper' (by omega)) least nonzero
      reads below

/-- The quotient of two positive floats is the one in whose rounding interval it lies. -/
theorem div_eq_finite {h₁ : 0 < m₁} {h₂ : 0 < m₂} (value : q * (m₂ * 2 ^ e₂) = m₁ * 2 ^ e₁)
    (canonical : IsCanonical magnitude exponent) (nonzero : 0 < magnitude)
    (reads : ReadsAs magnitude exponent q) :
    div Format.binary64 (.finite .positive m₁ e₁ h₁) (.finite .positive m₂ e₂ h₂) =
      .finite .positive magnitude exponent nonzero := by
  have divisor : (0 : ℚ) < m₂ := by exact_mod_cast h₂
  change (let (m, e, accuracy) := divCore Format.binary64 m₁ e₁ m₂ e₂
    roundWithAccuracy Format.binary64 .positive m e accuracy) = _
  rw [divCore]
  generalize chosen : min (e₁ - e₂) (Format.binary64.targetExponent
    (totalExponent m₁ e₁ - totalExponent m₂ e₂)) = t
  have dividend : ((m₁ <<< (e₁ - e₂ - t).toNat : ℕ) : ℚ) * 2 ^ t = q * m₂ := by
    have shift : ((e₁ - e₂ - t).toNat : ℤ) + t + e₂ = e₁ := by omega
    refine mul_right_cancel₀ (zpow_ne_zero e₂ (two_ne_zero : (2 : ℚ) ≠ 0)) ?_
    rw [mul_assoc q, value, Nat.shiftLeft_eq, Nat.cast_mul, Nat.cast_pow, Nat.cast_ofNat,
      ← zpow_natCast, mul_assoc, mul_assoc, ← zpow_add₀ two_ne_zero, ← zpow_add₀ two_ne_zero,
      ← add_assoc, shift]
  refine roundWithAccuracy_eq_finite h₂ _ dividend (fun e upper least => ?_) canonical nonzero reads
  -- the exponent that division starts from is no larger than the one that the quotient takes
  have exponents : (2 : ℚ) ^ (totalExponent m₁ e₁ - 1) < 2 ^ (53 + e + totalExponent m₂ e₂) := by
    calc (2 : ℚ) ^ (totalExponent m₁ e₁ - 1) ≤ m₁ * 2 ^ e₁ := zpow_totalExponent_le h₁ e₁
      _ = q * (m₂ * 2 ^ e₂) := value.symm
      _ < 2 ^ (53 + e) * (m₂ * 2 ^ e₂) :=
          mul_lt_mul_of_pos_right upper (mul_pos divisor (zpow_pos two_pos _))
      _ ≤ 2 ^ (53 + e) * 2 ^ totalExponent m₂ e₂ := by
          refine mul_le_mul_of_nonneg_left ?_ (zpow_pos two_pos _).le
          refine le_trans ?_ (add_one_le_zpow_totalExponent m₂ e₂)
          exact mul_le_mul_of_nonneg_right (by linarith) (zpow_pos two_pos _).le
      _ = 2 ^ (53 + e + totalExponent m₂ e₂) := (zpow_add₀ two_ne_zero _ _).symm
  have places := (zpow_lt_zpow_iff_right₀ one_lt_two).1 exponents
  rw [← chosen, targetExponent_binary64]
  omega

/-- The product of two positive floats is the one in whose rounding interval it lies, if together
they have as many places as a float. -/
theorem mul_eq_finite {h₁ : 0 < m₁} {h₂ : 0 < m₂} (value : m₁ * m₂ * 2 ^ (e₁ + e₂) = q)
    (long : 2 ^ 52 ≤ m₁ * m₂) (canonical : IsCanonical magnitude exponent)
    (nonzero : 0 < magnitude) (reads : ReadsAs magnitude exponent q) :
    mul Format.binary64 (.finite .positive m₁ e₁ h₁) (.finite .positive m₂ e₂ h₂) =
      .finite .positive magnitude exponent nonzero := by
  have product : ((m₁ * m₂ : ℕ) : ℚ) * 2 ^ (e₁ + e₂) = q * (1 : ℕ) := by
    push_cast
    rw [value, mul_one]
  have rounded := roundWithAccuracy_eq_finite one_pos .positive product (fun e upper least => ?_)
    canonical nonzero reads
  · rw [Nat.div_one, Nat.mod_one] at rounded
    exact rounded
  · have places : (2 : ℚ) ^ 52 ≤ m₁ * m₂ := by exact_mod_cast long
    have exponents : (2 : ℚ) ^ (52 + (e₁ + e₂)) < 2 ^ (53 + e) := by
      refine lt_of_le_of_lt ?_ upper
      rw [← value, zpow_add₀ two_ne_zero]
      exact mul_le_mul_of_nonneg_right places (zpow_pos two_pos _).le
    have := (zpow_lt_zpow_iff_right₀ one_lt_two).1 exponents
    omega

end Rounding

end InequalityChaining

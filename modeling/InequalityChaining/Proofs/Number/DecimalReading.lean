import InequalityChaining.Proofs.Number.Pattern

/-!
# Floats of decimals

The float of a decimal is the one whose rounding interval the decimal lies in. Short decimals are
read by dividing two floats that are exact, a natural number and a power of ten; long ones are read
by dividing the exact numbers, and natural numbers by extending them below the point. In every case
the exact result is rounded once.

## Main definitions

* `Binary64.shifted` — a natural number as the magnitude of a float

## Main results

* `Binary64.exists_unpack_toFloat` — small natural numbers are floats
* `Binary64.exists_unpack_powerOfTen` — so are small powers of ten
* `Binary64.ofReal_ofScientific` — the float of a decimal
* `unpackSign_ofScientific` — it has no minus sign
-/

open Float.Model (Format UnpackedFloat totalExponent)
open Float.Model.UnpackedFloat

namespace InequalityChaining

/-! ### Floats that are exact -/

/-- A canonical magnitude is not rounded. -/
theorem roundWithAccuracy_of_isCanonical {magnitude : ℕ} {exponent : ℤ} {sign : Sign}
    (canonical : Binary64.IsCanonical magnitude exponent) (nonzero : 0 < magnitude) :
    roundWithAccuracy Format.binary64 sign magnitude exponent .exact =
      .finite sign magnitude exponent nonzero := by
  have unshifted := shiftToTargetExponent_of_lt canonical.magnitude_lt canonical.le_exponent
  have unrounded : ExtendedMantissa.roundedMantissa ⟨magnitude, false, false⟩ = magnitude := rfl
  rw [roundWithAccuracy, unshifted]
  dsimp only
  rw [unrounded, unshifted]
  exact dif_neg nonzero.ne'

namespace Binary64

variable {magnitude n p : ℕ} {exponent : ℤ}

theorem unpack_pack (canonical : IsCanonical magnitude exponent) (nonzero : 0 < magnitude) :
    unpack Format.binary64 (pack Format.binary64 (.finite .positive magnitude exponent nonzero)) =
      .finite .positive magnitude exponent nonzero :=
  unpack_eq_of_ofBits (ofBits_pack false canonical nonzero) nonzero

/-- A natural number with up to fifty-three binary digits, shifted to the leading place. -/
def shifted (n : ℕ) : ℕ := n * 2 ^ (52 - n.log2)

theorem shifted_pos (positive : 0 < n) : 0 < shifted n :=
  Nat.mul_pos positive (Nat.two_pow_pos _)

theorem log2_le (positive : 0 < n) (lt : n < 2 ^ 53) : n.log2 ≤ 52 :=
  Nat.le_of_lt_succ ((Nat.log2_lt positive.ne').2 lt)

theorem two_pow_le_shifted (positive : 0 < n) (lt : n < 2 ^ 53) : 2 ^ 52 ≤ shifted n := by
  calc 2 ^ 52 = 2 ^ n.log2 * 2 ^ (52 - n.log2) := by
        rw [← pow_add, Nat.add_sub_of_le (log2_le positive lt)]
    _ ≤ n * 2 ^ (52 - n.log2) := Nat.mul_le_mul_right _ (Nat.log2_self_le positive.ne')

theorem isCanonical_shifted (positive : 0 < n) (lt : n < 2 ^ 53) :
    IsCanonical (shifted n) (n.log2 - 52) := by
  have places := log2_le positive lt
  have bound : shifted n < 2 ^ 53 := by
    calc n * 2 ^ (52 - n.log2) < 2 ^ (n.log2 + 1) * 2 ^ (52 - n.log2) :=
          Nat.mul_lt_mul_of_pos_right Nat.lt_log2_self (Nat.two_pow_pos _)
      _ = 2 ^ 53 := by
          rw [← pow_add]
          congr 1
          omega
  exact ⟨bound, by omega, by omega, .inl (two_pow_le_shifted positive lt)⟩

theorem shifted_mul_zpow (positive : 0 < n) (lt : n < 2 ^ 53) :
    (shifted n : ℚ) * 2 ^ ((n.log2 : ℤ) - 52) = n := by
  have places := log2_le positive lt
  have cancel : ((52 - n.log2 : ℕ) : ℤ) + (n.log2 - 52) = 0 := by omega
  rw [shifted, Nat.cast_mul, Nat.cast_pow, Nat.cast_ofNat, mul_assoc, ← zpow_natCast,
    ← zpow_add₀ two_ne_zero, cancel, zpow_zero, mul_one]

/-- Natural numbers with up to fifty-three binary digits are floats. -/
theorem exists_unpack_toFloat (positive : 0 < n) (lt : n < 2 ^ 53) :
    ∃ m e h, unpack Format.binary64 n.toUInt64.toFloat.toBits.toBitVec = .finite .positive m e h ∧
      2 ^ 52 ≤ m ∧ m * (2 : ℚ) ^ e = n := by
  have places := log2_le positive lt
  have canonical := isCanonical_shifted positive lt
  have nonzero := shifted_pos positive
  refine ⟨shifted n, n.log2 - 52, nonzero, ?_, two_pow_le_shifted positive lt,
    shifted_mul_zpow positive lt⟩
  have converted : ofUInt64 Format.binary64 n.toUInt64 =
      .finite .positive (shifted n) (n.log2 - 52) nonzero := by
    have same : n.toUInt64.toNat = n := UInt64.toNat_ofNat_of_lt' (lt.trans (by decide))
    have signed : compare (n : ℤ) 0 = .gt := compare_gt_iff_gt.2 (by exact_mod_cast positive)
    have target : Format.binary64.targetExponent (totalExponent n 0) = n.log2 - 52 := by
      rw [targetExponent_binary64, totalExponent]
      omega
    -- the number is shifted to the left until its mantissa is full, so nothing is rounded
    have shift : (0 - ((n.log2 : ℤ) - 52)).toNat = 52 - n.log2 := by omega
    have decreased : (0 : ℤ) - (52 - n.log2 : ℕ) = n.log2 - 52 := by omega
    rw [ofUInt64, ofNat, ofInt, same, UnpackedFloat.normalize, signed]
    dsimp only
    rw [UnpackedFloat.round, Int.toNat_natCast, target, decreaseExponent, shift]
    dsimp only
    rw [decreased, Nat.shiftLeft_eq]
    exact roundWithAccuracy_of_isCanonical canonical nonzero
  change unpack Format.binary64 (pack Format.binary64 (ofUInt64 Format.binary64 n.toUInt64)) = _
  rw [converted, unpack_pack canonical]

/-- Whether a reading is the natural number. Only readings with up to fifty-two places after the
binary point are looked at. -/
def isNatural (x : Binary64) (n : ℕ) : Bool :=
  match x with
  | .finite false magnitude exponent =>
    decide (0 < magnitude ∧ -52 ≤ exponent ∧ magnitude * 2 ^ (exponent + 52).toNat = n * 2 ^ 52)
  | _ => false

theorem exists_of_isNatural {x : Binary64} (h : isNatural x n) :
    ∃ magnitude exponent, x = .finite false magnitude exponent ∧ 0 < magnitude ∧
      magnitude * (2 : ℚ) ^ exponent = n := by
  rw [isNatural.eq_def] at h
  split at h
  · next magnitude exponent =>
    obtain ⟨nonzero, places, value⟩ := of_decide_eq_true h
    refine ⟨magnitude, exponent, rfl, nonzero, ?_⟩
    have scaled : (magnitude : ℚ) * 2 ^ (exponent + 52).toNat = n * 2 ^ 52 := by
      exact_mod_cast value
    have split : ((exponent + 52).toNat : ℤ) = exponent + 52 := Int.toNat_of_nonneg (by omega)
    rw [← zpow_natCast, split, zpow_add₀ two_ne_zero, ← mul_assoc] at scaled
    exact mul_right_cancel₀ (by norm_num) scaled
  · cases h

theorem isNatural_powersOfTen : ∀ p : Fin Float.exactlyRepresentablePowersOfTen.size,
    isNatural (ofReal (Float.exactlyRepresentablePowersOfTen[p] : Float)) (10 ^ p.val) := by
  decide +kernel

/-- The powers of ten in the table of the reader are exact. -/
theorem exists_unpack_powerOfTen (h : p < Float.exactlyRepresentablePowersOfTen.size) :
    ∃ m e h', unpack Format.binary64 Float.exactlyRepresentablePowersOfTen[p].toBits.toBitVec =
      .finite .positive m e h' ∧ m * (2 : ℚ) ^ e = 10 ^ p := by
  obtain ⟨m, e, reading, nonzero, value⟩ := exists_of_isNatural (isNatural_powersOfTen ⟨p, h⟩)
  refine ⟨m, e, nonzero, unpack_eq_of_ofBits reading nonzero, ?_⟩
  rw [value]
  norm_cast

end Binary64

/-! ### The float of a decimal -/

open Binary64 (IsCanonical ReadsAs)

section Decimal

variable {n p magnitude : ℕ} {exponent : ℤ}

/-- A decimal that is not short is read by rounding the exact number. -/
theorem ofScientific_eq_finite (positive : 0 < n) (places : p ≤ 2 ^ 11)
    (canonical : IsCanonical magnitude exponent) (nonzero : 0 < magnitude)
    (reads : ReadsAs magnitude exponent (n / 10 ^ p)) :
    ofScientific Format.binary64 n (Int.negOfNat p) =
      .finite .positive magnitude exponent nonzero := by
  have negated : Int.negOfNat p = -(p : ℤ) := Int.negOfNat_eq
  have notLarge : ¬ -(p : ℤ) > 2 ^ 11 := by omega
  have notSmall : ¬ -(p : ℤ) < -(2 ^ 11 + n.log2) := by omega
  rw [negated, ofScientific, dif_neg positive.ne', if_neg notLarge, if_neg notSmall]
  -- a product is rounded if there are no places behind the point, else a quotient
  rcases p.eq_zero_or_pos with rfl | fractional
  · rw [if_pos (by simp)]
    have value : ((n <<< 53 : ℕ) : ℚ) * ((10 ^ (-((0 : ℕ) : ℤ)).toNat : ℕ) : ℚ) *
        2 ^ ((-53 : ℤ) + 0) = n / 10 ^ 0 := by
      rw [Nat.shiftLeft_eq]
      norm_num
      ring
    refine mul_eq_finite value ?_ canonical nonzero reads
    have power : 10 ^ (-((0 : ℕ) : ℤ)).toNat = 1 := rfl
    rw [power, Nat.shiftLeft_eq]
    omega
  · rw [if_neg (by omega)]
    refine div_eq_finite ?_ canonical nonzero reads
    rw [neg_neg, Int.toNat_natCast]
    push_cast
    rw [mul_one, mul_one, div_mul_cancel₀ _ (by positivity)]

/-- The float of a decimal is the one in whose rounding interval it lies. -/
theorem Binary64.ofReal_ofScientific (positive : 0 < n) (places : p ≤ 2 ^ 11)
    (canonical : IsCanonical magnitude exponent) (nonzero : 0 < magnitude)
    (reads : ReadsAs magnitude exponent (n / 10 ^ p)) :
    ofReal (Float.ofScientific n true p) = .finite false magnitude exponent := by
  suffices rounded : (Float.ofScientific n true p).toBits = UInt64.ofBitVec
      (pack Format.binary64 (.finite .positive magnitude exponent nonzero)) by
    change ofBits (Float.ofScientific n true p).toBits.toNat = _
    rw [rounded]
    exact ofBits_pack false canonical nonzero
  -- for a short decimal both the digits and the power of ten are floats, and these are divided
  by_cases short : n < 2 ^ 53 ∧ p ≤ 22
  · have listed : p < Float.exactlyRepresentablePowersOfTen.size := Nat.lt_succ_of_le short.2
    obtain ⟨m₁, e₁, h₁, dividend, -, value₁⟩ := exists_unpack_toFloat positive short.1
    obtain ⟨m₂, e₂, h₂, divisor, value₂⟩ := exists_unpack_powerOfTen listed
    rw [Float.ofScientific, dif_pos short]
    change UInt64.ofBitVec (pack Format.binary64 (div Format.binary64
      (unpack Format.binary64 n.toUInt64.toFloat.toBits.toBitVec)
      (unpack Format.binary64 Float.exactlyRepresentablePowersOfTen[p].toBits.toBitVec))) = _
    rw [dividend, divisor, div_eq_finite _ canonical nonzero reads]
    rw [value₁, value₂, div_mul_cancel₀ _ (by positivity)]
  · rw [Float.ofScientific, dif_neg short]
    change UInt64.ofBitVec (pack Format.binary64
      (ofScientific Format.binary64 n (Int.negOfNat p))) = _
    rw [ofScientific_eq_finite positive places canonical nonzero reads]

/-! ### Its sign -/

theorem isUnsigned_ofScientific (n : ℕ) (e : ℤ) :
    IsUnsigned (ofScientific Format.binary64 n e) := by
  rw [ofScientific]
  refine .dite (fun _ => rfl) fun _ => .ite rfl (.ite rfl (.ite ?_ ?_))
  · exact isUnsigned_roundWithAccuracy _
  · exact isUnsigned_roundWithAccuracy _

theorem isUnsigned_ofNat (n : ℕ) : IsUnsigned (ofNat Format.binary64 n) := by
  rw [ofNat, ofInt, UnpackedFloat.normalize]
  rcases n.eq_zero_or_pos with rfl | positive
  · rfl
  · have signed : compare (n : ℤ) 0 = .gt := compare_gt_iff_gt.2 (by exact_mod_cast positive)
    rw [signed]
    exact isUnsigned_roundWithAccuracy _

/-- The float of a decimal has no minus sign. -/
theorem unpackSign_ofScientific (n p : ℕ) :
    @unpackSign Format.binary64 (Float.ofScientific n true p).toBits.toBitVec = 0#1 := by
  by_cases short : n < 2 ^ 53 ∧ p ≤ 22
  · have listed : p < Float.exactlyRepresentablePowersOfTen.size := Nat.lt_succ_of_le short.2
    rw [Float.ofScientific, dif_pos short]
    change @unpackSign Format.binary64 (pack Format.binary64 (div Format.binary64
      (unpack Format.binary64 n.toUInt64.toFloat.toBits.toBitVec)
      (unpack Format.binary64 Float.exactlyRepresentablePowersOfTen[p].toBits.toBitVec))) = _
    refine unpackSign_pack (IsUnsigned.div ?_ ?_)
    · refine isUnsigned_unpack ?_
      change @unpackSign Format.binary64
        (pack Format.binary64 (ofNat Format.binary64 n.toUInt64.toNat)) = _
      exact unpackSign_pack (isUnsigned_ofNat _)
    · obtain ⟨m, e, h, power, -⟩ := Binary64.exists_unpack_powerOfTen listed
      rw [power]
      rfl
  · rw [Float.ofScientific, dif_neg short]
    exact unpackSign_pack (isUnsigned_ofScientific _ _)

end Decimal

end InequalityChaining

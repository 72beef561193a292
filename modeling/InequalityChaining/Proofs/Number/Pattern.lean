import InequalityChaining.Proofs.Number.Division
import InequalityChaining.Proofs.Number.Finiteness

/-!
# Patterns of floats

A finite float and its pattern determine each other: packing a canonical magnitude and exponent
gives the pattern that reads as these, and unpacking a pattern gives what it reads as. The sign bit
of a pattern is the sign of the float, which a quotient has only if an operand has it.

## Main definitions

* `Binary64.unpacked` — the float that a reading stands for
* `IsUnsigned` — floats without a minus sign

## Main results

* `Binary64.isCanonical_of_ofBits` — finite patterns are canonical
* `Number.exists_of_value_eq_finite` — so are the magnitudes and exponents of finite reals
* `Binary64.unpack_eq_unpacked` — a float is what its pattern reads as
* `Binary64.ofBits_pack` — packing what is canonical
* `Binary64.unpack_pack_unpacked` — packing loses nothing but what no arithmetic tells apart
* `IsUnsigned.div` — quotients of floats without a minus sign have none
* `unpackSign_pack`, `isUnsigned_unpack` — neither has what is packed and unpacked again
-/

open Float.Model (Format UnpackedFloat)
open Float.Model.UnpackedFloat

namespace InequalityChaining

/-- The sign that a sign bit stands for. -/
def signOf : Bool → Sign
  | true => .negative
  | false => .positive

/-! ### The fields of a pattern -/

section Fields

variable {bits : BitVec 64} {exponentField : BitVec 11} {fraction : BitVec 52}

/-- Packing puts sign bit, exponent and fraction side by side. -/
theorem toNat_packComponents (negative : Bool) :
    (packComponents Format.binary64 (signOf negative) exponentField fraction).toNat =
      negative.toNat * 2 ^ 63 + exponentField.toNat * 2 ^ 52 + fraction.toNat := by
  have bit : (signOf negative).toBitVec.toNat = negative.toNat := by cases negative <;> rfl
  rw [packComponents]
  simp only [BitVec.toNat_append]
  rw [← Nat.shiftLeft_add_eq_or_of_lt fraction.isLt,
    ← Nat.shiftLeft_add_eq_or_of_lt exponentField.isLt, Nat.shiftLeft_eq, Nat.shiftLeft_eq, bit]
  ring

theorem toNat_unpackMantissa :
    (@unpackMantissa Format.binary64 bits).toNat = bits.toNat % Nat.pow 2 52 := by
  simp [unpackMantissa]

theorem toNat_unpackSign :
    (@unpackSign Format.binary64 bits).toNat = bits.toNat / Nat.pow 2 63 % 2 := by
  delta unpackSign
  simp [Nat.shiftRight_eq_div_pow]

theorem unpackExponent_eq_iff :
    @unpackExponent Format.binary64 bits = exponentField ↔
      bits.toNat / Nat.pow 2 52 % Nat.pow 2 11 = exponentField.toNat := by
  rw [← toNat_unpackExponent]
  exact BitVec.toNat_inj.symm

theorem ofBitVec_unpackSign_eq_signOf :
    Sign.ofBitVec (@unpackSign Format.binary64 bits) =
      signOf (bits.toNat / Nat.pow 2 63 % 2 == 1) := by
  rw [← toNat_unpackSign]
  generalize @unpackSign Format.binary64 bits = bit
  rcases BitVec.eq_zero_or_eq_one bit with rfl | rfl
  · rfl
  · rfl

/-- A float without sign bit has no minus sign. -/
theorem ofBitVec_unpackSign (h : @unpackSign Format.binary64 bits = 0#1) :
    Sign.ofBitVec (@unpackSign Format.binary64 bits) = .positive := by
  rw [h]
  rfl

end Fields

namespace Binary64

variable {bits magnitude : ℕ} {exponent : ℤ} {negative : Bool}

/-- Finite patterns have canonical magnitudes and exponents. -/
theorem isCanonical_of_ofBits (h : ofBits bits = .finite negative magnitude exponent) :
    IsCanonical magnitude exponent := by
  have fraction : bits % Nat.pow 2 52 < 2 ^ 52 := Nat.mod_lt _ (by decide)
  have field : bits / Nat.pow 2 52 % Nat.pow 2 11 < 2 ^ 11 := Nat.mod_lt _ (by decide)
  have hidden : Nat.pow 2 52 = 2 ^ 52 := rfl
  simp only [ofBits] at h
  split_ifs at h with infinite subnormal
  · injection h with _ sameMagnitude sameExponent
    exact ⟨by omega, by omega, by omega, .inr sameExponent.symm⟩
  · injection h with _ sameMagnitude sameExponent
    exact ⟨by omega, by omega, by omega, .inl (by omega)⟩

/-- The reading of a pattern that is given by its fields. -/
theorem ofBits_of_fields {field fraction : ℕ} (fractionLt : fraction < 2 ^ 52)
    (fieldLt : field < 2047) :
    ofBits (negative.toNat * 2 ^ 63 + field * 2 ^ 52 + fraction) =
      if field = 0 then .finite negative fraction (-1074)
      else .finite negative (2 ^ 52 + fraction) (field - 1075) := by
  have bit := negative.toNat_lt
  generalize whole : negative.toNat * 2 ^ 63 + field * 2 ^ 52 + fraction = bits
  have low : bits % Nat.pow 2 52 = fraction := by
    change bits % 2 ^ 52 = fraction
    omega
  have middle : bits / Nat.pow 2 52 % Nat.pow 2 11 = field := by
    change bits / 2 ^ 52 % 2 ^ 11 = field
    omega
  have high : bits / Nat.pow 2 63 % 2 = negative.toNat := by
    change bits / 2 ^ 63 % 2 = negative.toNat
    omega
  have sign : (negative.toNat == 1) = negative := by cases negative <;> rfl
  simp only [ofBits, low, middle, high, sign, if_neg fieldLt.ne]
  rfl

/-- The pattern of a canonical magnitude and exponent. -/
theorem ofBits_pack (negative : Bool) (canonical : IsCanonical magnitude exponent)
    (nonzero : 0 < magnitude) :
    ofBits (pack Format.binary64 (.finite (signOf negative) magnitude exponent nonzero)).toNat =
      .finite negative magnitude exponent := by
  obtain ⟨lt, least, greatest, leading⟩ := canonical
  have bias : (exponent + Format.binary64.exponentBias +
      Format.binary64.mantissaBitsWithoutImplicit : ℤ) = exponent + 1075 := by
    change exponent + 1023 + 52 = _
    ring
  have inRange : ¬ 2 ^ 11 ≤ (exponent + 1075).toNat + 1 := by omega
  delta pack
  dsimp only
  rw [bias, if_neg inRange]
  -- a normal magnitude drops its leading bit, a subnormal one has the exponent field zero
  by_cases normal : 2 ^ 52 ≤ magnitude
  · have places : magnitude.log2 + 1 = Format.binary64.mantissaBits := by
      have := (Nat.log2_eq_iff nonzero.ne').2 ⟨normal, lt⟩
      rw [this]
      rfl
    have field : (BitVec.ofNat 11 (exponent + 1075).toNat).toNat = (exponent + 1075).toNat := by
      rw [BitVec.toNat_ofNat, Nat.mod_eq_of_lt (by omega)]
    have fraction : (BitVec.ofNat 52 magnitude).toNat = magnitude - 2 ^ 52 := by
      rw [BitVec.toNat_ofNat]
      omega
    have packed := @ofBits_of_fields negative (exponent + 1075).toNat (magnitude - 2 ^ 52)
      (by omega) (by omega)
    rw [if_neg (by omega)] at packed
    have unbiased : ((exponent + 1075).toNat : ℤ) - 1075 = exponent := by omega
    rw [if_pos places, toNat_packComponents, field, fraction, packed,
      Nat.add_sub_of_le normal, unbiased]
  · have places : ¬ magnitude.log2 + 1 = Format.binary64.mantissaBits := by
      have := (Nat.log2_lt nonzero.ne').2 (not_le.1 normal)
      change ¬ magnitude.log2 + 1 = 53
      omega
    have fraction : (BitVec.ofNat 52 magnitude).toNat = magnitude := by
      rw [BitVec.toNat_ofNat, Nat.mod_eq_of_lt (not_le.1 normal)]
    have packed := @ofBits_of_fields negative 0 magnitude (not_le.1 normal) (by omega)
    rw [if_pos rfl] at packed
    rw [if_neg places, toNat_packComponents, fraction, leading.resolve_left normal,
      ← packed]
    rfl

theorem finite_eq_finite {sign : Sign} {m n : ℕ} {e f : ℤ} {hm : 0 < m} {hn : 0 < n}
    (sameMagnitude : m = n) (sameExponent : e = f) :
    UnpackedFloat.finite sign m e hm = .finite sign n f hn := by
  subst sameMagnitude sameExponent
  rfl

/-- The float that a reading stands for. -/
def unpacked : Binary64 → UnpackedFloat
  | .finite negative magnitude exponent =>
    if nonzero : 0 < magnitude then .finite (signOf negative) magnitude exponent nonzero
    else .zero (signOf negative)
  | .infinite negative => .infinity (signOf negative)
  | .notANumber _ _ => .notANumber

theorem unpacked_finite (nonzero : 0 < magnitude) :
    (finite negative magnitude exponent).unpacked =
      .finite (signOf negative) magnitude exponent nonzero := dif_pos nonzero

/-- A float is read from its pattern. -/
theorem unpack_eq_unpacked (bits : BitVec 64) :
    unpack Format.binary64 bits = (ofBits bits.toNat).unpacked := by
  have mantissa := @toNat_unpackMantissa bits
  have sign := @ofBitVec_unpackSign_eq_signOf bits
  have noFraction : @unpackMantissa Format.binary64 bits = 0#52 ↔
      bits.toNat % Nat.pow 2 52 = 0 := by
    rw [← mantissa]
    exact BitVec.toNat_inj.symm
  delta unpack ofBits
  dsimp only
  rw [sign]
  by_cases infinite : bits.toNat / Nat.pow 2 52 % Nat.pow 2 11 = 2047
  · rw [if_pos (unpackExponent_eq_iff.2 infinite), if_pos infinite]
    by_cases fraction : bits.toNat % Nat.pow 2 52 = 0
    · rw [if_pos (noFraction.2 fraction), if_pos fraction]
      rfl
    · rw [if_neg (mt noFraction.1 fraction), if_neg fraction]
      rfl
  rw [if_neg (mt unpackExponent_eq_iff.1 infinite), if_neg infinite]
  -- the leading bit comes back unless the exponent field is zero
  by_cases subnormal : bits.toNat / Nat.pow 2 52 % Nat.pow 2 11 = 0
  · have zero : @unpackExponent Format.binary64 bits = 0#11 := unpackExponent_eq_iff.2 subnormal
    rw [if_pos zero, if_pos subnormal]
    by_cases fraction : bits.toNat % Nat.pow 2 52 = 0
    · rw [dif_pos (noFraction.2 fraction), fraction]
      rfl
    · rw [dif_neg (mt noFraction.1 fraction), unpacked_finite (Nat.pos_of_ne_zero fraction)]
      refine finite_eq_finite mantissa ?_
      rw [zero]
      rfl
  · have magnitude : (1#1 ++ @unpackMantissa Format.binary64 bits).toNat =
        Nat.pow 2 52 + bits.toNat % Nat.pow 2 52 := by
      rw [BitVec.toNat_append, ← Nat.shiftLeft_add_eq_or_of_lt (BitVec.isLt _), mantissa]
      rfl
    rw [if_neg (mt unpackExponent_eq_iff.1 subnormal), if_neg subnormal,
      unpacked_finite (Nat.add_pos_left (by decide) _)]
    refine finite_eq_finite magnitude ?_
    rw [toNat_unpackExponent]
    rfl

/-- A positive float is read from its pattern. -/
theorem unpack_eq_of_ofBits {bits : BitVec 64}
    (h : ofBits bits.toNat = .finite false magnitude exponent) (nonzero : 0 < magnitude) :
    unpack Format.binary64 bits = .finite .positive magnitude exponent nonzero := by
  rw [unpack_eq_unpacked, h, unpacked_finite nonzero]
  rfl

theorem ofBits_pack_zero (negative : Bool) :
    ofBits (pack Format.binary64 (.zero (signOf negative))).toNat = .finite negative 0 (-1074) := by
  cases negative
  · decide
  · decide

theorem ofBits_pack_infinity (negative : Bool) :
    ofBits (pack Format.binary64 (.infinity (signOf negative))).toNat = .infinite negative := by
  cases negative
  · decide
  · decide

theorem ofBits_pack_notANumber :
    ofBits (pack Format.binary64 .notANumber).toNat = .notANumber false (2 ^ 51) := by
  decide

/-- Packing keeps what a pattern stands for. -/
theorem unpack_pack_unpacked (bits : ℕ) :
    unpack Format.binary64 (pack Format.binary64 (ofBits bits).unpacked) =
      (ofBits bits).unpacked := by
  rw [unpack_eq_unpacked]
  cases found : ofBits bits with
  | finite negative magnitude exponent =>
    rcases magnitude.eq_zero_or_pos with rfl | nonzero
    · have zero : (finite negative 0 exponent).unpacked = .zero (signOf negative) := rfl
      rw [zero, ofBits_pack_zero]
      rfl
    · rw [unpacked_finite nonzero, ofBits_pack negative (isCanonical_of_ofBits found),
        unpacked_finite nonzero]
  | infinite negative => exact congrArg unpacked (ofBits_pack_infinity negative)
  | notANumber negative fraction =>
    -- fraction and sign are lost
    have unordered : (notANumber negative fraction).unpacked = .notANumber := rfl
    rw [unordered, ofBits_pack_notANumber]
    rfl

end Binary64

namespace Number

open Binary64 (IsCanonical)

/-- A finite value is that of a canonical magnitude and exponent. -/
theorem exists_of_value_eq_finite {x : Real64} {v : ScaledInt} (h : (real x).value = .finite v) :
    ∃ negative m e, Binary64.ofReal x = .finite negative m e ∧ IsCanonical m e ∧
      v = ⟨if negative then -(m : ℤ) else m, e⟩ := by
  rw [value] at h
  cases found : Binary64.ofReal x with
  | finite negative m e =>
    rw [found] at h
    exact ⟨negative, m, e, rfl, Binary64.isCanonical_of_ofBits found, (Value.finite.inj h).symm⟩
  | infinite negative =>
    rw [found] at h
    cases negative <;> cases h
  | notANumber negative fraction =>
    rw [found] at h
    cases h

end Number

/-! ### Signs -/

/-- Floats without a minus sign, to which those belong that are not numbers. -/
def IsUnsigned : UnpackedFloat → Prop
  | .notANumber => True
  | .infinity sign => sign = .positive
  | .zero sign => sign = .positive
  | .finite sign _ _ _ => sign = .positive

section Signs

variable {x y : UnpackedFloat} {bits : BitVec 64} {magnitude : ℕ} {exponent : ℤ}

theorem IsUnsigned.ite {c : Prop} [Decidable c] (hx : IsUnsigned x) (hy : IsUnsigned y) :
    IsUnsigned (if c then x else y) := by
  split
  · exact hx
  · exact hy

theorem IsUnsigned.dite {c : Prop} [Decidable c] {f : c → UnpackedFloat} {g : ¬ c → UnpackedFloat}
    (hf : ∀ h, IsUnsigned (f h)) (hg : ∀ h, IsUnsigned (g h)) :
    IsUnsigned (if h : c then f h else g h) := by
  split
  · exact hf _
  · exact hg _

theorem isUnsigned_roundWithAccuracy (accuracy : Accuracy) :
    IsUnsigned (roundWithAccuracy Format.binary64 .positive magnitude exponent accuracy) := by
  delta roundWithAccuracy
  dsimp only
  exact .dite (fun _ => rfl) fun _ => rfl

theorem IsUnsigned.div (hx : IsUnsigned x) (hy : IsUnsigned y) :
    IsUnsigned (div Format.binary64 x y) := by
  cases x <;> cases y
  -- `cases` puts the sign of each operand that has one
  all_goals
    try cases (show _ = Sign.positive from hx)
    try cases (show _ = Sign.positive from hy)
    first
    | exact trivial
    | exact rfl
    | exact isUnsigned_roundWithAccuracy _

theorem unpackSign_packComponents {exponentField : BitVec 11} {fraction : BitVec 52} :
    @unpackSign Format.binary64
      (packComponents Format.binary64 .positive exponentField fraction) = 0#1 := by
  refine BitVec.eq_of_toNat_eq ?_
  have fields : (packComponents Format.binary64 .positive exponentField fraction).toNat = _ :=
    toNat_packComponents false
  have field := exponentField.isLt
  have low := fraction.isLt
  rw [toNat_unpackSign, fields, Bool.toNat_false]
  change (_ / 2 ^ 63 % 2 : ℕ) = 0
  omega

/-- The pattern of a float without a minus sign has no sign bit. -/
theorem unpackSign_pack (h : IsUnsigned x) :
    @unpackSign Format.binary64 (pack Format.binary64 x) = 0#1 := by
  cases x with
  | notANumber => exact unpackSign_packComponents
  | infinity sign =>
    obtain rfl : sign = .positive := h
    exact unpackSign_packComponents
  | zero sign =>
    obtain rfl : sign = .positive := h
    exact unpackSign_packComponents
  | finite sign magnitude exponent nonzero =>
    obtain rfl : sign = .positive := h
    delta pack
    dsimp only
    split
    · exact unpackSign_packComponents
    split
    · exact unpackSign_packComponents
    · exact unpackSign_packComponents

/-- A pattern without sign bit is that of a float without a minus sign. -/
theorem isUnsigned_unpack (h : @unpackSign Format.binary64 bits = 0#1) :
    IsUnsigned (unpack Format.binary64 bits) := by
  have positive := ofBitVec_unpackSign h
  delta unpack
  dsimp only
  exact .ite (.ite positive trivial) (.ite (.dite (fun _ => positive) fun _ => positive) positive)

/-- A finite reading of a pattern without sign bit is not negative. -/
theorem Binary64.not_negative_of_ofBits {negative : Bool}
    (h : @unpackSign Format.binary64 bits = 0#1)
    (reading : ofBits bits.toNat = .finite negative magnitude exponent) : negative = false := by
  have bit : bits.toNat / Nat.pow 2 63 % 2 = 0 := by
    rw [← toNat_unpackSign, h]
    rfl
  simp only [ofBits, bit] at reading
  split_ifs at reading
  all_goals
    injection reading with unsigned _ _
    exact unsigned.symm

end Signs

end InequalityChaining

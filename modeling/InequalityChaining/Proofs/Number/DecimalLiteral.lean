import InequalityChaining.Proofs.Number.DecimalReading
import InequalityChaining.Proofs.Number.Rounding
import InequalityChaining.Proofs.Token.Scanning

/-!
# Literals read back

The literal that a finite number is written with denotes its absolute value. Integers, among them
reals without a fraction, are written with all their digits. For every other real a literal is
searched among those that lie in its rounding interval, and reading such a literal gives the real
again.

## Main definitions

* `Number.abs` — the absolute value of a number
* `Number.IsReadBack` — the literals that denote a number and that the number is written as
* `Number.isWritable` — finite numbers other than negative zero

## Main results

* `Literal.readsAs_of_readingBack?` — a multiple that is found lies in the rounding interval
* `Literal.ofBinary64_cases` — what the literals of reals denote
* `Number.exists_isReadBack` — the literal of a finite number denotes its absolute value
* `Literal.isFinite_of_toNumber?`, `Literal.hasMinus_of_toNumber?` — what literals can denote
* `Number.hasMinus_eq_isNegative` — the sign of a writable number is written
-/

open Float.Model (Format)

namespace InequalityChaining

open Binary64 (IsCanonical ReadsAs opensBinade)

namespace Literal

/-! ### Digits -/

section Digits

variable {n places : ℕ}

theorem natOfDigits_eq (digits : List Char) : natOfDigits digits = Nat.ofDigitChars 10 digits 0 :=
  Nat.ofDigitChars_eq_foldl.symm

@[simp] theorem natOfDigits_toDigits : natOfDigits (Nat.toDigits 10 n) = n := by
  rw [natOfDigits_eq, Nat.ofDigitChars_ten_toDigits]

theorem isDigit_of_mem {c : Char} (mem : c ∈ Nat.toDigits 10 n) : c.isDigit :=
  Nat.isDigit_of_mem_toDigits (by decide) (by decide) mem

theorem isWritable_ofNat : (Token.number (ofNat n)).IsWritable :=
  ⟨Nat.toDigits_ne_nil, fun _ mem => isDigit_of_mem mem, by simp [ofNat]⟩

theorem isWritable_ofScaled : (Token.number (ofScaled n places)).IsWritable := by
  refine ⟨Nat.toDigits_ne_nil, fun _ mem => isDigit_of_mem mem, ?_⟩
  intro c mem
  rcases List.mem_append.1 mem with padding | digit
  · rw [List.eq_of_mem_replicate padding]
    decide
  · exact isDigit_of_mem digit

/-- There are as many digits behind the point as places. -/
theorem length_fraction_ofScaled (positive : 0 < places) :
    (ofScaled n places).fraction.length = places := by
  have below : n % Nat.pow 10 places < 10 ^ places := Nat.mod_lt _ (Nat.pow_pos (by decide))
  have fits := (Nat.length_toDigits_le_iff (by decide) positive).2 below
  rw [ofScaled, List.length_append, List.length_replicate]
  omega

/-- The digits of a scaled number are those of the number. -/
theorem natOfDigits_ofScaled (positive : 0 < places) :
    natOfDigits ((ofScaled n places).whole ++ (ofScaled n places).fraction) = n := by
  have length : (ofScaled n places).fraction.length = places := length_fraction_ofScaled positive
  rw [ofScaled, List.length_append, List.length_replicate] at length
  rw [ofScaled, natOfDigits_eq, Nat.ofDigitChars_append, Nat.ofDigitChars_ten_toDigits,
    Nat.ofDigitChars_append, Nat.ofDigitChars_replicate_zero, Nat.ofDigitChars_eq_ofDigitChars_zero,
    Nat.ofDigitChars_ten_toDigits, ← mul_assoc, ← pow_add]
  rw [Nat.add_comm] at length
  rw [length]
  exact Nat.div_add_mod n (10 ^ places)

end Digits

/-! ### The search for a literal -/

section Search

variable {magnitude scale places n : ℕ} {opens : Bool}

/-- What is found is measured against both midpoints, which are multiples of the same unit. -/
theorem bounds_of_readingBack? (nonzero : 0 < magnitude)
    (h : readingBack? magnitude scale opens places = some n) :
    (4 * magnitude - if opens then 1 else 2) * 10 ^ places ≤ n * 2 ^ (scale + 2) ∧
      n * 2 ^ (scale + 2) ≤ (4 * magnitude + 2) * 10 ^ places ∧
      ((4 * magnitude - if opens then 1 else 2) * 10 ^ places = n * 2 ^ (scale + 2) ∨
        n * 2 ^ (scale + 2) = (4 * magnitude + 2) * 10 ^ places → magnitude % 2 = 0) := by
  have power : 0 < 10 ^ places := Nat.pow_pos (by decide)
  have unit : 0 < 2 ^ (scale + 2) := Nat.two_pow_pos _
  have low : (4 * magnitude - if opens then 1 else 2) * 10 ^ places <
      4 * magnitude * 10 ^ places := by
    refine Nat.mul_lt_mul_of_pos_right ?_ power
    split <;> omega
  have high : 4 * magnitude * 10 ^ places < (4 * magnitude + 2) * 10 ^ places :=
    Nat.mul_lt_mul_of_pos_right (by omega) power
  have below : 4 * magnitude * 10 ^ places / 2 ^ (scale + 2) * 2 ^ (scale + 2) ≤
      4 * magnitude * 10 ^ places := Nat.div_mul_le_self _ _
  have above : 4 * magnitude * 10 ^ places <
      (4 * magnitude * 10 ^ places / 2 ^ (scale + 2) + 1) * 2 ^ (scale + 2) :=
    Nat.lt_mul_of_div_lt (Nat.lt_succ_self _) unit
  simp only [readingBack?, Nat.pow_eq] at h
  -- with names for the midpoints what is left is linear
  generalize (4 * magnitude - if opens then 1 else 2) * 10 ^ places = low' at *
  generalize (4 * magnitude + 2) * 10 ^ places = high' at *
  split_ifs at h with belowFits aboveFits
  · obtain rfl := Option.some.inj h
    simp only [Bool.and_eq_true, Bool.or_eq_true, decide_eq_true_eq, beq_iff_eq] at belowFits
    omega
  · obtain rfl := Option.some.inj h
    simp only [Bool.and_eq_true, Bool.or_eq_true, decide_eq_true_eq, beq_iff_eq] at aboveFits
    omega

/-- A multiple that is found lies in the rounding interval. -/
theorem readsAs_of_readingBack? (nonzero : 0 < magnitude)
    (h : readingBack? magnitude scale (opensBinade magnitude (-scale)) places = some n) :
    ReadsAs magnitude (-scale) (n / 10 ^ places) := by
  obtain ⟨lower, upper, even⟩ := bounds_of_readingBack? nonzero h
  have power : (0 : ℚ) < 10 ^ places := by positivity
  have unit : (0 : ℚ) < 2 ^ scale := by positivity
  have divisor : (0 : ℚ) < 10 ^ places * 2 ^ scale := mul_pos power unit
  -- all bounds are compared over the same denominator
  have bound : ∀ a : ℚ, a * 2 ^ (-scale : ℤ) = a * 10 ^ places / (10 ^ places * 2 ^ scale) := by
    intro a
    rw [zpow_neg, zpow_natCast]
    field_simp
  have multiple : 4 * (n / 10 ^ places : ℚ) =
      n * 2 ^ (scale + 2) / (10 ^ places * 2 ^ scale) := by
    rw [pow_add]
    field_simp
    ring
  have cast : (4 * magnitude - if opensBinade magnitude (-scale) then 1 else 2 : ℚ) =
      ((4 * magnitude - if opensBinade magnitude (-scale) then 1 else 2 : ℕ) : ℚ) := by
    split
    all_goals
      rw [Nat.cast_sub (by omega)]
      push_cast
      rfl
  refine ⟨?_, ?_, ?_⟩
  · rw [cast, bound, multiple, div_le_div_iff_of_pos_right divisor]
    exact_mod_cast lower
  · rw [bound, multiple, div_le_div_iff_of_pos_right divisor]
    exact_mod_cast upper
  · rw [cast, bound, bound, multiple, div_left_inj' divisor.ne', div_left_inj' divisor.ne']
    rintro (midpoint | midpoint)
    · exact even (.inl (by exact_mod_cast midpoint))
    · exact even (.inr (by exact_mod_cast midpoint))

end Search

/-! ### What literals denote -/

section Binary

variable {magnitude scale places searches n p : ℕ} {exponent : ℤ}

/-- The search ends at a literal that reads back. -/
theorem fewestPlaces_eq (nonzero : 0 < magnitude) (positive : 0 < places)
    (left : places + searches = scale + 1) :
    ∃ n p, fewestPlaces magnitude scale (opensBinade magnitude (-scale)) places searches =
      ofScaled n p ∧ 0 < p ∧ p ≤ scale + 1 ∧ ReadsAs magnitude (-scale) (n / 10 ^ p) := by
  induction searches generalizing places with
  | zero =>
    -- with so many places the magnitude itself is a multiple
    obtain rfl : places = scale + 1 := left
    refine ⟨_, _, rfl, positive, le_rfl, ?_⟩
    have whole : magnitude * 10 ^ (scale + 1) =
        magnitude * (10 * 5 ^ scale) * 2 ^ scale := by
      rw [pow_succ, show 10 = 5 * 2 from rfl, mul_pow]
      ring
    have quotient : magnitude * Nat.pow 10 (scale + 1) / Nat.pow 2 scale =
        magnitude * (10 * 5 ^ scale) := by
      rw [Nat.pow_eq, Nat.pow_eq, whole, Nat.mul_div_cancel _ (Nat.two_pow_pos _)]
    have value : ((magnitude * (10 * 5 ^ scale) : ℕ) / 10 ^ (scale + 1) : ℚ) =
        magnitude * 2 ^ (-scale : ℤ) := by
      have cast : (magnitude : ℚ) * 10 ^ (scale + 1) =
          (magnitude * (10 * 5 ^ scale) : ℕ) * 2 ^ scale := by exact_mod_cast whole
      rw [zpow_neg, zpow_natCast, ← div_eq_mul_inv,
        div_eq_div_iff (by positivity) (by positivity), cast]
    rw [quotient, value]
    exact Binary64.readsAs_self _ _
  | succ searches ih =>
    rw [fewestPlaces]
    cases found : readingBack? magnitude scale (opensBinade magnitude (-scale)) places with
    | none =>
      dsimp only
      exact ih (Nat.succ_pos places) (by omega)
    | some n => exact ⟨n, places, rfl, positive, by omega, readsAs_of_readingBack? nonzero found⟩

/-- The literal of a real has either all digits of a natural number, or digits behind the point up
to a place at which it reads back. -/
theorem ofBinary64_cases (least : -1074 ≤ exponent) :
    (∃ n : ℕ, ofBinary64 magnitude exponent = ofNat n ∧ magnitude * (2 : ℚ) ^ exponent = n) ∨
      ∃ n p : ℕ, ofBinary64 magnitude exponent = ofScaled n p ∧ 0 < magnitude ∧ 0 < p ∧
        p ≤ 2 ^ 11 ∧ ReadsAs magnitude exponent (n / 10 ^ p) := by
  rw [ofBinary64]
  split
  · next whole =>
    refine .inl ⟨_, rfl, ?_⟩
    have power : (exponent.toNat : ℤ) = exponent := Int.toNat_of_nonneg whole
    rw [Nat.pow_eq, Nat.cast_mul, Nat.cast_pow, Nat.cast_ofNat, ← zpow_natCast, power]
  · next fractional =>
    obtain ⟨scale, rfl⟩ : ∃ scale : ℕ, exponent = -scale := ⟨(-exponent).toNat, by omega⟩
    rw [neg_neg, Int.toNat_natCast]
    dsimp only
    split
    · next divides =>
      refine .inl ⟨_, rfl, ?_⟩
      have exact := Nat.div_mul_cancel (Nat.dvd_of_mod_eq_zero divides)
      have cast : ((magnitude / Nat.pow 2 scale : ℕ) : ℚ) * 2 ^ scale = magnitude := by
        exact_mod_cast exact
      rw [zpow_neg, zpow_natCast, ← div_eq_mul_inv, div_eq_iff (by positivity), cast]
    · next remains =>
      have nonzero : 0 < magnitude := by
        by_contra zero
        rw [Nat.eq_zero_of_not_pos zero, Nat.zero_mod] at remains
        exact remains rfl
      obtain ⟨n, p, found, positive, places, reads⟩ :=
        @fewestPlaces_eq _ scale 1 scale nonzero one_pos (Nat.add_comm _ _)
      exact .inr ⟨n, p, found, nonzero, positive, by omega, reads⟩

end Binary

section Reading

variable {l : Literal} {n p magnitude : ℕ} {exponent : ℤ} {a : Number}

/-- All digits of a natural number denote it as an integer, if it is one. -/
theorem toNumber?_ofNat (fits : n < 2 ^ 63) :
    (ofNat n).toNumber? = some (.int (.ofInt n)) := by
  have integer : Number.int64? n = some (.ofInt n) := by
    refine if_pos ⟨?_, ?_⟩
    · change -2 ^ 63 ≤ (n : ℤ)
      omega
    · change (n : ℤ) ≤ 2 ^ 63 - 1
      omega
  have whole : (ofNat n).fraction.isEmpty := rfl
  have digits : natOfDigits (ofNat n).whole = n := natOfDigits_toDigits
  rw [toNumber?, if_pos whole, digits, integer]

/-- A literal that denotes no integer denotes the real in whose rounding interval it lies. -/
theorem toNumber?_eq_real (notInteger : l.fraction = [] → 2 ^ 63 ≤ natOfDigits l.whole)
    (digits : natOfDigits (l.whole ++ l.fraction) = n) (length : l.fraction.length = p)
    (positive : 0 < n) (places : p ≤ 2 ^ 11) (canonical : IsCanonical magnitude exponent)
    (nonzero : 0 < magnitude) (reads : ReadsAs magnitude exponent (n / 10 ^ p)) :
    ∃ x : Real64, l.toNumber? = some (.real x) ∧
      Binary64.ofReal x = .finite false magnitude exponent := by
  subst digits length
  have reading := Binary64.ofReal_ofScientific positive places canonical nonzero reads
  have finite : (Float.ofScientific (natOfDigits (l.whole ++ l.fraction)) true
      l.fraction.length).isFinite := by
    have unpacked := Binary64.unpack_eq_of_ofBits reading nonzero
    exact congrArg Float.Model.UnpackedFloat.isFinite unpacked
  refine ⟨_, ?_, reading⟩
  have integer : (if l.fraction.isEmpty then Number.int64? (natOfDigits l.whole) else none) =
      none := by
    split
    · next whole =>
      refine if_neg fun range => ?_
      have atMost : (natOfDigits l.whole : ℤ) ≤ 2 ^ 63 - 1 := range.2
      have atLeast := notInteger (List.isEmpty_iff.1 whole)
      omega
    · rfl
  rw [toNumber?, integer, Number.ofFloat, if_pos finite]
  rfl

/-- What a literal denotes is an integer that is not negative, or a float. -/
theorem toNumber?_cases (h : l.toNumber? = some a) :
    (∃ (i : Int64) (n : ℕ), Number.int64? n = some i ∧ a = .int i) ∨
      Number.ofFloat (Float.ofScientific (natOfDigits (l.whole ++ l.fraction)) true
        l.fraction.length) = .ok a := by
  rw [toNumber?] at h
  split at h
  · next i integer =>
    split at integer
    · exact .inl ⟨i, _, integer, (Option.some.inj h).symm⟩
    · cases integer
  · next =>
    refine .inr ?_
    cases float : Number.ofFloat (Float.ofScientific (natOfDigits (l.whole ++ l.fraction)) true
      l.fraction.length) with
    | error e => simp [float, Except.toOption] at h
    | ok b => simpa [float, Except.toOption] using h

/-- Literals denote finite numbers. -/
theorem isFinite_of_toNumber? (h : l.toNumber? = some a) : a.isFinite := by
  rcases toNumber?_cases h with ⟨i, n, -, rfl⟩ | float
  · rfl
  · exact Number.isFinite_of_ofFloat float

/-- Literals denote numbers without a minus sign. -/
theorem hasMinus_of_toNumber? (h : l.toNumber? = some a) : a.hasMinus = false := by
  rcases toNumber?_cases h with ⟨i, n, integer, rfl⟩ | float
  · rw [Number.int64?, Option.ite_none_right_eq_some] at integer
    obtain ⟨⟨atLeast, atMost⟩, same⟩ := integer
    have value : i.toInt = n := by
      rw [← Option.some.inj same]
      exact Int64.toInt_ofInt_of_le atLeast (Int.lt_of_le_sub_one atMost)
    rw [Number.hasMinus, value]
    simp
  · rw [Number.ofFloat] at float
    split at float
    · next finite =>
      obtain rfl := Except.ok.inj float
      obtain ⟨negative, magnitude, exponent, reading⟩ := Binary64.exists_finite_of_isFinite finite
      rw [Number.hasMinus, reading]
      exact Binary64.not_negative_of_ofBits (unpackSign_ofScientific _ _) reading
    · cases float

/-- A natural number beyond the 64-bit integers that is a real is denoted by its digits as such. -/
theorem toNumber?_ofNat_eq_real (large : 2 ^ 63 ≤ n) (canonical : IsCanonical magnitude exponent)
    (value : magnitude * (2 : ℚ) ^ exponent = n) :
    ∃ x : Real64, (ofNat n).toNumber? = some (.real x) ∧
      Binary64.ofReal x = .finite false magnitude exponent := by
  have positive : 0 < n := lt_of_lt_of_le (by norm_num) large
  have nonzero : 0 < magnitude := by
    by_contra zero
    rw [Nat.eq_zero_of_not_pos zero, Nat.cast_zero, zero_mul] at value
    exact positive.ne (by exact_mod_cast value)
  have digits : natOfDigits ((ofNat n).whole ++ (ofNat n).fraction) = n := by
    rw [ofNat, List.append_nil, natOfDigits_toDigits]
  have reads := Binary64.readsAs_self magnitude exponent
  rw [value] at reads
  refine toNumber?_eq_real (fun _ => ?_) digits rfl positive (Nat.zero_le _) canonical nonzero ?_
  · rwa [ofNat, natOfDigits_toDigits]
  · simpa [ofNat] using reads

end Reading

end Literal

/-! ### Numbers read back -/

namespace Number

variable {a : Number} {i : Int64} {x y : Real64} {magnitude n : ℕ} {exponent : ℤ}
  {negative : Bool}

/-- The absolute value. That of the least integer is a real, as no integer is as large. -/
def abs : Number → Number
  | int i =>
    if i = Int64.minValue then real ⟨0x43E0000000000000⟩ else int (.ofInt i.toInt.natAbs)
  | real x => real ⟨x.bits % 0x8000000000000000⟩

/-- Without its sign bit a pattern reads as the same magnitude. -/
theorem ofReal_mod (h : Binary64.ofReal x = .finite negative magnitude exponent) :
    Binary64.ofReal ⟨x.bits % 0x8000000000000000⟩ = .finite false magnitude exponent := by
  have bits : (x.bits % 0x8000000000000000).toNat = x.bits.toNat % 2 ^ 63 := UInt64.toNat_mod _ _
  have fraction : x.bits.toNat % 2 ^ 63 % Nat.pow 2 52 = x.bits.toNat % Nat.pow 2 52 :=
    Nat.mod_mod_of_dvd _ ⟨2 ^ 11, rfl⟩
  have field : x.bits.toNat % 2 ^ 63 / Nat.pow 2 52 % Nat.pow 2 11 =
      x.bits.toNat / Nat.pow 2 52 % Nat.pow 2 11 := by
    change x.bits.toNat % 2 ^ 63 / 2 ^ 52 % 2 ^ 11 = x.bits.toNat / 2 ^ 52 % 2 ^ 11
    omega
  have sign : (x.bits.toNat % 2 ^ 63 / Nat.pow 2 63 % 2 == 1) = false := by
    rw [Nat.pow_eq, Nat.div_eq_of_lt (Nat.mod_lt _ (by decide))]
    rfl
  rw [Binary64.ofReal, Binary64.ofBits] at h ⊢
  rw [bits, fraction, field, sign]
  split_ifs at h ⊢
  all_goals
    injection h with _ sameMagnitude sameExponent
    rw [sameMagnitude, sameExponent]

theorem real_beq_real (hx : Binary64.ofReal x = .finite negative magnitude exponent)
    (hy : Binary64.ofReal y = .finite negative magnitude exponent) : real x == real y := by
  rw [beq_iff, isDefined, value, value, hx, hy]
  exact ⟨rfl, rfl⟩

/-- An integer equals the reals with a reading of its value. -/
theorem int_beq_real (hx : Binary64.ofReal x = .finite false magnitude exponent)
    (value : magnitude * (2 : ℚ) ^ exponent = i.toInt) : int i == real x := by
  refine int_beq_real_iff.2 ⟨⟨magnitude, exponent⟩, ?_, exactInteger?_eq_some_iff.2 ?_⟩
  · rw [Number.value, hx]
    rfl
  · simpa [ScaledInt.toRat] using value

/-- Whether a literal denotes a number, and this is written as the literal again. -/
def IsReadBack (a : Number) (l : Literal) : Prop :=
  ∃ b, l.toNumber? = some b ∧ b.magnitudeToken = .number l ∧ b == a

theorem isReadBack_ofNat (fits : n < 2 ^ 63) (h : int (.ofInt n) == a) :
    a.IsReadBack (.ofNat n) := by
  refine ⟨_, Literal.toNumber?_ofNat fits, ?_, h⟩
  have value : (Int64.ofInt n).toInt = n := Int64.toInt_ofInt_of_le (by omega) (by omega)
  rw [magnitudeToken, value, Int.natAbs_natCast]

/-- The literal of the absolute value of an integer. -/
theorem isReadBack_int (i : Int64) : (int i).abs.IsReadBack (.ofNat i.toInt.natAbs) := by
  have least : -2 ^ 63 ≤ i.toInt := i.le_toInt
  have greatest : i.toInt < 2 ^ 63 := i.toInt_lt
  rw [abs]
  split_ifs with smallest
  · subst smallest
    have canonical : IsCanonical (2 ^ 52) 11 := ⟨by norm_num, by norm_num, by norm_num, .inl le_rfl⟩
    obtain ⟨x, found, reading⟩ := @Literal.toNumber?_ofNat_eq_real (2 ^ 63) _ _ le_rfl canonical
      (by norm_num)
    refine ⟨_, found, ?_, real_beq_real reading (by decide +kernel)⟩
    rw [magnitudeToken, reading]
    rfl
  · have bound : i.toInt ≠ -2 ^ 63 := by
      intro same
      exact smallest (Int64.toInt_inj.1 same)
    exact isReadBack_ofNat (by omega) (beq_self_iff.2 rfl)

/-- The literal of the absolute value of a real. -/
theorem isReadBack_real (reading : Binary64.ofReal x = .finite negative magnitude exponent) :
    (real x).abs.IsReadBack (.ofBinary64 magnitude exponent) := by
  have canonical : IsCanonical magnitude exponent := Binary64.isCanonical_of_ofBits reading
  have unsigned := ofReal_mod reading
  rcases @Literal.ofBinary64_cases magnitude _ canonical.le_exponent with
    ⟨n, digits, value⟩ | ⟨n, p, digits, nonzero, positive, places, reads⟩
  · -- a natural number that fits is read as an integer, which equals the real
    by_cases fits : n < 2 ^ 63
    · rw [digits]
      have integer : (Int64.ofInt n).toInt = n := Int64.toInt_ofInt_of_le (by omega) (by omega)
      refine isReadBack_ofNat fits (int_beq_real unsigned ?_)
      rw [value, integer]
      rfl
    · obtain ⟨y, found, reading⟩ :=
        Literal.toNumber?_ofNat_eq_real (not_lt.1 fits) canonical value
      rw [← digits] at found
      refine ⟨real y, found, ?_, real_beq_real reading unsigned⟩
      rw [magnitudeToken, reading]
  · have length := @Literal.length_fraction_ofScaled n p positive
    have value := @Literal.natOfDigits_ofScaled n p positive
    have notInteger : (Literal.ofScaled n p).fraction = [] →
        2 ^ 63 ≤ Literal.natOfDigits (Literal.ofScaled n p).whole := by
      intro empty
      rw [empty] at length
      exact absurd length positive.ne
    -- the rounding interval of a positive float does not reach down to zero
    have nonzeroMultiple : 0 < n := by
      by_contra zero
      have lower := reads.lower
      have unit : (0 : ℚ) < 2 ^ exponent := zpow_pos two_pos exponent
      have one : (1 : ℚ) ≤ magnitude := by exact_mod_cast nonzero
      rw [Nat.eq_zero_of_not_pos zero] at lower
      norm_num at lower
      split at lower
      all_goals nlinarith
    obtain ⟨y, found, reading⟩ := Literal.toNumber?_eq_real notInteger value length
      nonzeroMultiple places canonical nonzero reads
    rw [← digits] at found
    refine ⟨real y, found, ?_, real_beq_real reading unsigned⟩
    rw [magnitudeToken, reading]

theorem exists_finite_of_isFinite (finite : (real x).isFinite) :
    ∃ negative magnitude exponent, Binary64.ofReal x = .finite negative magnitude exponent := by
  rw [isFinite, value] at finite
  cases reading : Binary64.ofReal x with
  | finite negative magnitude exponent => exact ⟨negative, magnitude, exponent, rfl⟩
  | infinite negative =>
    rw [reading] at finite
    cases negative <;> cases finite
  | notANumber negative fraction =>
    rw [reading] at finite
    cases finite

/-- The literal that a finite number is written with denotes its absolute value. -/
theorem exists_isReadBack (finite : a.isFinite) :
    ∃ l, a.magnitudeToken = .number l ∧ (Token.number l).IsWritable ∧
      a.abs.IsReadBack l := by
  cases a with
  | int i => exact ⟨_, rfl, Literal.isWritable_ofNat, isReadBack_int i⟩
  | real x =>
    obtain ⟨negative, magnitude, exponent, reading⟩ := exists_finite_of_isFinite finite
    rw [magnitudeToken, reading]
    refine ⟨_, rfl, ?_, isReadBack_real reading⟩
    rcases @Literal.ofBinary64_cases magnitude exponent
      (Binary64.isCanonical_of_ofBits reading).le_exponent with
      ⟨n, digits, -⟩ | ⟨n, p, digits, -⟩
    · rw [digits]
      exact Literal.isWritable_ofNat
    · rw [digits]
      exact Literal.isWritable_ofScaled

/-! ### Signs -/

/-- The numbers whose text can be read: finite ones other than negative zero. -/
def isWritable (a : Number) : Bool := a.isFinite && !(a.isZero && a.hasMinus)

theorem isNegative_iff {v : ScaledInt} (h : a.value = .finite v) : a.isNegative ↔ v.toRat < 0 := by
  have zero : (int 0).value = .finite (.ofInt 0) := rfl
  rw [isNegative, isDefined, order, h, zero, Value.order, ScaledInt.order_eq_compare,
    ScaledInt.toRat_ofInt, Int.cast_zero]
  simp [Value.isDefined, compare_lt_iff_lt]

theorem isZero_iff {v : ScaledInt} (h : a.value = .finite v) : a.isZero ↔ v.toRat = 0 := by
  rw [isZero, beq_iff, isDefined, h]
  simp [Value.isDefined, Value.point, value]

theorem isNegative_congr {b : Number} (h : a == b) : a.isNegative = b.isNegative := by
  obtain ⟨defined, same⟩ := beq_iff.1 h
  have equal : a.order b = .eq := (beq_iff_order defined).1 h
  rw [isNegative, isNegative, isDefined_congr same, Std.TransCmp.congr_left equal]

/-- Writable numbers are written with a minus sign if they are negative. -/
theorem hasMinus_eq_isNegative (h : a.isWritable) : a.hasMinus = a.isNegative := by
  obtain ⟨finite, notNegativeZero⟩ := Bool.and_eq_true_iff.1 h
  rw [Bool.eq_iff_iff]
  cases a with
  | int i =>
    rw [isNegative_iff rfl, ScaledInt.toRat_ofInt, hasMinus, decide_eq_true_iff]
    exact_mod_cast Iff.rfl
  | real x =>
    obtain ⟨negative, magnitude, exponent, reading⟩ := exists_finite_of_isFinite finite
    have value : (real x).value =
        .finite ⟨if negative then -(magnitude : Int) else magnitude, exponent⟩ := by
      rw [Number.value, reading]
      rfl
    have unit : (0 : ℚ) < 2 ^ exponent := zpow_pos two_pos exponent
    have sign : (real x).hasMinus = negative := by rw [hasMinus, reading]
    rw [sign] at notNegativeZero ⊢
    rw [isNegative_iff value]
    cases negative with
    | false =>
      have atLeast : (0 : ℚ) ≤ magnitude * 2 ^ exponent := by positivity
      simpa [ScaledInt.toRat] using atLeast
    | true =>
      have nonzero : ¬ (real x).isZero := by simpa using notNegativeZero
      rw [isZero_iff value] at nonzero
      have positive : (0 : ℚ) < magnitude := by
        rcases magnitude.eq_zero_or_pos with rfl | positive
        · simp [ScaledInt.toRat] at nonzero
        · exact_mod_cast positive
      simpa [ScaledInt.toRat] using mul_pos positive unit

/-- Literals denote writable numbers. -/
theorem isWritable_of_toNumber? {l : Literal} (h : l.toNumber? = some a) : a.isWritable := by
  rw [isWritable, Literal.isFinite_of_toNumber? h, Literal.hasMinus_of_toNumber? h]
  simp

theorem isNegative_of_toNumber? {l : Literal} (h : l.toNumber? = some a) :
    a.isNegative = false :=
  (hasMinus_eq_isNegative (isWritable_of_toNumber? h)).symm.trans (Literal.hasMinus_of_toNumber? h)

/-- A number without a minus sign is its own absolute value. -/
theorem abs_eq_self (finite : a.isFinite) (h : a.hasMinus = false) : a.abs = a := by
  cases a with
  | int i =>
    have nonnegative : 0 ≤ i.toInt := by simpa [hasMinus] using h
    have notLeast : i ≠ Int64.minValue := by
      rintro rfl
      exact absurd nonnegative (by decide)
    rw [abs, if_neg notLeast, Int.natAbs_of_nonneg nonnegative, Int64.ofInt_toInt]
  | real x =>
    obtain ⟨negative, magnitude, exponent, reading⟩ := exists_finite_of_isFinite finite
    have sign : (real x).hasMinus = negative := by rw [hasMinus, reading]
    rw [h] at sign
    subst sign
    -- the sign is the highest bit, which taking the absolute value clears
    have bound : x.bits.toNat < 2 ^ 63 := by
      have bit : (x.bits.toNat / Nat.pow 2 63 % 2 == 1) = false := by
        rw [Binary64.ofReal] at reading
        simp only [Binary64.ofBits] at reading
        split_ifs at reading
        all_goals
          injection reading
      have word := x.bits.toNat_lt
      have odd : ¬ x.bits.toNat / 2 ^ 63 % 2 = 1 := by simpa using bit
      omega
    have same : x.bits % 0x8000000000000000 = x.bits :=
      UInt64.toNat_inj.1 ((UInt64.toNat_mod _ _).trans (Nat.mod_eq_of_lt bound))
    rw [abs, same]

end Number

end InequalityChaining

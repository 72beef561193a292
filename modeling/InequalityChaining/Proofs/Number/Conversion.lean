import InequalityChaining.Proofs.Number.DecimalReading
import InequalityChaining.Proofs.Number.Rounding

/-!
# The conversion of integers

The float of an integer is the one in whose rounding interval the integer lies. Every integer of
moderate size lies in such an interval, and intervals of larger floats hold larger numbers, so the
conversion keeps the order; an integer that is a float is converted to itself.

## Main definitions

* `Binary64.IsApart` — floats whose rounding intervals do not overlap
* `Number.nearestReal` — the rational number that an integer is converted to

## Main results

* `Binary64.ofReal_ofInt` — the float of an integer
* `Binary64.ReadsAs.le_of_le` — larger numbers round to larger floats
* `Number.isRounding_nearestReal` — the conversion is a rounding
-/

open Float.Model (Format UnpackedFloat totalExponent)
open Float.Model.UnpackedFloat

namespace InequalityChaining

namespace Binary64

variable {m m' n : ℕ} {e e' : ℤ} {q q' : ℚ}

/-! ### The float of an integer -/

theorem toBits_ofNat (positive : 0 < n) (canonical : IsCanonical m e) (nonzero : 0 < m)
    (reads : ReadsAs m e n) :
    (Float.ofNat n).toBits =
      UInt64.ofBitVec (pack Format.binary64 (.finite .positive m e nonzero)) := by
  change (Float.ofScientific n false 0).toBits = _
  by_cases short : n < 2 ^ 53
  · -- a number that fits into a mantissa is multiplied by the zeroth power of ten
    have listed : 0 < Float.exactlyRepresentablePowersOfTen.size := by decide
    obtain ⟨m₁, e₁, h₁, factor, leading, value₁⟩ := exists_unpack_toFloat positive short
    obtain ⟨m₂, e₂, h₂, unit, value₂⟩ := exists_unpack_powerOfTen listed
    rw [Float.ofScientific, dif_pos ⟨short, Nat.zero_le _⟩]
    change UInt64.ofBitVec (pack Format.binary64 (mul Format.binary64
      (unpack Format.binary64 n.toUInt64.toFloat.toBits.toBitVec)
      (unpack Format.binary64 Float.exactlyRepresentablePowersOfTen[0].toBits.toBitVec))) = _
    have value : m₁ * m₂ * (2 : ℚ) ^ (e₁ + e₂) = n := by
      rw [zpow_add₀ two_ne_zero, mul_mul_mul_comm, value₁, value₂, pow_zero, mul_one]
    have long : 2 ^ 52 ≤ m₁ * m₂ := leading.trans (Nat.le_mul_of_pos_right _ h₂)
    rw [factor, unit, mul_eq_finite value long canonical nonzero reads]
  · rw [Float.ofScientific, dif_neg fun h => short h.1]
    change UInt64.ofBitVec (pack Format.binary64
      (ofScientific Format.binary64 n (Int.negOfNat 0))) = _
    rw [ofScientific_eq_finite positive (Nat.zero_le _) canonical nonzero]
    rwa [pow_zero, div_one]

/-- The float of an integer is the one in whose rounding interval the integer lies. -/
theorem ofReal_ofInt {i : ℤ} (canonical : IsCanonical m e) (nonzero : 0 < m)
    (reads : ReadsAs m e i.natAbs) (notZero : i ≠ 0) :
    ofReal (Float.ofInt i) = .finite (decide (i < 0)) m e := by
  cases i with
  | ofNat n =>
    have positive : 0 < n := Nat.pos_of_ne_zero fun zero => notZero (congrArg Int.ofNat zero)
    have unsigned : decide (Int.ofNat n < 0) = false :=
      decide_eq_false (Int.natCast_nonneg n).not_gt
    change ofBits (Float.ofNat n).toBits.toNat = _
    rw [toBits_ofNat positive canonical nonzero reads, unsigned]
    exact ofBits_pack false canonical nonzero
  | negSucc n =>
    have signed : decide (Int.negSucc n < 0) = true := decide_eq_true (Int.negSucc_lt_zero n)
    change ofBits (pack Format.binary64
      (unpack Format.binary64 (Float.ofNat (n + 1)).toBits.toBitVec).neg).toNat = _
    rw [toBits_ofNat n.succ_pos canonical nonzero reads, signed]
    change ofBits (pack Format.binary64
      (unpack Format.binary64 (pack Format.binary64 (.finite .positive m e nonzero))).neg).toNat = _
    rw [unpack_pack canonical nonzero]
    exact ofBits_pack true canonical nonzero

/-! ### Rounding intervals -/

/-- Every number between two powers of two has a nearest multiple, an even one if it is a
midpoint. -/
theorem exists_nearest_multiple {d : ℕ} (unit : 0 < d) (lower : 2 ^ 52 * d ≤ n)
    (upper : n < 2 ^ 53 * d) :
    ∃ m, 2 ^ 52 ≤ m ∧ m ≤ 2 ^ 53 ∧ 2 * (m * d) ≤ 2 * n + d ∧ 2 * n ≤ 2 * (m * d) + d ∧
      (2 * (m * d) = 2 * n + d ∨ 2 * n = 2 * (m * d) + d → m % 2 = 0) := by
  have rest : n % d < d := Nat.mod_lt n unit
  have parts := Nat.div_add_mod' n d
  have atLeast : 2 ^ 52 ≤ n / d := (Nat.le_div_iff_mul_le unit).2 lower
  have below : n / d < 2 ^ 53 := (Nat.div_lt_iff_lt_mul unit).2 upper
  have next : (n / d + 1) * d = n / d * d + d := Nat.succ_mul _ _
  -- rounded up past the midpoint, and at the midpoint if the quotient is odd
  by_cases up : d < 2 * (n % d) ∨ 2 * (n % d) = d ∧ n / d % 2 = 1
  · refine ⟨n / d + 1, by omega, by omega, by omega, by omega, ?_⟩
    rintro (midpoint | midpoint)
    all_goals omega
  · refine ⟨n / d, by omega, by omega, by omega, by omega, ?_⟩
    rintro (midpoint | midpoint)
    all_goals omega

/-- What has a float as its nearest multiple rounds to the float. -/
theorem readsAs_of_nearest_multiple {p : ℕ} (lower : 2 ^ 52 * 2 ^ p ≤ n)
    (above : 2 * (m * 2 ^ p) ≤ 2 * n + 2 ^ p) (below : 2 * n ≤ 2 * (m * 2 ^ p) + 2 ^ p)
    (even : 2 * (m * 2 ^ p) = 2 * n + 2 ^ p ∨ 2 * n = 2 * (m * 2 ^ p) + 2 ^ p → m % 2 = 0) :
    ReadsAs m p n := by
  have unit : (0 : ℚ) < 2 ^ p := pow_pos two_pos p
  have castLower : (2 ^ 52 * 2 ^ p : ℚ) ≤ n := by exact_mod_cast lower
  have castAbove : (2 * (m * 2 ^ p) : ℚ) ≤ 2 * n + 2 ^ p := by exact_mod_cast above
  have castBelow : (2 * n : ℚ) ≤ 2 * (m * 2 ^ p) + 2 ^ p := by exact_mod_cast below
  by_cases opens : opensBinade m p = true
  · -- nothing smaller than the first float of a binade is so near to it
    obtain rfl : m = 2 ^ 52 := beq_iff_eq.1 ((Bool.and_eq_true _ _).mp opens).1
    refine ⟨?_, ?_, fun _ => by decide⟩
    · rw [opens, if_pos rfl, zpow_natCast]
      push_cast
      linarith
    · rw [zpow_natCast]
      linarith
  · rw [Bool.not_eq_true] at opens
    refine ⟨?_, ?_, ?_⟩
    · rw [opens, if_neg Bool.false_ne_true, zpow_natCast]
      linarith
    · rw [zpow_natCast]
      linarith
    · rw [opens, if_neg Bool.false_ne_true, zpow_natCast]
      rintro (midpoint | midpoint)
      · have cast : (2 * (m * 2 ^ p) : ℚ) = 2 * n + 2 ^ p := by linarith
        exact even (.inl (by exact_mod_cast cast))
      · have cast : (2 * n : ℚ) = 2 * (m * 2 ^ p) + 2 ^ p := by linarith
        exact even (.inr (by exact_mod_cast cast))

/-- What has the end of a binade as its nearest multiple rounds to the first float of the next. -/
theorem readsAs_of_carry {p : ℕ} (above : 2 * (2 ^ 53 * 2 ^ p) ≤ 2 * n + 2 ^ p)
    (upper : n < 2 ^ 53 * 2 ^ p) : ReadsAs (2 ^ 52) (p + 1) n := by
  have unit : (0 : ℚ) < 2 ^ p := pow_pos two_pos p
  have castAbove : (2 * (2 ^ 53 * 2 ^ p) : ℚ) ≤ 2 * n + 2 ^ p := by exact_mod_cast above
  have castUpper : (n : ℚ) < 2 ^ 53 * 2 ^ p := by exact_mod_cast upper
  have opens : opensBinade (2 ^ 52) (p + 1) = true :=
    (Bool.and_eq_true _ _).mpr ⟨rfl, decide_eq_true (by omega)⟩
  have double : (2 : ℚ) ^ ((p : ℤ) + 1) = 2 * 2 ^ p := by
    rw [zpow_add_one₀ two_ne_zero, zpow_natCast, mul_comm]
  refine ⟨?_, ?_, fun _ => by decide⟩
  · rw [opens, if_pos rfl, double]
    push_cast
    linarith
  · rw [double]
    push_cast
    linarith

/-- Every number of moderate size rounds to a float. -/
theorem exists_readsAs (positive : 0 < n) (lt : n < 2 ^ 64) :
    ∃ m e, IsCanonical m e ∧ 0 < m ∧ ReadsAs m e n := by
  by_cases short : n < 2 ^ 53
  · refine ⟨shifted n, n.log2 - 52, isCanonical_shifted positive short, shifted_pos positive, ?_⟩
    rw [← shifted_mul_zpow positive short]
    exact readsAs_self _ _
  -- the places beyond the fifty-third are rounded
  have places : 53 ≤ n.log2 := (Nat.le_log2 positive.ne').2 (not_lt.1 short)
  have most : n.log2 < 64 := (Nat.log2_lt positive.ne').2 lt
  obtain ⟨p, shift⟩ : ∃ p, n.log2 = p + 52 := ⟨n.log2 - 52, by omega⟩
  have unit : 0 < 2 ^ p := Nat.two_pow_pos p
  have lower : 2 ^ 52 * 2 ^ p ≤ n := by
    rw [← pow_add, add_comm, ← shift]
    exact Nat.log2_self_le positive.ne'
  have upper : n < 2 ^ 53 * 2 ^ p := by
    have lt := @Nat.lt_log2_self n
    rwa [shift, add_assoc, add_comm, pow_add] at lt
  obtain ⟨m, least, greatest, above, below, even⟩ := exists_nearest_multiple unit lower upper
  rcases greatest.lt_or_eq with fits | carry
  · refine ⟨m, p, ⟨fits, by omega, by omega, .inl least⟩, by omega, ?_⟩
    exact readsAs_of_nearest_multiple lower above below even
  · -- the nearest multiple is the first float of the next binade
    rw [carry] at above
    refine ⟨2 ^ 52, p + 1, ⟨by decide, by omega, by omega, .inl le_rfl⟩, by decide, ?_⟩
    exact readsAs_of_carry above upper

/-- The smaller of two floats has a smaller exponent, or the same one and a smaller magnitude. -/
theorem IsCanonical.lex_of_lt (hm : IsCanonical m e) (hm' : IsCanonical m' e')
    (lt : m' * (2 : ℚ) ^ e' < m * 2 ^ e) : e' < e ∨ e' = e ∧ m' < m := by
  rcases lt_trichotomy e' e with less | rfl | greater
  · exact .inl less
  · exact .inr ⟨rfl, by exact_mod_cast lt_of_mul_lt_mul_right lt (zpow_pos two_pos _).le⟩
  · have leading : (2 : ℚ) ^ 52 ≤ m' := by
      exact_mod_cast hm'.leading.resolve_right (by have := hm.le_exponent; omega)
    have size : (m : ℚ) < 2 ^ 53 := by exact_mod_cast hm.magnitude_lt
    have contrary : m * (2 : ℚ) ^ e ≤ m' * 2 ^ e' := by
      calc m * (2 : ℚ) ^ e ≤ 2 ^ 53 * 2 ^ e :=
            mul_le_mul_of_nonneg_right size.le (zpow_pos two_pos _).le
        _ = 2 ^ 52 * 2 ^ (e + 1) := by
            rw [zpow_add_one₀ two_ne_zero]
            ring
        _ ≤ 2 ^ 52 * 2 ^ e' :=
            mul_le_mul_of_nonneg_left (zpow_le_zpow_right₀ one_le_two greater) (by positivity)
        _ ≤ m' * 2 ^ e' := mul_le_mul_of_nonneg_right leading (zpow_pos two_pos _).le
    exact absurd lt contrary.not_gt

/-- The rounding intervals of these two do not overlap. Where they meet, one of the two is odd. -/
structure IsApart (m' : ℕ) (e' : ℤ) (m : ℕ) (e : ℤ) : Prop where
  le : (4 * m' + 2) * (2 : ℚ) ^ e' ≤ (4 * m - if opensBinade m e then 1 else 2) * 2 ^ e
  odd : (4 * m' + 2) * (2 : ℚ) ^ e' = (4 * m - if opensBinade m e then 1 else 2) * 2 ^ e →
    m' % 2 = 1 ∨ m % 2 = 1

/-- The last float of a binade is odd, and only there a rounding interval meets the next binade. -/
theorem IsCanonical.isApart_of_exponent_lt (hm : IsCanonical m e) (hm' : IsCanonical m' e')
    (less : e' < e) : IsApart m' e' m e := by
  have unit : (0 : ℚ) < 2 ^ e' := zpow_pos two_pos e'
  have notLeast : -1074 < e := lt_of_le_of_lt hm'.le_exponent less
  have leading : 2 ^ 52 ≤ m := hm.leading.resolve_right notLeast.ne'
  have size : (m' : ℚ) + 1 ≤ 2 ^ 53 := by exact_mod_cast hm'.magnitude_lt
  have double : 2 * (2 : ℚ) ^ e' ≤ 2 ^ e := by
    rw [mul_comm, ← zpow_add_one₀ two_ne_zero]
    exact zpow_le_zpow_right₀ one_le_two less
  -- only the first float of a binade can meet an interval of a smaller exponent
  by_cases opens : m = 2 ^ 52
  · subst opens
    have first : opensBinade (2 ^ 52) e = true :=
      (Bool.and_eq_true _ _).mpr ⟨rfl, decide_eq_true notLeast⟩
    refine ⟨?_, fun meet => .inl ?_⟩
    · rw [first, if_pos rfl]
      push_cast
      nlinarith
    · rw [first, if_pos rfl] at meet
      push_cast at meet
      have last : (m' : ℚ) = 2 ^ 53 - 1 := by nlinarith
      have cast : ((m' + 1 : ℕ) : ℚ) = (2 ^ 53 : ℕ) := by
        push_cast
        linarith
      have := Nat.cast_injective cast
      omega
  · have inner : opensBinade m e = false := by
      rw [opensBinade, Bool.and_eq_false_iff]
      exact .inl (beq_eq_false_iff_ne.2 opens)
    have beyond : (2 : ℚ) ^ 52 + 1 ≤ m := by exact_mod_cast lt_of_le_of_ne leading (Ne.symm opens)
    have strict : (4 * m' + 2) * (2 : ℚ) ^ e' <
        (4 * m - if opensBinade m e then 1 else 2) * 2 ^ e := by
      rw [inner, if_neg Bool.false_ne_true]
      nlinarith
    exact ⟨strict.le, fun meet => absurd meet strict.ne⟩

/-- Of the floats with one exponent only neighbours have rounding intervals that meet. -/
theorem IsCanonical.isApart_of_magnitude_lt (hm' : IsCanonical m' e) (less : m' < m) :
    IsApart m' e m e := by
  have unit : (0 : ℚ) < 2 ^ e := zpow_pos two_pos e
  have inner : opensBinade m e = false := by
    rw [opensBinade, Bool.and_eq_false_iff]
    rcases hm'.leading with leading | least
    · exact .inl (beq_eq_false_iff_ne.2 (lt_of_le_of_lt leading less).ne')
    · exact .inr (decide_eq_false least.not_gt)
  have next : (m' : ℚ) + 1 ≤ m := by exact_mod_cast less
  constructor
  · rw [inner, if_neg Bool.false_ne_true]
    exact mul_le_mul_of_nonneg_right (by linarith) unit.le
  · intro meet
    rw [inner, if_neg Bool.false_ne_true] at meet
    have consecutive : (m' : ℚ) + 1 = m := by
      have := mul_right_cancel₀ unit.ne' meet
      linarith
    have whole : m' + 1 = m := by exact_mod_cast consecutive
    omega

/-- Rounding intervals of different floats do not overlap. -/
theorem IsCanonical.isApart_of_lt (hm : IsCanonical m e) (hm' : IsCanonical m' e')
    (lt : m' * (2 : ℚ) ^ e' < m * 2 ^ e) : IsApart m' e' m e := by
  rcases hm.lex_of_lt hm' lt with less | ⟨rfl, less⟩
  · exact hm.isApart_of_exponent_lt hm' less
  · exact hm'.isApart_of_magnitude_lt less

/-- Larger numbers round to larger floats. -/
theorem ReadsAs.le_of_le (hm : IsCanonical m e) (hm' : IsCanonical m' e') (reads : ReadsAs m e q)
    (reads' : ReadsAs m' e' q') (le : q ≤ q') : m * (2 : ℚ) ^ e ≤ m' * 2 ^ e' := by
  by_contra lt
  obtain ⟨apart, odd⟩ := hm.isApart_of_lt hm' (not_le.1 lt)
  have lower := reads.lower
  have upper := reads'.upper
  -- both numbers are the midpoint, which rounds to an even float
  have even := reads.even (.inl (by linarith))
  have even' := reads'.even (.inr (by linarith))
  have := odd (by linarith)
  omega

end Binary64

namespace Number

open Binary64 (IsCanonical ReadsAs)

/-! ### The conversion is a rounding -/

variable {i j : ℤ} {m m' : ℕ} {e e' : ℤ}

/-- The rational number that an integer is converted to. Integers beyond those with sixty-four bits
are not converted. -/
def nearestReal (i : ℤ) : ℚ :=
  if i.natAbs ≤ 2 ^ 63 then
    match (real (Float.ofInt i)).value with
    | .finite v => v.toRat
    | _ => i
  else i

/-- The value of the converted integer is the float in whose rounding interval it lies. -/
theorem value_ofInt (canonical : IsCanonical m e) (reads : ReadsAs m e i.natAbs) (positive : 0 < m)
    (notZero : i ≠ 0) :
    (real (Float.ofInt i)).value = .finite ⟨if i < 0 then -(m : ℤ) else m, e⟩ := by
  have reading := Binary64.ofReal_ofInt canonical positive reads notZero
  change Value.ofBinary64 (Binary64.ofReal (Float.ofInt i)) = _
  rw [reading]
  by_cases negative : i < 0
  · simp [Value.ofBinary64, negative]
  · simp [Value.ofBinary64, negative]

theorem value_ofInt_zero : (real (Float.ofInt 0)).value = .finite ⟨0, -1074⟩ := by
  decide +kernel

/-- The integers with sixty-four bits have converted values. -/
theorem exists_value_ofInt (range : i.natAbs ≤ 2 ^ 63) :
    ∃ m e, IsCanonical m e ∧ ReadsAs m e i.natAbs ∧
      (real (Float.ofInt i)).value = .finite ⟨if i < 0 then -(m : ℤ) else m, e⟩ := by
  by_cases zero : i = 0
  · subst zero
    refine ⟨0, -1074, ⟨by decide, le_rfl, by decide, .inr rfl⟩, ?_, value_ofInt_zero⟩
    have self := Binary64.readsAs_self 0 (-1074)
    rwa [Nat.cast_zero, zero_mul] at self
  · have positive : 0 < i.natAbs := Int.natAbs_pos.2 zero
    obtain ⟨m, e, canonical, nonzero, reads⟩ :=
      Binary64.exists_readsAs positive (range.trans_lt (by decide))
    exact ⟨m, e, canonical, reads, value_ofInt canonical reads nonzero zero⟩

theorem nearestReal_eq (range : i.natAbs ≤ 2 ^ 63)
    (value : (real (Float.ofInt i)).value = .finite ⟨if i < 0 then -(m : ℤ) else m, e⟩) :
    nearestReal i = if i < 0 then -(m * (2 : ℚ) ^ e) else m * (2 : ℚ) ^ e := by
  rw [nearestReal, if_pos range, value]
  by_cases negative : i < 0
  · simp [ScaledInt.toRat, negative]
  · simp [ScaledInt.toRat, negative]

/-- Integers that are floats are converted to themselves. -/
theorem nearestReal_eq_self (canonical : IsCanonical m e) (same : m * (2 : ℚ) ^ e = i.natAbs) :
    nearestReal i = i := by
  by_cases range : i.natAbs ≤ 2 ^ 63
  · by_cases zero : i = 0
    · subst zero
      rw [nearestReal, if_pos range, value_ofInt_zero]
      simp [ScaledInt.toRat]
    · have positive : 0 < m := by
        refine Nat.pos_of_ne_zero fun absent => zero ?_
        rw [absent, Nat.cast_zero, zero_mul] at same
        exact Int.natAbs_eq_zero.1 (by exact_mod_cast same.symm)
      have reads := Binary64.readsAs_self m e
      rw [same] at reads
      rw [nearestReal_eq range (value_ofInt canonical reads positive zero), same, Nat.cast_natAbs]
      by_cases negative : i < 0
      · rw [if_pos negative, abs_of_neg negative, Int.cast_neg, neg_neg]
      · rw [if_neg negative, abs_of_nonneg (not_lt.1 negative)]
  · exact if_neg range

/-- Converted integers with sixty-four bits keep their order. -/
theorem nearestReal_le_of_range (ordered : i ≤ j) (rangeI : i.natAbs ≤ 2 ^ 63)
    (rangeJ : j.natAbs ≤ 2 ^ 63) : nearestReal i ≤ nearestReal j := by
  obtain ⟨m, e, canonicalI, readsI, valueI⟩ := exists_value_ofInt rangeI
  obtain ⟨n, f, canonicalJ, readsJ, valueJ⟩ := exists_value_ofInt rangeJ
  rw [nearestReal_eq rangeI valueI, nearestReal_eq rangeJ valueJ]
  by_cases negativeJ : j < 0
  · have larger : (j.natAbs : ℚ) ≤ i.natAbs := by exact_mod_cast (by omega : j.natAbs ≤ i.natAbs)
    rw [if_pos (ordered.trans_lt negativeJ), if_pos negativeJ]
    exact neg_le_neg (readsJ.le_of_le canonicalJ canonicalI readsI larger)
  rw [if_neg negativeJ]
  by_cases negativeI : i < 0
  · rw [if_pos negativeI]
    have below : -(m * (2 : ℚ) ^ e) ≤ 0 := neg_nonpos.2 (by positivity)
    exact below.trans (by positivity)
  · have larger : (i.natAbs : ℚ) ≤ j.natAbs := by exact_mod_cast (by omega : i.natAbs ≤ j.natAbs)
    rw [if_neg negativeI]
    exact readsI.le_of_le canonicalI canonicalJ readsJ larger

/-- The ends of the range of converted integers are floats. -/
theorem nearestReal_end (h : i.natAbs = 2 ^ 63) : nearestReal i = i := by
  refine @nearestReal_eq_self i (2 ^ 52) 11 ⟨by decide, by decide, by decide, .inl le_rfl⟩ ?_
  rw [h]
  norm_num

/-- Converted integers with sixty-four bits stay between the ends. -/
theorem nearestReal_between (range : i.natAbs ≤ 2 ^ 63) :
    -2 ^ 63 ≤ nearestReal i ∧ nearestReal i ≤ 2 ^ 63 := by
  have least : nearestReal (-2 ^ 63) = ((-2 ^ 63 : ℤ) : ℚ) := nearestReal_end (by decide)
  have greatest : nearestReal (2 ^ 63) = ((2 ^ 63 : ℤ) : ℚ) := nearestReal_end (by decide)
  have above := @nearestReal_le_of_range (-2 ^ 63) i (by omega) (by decide) range
  have below := @nearestReal_le_of_range i (2 ^ 63) (by omega) range (by decide)
  rw [least] at above
  rw [greatest] at below
  push_cast at above below
  exact ⟨above, below⟩

/-- Converted integers keep their order. -/
theorem nearestReal_le (ordered : i ≤ j) : nearestReal i ≤ nearestReal j := by
  have cast : (i : ℚ) ≤ j := Int.cast_le.2 ordered
  by_cases rangeI : i.natAbs ≤ 2 ^ 63
  · by_cases rangeJ : j.natAbs ≤ 2 ^ 63
    · exact nearestReal_le_of_range ordered rangeI rangeJ
    · have beyond : (2 : ℚ) ^ 63 ≤ j := by exact_mod_cast (by omega : (2 ^ 63 : ℤ) ≤ j)
      have same : nearestReal j = j := if_neg rangeJ
      rw [same]
      exact (nearestReal_between rangeI).2.trans beyond
  · have same : nearestReal i = i := if_neg rangeI
    rw [same]
    by_cases rangeJ : j.natAbs ≤ 2 ^ 63
    · have beyond : (i : ℚ) ≤ -2 ^ 63 := by exact_mod_cast (by omega : i ≤ -2 ^ 63)
      exact beyond.trans (nearestReal_between rangeJ).1
    · have same' : nearestReal j = j := if_neg rangeJ
      rwa [same']

/-- Integers of small magnitude are converted to themselves. -/
theorem nearestReal_of_small (small : i.natAbs ≤ 2 ^ 53) : nearestReal i = i := by
  rcases small.lt_or_eq with lt | greatest
  · rcases i.natAbs.eq_zero_or_pos with zero | positive
    · refine @nearestReal_eq_self i 0 (-1074) ⟨by decide, le_rfl, by decide, .inr rfl⟩ ?_
      rw [zero]
      simp
    · exact nearestReal_eq_self (Binary64.isCanonical_shifted positive lt)
        (Binary64.shifted_mul_zpow positive lt)
  · refine @nearestReal_eq_self i (2 ^ 52) 1 ⟨by decide, by decide, by decide, .inl le_rfl⟩ ?_
    rw [greatest]
    norm_num

/-- The conversion of integers to floats is a rounding. -/
theorem isRounding_nearestReal : IsRounding nearestReal where
  monotone _ _ ordered := nearestReal_le ordered
  exact_small _ small := nearestReal_of_small small
  exact_real x v n value whole := by
    obtain ⟨negative, m, e, -, canonical, rfl⟩ := exists_of_value_eq_finite value
    refine nearestReal_eq_self canonical ?_
    rw [Nat.cast_natAbs, Int.cast_abs, ← whole, ScaledInt.abs_toRat]

end Number

end InequalityChaining

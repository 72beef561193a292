import InequalityChaining.Number.Comparison
import InequalityChaining.Proofs.Number.Conversion
import InequalityChaining.Proofs.Number.PatternOrder

/-!
# Comparison in machine arithmetic

Floats are compared by their values, unless one of them is not a number. The ordering key of a
pattern is its place, lowered by one if the pattern is negative, which tells both zeros apart and
nothing else; the order by keys is therefore the order of values for all patterns but these two.
Truncation loses nothing of a float without places behind the binary point, so the 64-bit integer
found for a real is the one that the real is.

## Main definitions

* `Real64.IsOf` — a float is what a pattern stands for

## Main results

* `Real64.IsOf.partialOrder_eq` — floats that are numbers are compared by their values
* `Real64.totalOrder_eq` — so are all patterns, zeros apart
* `Real64.exactInteger?_of_finite` — the integer that a real is
-/

open Float.Model (Format UnpackedFloat)
open Float.Model.UnpackedFloat

namespace InequalityChaining

namespace Real64

open Number (Value)

/-! ### Floats -/

/-- A float is what a pattern stands for. -/
def IsOf (f : Float) (x : Real64) : Prop := f.toModel.unpack = (Binary64.ofReal x).unpacked

theorem isOf_ofFloat (f : Float) : IsOf f (ofFloat f) :=
  Binary64.unpack_eq_unpacked f.toBits.toBitVec

theorem isOf_toFloat (x : Real64) : IsOf x.toFloat x := by
  change unpack Format.binary64 (pack Format.binary64
    (unpack Format.binary64 x.bits.toBitVec)) = _
  rw [Binary64.unpack_eq_unpacked x.bits.toBitVec]
  exact Binary64.unpack_pack_unpacked _

/-- The place of a pattern. -/
def place (x : Real64) : ℤ := (Binary64.ofReal x).place

variable {f g : Float} {x y : Real64}

theorem order_eq_compare_place (x y : Real64) :
    (Number.real x).order (.real y) = compare x.place y.place :=
  Binary64.order_ofBinary64 _ _

section Floats

variable (hf : IsOf f x) (hg : IsOf g y)

include hf hg

/-- Floats are compared by their values, unless one of them is not a number. -/
theorem IsOf.compare_eq :
    UnpackedFloat.compare f.toModel.unpack g.toModel.unpack =
      if (Number.real x).isDefined ∧ (Number.real y).isDefined then
        some ((Number.real x).order (.real y))
      else none := by
  rw [hf, hg, order_eq_compare_place]
  exact Binary64.compare_unpacked _ _

theorem IsOf.compare_eq_some_iff {o : Ordering} :
    UnpackedFloat.compare f.toModel.unpack g.toModel.unpack = some o ↔
      ((Number.real x).isDefined ∧ (Number.real y).isDefined) ∧
        (Number.real x).order (.real y) = o := by
  rw [hf.compare_eq hg, Option.ite_none_right_eq_some, Option.some.injEq]

theorem IsOf.le_iff :
    f ≤ g ↔ ((Number.real x).isDefined ∧ (Number.real y).isDefined) ∧
      (Number.real x).order (.real y) ≠ .gt := by
  change (decide ((UnpackedFloat.compare f.toModel.unpack g.toModel.unpack).any (·.isLE) = true)) =
    true ↔ _
  rw [decide_eq_true_eq, hf.compare_eq hg]
  split
  · next defined =>
    cases (Number.real x).order (.real y) <;> simp [defined]
  · next undefined => simp [undefined]

theorem IsOf.lt_iff :
    f < g ↔ ((Number.real x).isDefined ∧ (Number.real y).isDefined) ∧
      (Number.real x).order (.real y) = .lt := by
  change (decide ((UnpackedFloat.compare f.toModel.unpack g.toModel.unpack == some .lt) = true)) =
    true ↔ _
  rw [decide_eq_true_eq, beq_iff_eq, hf.compare_eq_some_iff hg]

theorem IsOf.beq_iff :
    (f == g) = true ↔ ((Number.real x).isDefined ∧ (Number.real y).isDefined) ∧
      (Number.real x).order (.real y) = .eq := by
  change (UnpackedFloat.compare f.toModel.unpack g.toModel.unpack == some .eq) = true ↔ _
  rw [beq_iff_eq, hf.compare_eq_some_iff hg]

/-- Floats that are numbers are compared by their values. -/
theorem IsOf.partialOrder_eq :
    partialOrder f g =
      if (Number.real x).isDefined ∧ (Number.real y).isDefined then
        some ((Number.real x).order (.real y))
      else none := by
  have swap : (Number.real y).order (.real x) = ((Number.real x).order (.real y)).swap :=
    Std.OrientedCmp.eq_swap
  rw [partialOrder]
  split_ifs with defined
  · have below : decide (f ≤ g) = ((Number.real x).order (.real y) != .gt) := by
      rw [Bool.eq_iff_iff, decide_eq_true_iff, hf.le_iff hg, and_iff_right defined, bne_iff_ne]
    have above : decide (g ≤ f) = (((Number.real x).order (.real y)).swap != .gt) := by
      rw [Bool.eq_iff_iff, decide_eq_true_iff, hg.le_iff hf, and_iff_right defined.symm, bne_iff_ne,
        swap]
    rw [below, above]
    cases (Number.real x).order (.real y) <;> rfl
  · have notBelow : ¬ f ≤ g := fun le => defined ((hf.le_iff hg).1 le).1
    have notAbove : ¬ g ≤ f := fun le => defined ((hg.le_iff hf).1 le).1.symm
    rw [decide_eq_false notBelow, decide_eq_false notAbove]

end Floats

/-! ### Patterns -/

/-- Flipping the lower bits of a number. -/
theorem xor_two_pow_sub_one (n : ℕ) :
    n ^^^ (2 ^ 63 - 1) = n / 2 ^ 63 * 2 ^ 63 + (2 ^ 63 - 1 - n % 2 ^ 63) := by
  have flipped : n % 2 ^ 63 ^^^ (2 ^ 63 - 1) = 2 ^ 63 - 1 - n % 2 ^ 63 := by
    have complement := @BitVec.toNat_not 63 (BitVec.ofNat 63 n)
    rw [BitVec.not_def, BitVec.toNat_xor, Nat.xor_comm, BitVec.toNat_allOnes,
      BitVec.toNat_ofNat] at complement
    exact complement
  have low : (n ^^^ (2 ^ 63 - 1)) % 2 ^ 63 = 2 ^ 63 - 1 - n % 2 ^ 63 := by
    rw [Nat.xor_mod_two_pow, Nat.mod_eq_of_lt (by decide : 2 ^ 63 - 1 < 2 ^ 63), flipped]
  have high : (n ^^^ (2 ^ 63 - 1)) / 2 ^ 63 = n / 2 ^ 63 := by
    rw [Nat.xor_div_two_pow, Nat.div_eq_of_lt (by decide : 2 ^ 63 - 1 < 2 ^ 63), Nat.xor_zero]
  have parts := Nat.div_add_mod' (n ^^^ (2 ^ 63 - 1)) (2 ^ 63)
  rw [low, high] at parts
  exact parts.symm

theorem signMask_eq (b : BitVec 64) :
    b.sshiftRight 63 >>> 1 = if b.toNat < 2 ^ 63 then 0#64 else BitVec.ofNat 64 (2 ^ 63 - 1) := by
  have bound := b.isLt
  by_cases positive : b.toNat < 2 ^ 63
  · have sign : b.msb = false := BitVec.msb_eq_false_iff_two_mul_lt.2 (by omega)
    rw [if_pos positive, BitVec.sshiftRight_eq_of_msb_false sign]
    refine BitVec.eq_of_toNat_eq ?_
    simp only [BitVec.toNat_ushiftRight, Nat.shiftRight_eq_div_pow]
    change b.toNat / 2 ^ 63 / 2 ^ 1 = 0
    omega
  · have sign : b.msb = true := BitVec.msb_eq_true_iff_two_mul_ge.2 (by omega)
    rw [if_neg positive, BitVec.sshiftRight_eq_of_msb_true sign]
    refine BitVec.eq_of_toNat_eq ?_
    simp only [BitVec.toNat_ushiftRight, BitVec.toNat_not, Nat.shiftRight_eq_div_pow]
    change (2 ^ 64 - 1 - (2 ^ 64 - 1 - b.toNat) / 2 ^ 63) / 2 ^ 1 = 2 ^ 63 - 1
    omega

/-- The key of a pattern. -/
theorem toInt_orderingKey (x : Real64) :
    x.orderingKey.toInt =
      if x.bits.toNat < 2 ^ 63 then (x.bits.toNat : ℤ) else 2 ^ 63 - 1 - x.bits.toNat := by
  have bound := x.bits.toBitVec.isLt
  change (x.bits.toBitVec ^^^ (x.bits.toBitVec.sshiftRight 63 >>> 1)).toInt = _
  rw [signMask_eq]
  change _ = if x.bits.toBitVec.toNat < 2 ^ 63 then (x.bits.toBitVec.toNat : ℤ)
    else 2 ^ 63 - 1 - x.bits.toBitVec.toNat
  generalize x.bits.toBitVec = b at *
  split_ifs with positive
  · rw [BitVec.xor_zero, BitVec.toInt_eq_toNat_of_lt (by omega)]
  · rw [BitVec.toInt_eq_toNat_cond, BitVec.toNat_xor]
    have mask : (BitVec.ofNat 64 (2 ^ 63 - 1)).toNat = 2 ^ 63 - 1 := rfl
    rw [mask, xor_two_pow_sub_one, if_neg (by omega)]
    omega

/-- The place of a pattern, by its bits. -/
theorem place_eq (x : Real64) :
    x.place = if x.bits.toNat < 2 ^ 63 then (x.bits.toNat : ℤ) else 2 ^ 63 - x.bits.toNat := by
  have bound := x.bits.toNat_lt
  rw [place, Binary64.place, Binary64.ofReal, Binary64.isNegative_ofBits, Binary64.rank_ofBits]
  split_ifs with positive
  · have sign : (x.bits.toNat / 2 ^ 63 % 2 == 1) = false := beq_eq_false_iff_ne.2 (by omega)
    rw [sign, Nat.mod_eq_of_lt positive]
    rfl
  · have sign : (x.bits.toNat / 2 ^ 63 % 2 == 1) = true := beq_iff_eq.2 (by omega)
    rw [sign]
    simp only [signOf, Sign.apply]
    omega

theorem compare_eq_compare_toInt (i j : Int64) : compare i j = compare i.toInt j.toInt := by
  rcases lt_trichotomy i.toInt j.toInt with less | same | greater
  · rw [compare_lt_iff_lt.2 less, Std.compare_eq_lt]
    exact Int64.lt_iff_toInt_lt.2 less
  · rw [Int64.toInt_inj.1 same, compare_eq_iff_eq.2 rfl]
    exact Std.ReflOrd.compare_self
  · rw [compare_gt_iff_gt.2 greater, Std.compare_eq_gt]
    exact Int64.lt_iff_toInt_lt.2 greater

/-- Keys grow with the place. -/
theorem orderingKey_lt (less : x.place < y.place) :
    x.orderingKey.toInt < y.orderingKey.toInt := by
  rw [place_eq, place_eq] at less
  rw [toInt_orderingKey, toInt_orderingKey]
  split_ifs at less ⊢
  all_goals omega

/-- Only zeros have the same place and different keys. -/
theorem orderingKey_eq (same : x.place = y.place) (nonzero : y.place ≠ 0) :
    x.orderingKey.toInt = y.orderingKey.toInt := by
  rw [place_eq, place_eq] at same
  rw [place_eq] at nonzero
  rw [toInt_orderingKey, toInt_orderingKey]
  split_ifs at same nonzero ⊢
  all_goals omega

/-- Patterns are ordered by their values, zeros apart. -/
theorem totalOrder_eq (h : x.place = y.place → y.place ≠ 0) :
    x.totalOrder y = (Number.real x).order (.real y) := by
  rw [totalOrder, compare_eq_compare_toInt, order_eq_compare_place]
  exact (compare_congr orderingKey_lt (fun same => orderingKey_eq same (h same))
    orderingKey_lt).symm

end Real64

/-! ### Reals that are integers -/

namespace Binary64

variable {m : ℕ} {e : ℤ} {negative : Bool}

/-- What is left of a magnitude and an exponent without the places behind the binary point. -/
def truncated (m : ℕ) (e : ℤ) : ℕ := m * 2 ^ e.toNat / 2 ^ (-e).toNat

theorem roundToInt_eq (sign : Sign) (m : ℕ) (e : ℤ) :
    roundToInt sign m e = sign.apply (truncated m e) := by
  have shift : (0 - (e - e.toNat : ℤ)).toNat = (-e).toNat := by omega
  have start : ExtendedMantissa.ofMantissaAndAccuracy (m <<< e.toNat) .exact =
      extendedQuotient (m <<< e.toNat) 1 := by
    rw [extendedQuotient, Nat.div_one, Nat.div_one, Nat.mod_one, Nat.mul_mod_right]
    rfl
  have places : (e - 0).toNat = e.toNat := by rw [sub_zero]
  rw [roundToInt, decreaseExponent, places]
  dsimp only
  rw [shiftToExponent, shift, start, shiftRight_extendedQuotient, one_mul]
  dsimp only
  rw [extendedQuotient, Nat.shiftLeft_eq, truncated]

/-- Floats are truncated. -/
theorem toInt_unpacked (least greatest : ℤ) :
    UnpackedFloat.toInt least greatest (finite negative m e).unpacked =
      (signOf negative).apply (truncated m e) := by
  rcases m.eq_zero_or_pos with rfl | nonzero
  · have zero : truncated 0 e = 0 := by rw [truncated, Nat.zero_mul, Nat.zero_div]
    rw [zero]
    cases negative <;> rfl
  · rw [unpacked_finite nonzero]
    exact roundToInt_eq _ m e

/-- Nothing is lost of what has no places behind the binary point. -/
theorem truncated_of_whole (whole : m % 2 ^ (-e).toNat = 0) :
    (truncated m e : ℚ) = m * 2 ^ e := by
  rcases Int.le_total 0 e with integral | fractional
  · lift e to ℕ using integral
    have none : (-(e : ℤ)).toNat = 0 := by omega
    rw [truncated, none, pow_zero, Nat.div_one, Int.toNat_natCast, zpow_natCast]
    push_cast
    rfl
  · obtain ⟨p, rfl⟩ : ∃ p : ℕ, e = -p := ⟨(-e).toNat, by omega⟩
    have none : (-(p : ℤ)).toNat = 0 := by omega
    rw [neg_neg, Int.toNat_natCast] at whole
    have exact := Nat.div_mul_cancel (Nat.dvd_of_mod_eq_zero whole)
    have cast : ((m / 2 ^ p : ℕ) : ℚ) * 2 ^ p = m := by exact_mod_cast exact
    rw [truncated, none, pow_zero, mul_one, neg_neg, Int.toNat_natCast, zpow_neg, zpow_natCast,
      ← div_eq_mul_inv, eq_div_iff (by positivity), cast]

/-- Integers have no places behind the binary point. -/
theorem whole_of_eq {n : ℕ} (h : (m : ℚ) * 2 ^ e = n) : m % 2 ^ (-e).toNat = 0 := by
  rcases Int.le_total 0 e with integral | fractional
  · have none : (-e).toNat = 0 := by omega
    rw [none, pow_zero, Nat.mod_one]
  · obtain ⟨p, rfl⟩ : ∃ p : ℕ, e = -p := ⟨(-e).toNat, by omega⟩
    rw [neg_neg, Int.toNat_natCast]
    have cast : (m : ℚ) = n * 2 ^ p := by
      rw [← h, zpow_neg, zpow_natCast, mul_assoc, inv_mul_cancel₀ (by positivity), mul_one]
    have product : m = n * 2 ^ p := by exact_mod_cast cast
    rw [product, Nat.mul_mod_left]

end Binary64

namespace Real64

open Binary64 (truncated)

variable {x : Real64} {v : ScaledInt} {m : ℕ} {e : ℤ} {negative : Bool}

/-- The least integer with sixty-four bits, as a float. -/
theorem value_least : (Number.real (-9223372036854775808.0 : Float)).value =
    .finite ⟨-2 ^ 52, 11⟩ := by
  decide +kernel

/-- What follows the greatest integer with sixty-four bits, as a float. -/
theorem value_bound : (Number.real (9223372036854775808.0 : Float)).value =
    .finite ⟨2 ^ 52, 11⟩ := by
  decide +kernel

theorem order_finite {y : Real64} {w : ScaledInt} (hx : (Number.real x).value = .finite v)
    (hy : (Number.real y).value = .finite w) :
    (Number.real x).order (.real y) = compare v.toRat w.toRat := by
  rw [Number.order, hx, hy]
  exact ScaledInt.order_eq_compare v w

theorem isDefined_finite (h : (Number.real x).value = .finite v) : (Number.real x).isDefined :=
  congrArg Number.Value.isDefined h

/-- Whether a finite real is in the range of integers is decided as for its value. -/
theorem inRange_iff (h : (Number.real x).value = .finite v) :
    (-9223372036854775808.0 ≤ x.toFloat ∧ x.toFloat < 9223372036854775808.0) ↔
      -2 ^ 63 ≤ v.toRat ∧ v.toRat < 2 ^ 63 := by
  have leastRat : ScaledInt.toRat ⟨-2 ^ 52, 11⟩ = -2 ^ 63 := by norm_num [ScaledInt.toRat]
  have boundRat : ScaledInt.toRat ⟨2 ^ 52, 11⟩ = 2 ^ 63 := by norm_num [ScaledInt.toRat]
  refine and_congr ?_ ?_
  · rw [(isOf_ofFloat _).le_iff (isOf_toFloat x), order_finite value_least h, leastRat,
      and_iff_right ⟨isDefined_finite value_least, isDefined_finite h⟩, ne_eq, compare_gt_iff_gt,
      not_lt]
  · rw [(isOf_toFloat x).lt_iff (isOf_ofFloat _), order_finite h value_bound, boundRat,
      and_iff_right ⟨isDefined_finite h, isDefined_finite value_bound⟩, compare_lt_iff_lt]

theorem isWhole_eq (found : Binary64.ofReal x = .finite negative m e) :
    x.isWhole ↔ m % 2 ^ (-e).toNat = 0 := by
  rw [isWhole, found]
  exact beq_iff_eq

theorem toInt64_eq (found : Binary64.ofReal x = .finite negative m e) :
    x.toFloat.toModel.toInt64 = Int64.ofIntClamp ((signOf negative).apply (truncated m e)) := by
  change Int64.ofIntClamp (UnpackedFloat.toInt _ _ x.toFloat.toModel.unpack) = _
  rw [isOf_toFloat x, found, Binary64.toInt_unpacked]

/-- A real is whole if it is an integer, which is what truncation then gives. -/
theorem toRat_eq_truncated (whole : m % 2 ^ (-e).toNat = 0) :
    ScaledInt.toRat ⟨if negative then -(m : ℤ) else m, e⟩ =
      (((signOf negative).apply (truncated m e) : ℤ) : ℚ) := by
  have value := Binary64.truncated_of_whole whole
  cases negative with
  | false =>
    rw [signOf, Sign.apply, Int.cast_natCast, value]
    rfl
  | true =>
    rw [signOf, Sign.apply, Int.cast_neg, Int.cast_natCast, value]
    simp [ScaledInt.toRat]

theorem whole_of_toRat_eq {n : ℤ}
    (h : ScaledInt.toRat ⟨if negative then -(m : ℤ) else m, e⟩ = n) :
    m % 2 ^ (-e).toNat = 0 := by
  refine @Binary64.whole_of_eq m e n.natAbs ?_
  rw [Nat.cast_natAbs, Int.cast_abs, ← h, ScaledInt.abs_toRat]

/-- The 64-bit integer that is found is the one that the real is. -/
theorem exactInteger?_of_finite (h : (Number.real x).value = .finite v) :
    x.exactInteger? = Number.exactInteger? v.toRat := by
  obtain ⟨negative, m, e, found, -, rfl⟩ := Number.exists_of_value_eq_finite h
  ext i
  rw [Number.exactInteger?_eq_some_iff, exactInteger?, Option.ite_none_right_eq_some,
    inRange_iff h, isWhole_eq found, toInt64_eq found, Option.some.injEq]
  constructor
  · rintro ⟨⟨⟨lower, upper⟩, whole⟩, rfl⟩
    rw [toRat_eq_truncated whole] at lower upper ⊢
    have least : Int64.minValue.toInt ≤ (signOf negative).apply (truncated m e) := by
      exact_mod_cast lower
    have greatest : (signOf negative).apply (truncated m e) ≤ Int64.maxValue.toInt := by
      have below : (signOf negative).apply (truncated m e) < 2 ^ 63 := by exact_mod_cast upper
      exact Int.le_sub_one_of_lt below
    -- in the range of the integers nothing is clamped
    rw [Int64.toInt_ofIntClamp least greatest]
  · intro value
    have whole := whole_of_toRat_eq value
    have lower : (-2 ^ 63 : ℤ) ≤ i.toInt := i.le_toInt
    have upper : i.toInt < 2 ^ 63 := i.toInt_lt
    rw [toRat_eq_truncated whole] at value ⊢
    have same : (signOf negative).apply (truncated m e) = i.toInt := Int.cast_injective value
    rw [same, Int64.ofIntClamp_toInt]
    exact ⟨⟨⟨by exact_mod_cast lower, by exact_mod_cast upper⟩, whole⟩, rfl⟩

theorem exactInteger?_of_not_finite (h : ∀ v, (Number.real x).value ≠ .finite v) :
    x.exactInteger? = none := by
  have notWhole : x.isWhole = false := by
    rw [isWhole]
    cases found : Binary64.ofReal x with
    | finite negative m e =>
      exact absurd (congrArg Number.Value.ofBinary64 found) (h _)
    | infinite negative => rfl
    | notANumber negative fraction => rfl
  rw [exactInteger?, notWhole]
  exact if_neg fun both => Bool.false_ne_true both.2

end Real64

end InequalityChaining

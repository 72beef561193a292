import Mathlib.Algebra.Order.Floor.Ring
import Mathlib.Data.Rat.Floor
import Mathlib.Tactic.Linarith
import Mathlib.Tactic.NormNum
import InequalityChaining.Proofs.Number.ExactOrder
import InequalityChaining.Proofs.Number.Pattern

/-!
# Comparison through rounding

Integers and reals need not be compared by their exact values. The integer can be converted to a
real near it and compared as such, since a conversion that keeps the order and is exact where it can
be never puts an integer on the wrong side of a real. All that it may hide is a difference. But a
real that a converted integer ties with is a 64-bit integer itself, or lies beyond all of these, so
that a tie is settled among integers, and the result is the exact order.

## Main definitions

* `Number.IsRounding` — what is needed of the conversion of integers
* `Number.exactInteger?` — the 64-bit integer that a rational number is
* `Number.orderByRounding` — the comparison of an integer with a value by way of the conversion

## Main results

* `Number.exists_int_or_abs_lt` — large reals are integers
* `Number.order_eq_orderByRounding` — the comparison gives the exact order
* `Number.int_beq_real_iff` — an integer equals the reals that are exactly this integer
-/

namespace InequalityChaining

namespace Number

variable {nearest : Int → ℚ} {i j : Int64} {x : Real64} {v : ScaledInt}

/-- A conversion of integers to reals keeps the order, and is exact for integers that are reals,
among which are all up to `exactIntegerBound`. -/
structure IsRounding (nearest : Int → ℚ) : Prop where
  monotone : ∀ m n : Int, m ≤ n → nearest m ≤ nearest n
  exact_small : ∀ n : Int, n.natAbs ≤ exactIntegerBound → nearest n = n
  exact_real : ∀ (x : Real64) (v : ScaledInt) (n : Int), (real x).value = .finite v →
    v.toRat = n → nearest n = n

/-- The 64-bit integer that a rational number is, if it is one. -/
def exactInteger? (q : ℚ) : Option Int64 :=
  if -2 ^ 63 ≤ q ∧ q < 2 ^ 63 ∧ q.den = 1 then some (.ofInt q.num) else none

/-- The comparison of an integer with a value: of the converted integer at first, and in case of a
tie as integers. -/
def orderByRounding (nearest : Int → ℚ) (i : Int64) : Value → Ordering
  | .finite v =>
    match compare (nearest i.toInt) v.toRat with
    | .eq =>
      match exactInteger? v.toRat with
      | some j => compare i.toInt j.toInt
      | none => .lt
    | unequal => unequal
  | .negInfinity => .gt
  | .posInfinity => .lt
  | .undefined negative _ => if negative then .gt else .lt

/-! ### Reals that are integers -/

theorem exactInteger?_eq_some_iff {q : ℚ} : exactInteger? q = some i ↔ q = i.toInt := by
  have lower : (-2 ^ 63 : Int) ≤ i.toInt := i.le_toInt
  have upper : i.toInt < 2 ^ 63 := i.toInt_lt
  rw [exactInteger?, Option.ite_none_right_eq_some, Option.some.injEq]
  constructor
  · rintro ⟨⟨atLeast, below, integral⟩, same⟩
    have whole : (q.num : ℚ) = q := (Rat.den_eq_one_iff q).1 integral
    rw [← whole] at atLeast below
    have inRange : (Int64.ofInt q.num).toInt = q.num :=
      Int64.toInt_ofInt_of_le (by exact_mod_cast atLeast) (by exact_mod_cast below)
    rw [← whole, ← same, inRange]
  · rintro rfl
    refine ⟨⟨by exact_mod_cast lower, by exact_mod_cast upper, Rat.den_intCast _⟩, ?_⟩
    rw [Rat.num_intCast, Int64.ofInt_toInt]

/-- A finite real is an integer, or lies within the bound up to which all integers are reals. -/
theorem exists_int_or_abs_lt (h : (real x).value = .finite v) :
    (∃ n : Int, v.toRat = n) ∨ |v.toRat| < 2 ^ 53 := by
  obtain ⟨negative, magnitude, exponent, -, canonical, rfl⟩ := exists_of_value_eq_finite h
  have bound : (magnitude : ℚ) < 2 ^ 53 := by exact_mod_cast canonical.magnitude_lt
  rcases Int.le_total 0 exponent with whole | fractional
  · lift exponent to ℕ using whole
    refine .inl ⟨(if negative then -(magnitude : Int) else magnitude) * 2 ^ exponent, ?_⟩
    simp [ScaledInt.toRat]
  · have atMostOne : (2 : ℚ) ^ exponent ≤ 1 := zpow_le_one_of_nonpos₀ one_le_two fractional
    refine .inr ?_
    calc |ScaledInt.toRat ⟨if negative then -(magnitude : Int) else magnitude, exponent⟩|
        = magnitude * 2 ^ exponent := ScaledInt.abs_toRat negative magnitude exponent
      _ ≤ magnitude * 1 := mul_le_mul_of_nonneg_left atMostOne (Nat.cast_nonneg _)
      _ < 2 ^ 53 := by rwa [mul_one]

/-! ### Conversions that keep the order -/

namespace IsRounding

/-- The integers next to a real are converted exactly. -/
theorem exact_neighbours (rounding : IsRounding nearest) (h : (real x).value = .finite v) :
    nearest ⌊v.toRat⌋ = ⌊v.toRat⌋ ∧ nearest ⌈v.toRat⌉ = ⌈v.toRat⌉ := by
  rcases exists_int_or_abs_lt h with ⟨n, whole⟩ | small
  · rw [whole, Int.floor_intCast, Int.ceil_intCast]
    exact ⟨rounding.exact_real x v n h whole, rounding.exact_real x v n h whole⟩
  · obtain ⟨above, below⟩ := abs_lt.1 small
    have bound : exactIntegerBound = 2 ^ 53 := rfl
    have floorAbove : -2 ^ 53 ≤ ⌊v.toRat⌋ := Int.le_floor.2 (by push_cast; exact above.le)
    have ceilBelow : ⌈v.toRat⌉ ≤ 2 ^ 53 := Int.ceil_le.2 (by push_cast; exact below.le)
    have floorBelow : ⌊v.toRat⌋ ≤ ⌈v.toRat⌉ := Int.floor_le_ceil _
    exact ⟨rounding.exact_small _ (by omega), rounding.exact_small _ (by omega)⟩

/-- No integer below a real is converted to more than the integer below the real. -/
theorem le_floor (rounding : IsRounding nearest) (h : (real x).value = .finite v) {n : Int}
    (below : n ≤ v.toRat) : nearest n ≤ ⌊v.toRat⌋ := by
  rw [← (rounding.exact_neighbours h).1]
  exact rounding.monotone _ _ (Int.le_floor.2 below)

/-- No integer above a real is converted to less than the integer above the real. -/
theorem ceil_le (rounding : IsRounding nearest) (h : (real x).value = .finite v) {n : Int}
    (above : v.toRat ≤ n) : ⌈v.toRat⌉ ≤ nearest n := by
  rw [← (rounding.exact_neighbours h).2]
  exact rounding.monotone _ _ (Int.ceil_le.2 above)

/-- What a converted integer ties with is an integer. -/
theorem exists_int_of_tie (rounding : IsRounding nearest) (h : (real x).value = .finite v) {n : Int}
    (tie : nearest n = v.toRat) : ∃ m : Int, v.toRat = m := by
  rcases le_total (n : ℚ) v.toRat with below | above
  · exact ⟨⌊v.toRat⌋, (tie ▸ rounding.le_floor h below).antisymm (Int.floor_le _)⟩
  · exact ⟨⌈v.toRat⌉, (Int.le_ceil _).antisymm (tie ▸ rounding.ceil_le h above)⟩

/-- What a converted 64-bit integer ties with without being one lies beyond them. -/
theorem lt_of_tie (rounding : IsRounding nearest) (h : (real x).value = .finite v)
    (tie : nearest i.toInt = v.toRat) (beyond : exactInteger? v.toRat = none) :
    (i.toInt : ℚ) < v.toRat := by
  obtain ⟨m, whole⟩ := rounding.exists_int_of_tie h tie
  have least : (-2 ^ 63 : Int) ≤ i.toInt := i.le_toInt
  have greatest : i.toInt < 2 ^ 63 := i.toInt_lt
  -- the least integer is a real, below which no integer is converted
  have exactLeast : nearest (-2 ^ 63) = ((-2 ^ 63 : Int) : ℚ) :=
    rounding.exact_real ⟨0xC3E0000000000000⟩ ⟨-2 ^ 52, 11⟩ _ (by decide +kernel)
      (by norm_num [ScaledInt.toRat])
  have atLeast : (-2 ^ 63 : Int) ≤ m := by
    have converted := rounding.monotone _ _ least
    rw [exactLeast, tie, whole] at converted
    exact_mod_cast converted
  rw [exactInteger?, whole, Rat.den_intCast, ite_eq_right_iff] at beyond
  rw [whole]
  by_contra inRange
  have upper : m ≤ i.toInt := by exact_mod_cast not_lt.1 inRange
  refine absurd (beyond ⟨by exact_mod_cast atLeast, ?_, rfl⟩) (by simp)
  exact_mod_cast upper.trans_lt greatest

end IsRounding

/-! ### The exact order -/

/-- Comparison by way of any conversion that keeps the order is the exact comparison. -/
theorem order_eq_orderByRounding (rounding : IsRounding nearest) (i : Int64) (x : Real64) :
    (int i).order (real x) = orderByRounding nearest i (real x).value := by
  rw [order]
  cases found : (real x).value with
  | finite v =>
    have exact : (int i).value.order (.finite v) = compare (i.toInt : ℚ) v.toRat := by
      rw [value, Value.order, ScaledInt.order_eq_compare, ScaledInt.toRat_ofInt]
    rw [exact, orderByRounding]
    cases converted : compare (nearest i.toInt) v.toRat with
    | lt =>
      have below := compare_lt_iff_lt.1 converted
      -- were the integer not below the real, it would not be rounded to a number below
      refine compare_lt_iff_lt.2 (lt_of_not_ge fun above => ?_)
      exact absurd ((Int.le_ceil _).trans (rounding.ceil_le found above)) below.not_ge
    | gt =>
      have above := compare_gt_iff_gt.1 converted
      refine compare_gt_iff_gt.2 (lt_of_not_ge fun below => ?_)
      exact absurd ((rounding.le_floor found below).trans (Int.floor_le _)) above.not_ge
    | eq =>
      have tie := compare_eq_iff_eq.1 converted
      dsimp only
      cases same : exactInteger? v.toRat with
      | none => exact compare_lt_iff_lt.2 (rounding.lt_of_tie found tie same)
      | some j =>
        dsimp only
        rw [exactInteger?_eq_some_iff.1 same, ← cmp_eq_compare, ← cmp_eq_compare]
        exact Int.cast_strictMono.cmp_map_eq i.toInt j.toInt
  | undefined negative fraction => cases negative <;> rfl
  | negInfinity => rfl
  | posInfinity => rfl

/-- An integer equals the reals that are exactly this integer. -/
theorem int_beq_real_iff :
    int i == real x ↔ ∃ v, (real x).value = .finite v ∧ exactInteger? v.toRat = some i := by
  rw [beq_iff, isDefined_int, value]
  cases found : (real x).value with
  | finite v => simp [Value.point, exactInteger?_eq_some_iff, eq_comm (a := (i.toInt : ℚ))]
  | undefined negative fraction => cases negative <;> simp [Value.point]
  | _ => simp [Value.point, Value.rank]

end Number

end InequalityChaining

import Mathlib.Data.Prod.Lex
import Mathlib.Order.Compare
import Mathlib.Order.Monotone.Basic
import InequalityChaining.Proofs.Number.ExactOrder
import InequalityChaining.Proofs.Number.Pattern

/-!
# The order of patterns

The bits of a pattern other than its sign bit form a number, its rank, and magnitudes grow with it:
within a binade by one unit each, and from one binade to the next without a gap. The rank with the
sign is the place of a pattern, which both zeros share. All patterns are ordered by their places:
what is not a number beyond the infinities, these beyond the finite values, and finite values as
the rational numbers that they denote. A comparison of floats compares places.

## Main definitions

* `Binary64.place` — the place of a pattern among all patterns
* `Binary64.valueAt` — the rational number at a place

## Main results

* `Binary64.valueAt_lt` — values grow with the place
* `Binary64.order_ofBinary64` — values are ordered by their places
* `Binary64.compare_unpacked` — so are floats
-/

open Float.Model (Format UnpackedFloat)
open Float.Model.UnpackedFloat

namespace InequalityChaining

open Number (Value)

namespace Binary64

/-! ### Places -/

/-- The sign bit of the pattern. -/
def isNegative : Binary64 → Bool
  | .finite negative _ _ => negative
  | .infinite negative => negative
  | .notANumber negative _ => negative

/-- The rank of the infinities. -/
def infiniteRank : ℕ := 2047 * 2 ^ 52

/-- The rank of a magnitude and an exponent. -/
def finiteRank (magnitude : ℕ) (exponent : ℤ) : ℕ := (exponent + 1074).toNat * 2 ^ 52 + magnitude

/-- The bits of the pattern other than its sign bit, as a number. -/
def rank : Binary64 → ℕ
  | .finite _ magnitude exponent => finiteRank magnitude exponent
  | .infinite _ => infiniteRank
  | .notANumber _ fraction => infiniteRank + fraction

/-- The place among all patterns, which both zeros share. -/
def place (x : Binary64) : ℤ := (signOf x.isNegative).apply x.rank

variable {bits m n fraction : ℕ} {e f : ℤ} {negative : Bool} {sign : Sign}

theorem isNegative_ofBits (bits : ℕ) : (ofBits bits).isNegative = (bits / 2 ^ 63 % 2 == 1) := by
  simp only [ofBits]
  split_ifs
  all_goals rfl

theorem rank_ofBits (bits : ℕ) : (ofBits bits).rank = bits % 2 ^ 63 := by
  have hidden : Nat.pow 2 52 = 2 ^ 52 := rfl
  have fields : Nat.pow 2 11 = 2 ^ 11 := rfl
  simp only [ofBits]
  rw [hidden, fields]
  split_ifs
  all_goals
    simp only [rank, finiteRank, infiniteRank]
    omega

/-- The fraction of what is not a number is not zero. -/
theorem fraction_pos_of_ofBits (h : ofBits bits = .notANumber negative fraction) :
    0 < fraction := by
  simp only [ofBits] at h
  split_ifs at h with _ nonzero
  injection h with _ same
  exact same ▸ Nat.pos_of_ne_zero nonzero

theorem IsCanonical.finiteRank_lt (canonical : IsCanonical m e) :
    finiteRank m e < infiniteRank := by
  obtain ⟨lt, least, greatest, leading⟩ := canonical
  rw [finiteRank, infiniteRank]
  omega

/-- Finite values stand between the infinities. -/
theorem IsCanonical.place_between (canonical : IsCanonical m e) (sign : Sign) :
    -infiniteRank < sign.apply (finiteRank m e) ∧ sign.apply (finiteRank m e) < infiniteRank := by
  have bound := canonical.finiteRank_lt
  cases sign
  all_goals
    simp only [Sign.apply]
    omega

/-! ### The values at the places -/

/-- The magnitude at a rank, as a multiple of the least one. -/
def unitsAt (n : ℕ) : ℕ :=
  if n < 2 ^ 52 then n else (2 ^ 52 + n % 2 ^ 52) * 2 ^ (n / 2 ^ 52 - 1)

/-- Magnitudes grow with the rank. -/
theorem strictMono_unitsAt : StrictMono unitsAt := by
  refine strictMono_nat_of_lt_succ fun n => ?_
  rw [unitsAt, unitsAt]
  by_cases subnormal : n + 1 < 2 ^ 52
  · rw [if_pos (by omega), if_pos subnormal]
    exact n.lt_succ_self
  rw [if_neg subnormal]
  by_cases least : n < 2 ^ 52
  · obtain rfl : n = 2 ^ 52 - 1 := by omega
    rw [if_pos least]
    norm_num
  rw [if_neg least]
  by_cases same : n % 2 ^ 52 + 1 < 2 ^ 52
  · have quotient : (n + 1) / 2 ^ 52 = n / 2 ^ 52 := by omega
    rw [quotient]
    exact Nat.mul_lt_mul_of_pos_right (by omega) (Nat.two_pow_pos _)
  · -- the next magnitude is the first one of the next binade
    have quotient : (n + 1) / 2 ^ 52 - 1 = n / 2 ^ 52 - 1 + 1 := by omega
    have rest : (n + 1) % 2 ^ 52 = 0 := by omega
    rw [quotient, rest]
    calc (2 ^ 52 + n % 2 ^ 52) * 2 ^ (n / 2 ^ 52 - 1)
        < 2 ^ 53 * 2 ^ (n / 2 ^ 52 - 1) :=
          Nat.mul_lt_mul_of_pos_right (by omega) (Nat.two_pow_pos _)
      _ = (2 ^ 52 + 0) * 2 ^ (n / 2 ^ 52 - 1 + 1) := by ring

theorem unitsAt_finiteRank (canonical : IsCanonical m e) :
    (unitsAt (finiteRank m e) * 2 ^ (-1074 : ℤ) : ℚ) = m * 2 ^ e := by
  obtain ⟨lt, least, -, leading⟩ := canonical
  rw [finiteRank, unitsAt]
  by_cases normal : 2 ^ 52 ≤ m
  · have fraction : 2 ^ 52 + ((e + 1074).toNat * 2 ^ 52 + m) % 2 ^ 52 = m := by omega
    have field : ((e + 1074).toNat * 2 ^ 52 + m) / 2 ^ 52 - 1 = (e + 1074).toNat := by omega
    have power : ((e + 1074).toNat : ℤ) + -1074 = e := by omega
    rw [if_neg (by omega), fraction, field, Nat.cast_mul, Nat.cast_pow, Nat.cast_ofNat, mul_assoc,
      ← zpow_natCast, ← zpow_add₀ two_ne_zero, power]
  · have subnormal : e = -1074 := leading.resolve_left normal
    subst subnormal
    rw [if_pos (by omega)]
    simp

/-- The value at a place. -/
def valueAt : ℤ → ℚ
  | .ofNat n => unitsAt n * 2 ^ (-1074 : ℤ)
  | .negSucc n => -(unitsAt (n + 1) * 2 ^ (-1074 : ℤ))

theorem valueAt_natCast (n : ℕ) : valueAt n = unitsAt n * 2 ^ (-1074 : ℤ) := rfl

theorem valueAt_neg_natCast (n : ℕ) : valueAt (-n) = -(unitsAt n * 2 ^ (-1074 : ℤ)) := by
  cases n with
  | zero => simp [valueAt, unitsAt]
  | succ n => rfl

/-- Values grow with the place. -/
theorem valueAt_lt {k l : ℤ} (less : k < l) : valueAt k < valueAt l := by
  have unit : (0 : ℚ) < 2 ^ (-1074 : ℤ) := zpow_pos two_pos _
  have grows : ∀ n : ℕ, (unitsAt n * 2 ^ (-1074 : ℤ) : ℚ) < unitsAt (n + 1) * 2 ^ (-1074 : ℤ) :=
    fun n => mul_lt_mul_of_pos_right (Nat.cast_lt.2 (strictMono_unitsAt n.lt_succ_self)) unit
  refine strictMono_int_of_lt_succ (fun k => ?_) less
  cases k with
  | ofNat n => exact grows n
  | negSucc n =>
    have next : Int.negSucc n + 1 = -(n : ℤ) := by omega
    rw [next, valueAt_neg_natCast]
    exact neg_lt_neg (grows n)

/-- What a finite reading denotes is the value at its place. -/
theorem toRat_eq_valueAt (canonical : IsCanonical m e) (negative : Bool) :
    ScaledInt.toRat ⟨if negative then -(m : ℤ) else m, e⟩ =
      valueAt ((signOf negative).apply (finiteRank m e)) := by
  cases negative with
  | false =>
    simp only [signOf, Sign.apply]
    rw [valueAt_natCast, unitsAt_finiteRank canonical]
    rfl
  | true =>
    simp only [signOf, Sign.apply]
    rw [valueAt_neg_natCast, unitsAt_finiteRank canonical]
    simp [ScaledInt.toRat]

/-! ### The order of values -/

/-- The kind of the values at a place. -/
def kindAt (k : ℤ) : ℕ :=
  if k < -infiniteRank then 0
  else if k = -infiniteRank then 1
  else if k < infiniteRank then 2
  else if k = infiniteRank then 3
  else 4

/-- Where a place is within its kind. Beyond the finite values places are counted from the
infinities. -/
def withinAt (k : ℤ) : ℚ :=
  if k ≤ -infiniteRank then k + infiniteRank
  else if k < infiniteRank then valueAt k
  else k - infiniteRank

theorem kindAt_le {k l : ℤ} (le : k ≤ l) : kindAt k ≤ kindAt l := by
  rw [kindAt, kindAt]
  generalize infiniteRank = b
  split_ifs
  all_goals omega

theorem withinAt_lt {k l : ℤ} (less : k < l) (same : kindAt k = kindAt l) :
    withinAt k < withinAt l := by
  have cast : (k : ℚ) < l := Int.cast_lt.2 less
  have positive : 0 < infiniteRank := by decide
  rw [kindAt, kindAt] at same
  rw [withinAt, withinAt]
  generalize infiniteRank = b at *
  by_cases below : l ≤ -b
  · rw [if_pos (less.le.trans below), if_pos below]
    exact add_lt_add_left cast _
  by_cases above : b ≤ k
  · rw [if_neg (by omega), if_neg (by omega), if_neg (by omega), if_neg (by omega)]
    exact sub_lt_sub_right cast _
  · have between : -b < k ∧ l < b := by
      split_ifs at same
      all_goals omega
    rw [if_neg (by omega), if_pos (by omega), if_neg (by omega), if_pos (by omega)]
    exact valueAt_lt less

/-- The point of a value is determined by its place. -/
theorem point_ofBinary64 (bits : ℕ) :
    (Value.ofBinary64 (ofBits bits)).point =
      (kindAt (ofBits bits).place, withinAt (ofBits bits).place) := by
  -- finite floats have places between the infinities, undefined ones beyond them
  cases found : ofBits bits with
  | finite negative m e =>
    have canonical := isCanonical_of_ofBits found
    obtain ⟨above, below⟩ := canonical.place_between (signOf negative)
    rw [place, isNegative, rank, kindAt, if_neg above.not_gt, if_neg above.ne', if_pos below,
      withinAt, if_neg above.not_ge, if_pos below, ← toRat_eq_valueAt canonical]
    rfl
  | infinite negative =>
    have positive : (0 : ℤ) < infiniteRank := by decide
    rw [place, isNegative, rank]
    cases negative with
    | false =>
      simp only [signOf, Sign.apply]
      rw [kindAt, if_neg (by omega), if_neg (by omega), if_neg (lt_irrefl _), if_pos rfl,
        withinAt, if_neg (by omega), if_neg (lt_irrefl _), Int.cast_natCast, sub_self]
      rfl
    | true =>
      simp only [signOf, Sign.apply]
      rw [kindAt, if_neg (lt_irrefl _), if_pos rfl, withinAt, if_pos le_rfl, Int.cast_neg,
        Int.cast_natCast, neg_add_cancel]
      rfl
  | notANumber negative fraction =>
    have nonzero := fraction_pos_of_ofBits found
    rw [place, isNegative, rank]
    cases negative with
    | false =>
      simp only [signOf, Sign.apply]
      rw [kindAt, if_neg (by omega), if_neg (by omega), if_neg (by omega), if_neg (by omega),
        withinAt, if_neg (by omega), if_neg (by omega), Int.cast_natCast, Nat.cast_add,
        add_sub_cancel_left]
      rfl
    | true =>
      simp only [signOf, Sign.apply]
      rw [kindAt, if_pos (by omega), withinAt, if_pos (by omega), Int.cast_neg,
        Int.cast_natCast, Nat.cast_add, neg_add_rev, neg_add_cancel_right]
      rfl

/-- Values are ordered by their places. -/
theorem order_ofBinary64 (a b : ℕ) :
    (Value.ofBinary64 (ofBits a)).order (.ofBinary64 (ofBits b)) =
      compare (ofBits a).place (ofBits b).place := by
  have grows : StrictMono fun k : ℤ => toLex (kindAt k, withinAt k) := by
    intro k l less
    rw [Prod.Lex.toLex_lt_toLex]
    rcases (kindAt_le less.le).lt_or_eq with kinds | same
    · exact .inl kinds
    · exact .inr ⟨same, withinAt_lt less same⟩
  rw [Value.order_eq_lex, point_ofBinary64, point_ofBinary64, ← cmp_eq_compare,
    ← grows.cmp_map_eq, cmp_eq_compare, Prod.Lex.compare_def]
  rfl

/-! ### The comparison of floats -/

/-- The place of a float. -/
def placeOf : UnpackedFloat → ℤ
  | .infinity sign => sign.apply infiniteRank
  | .finite sign m e _ => sign.apply (finiteRank m e)
  | _ => 0

/-- Floats that a pattern can stand for, those that are not numbers apart. -/
def IsOrdered : UnpackedFloat → Prop
  | .notANumber => False
  | .finite _ m e _ => IsCanonical m e
  | _ => True

theorem compare_of_lt {k l : ℤ} (h : k < l) : some Ordering.lt = some (compare k l) :=
  congrArg some (compare_lt_iff_lt.2 h).symm

theorem compare_of_gt {k l : ℤ} (h : l < k) : some Ordering.gt = some (compare k l) :=
  congrArg some (compare_gt_iff_gt.2 h).symm

theorem finiteRank_pos (positive : 0 < m) : (0 : ℤ) < finiteRank m e :=
  Nat.cast_pos.2 (Nat.add_pos_right _ positive)

/-- Canonical magnitudes and exponents are ordered by the exponents first. -/
theorem IsCanonical.compare_finiteRank (hm : IsCanonical m e) (hn : IsCanonical n f) :
    (compare e f).then (compare m n) = compare (finiteRank m e : ℤ) (finiteRank n f) := by
  obtain ⟨ltM, leastM, -, leadingM⟩ := hm
  obtain ⟨ltN, leastN, -, leadingN⟩ := hn
  rw [finiteRank, finiteRank]
  rcases lt_trichotomy e f with less | rfl | greater
  · rw [compare_lt_iff_lt.2 less]
    exact (compare_lt_iff_lt.2 (by omega)).symm
  · rw [compare_eq_iff_eq.2 rfl]
    exact compare_congr (fun _ => by omega) (fun _ => by omega) (fun _ => by omega)
  · rw [compare_gt_iff_gt.2 greater]
    exact (compare_gt_iff_gt.2 (by omega)).symm

theorem compare_neg (k l : ℤ) : compare (-k) (-l) = (compare k l).swap := by
  rw [← cmp_eq_compare, ← cmp_eq_compare, cmp_swap]
  exact StrictAnti.cmp_map_eq (fun _ _ => neg_lt_neg) k l

/-- Floats are compared by their places. -/
theorem compare_eq_compare_placeOf {x y : UnpackedFloat} (hx : IsOrdered x) (hy : IsOrdered y) :
    UnpackedFloat.compare x y = some (compare (placeOf x) (placeOf y)) := by
  -- both zeros have the place zero, and among finite floats of one sign the ranks decide
  cases x with
  | notANumber => cases hx
  | infinity sign =>
    cases y with
    | notANumber => cases hy
    | infinity sign' => cases sign <;> cases sign' <;> rfl
    | zero sign' => cases sign <;> rfl
    | finite sign' n f positive =>
      obtain ⟨above, below⟩ := IsCanonical.place_between hy sign'
      cases sign with
      | negative => exact compare_of_lt above
      | positive => exact compare_of_gt below
  | zero sign =>
    cases y with
    | notANumber => cases hy
    | infinity sign' => cases sign' <;> rfl
    | zero sign' => rfl
    | finite sign' n f positive =>
      cases sign' with
      | negative => exact compare_of_gt (neg_neg_of_pos (finiteRank_pos positive))
      | positive => exact compare_of_lt (finiteRank_pos positive)
  | finite sign m e positive =>
    cases y with
    | notANumber => cases hy
    | infinity sign' =>
      obtain ⟨above, below⟩ := IsCanonical.place_between hx sign
      cases sign' with
      | negative => cases sign <;> exact compare_of_gt above
      | positive => cases sign <;> exact compare_of_lt below
    | zero sign' =>
      cases sign with
      | negative => exact compare_of_lt (neg_neg_of_pos (finiteRank_pos positive))
      | positive => exact compare_of_gt (finiteRank_pos positive)
    | finite sign' n f positive' =>
      have left := @finiteRank_pos m e positive
      have right := @finiteRank_pos n f positive'
      have ranks := IsCanonical.compare_finiteRank hx hy
      cases sign with
      | negative =>
        cases sign' with
        | negative => exact congrArg some ((congrArg _ ranks).trans (compare_neg _ _).symm)
        | positive => exact compare_of_lt ((neg_neg_of_pos left).trans right)
      | positive =>
        cases sign' with
        | negative => exact compare_of_gt ((neg_neg_of_pos right).trans left)
        | positive => exact congrArg some ranks

theorem isOrdered_unpacked (defined : (Value.ofBinary64 (ofBits bits)).isDefined) :
    IsOrdered (ofBits bits).unpacked := by
  cases found : ofBits bits with
  | finite negative m e =>
    rcases m.eq_zero_or_pos with rfl | nonzero
    · have zero : (finite negative 0 e).unpacked = .zero (signOf negative) := rfl
      rw [zero]
      trivial
    · rw [unpacked_finite nonzero]
      exact isCanonical_of_ofBits found
  | infinite negative => trivial
  | notANumber negative fraction =>
    rw [found] at defined
    cases defined

theorem placeOf_unpacked (defined : (Value.ofBinary64 (ofBits bits)).isDefined) :
    placeOf (ofBits bits).unpacked = (ofBits bits).place := by
  cases found : ofBits bits with
  | finite negative m e =>
    rcases m.eq_zero_or_pos with rfl | nonzero
    · have subnormal := (isCanonical_of_ofBits found).leading.resolve_left (by decide)
      subst subnormal
      cases negative <;> rfl
    · rw [unpacked_finite nonzero]
      rfl
  | infinite negative => rfl
  | notANumber negative fraction =>
    rw [found] at defined
    cases defined

theorem unpacked_eq_notANumber (undefined : ¬ (Value.ofBinary64 (ofBits bits)).isDefined) :
    (ofBits bits).unpacked = .notANumber := by
  cases found : ofBits bits with
  | finite negative m e =>
    rw [found] at undefined
    exact absurd rfl undefined
  | infinite negative =>
    rw [found] at undefined
    cases negative <;> exact absurd rfl undefined
  | notANumber negative fraction => rfl

/-- Patterns are compared by their places as floats, unless one is not a number. -/
theorem compare_unpacked (a b : ℕ) :
    UnpackedFloat.compare (ofBits a).unpacked (ofBits b).unpacked =
      if (Value.ofBinary64 (ofBits a)).isDefined ∧ (Value.ofBinary64 (ofBits b)).isDefined then
        some (compare (ofBits a).place (ofBits b).place)
      else none := by
  split
  · next defined =>
    rw [compare_eq_compare_placeOf (isOrdered_unpacked defined.1) (isOrdered_unpacked defined.2),
      placeOf_unpacked defined.1, placeOf_unpacked defined.2]
  · next undefined =>
    rcases not_and_or.1 undefined with left | right
    · rw [unpacked_eq_notANumber left]
      rfl
    · rw [unpacked_eq_notANumber right]
      cases (ofBits a).unpacked <;> rfl

end Binary64

end InequalityChaining

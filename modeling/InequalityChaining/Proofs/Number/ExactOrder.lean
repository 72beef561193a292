import Mathlib.Algebra.Order.Field.Power
import Mathlib.Algebra.Order.Field.Rat
import Mathlib.Data.Int.Cast.Lemmas
import Mathlib.Data.Rat.Cast.Order
import InequalityChaining.Number.Basic

/-!
# The order of exact values

A scaled integer denotes a rational number. Writing two of them over a common exponent loses
nothing, so their order is that of the rationals. Every value is a point: its kind, and within the
kind a rational number. Points are ordered lexicographically and so are numbers, which makes their
order total. Two numbers are equal exactly if both are defined and stand at the same point, so
equality is symmetric and transitive, and reflexive where a number is defined.

## Main definitions

* `ScaledInt.toRat` — the rational number that a scaled integer denotes
* `Number.Value.point` — a value's kind and its place within the kind

## Main results

* `ScaledInt.order_eq_compare` — the order is that of the rationals
* `Number.Value.order_eq_lex` — the order of values is that of their points
* `Number.beq_iff` — equality of numbers is equality of defined points
* `Number.beq_symm`, `Number.beq_trans` — its laws
* `Number.int_beq_int` — integers are equal only to themselves
-/

namespace InequalityChaining

/-- Two comparisons agree if each outcome of the first entails the same of the second. -/
theorem compare_congr {α β : Type*} [LinearOrder α] [LinearOrder β] {a b : α} {c d : β}
    (lt : a < b → c < d) (eq : a = b → c = d) (gt : b < a → d < c) :
    compare a b = compare c d := by
  rcases lt_trichotomy a b with less | same | greater
  · rw [compare_lt_iff_lt.2 less, compare_lt_iff_lt.2 (lt less)]
  · rw [compare_eq_iff_eq.2 same, compare_eq_iff_eq.2 (eq same)]
  · rw [compare_gt_iff_gt.2 greater, compare_gt_iff_gt.2 (gt greater)]

namespace ScaledInt

/-- The rational number that a scaled integer denotes. -/
def toRat (x : ScaledInt) : ℚ := x.mantissa * 2 ^ x.exponent

@[simp] theorem toRat_ofInt (i : Int) : (ofInt i).toRat = i := by
  simp [toRat, ofInt]

/-- The absolute value of what a sign and a magnitude denote. -/
theorem abs_toRat (negative : Bool) (m : ℕ) (e : ℤ) :
    |toRat ⟨if negative then -(m : ℤ) else m, e⟩| = m * 2 ^ e := by
  rw [toRat, abs_mul, abs_of_pos (zpow_pos (two_pos : (0 : ℚ) < 2) e)]
  cases negative
  · simp
  · simp

/-- Over an exponent that is not larger the mantissa is exact. -/
theorem toRat_eq_rescale (x : ScaledInt) {e : Int} (h : e ≤ x.exponent) :
    x.toRat = x.rescale e * 2 ^ e := by
  have split : (2 : ℚ) ^ x.exponent = 2 ^ (x.exponent - e).toNat * 2 ^ e := by
    rw [← zpow_natCast, ← zpow_add₀ two_ne_zero]
    congr 1
    omega
  have power : ((Int.pow 2 (x.exponent - e).toNat : Int) : ℚ) = 2 ^ (x.exponent - e).toNat :=
    Int.cast_pow (R := ℚ) 2 _
  rw [toRat, rescale, Int.cast_mul, split, power, mul_assoc]

/-- Scaled integers are ordered as the rational numbers that they denote. -/
theorem order_eq_compare (x y : ScaledInt) : x.order y = compare x.toRat y.toRat := by
  have positive : (0 : ℚ) < 2 ^ min x.exponent y.exponent := zpow_pos two_pos _
  -- both mantissas over the smaller exponent are multiples of the same positive number
  have common : ∀ a b : Int, compare a b =
      compare ((a : ℚ) * 2 ^ min x.exponent y.exponent) (b * 2 ^ min x.exponent y.exponent) := by
    intro a b
    have grows : ∀ {m n : Int}, m < n →
        (m : ℚ) * 2 ^ min x.exponent y.exponent < n * 2 ^ min x.exponent y.exponent :=
      fun less => mul_lt_mul_of_pos_right (Int.cast_lt.2 less) positive
    exact compare_congr grows (fun same => by rw [same]) grows
  rw [order, common, ← toRat_eq_rescale x (min_le_left _ _),
    ← toRat_eq_rescale y (min_le_right _ _)]

end ScaledInt

namespace Number

namespace Value

/-- A value's position among the kinds and its place within the kind: the rational number that it
denotes, or how far an undefined value lies from the ends of the line. -/
def point : Value → Nat × ℚ
  | finite x => (2, x.toRat)
  | undefined true fraction => (0, -fraction)
  | undefined false fraction => (4, fraction)
  | v => (v.rank, 0)

/-- Values are ordered by their points, the kind first. -/
theorem order_eq_lex (v w : Value) :
    v.order w = compareLex (compareOn Prod.fst) (compareOn Prod.snd) v.point w.point := by
  have outwards : ∀ m n : Nat, compare (m : ℚ) n = compare m n := by
    intro m n
    rw [← cmp_eq_compare, ← cmp_eq_compare]
    exact (Nat.strictMono_cast (α := ℚ)).cmp_map_eq m n
  have inwards : ∀ m n : Nat, compare (-m : ℚ) (-n) = compare n m := by
    intro m n
    rw [← outwards, ← cmp_eq_compare, ← cmp_eq_compare]
    exact StrictAnti.cmp_map_eq (fun _ _ => neg_lt_neg) (m : ℚ) n
  -- values of different kinds are ordered by their kinds, whatever their places are
  cases v with
  | finite x =>
    cases w with
    | finite y => simp [order, point, compareLex, compareOn, ScaledInt.order_eq_compare]
    | undefined negative n => cases negative <;> rfl
    | _ => rfl
  | undefined negative m =>
    cases w with
    | undefined negative' n =>
      match negative, negative' with
      | true, true => simp [order, point, compareLex, compareOn, inwards]
      | false, false => simp [order, point, compareLex, compareOn, outwards]
      | true, false => rfl
      | false, true => rfl
    | _ => cases negative <;> rfl
  | _ =>
    cases w with
    | undefined negative n => cases negative <;> rfl
    | _ => rfl

instance : Std.TransCmp order where
  eq_swap {v w} := by
    rw [order_eq_lex, order_eq_lex w v]
    exact Std.OrientedCmp.eq_swap
  isLE_trans {u v w} huv hvw := by
    rw [order_eq_lex] at huv hvw ⊢
    exact Std.TransCmp.isLE_trans huv hvw

theorem order_eq_iff (v w : Value) : v.order w = .eq ↔ v.point = w.point := by
  rw [order_eq_lex, compareLex_eq_eq, compareOn, compareOn, compare_eq_iff_eq, compare_eq_iff_eq,
    Prod.ext_iff]

end Value

variable {a b c : Number}

/-- The order of numbers is total. -/
instance : Std.TransCmp order where
  eq_swap {a b} :=
    have swap : a.value.order b.value = (b.value.order a.value).swap := Std.OrientedCmp.eq_swap
    swap
  isLE_trans {a _ c} hab hbc :=
    have trans : (a.value.order c.value).isLE := Std.TransCmp.isLE_trans hab hbc
    trans

/-- Defined numbers are equal where the order does not tell them apart. -/
theorem beq_iff_order (h : a.isDefined) : a == b ↔ a.order b = .eq := by
  change (a.isDefined && a.order b == .eq) = true ↔ _
  rw [h, Bool.true_and, beq_iff_eq]

/-- Two numbers are equal if they are defined and stand at the same point. -/
theorem beq_iff : a == b ↔ a.isDefined ∧ a.value.point = b.value.point := by
  rw [← Value.order_eq_iff, ← beq_iff_eq (a := a.value.order b.value), ← Bool.and_eq_true]
  rfl

/-- A point tells whether a value is defined. -/
theorem isDefined_congr (h : a.value.point = b.value.point) : a.isDefined = b.isDefined := by
  have defined : ∀ v : Value, v.isDefined = (v.point.1 != 0 && v.point.1 != 4) := by
    intro v
    cases v with
    | undefined negative fraction => cases negative <;> rfl
    | _ => rfl
  rw [isDefined, isDefined, defined, defined, h]

theorem beq_self_iff : a == a ↔ a.isDefined := by
  simp [beq_iff]

theorem beq_symm (h : a == b) : b == a := by
  obtain ⟨defined, same⟩ := beq_iff.1 h
  exact beq_iff.2 ⟨isDefined_congr same ▸ defined, same.symm⟩

theorem beq_trans (hab : a == b) (hbc : b == c) : a == c := by
  obtain ⟨defined, sameLeft⟩ := beq_iff.1 hab
  exact beq_iff.2 ⟨defined, sameLeft.trans (beq_iff.1 hbc).2⟩

@[simp] theorem isDefined_int (i : Int64) : (int i).isDefined = true := rfl

/-- Integers are equal only to themselves. -/
@[simp] theorem int_beq_int {i j : Int64} : (int i == int j) = true ↔ i = j := by
  rw [beq_iff]
  simp [value, Value.point, Int64.toInt_inj]

end Number

end InequalityChaining

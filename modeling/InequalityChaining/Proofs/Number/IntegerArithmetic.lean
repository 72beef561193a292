import Mathlib.Algebra.Order.Ring.Int
import Mathlib.Algebra.Ring.Parity
import InequalityChaining.Number.Arithmetic
import InequalityChaining.Proofs.Number.ExactOrder

/-!
# Exact arithmetic of integers

The operations on two integers are exact as long as the result is no larger than the largest
integer of 64 bits. For powers this includes exponents beyond 63: a power that is not too large
then has a base of magnitude at most one, whose powers depend on the parity of the exponent alone.

## Main results

* `Number.add_int`, `Number.sub_int`, `Number.mul_int` — sums, differences and products
* `Number.pow_int` — powers with a positive exponent below the bound on exponents
* `Number.exact_of_add`, `Number.exact_of_sub`, `Number.exact_of_mul` — only exact results are
  integers
-/

namespace InequalityChaining

namespace Number

theorem exists_int64?_eq_some {i : ℤ} (h : i.natAbs ≤ 2 ^ 63 - 1) :
    ∃ k, int64? i = some k ∧ k.toInt = i := by
  have lower : -2 ^ 63 ≤ i := by omega
  have upper : i < 2 ^ 63 := by omega
  refine ⟨.ofInt i, ?_, Int64.toInt_ofInt_of_le lower upper⟩
  rw [int64?, if_pos]
  rw [Int64.toInt_minValue, Int64.toInt_maxValue]
  omega

section Operations

variable {i j : Int64}

theorem add_int (h : (i.toInt + j.toInt).natAbs ≤ 2 ^ 63 - 1) :
    ∃ k, add (int i) (int j) = .ok (int k) ∧ k.toInt = i.toInt + j.toInt := by
  obtain ⟨k, fits, value⟩ := exists_int64?_eq_some h
  exact ⟨k, by simp only [add, fits], value⟩

theorem sub_int (h : (i.toInt - j.toInt).natAbs ≤ 2 ^ 63 - 1) :
    ∃ k, sub (int i) (int j) = .ok (int k) ∧ k.toInt = i.toInt - j.toInt := by
  obtain ⟨k, fits, value⟩ := exists_int64?_eq_some h
  exact ⟨k, by simp only [sub, fits], value⟩

theorem mul_int (h : (i.toInt * j.toInt).natAbs ≤ 2 ^ 63 - 1) :
    ∃ k, mul (int i) (int j) = .ok (int k) ∧ k.toInt = i.toInt * j.toInt := by
  obtain ⟨k, fits, value⟩ := exists_int64?_eq_some h
  exact ⟨k, by simp only [mul, fits], value⟩

/-- The powers of `0`, `1` and `-1` alternate. -/
theorem pow_two_sub_mod_two {i : ℤ} (small : i.natAbs ≤ 1) {n : ℕ} (positive : 1 ≤ n) :
    i ^ (2 - n % 2) = i ^ n := by
  have cases : i = 0 ∨ i = 1 ∨ i = -1 := by omega
  rcases cases with rfl | rfl | rfl
  · rw [zero_pow (by omega), zero_pow (by omega)]
  · rw [one_pow, one_pow]
  · rcases Nat.even_or_odd n with even | odd
    · rw [Nat.even_iff.1 even, even.neg_one_pow]
      rfl
    · rw [Nat.odd_iff.1 odd, odd.neg_one_pow]
      rfl

theorem intPow?_eq_some {n : ℕ} (positive : 1 ≤ n) (h : (i.toInt ^ n).natAbs ≤ 2 ^ 63 - 1) :
    ∃ k, intPow? i n = some k ∧ k.toInt = i.toInt ^ n := by
  obtain ⟨k, fits, value⟩ := exists_int64?_eq_some h
  refine ⟨k, ?_, value⟩
  rw [intPow?]
  split
  · exact fits
  · next large =>
    -- a base of magnitude two or more would have a power that is too large
    have small : i.toInt.natAbs ≤ 1 := by
      by_contra notSmall
      have : 2 ^ 64 ≤ i.toInt.natAbs ^ n :=
        calc 2 ^ 64 ≤ 2 ^ n := Nat.pow_le_pow_right (by omega) (by omega)
          _ ≤ i.toInt.natAbs ^ n := Nat.pow_le_pow_left (by omega) n
      rw [Int.natAbs_pow] at h
      omega
    rw [if_pos small]
    exact (congrArg int64? (pow_two_sub_mod_two small positive)).trans fits

theorem pow_int (positive : 1 ≤ j.toInt) (small : j.toInt < 2 ^ 32)
    (h : (i.toInt ^ j.toInt.toNat).natAbs ≤ 2 ^ 63 - 1) :
    ∃ k, pow (int i) (int j) = .ok (int k) ∧ k.toInt = i.toInt ^ j.toInt.toNat := by
  obtain ⟨k, fits, value⟩ := intPow?_eq_some (by omega) h
  refine ⟨k, ?_, value⟩
  have exponentBounds : 0 ≤ j.toInt ∧ j.toInt < exponentBound := ⟨by omega, small⟩
  have notZero : (int j).isZero = false := by
    refine Bool.eq_false_iff.2 fun zero => ?_
    rw [int_beq_int.1 zero] at positive
    exact absurd positive (by decide)
  rw [pow, notZero, Bool.and_false, if_neg Bool.false_ne_true]
  simp only [if_pos exponentBounds, fits]

end Operations

section Exactness

variable {a b : Number} {k : Int64}

theorem toInt_of_int64?_eq_some {i : ℤ} (h : int64? i = some k) : k.toInt = i := by
  rw [int64?] at h
  split at h
  · next fits =>
    rw [Int64.toInt_minValue, Int64.toInt_maxValue] at fits
    rw [← Option.some.inj h]
    exact Int64.toInt_ofInt_of_le fits.1 (Int.lt_of_le_sub_one fits.2)
  · cases h

theorem ofFloat_ne_int (x : Float) : ofFloat x ≠ .ok (int k) := by
  rw [ofFloat]
  split <;> simp

/-- Where the result is an integer, it is the exact one. -/
theorem toInt_of_int64?_or_float {i : ℤ} {x : Float}
    (h : (match int64? i with
      | some result => .ok (int result)
      | none => ofFloat x) = Except.ok (int k)) : k.toInt = i := by
  split at h
  · next found =>
    cases h
    exact toInt_of_int64?_eq_some found
  · exact absurd h (ofFloat_ne_int x)

theorem exact_of_add (h : add a b = .ok (int k)) :
    ∃ i j, a = int i ∧ b = int j ∧ k.toInt = i.toInt + j.toInt := by
  cases a with
  | int i =>
    cases b with
    | int j => exact ⟨i, j, rfl, rfl, toInt_of_int64?_or_float h⟩
    | real y => exact absurd h (ofFloat_ne_int _)
  | real x => exact absurd h (ofFloat_ne_int _)

theorem exact_of_sub (h : sub a b = .ok (int k)) :
    ∃ i j, a = int i ∧ b = int j ∧ k.toInt = i.toInt - j.toInt := by
  cases a with
  | int i =>
    cases b with
    | int j => exact ⟨i, j, rfl, rfl, toInt_of_int64?_or_float h⟩
    | real y => exact absurd h (ofFloat_ne_int _)
  | real x => exact absurd h (ofFloat_ne_int _)

theorem exact_of_mul (h : mul a b = .ok (int k)) :
    ∃ i j, a = int i ∧ b = int j ∧ k.toInt = i.toInt * j.toInt := by
  cases a with
  | int i =>
    cases b with
    | int j => exact ⟨i, j, rfl, rfl, toInt_of_int64?_or_float h⟩
    | real y => exact absurd h (ofFloat_ne_int _)
  | real x => exact absurd h (ofFloat_ne_int _)

end Exactness

end Number

end InequalityChaining

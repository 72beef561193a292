import InequalityChaining.Evaluation
import InequalityChaining.Proofs.Number.IntegerArithmetic
import InequalityChaining.Proofs.Outcome
import InequalityChaining.Proofs.Polynomial.Basic

/-!
# Exact evaluation of polynomials

A polynomial without variables that is bounded has an integer as its value, and evaluation finds
it: whatever is computed on the way is no larger in magnitude than the bound, so no operation
leaves the integers of 64 bits. A sum or product is computed from the left; together with what is
still to be added or multiplied, the magnitude of an intermediate result is within the bound.

## Main definitions

* `Term.IsBounded` — polynomials with a magnitude and a degree for which computing is exact
* `Term.EvaluatesExactly` — evaluation gives the integer value

## Main results

* `Term.IsBounded.evaluatesExactly` — bounded polynomials without variables do
* `Term.integerValue_of_evaluate` — without powers, nothing but the exact value is an integer
-/

namespace InequalityChaining

/-- Both operations are exact on integers whose result is in range. -/
theorem Variadic.apply_int (op : Variadic) {i j : Int64}
    (h : (op.join i.toInt j.toInt).natAbs ≤ 2 ^ 63 - 1) :
    ∃ k, op.apply (.int i) (.int j) = .ok (.int k) ∧ k.toInt = op.join i.toInt j.toInt := by
  cases op with
  | sum => exact Number.add_int h
  | product => exact Number.mul_int h

/-- Where one of them gives an integer, its operands are integers and it is exact. -/
theorem Variadic.exact_of_apply (op : Variadic) {a b : Number} {k : Int64}
    (h : op.apply a b = .ok (.int k)) :
    ∃ i j, a = .int i ∧ b = .int j ∧ k.toInt = op.join i.toInt j.toInt := by
  cases op with
  | sum => exact Number.exact_of_add h
  | product => exact Number.exact_of_mul h

namespace Term

/-- A polynomial with whose values 64-bit integers are exact, also in powers. -/
structure IsBounded (t : Term) : Prop where
  polynomial : PolynomialOver IsExponent t
  magnitude : t.magnitude ≤ 2 ^ 63 - 1
  degree : t.degree ≤ 2 ^ 32 - 1

/-- Evaluation gives the integer value. -/
def EvaluatesExactly (t : Term) : Prop :=
  ∃ v : Int64, t.evaluate = .ok (.int v) ∧ v.toInt = t.integerValue

section Bounded

variable {op : Variadic} {ts : List Term} {l r b e t : Term}

/-- A polynomial is no larger than a sum or product that it is an operand of. -/
theorem magnitude_le_joinAll (op : Variadic) (mem : t ∈ ts) :
    t.magnitude ≤ op.joinAll (ts.map magnitude) := by
  cases op with
  | sum => exact List.single_le_sum (by simp) _ (List.mem_map_of_mem mem)
  | product =>
    refine List.single_le_prod ?_ _ (List.mem_map_of_mem mem)
    rintro _ h
    obtain ⟨u, -, rfl⟩ := List.mem_map.1 h
    exact u.one_le_magnitude

theorem IsBounded.operand (h : (variadic op ts).IsBounded) (mem : t ∈ ts) : t.IsBounded where
  polynomial := polynomialOver_variadic.1 h.polynomial t mem
  magnitude := by
    refine (magnitude_le_joinAll op mem).trans (le_trans ?_ h.magnitude)
    rw [Term.magnitude, magnitudes_eq_map]
    exact le_max_right _ _
  degree := (degree_le_maxDegree mem).trans h.degree

theorem IsBounded.left (h : (difference l r).IsBounded) : l.IsBounded where
  polynomial := (polynomialOver_difference.1 h.polynomial).1
  magnitude := by
    refine le_trans ?_ h.magnitude
    rw [Term.magnitude]
    omega
  degree := (le_max_left _ _).trans h.degree

theorem IsBounded.right (h : (difference l r).IsBounded) : r.IsBounded where
  polynomial := (polynomialOver_difference.1 h.polynomial).2
  magnitude := by
    refine le_trans ?_ h.magnitude
    rw [Term.magnitude]
    omega
  degree := (le_max_right _ _).trans h.degree

theorem IsBounded.isExponent (h : (power b e).IsBounded) : IsExponent e :=
  (polynomialOver_power.1 h.polynomial).2

theorem IsBounded.exponentValue_le (h : (power b e).IsBounded) :
    e.exponentValue ≤ 2 ^ 32 - 1 := by
  have base := one_le_degree (polynomialOver_power.1 h.polynomial).1
  exact (Nat.le_mul_of_pos_right _ base).trans h.degree

theorem IsBounded.base (h : (power b e).IsBounded) : b.IsBounded := by
  have exponent := one_le_exponentValue h.isExponent
  refine ⟨(polynomialOver_power.1 h.polynomial).1, ?_, ?_⟩
  · exact (Nat.le_self_pow (by omega) _).trans h.magnitude
  · exact (Nat.le_mul_of_pos_left _ exponent).trans h.degree

/-- An exponent is bounded because the degree is. -/
theorem IsBounded.exponent (h : (power b e).IsBounded) : e.IsBounded where
  polynomial := h.isExponent.polynomialOver
  magnitude := by
    have := h.exponentValue_le
    rw [magnitude_of_isExponent h.isExponent]
    omega
  degree := by
    rw [degree_of_isExponent h.isExponent]
    omega

/-! ### Sums and products -/

/-- What is computed from the left is the value of all, if what has been computed and what is left
to do are bounded together. -/
theorem evaluateFrom_of_bounded (op : Variadic) (h : ∀ t ∈ ts, t.EvaluatesExactly) (a : Int64)
    (bound : op.join a.toInt.natAbs (op.joinAll (ts.map magnitude)) ≤ 2 ^ 63 - 1) :
    ∃ v : Int64, evaluateFrom op (.int a) ts = .ok (.int v) ∧
      v.toInt = op.join a.toInt (op.joinAll (ts.map integerValue)) := by
  induction ts generalizing a with
  | nil =>
    refine ⟨a, rfl, ?_⟩
    cases op <;> simp [Variadic.join, Variadic.joinAll]
  | cons t ts ih =>
    obtain ⟨b, evaluated, value⟩ := h t List.mem_cons_self
    rw [List.map_cons, Variadic.joinAll_cons, ← Variadic.join_assoc] at bound
    -- the next result is within the bound, because nothing that is left makes it smaller
    have step : (op.join a.toInt b.toInt).natAbs ≤ op.join a.toInt.natAbs t.magnitude := by
      refine (op.natAbs_join_le _ _).trans (op.join_le_join le_rfl ?_)
      exact value ▸ t.natAbs_integerValue_le
    have rest := op.le_join_joinAll (op.join a.toInt.natAbs t.magnitude) ts one_le_magnitude
    obtain ⟨c, applied, sofar⟩ := op.apply_int (step.trans (rest.trans bound))
    obtain ⟨v, done, total⟩ := ih (fun u mem => h u (List.mem_cons_of_mem t mem)) c
      ((op.join_le_join (sofar ▸ step) le_rfl).trans bound)
    refine ⟨v, ?_, ?_⟩
    · rw [evaluateFrom, evaluated]
      change (op.apply (.int a) (.int b) >>= fun c => evaluateFrom op c ts) = _
      rw [applied]
      exact done
    · rw [total, sofar, value, List.map_cons, Variadic.joinAll_cons, Variadic.join_assoc]

theorem evaluatesExactly_variadic (h : ∀ t ∈ ts, t.EvaluatesExactly)
    (bound : (variadic op ts).magnitude ≤ 2 ^ 63 - 1) :
    (variadic op ts).EvaluatesExactly := by
  rw [magnitude, magnitudes_eq_map, max_le_iff] at bound
  unfold EvaluatesExactly
  rw [evaluate, integerValue_variadic]
  cases op with
  | sum =>
    obtain ⟨v, evaluated, value⟩ := evaluateFrom_of_bounded .sum h 0
      (by simpa [Variadic.join] using bound.2)
    refine ⟨v, evaluated, ?_⟩
    simpa [Variadic.join] using value
  | product =>
    obtain ⟨v, evaluated, value⟩ := evaluateFrom_of_bounded .product h 1
      (by simpa [Variadic.join] using bound.2)
    refine ⟨v, evaluated, ?_⟩
    simpa [Variadic.join] using value

/-! ### The theorem -/

theorem evaluate_binary_of_eq {op : Binary} {a c : Number} (hl : l.evaluate = .ok a)
    (hr : r.evaluate = .ok c) : (binary op l r).evaluate = op.apply a c := by
  rw [evaluate, hl, hr]
  rfl

/-- A bounded polynomial without variables is evaluated exactly. -/
theorem IsBounded.evaluatesExactly (h : t.IsBounded) (constant : t.isConstant) :
    t.EvaluatesExactly := by
  induction t using Term.induction with
  | constant value =>
    obtain ⟨i, rfl⟩ := h.polynomial.exists_int (mem_subterms_self _)
    refine ⟨i, rfl, ?_⟩
    simp [integerValue, valueIn]
  | var name => simp at constant
  | placeholder name kind => simp at constant
  | variadic op ts ih =>
    refine evaluatesExactly_variadic (fun t mem => ?_) h.magnitude
    exact ih t mem (h.operand mem) (isConstant_variadic.1 constant t mem)
  | binary op l r ihl ihr =>
    obtain ⟨constantLeft, constantRight⟩ := isConstant_binary.1 constant
    have bound := natAbs_integerValue_le (binary op l r)
    cases op with
    | difference =>
      obtain ⟨i, evaluatedLeft, valueLeft⟩ := ihl h.left constantLeft
      obtain ⟨j, evaluatedRight, valueRight⟩ := ihr h.right constantRight
      have value : (difference l r).integerValue = i.toInt - j.toInt := by
        rw [valueLeft, valueRight]
        rfl
      obtain ⟨k, applied, result⟩ := Number.sub_int (value ▸ bound.trans h.magnitude)
      refine ⟨k, ?_, result.trans value.symm⟩
      rw [evaluate_binary_of_eq evaluatedLeft evaluatedRight]
      exact applied
    | power =>
      obtain ⟨i, evaluatedLeft, valueLeft⟩ := ihl h.base constantLeft
      obtain ⟨n, evaluatedRight, valueRight⟩ := ihr h.exponent constantRight
      -- the exponent is positive, and small because the degree is
      rw [integerValue_of_isExponent h.isExponent] at valueRight
      have positive := one_le_exponentValue h.isExponent
      have small := h.exponentValue_le
      have exponent : n.toInt.toNat = r.exponentValue := by omega
      have value : (power l r).integerValue = i.toInt ^ n.toInt.toNat := by
        rw [valueLeft, exponent]
        rfl
      obtain ⟨k, applied, result⟩ := Number.pow_int (by omega) (by omega)
        (value ▸ bound.trans h.magnitude)
      refine ⟨k, ?_, result.trans value.symm⟩
      rw [evaluate_binary_of_eq evaluatedLeft evaluatedRight]
      exact applied
    -- there are no quotients and no roots in a polynomial
    | quotient => cases h.polynomial
    | root => cases h.polynomial

end Bounded

/-! ### Integers as results -/

section Exactness

variable {op : Variadic} {ts : List Term} {t : Term} {a : Number} {v : Int64}

/-- Integers on the way are exact if the last one is there at all. -/
theorem exact_of_evaluateFrom
    (exact : ∀ t ∈ ts, ∀ i, t.evaluate = .ok (.int i) → i.toInt = t.integerValue)
    (h : evaluateFrom op a ts = .ok (.int v)) :
    ∃ i, a = .int i ∧ v.toInt = op.join i.toInt (op.joinAll (ts.map integerValue)) := by
  induction ts generalizing a with
  | nil =>
    obtain rfl := Except.ok.inj h
    exact ⟨v, rfl, by cases op <;> simp [Variadic.join, Variadic.joinAll]⟩
  | cons t ts ih =>
    rw [evaluateFrom, bind_eq_ok] at h
    obtain ⟨b, evaluated, h⟩ := h
    obtain ⟨c, applied, h⟩ := bind_eq_ok.1 h
    -- an integer in the end has come about from integers all the way
    obtain ⟨k, rfl, rest⟩ := ih (fun u mem => exact u (List.mem_cons_of_mem t mem)) h
    obtain ⟨i, j, rfl, rfl, step⟩ := op.exact_of_apply applied
    refine ⟨i, rfl, ?_⟩
    rw [rest, step, exact t List.mem_cons_self j evaluated, List.map_cons, Variadic.joinAll_cons,
      Variadic.join_assoc]

/-- Where evaluation without powers gives an integer, this is the exact value. -/
theorem integerValue_of_evaluate (powerFree : IsPowerFree t) (h : t.evaluate = .ok (.int v)) :
    v.toInt = t.integerValue := by
  induction powerFree generalizing v with
  | int i =>
    obtain rfl : i = v := by simpa [evaluate] using h
    simp [integerValue, valueIn]
  | var name => simp [evaluate] at h
  | @variadic op ts _ ih =>
    rw [evaluate] at h
    obtain ⟨i, unit, value⟩ := exact_of_evaluateFrom (fun t mem i => ih t mem) h
    rw [value, integerValue_variadic]
    cases op with
    | sum =>
      obtain rfl := Number.int.inj unit
      exact zero_add _
    | product =>
      obtain rfl := Number.int.inj unit
      exact one_mul _
  | @difference l r _ _ ihl ihr =>
    rw [evaluate, bind_eq_ok] at h
    obtain ⟨a, left, h⟩ := h
    obtain ⟨b, right, h⟩ := bind_eq_ok.1 h
    obtain ⟨i, j, rfl, rfl, value⟩ := Number.exact_of_sub h
    rw [value, ihl left, ihr right]
    rfl
  | power _ impossible => exact impossible.elim

end Exactness

end Term

end InequalityChaining

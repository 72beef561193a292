import Mathlib.Tactic.Ring
import InequalityChaining.Proofs.Polynomial.Evaluation
import InequalityChaining.Proofs.Reduction.StandardStep

/-!
# Reductions of polynomials

Of the standard rules only some apply to a bounded polynomial: there are no reals, quotients and
roots in it, no exponent is zero, and folding its constants is exact and cannot fail. Each of these
rules keeps the value of the polynomial in every commutative ring, and makes neither its magnitude
nor its degree larger, so what follows is a bounded polynomial again.

## Main definitions

* `PolynomialStep` — what the standard rules make of a polynomial at the root
* `Folds` — constants that a standard rule has evaluated

## Main results

* `polynomialStep_of_reduces`, `not_fails_of_isBounded` — there are no other reductions, and no
  errors
* `PolynomialStep.valueIn_eq` — the value stays the same
* `PolynomialStep.magnitude_le`, `PolynomialStep.degree_le` — the bounds are kept
-/

namespace InequalityChaining

open Term Standard

/-- A standard rule applied at the root of a polynomial. -/
inductive PolynomialStep : Term → Term → Prop where
  | empty (op : Variadic) : PolynomialStep (variadic op []) (int op.neutral)
  | singleton (op : Variadic) (t : Term) : PolynomialStep (variadic op [t]) t
  | dropNeutral (op : Variadic) (ts : List Term) : PolynomialStep (variadic op ts)
      (variadic op (ts.filter fun t => !t.isNumber op.neutral))
  | subtractZero (t : Term) : PolynomialStep (difference t (int 0)) t
  | multiplyZero {ts : List Term} (h : int 0 ∈ ts) : PolynomialStep (product ts) (int 0)
  | zeroBase (e : Term) : PolynomialStep (power (int 0) e) (int 0)
  | oneBase (e : Term) : PolynomialStep (power (int 1) e) (int 1)
  | oneExponent (b : Term) : PolynomialStep (power b (int 1)) b
  | fold (op : Variadic) {ts us : List Term} {v : Int64}
      (two : 2 ≤ (ts.filter isConstantNode).length)
      (value : v.toInt = (variadic op (ts.filter isConstantNode)).integerValue)
      (perm : us.Perm (int v :: ts.filter fun t => !isConstantNode t)) :
      PolynomialStep (variadic op ts) (variadic op us)
  | foldBinary {op : Binary} {l r : Term} {v : Int64} (constant : (binary op l r).isConstant)
      (value : v.toInt = (binary op l r).integerValue) : PolynomialStep (binary op l r) (int v)
  | flatten (op : Variadic) (ts : List Term) :
      PolynomialStep (variadic op ts) (variadic op (ts.flatMap (splice op)))
  | pullOut {ts : List Term} (h : ∃ t ∈ ts, (partsOf? .difference t).isSome) :
      PolynomialStep (sum ts) (difference (sum (ts.map (leftPart .difference)))
        (sum (ts.filterMap (rightPart? .difference))))
  | nestedLeft (x y z : Term) :
      PolynomialStep (difference (difference x y) z) (difference x (sum [y, z]))
  | nestedRight (x y z : Term) :
      PolynomialStep (difference x (difference y z)) (difference (sum [x, z]) y)
  | powerOfPower (x y z : Term) :
      PolynomialStep (power (power x y) z) (power x (product [y, z]))

/-! ### The rules that apply -/

section Inversion

variable {t u : Term} {ts : List Term} {op : Variadic} {i : Int64}

/-- A polynomial that passes for an integer is that integer. -/
theorem eq_int_of_isNumber (h : PolynomialOver IsExponent t) (number : t.isNumber i) :
    t = int i := by
  cases t with
  | constant value =>
    obtain ⟨j, rfl⟩ := h.exists_int (mem_subterms_self _)
    rw [Number.int_beq_int.1 number]
  | _ => simp [isNumber] at number

theorem isNumber_eq_false_of_isExponent (h : IsExponent t) : t.isNumber 0 = false := by
  refine Bool.eq_false_iff.2 fun zero => ?_
  obtain rfl := eq_int_of_isNumber h.polynomialOver zero
  cases h with
  | int positive => exact absurd positive (by decide)

theorem isConstant_of_isConstantNode (h : isConstantNode t) : t.isConstant := by
  cases t with
  | constant value => rfl
  | _ => simp [isConstantNode] at h

theorem exists_eq_int_of_isConstantNode (h : PolynomialOver IsExponent t)
    (constant : isConstantNode t) : ∃ i, t = int i := by
  cases t with
  | constant value =>
    obtain ⟨i, rfl⟩ := h.exists_int (mem_subterms_self _)
    exact ⟨i, rfl⟩
  | _ => simp [isConstantNode] at constant

theorem isBounded_filter (h : (variadic op ts).IsBounded) (p : Term → Bool) :
    (variadic op (ts.filter p)).IsBounded where
  polynomial := .variadic op fun t mem => (h.operand (List.mem_filter.1 mem).1).polynomial
  magnitude := by
    refine le_trans ?_ h.magnitude
    rw [magnitude, magnitude, magnitudes_eq_map, magnitudes_eq_map]
    exact max_le_max le_rfl (op.joinAll_filter_le p fun t => t.one_le_magnitude)
  degree := by
    refine le_trans (maxDegree_le_iff.2 ⟨one_le_maxDegree ts, fun t mem => ?_⟩) h.degree
    exact degree_le_maxDegree (List.mem_filter.1 mem).1

/-- The constants among the operands of a bounded polynomial are folded exactly. -/
theorem evaluatesExactly_filter (h : (variadic op ts).IsBounded) :
    (variadic op (ts.filter isConstantNode)).EvaluatesExactly := by
  refine (isBounded_filter h isConstantNode).evaluatesExactly (isConstant_variadic.2 ?_)
  exact fun t mem => isConstant_of_isConstantNode (List.mem_filter.1 mem).2

/-- No product of polynomials has a quotient as an operand. -/
theorem partsOf?_quotient_eq_none (h : PolynomialOver IsExponent t) :
    partsOf? .quotient t = none := by
  cases h <;> simp [partsOf?]

/-- A standard rule has evaluated constants at the root. -/
inductive Folds : Term → Term → Prop where
  | operands {op : Variadic} {ts us : List Term} {v : Number}
      (two : 2 ≤ (ts.filter isConstantNode).length)
      (evaluated : (variadic op (ts.filter isConstantNode)).evaluate = .ok v)
      (perm : us.Perm (constant v :: ts.filter fun t => !isConstantNode t)) :
      Folds (variadic op ts) (variadic op us)
  | whole {op : Binary} {l r : Term} {v : Number} (isConstant : (binary op l r).isConstant)
      (evaluated : (binary op l r).evaluate = .ok v) : Folds (binary op l r) (constant v)

/-- What a standard rule makes of a polynomial is as stated, unless constants are evaluated. -/
theorem polynomialStep_or_folds (polynomial : PolynomialOver IsExponent t) (h : Reduces t u) :
    PolynomialStep t u ∨ Folds t u := by
  cases h with
  | integralReal h => cases polynomial
  | empty op => exact .inl (.empty op)
  | singleton op t => exact .inl (.singleton op u)
  | dropNeutral op h => exact .inl (.dropNeutral op _)
  | neutralRight op h =>
    cases op with
    | sum =>
      obtain rfl := eq_int_of_isNumber (polynomialOver_difference.1 polynomial).2 h
      exact .inl (.subtractZero u)
    | product => cases polynomial
  | multiplyZero h =>
    obtain ⟨z, mem, hz⟩ := h
    obtain rfl := eq_int_of_isNumber (polynomialOver_variadic.1 polynomial z mem) hz
    exact .inl (.multiplyZero mem)
  | divideZero h => cases polynomial
  | zeroBase h =>
    obtain rfl := eq_int_of_isNumber (polynomialOver_power.1 polynomial).1 h
    exact .inl (.zeroBase _)
  | oneBase h =>
    obtain rfl := eq_int_of_isNumber (polynomialOver_power.1 polynomial).1 h
    exact .inl (.oneBase _)
  -- an exponent is positive
  | zeroExponent h =>
    simp [isNumber_eq_false_of_isExponent (polynomialOver_power.1 polynomial).2] at h
  | oneExponent h =>
    obtain rfl := eq_int_of_isNumber (polynomialOver_power.1 polynomial).2.polynomialOver h
    exact .inl (.oneExponent u)
  | rootOfZero h => cases polynomial
  | rootOfOne h => cases polynomial
  | firstRoot h => cases polynomial
  | foldSum two h => exact .inr (.operands two h List.perm_append_comm)
  | foldProduct two h => exact .inr (.operands two h (List.Perm.refl _))
  | foldBinary hl hr h => exact .inr (.whole (isConstant_binary.2 ⟨hl, hr⟩) h)
  | flatten op h => exact .inl (.flatten op _)
  | pullOut op h =>
    cases op with
    | sum => exact .inl (.pullOut h)
    | product =>
      obtain ⟨t, mem, some⟩ := h
      have := partsOf?_quotient_eq_none (polynomialOver_variadic.1 polynomial t mem)
      simp [Variadic.inverse, this] at some
  | nestedLeft op x y z =>
    cases op with
    | sum => exact .inl (.nestedLeft x y z)
    | product => cases polynomial
  | nestedRight op x y z =>
    cases op with
    | sum => exact .inl (.nestedRight x y z)
    | product => cases polynomial
  | powerOfPower x y z => exact .inl (.powerOfPower x y z)
  | powerOfRoot x y z => cases (polynomialOver_power.1 polynomial).1
  | rootOfPower x y z => cases polynomial
  | rootOfRoot x y z => cases polynomial

/-- What a standard rule makes of a bounded polynomial is as stated. -/
theorem polynomialStep_of_reduces (bounded : t.IsBounded) (h : Reduces t u) :
    PolynomialStep t u := by
  rcases polynomialStep_or_folds bounded.polynomial h with step | folds
  · exact step
  -- the number that constants are folded to is their exact value
  cases folds with
  | operands two evaluated perm =>
    obtain ⟨v, found, value⟩ := evaluatesExactly_filter bounded
    obtain rfl := Except.ok.inj (found.symm.trans evaluated)
    exact .fold _ two value perm
  | whole isConstant evaluated =>
    obtain ⟨v, found, value⟩ := bounded.evaluatesExactly isConstant
    obtain rfl := Except.ok.inj (found.symm.trans evaluated)
    exact .foldBinary isConstant value

/-- No standard rule reports an error for a bounded polynomial. -/
theorem not_fails_of_isBounded {error : DomainError} (bounded : t.IsBounded) :
    ¬ Fails t error := by
  intro h
  cases h with
  | divisionByZero h => cases bounded.polynomial
  | zeroToTheZero hb he => simp [isNumber_eq_false_of_isExponent bounded.isExponent] at he
  | zerothRoot h => cases bounded.polynomial
  | foldVariadic two h =>
    obtain ⟨v, evaluated, -⟩ := evaluatesExactly_filter bounded
    cases evaluated.symm.trans h
  | foldBinary hl hr h =>
    obtain ⟨v, evaluated, -⟩ := bounded.evaluatesExactly (isConstant_binary.2 ⟨hl, hr⟩)
    cases evaluated.symm.trans h

end Inversion

/-! ### Lists of operands -/

section Operands

variable {R : Type*} [CommRing R] (assignment : String → R) {ts us : List Term} {op : Variadic}

theorem valueIn_int (i : Int64) : (int i).valueIn assignment = i.toInt := rfl

theorem valueIn_variadic (op : Variadic) (ts : List Term) :
    (variadic op ts).valueIn assignment = op.joinAll (ts.map (valueIn assignment)) := by
  rw [valueIn, valuesIn_eq_map]

theorem valueIn_difference (l r : Term) :
    (difference l r).valueIn assignment = l.valueIn assignment - r.valueIn assignment := by
  rw [valueIn]

theorem magnitude_variadic (op : Variadic) (ts : List Term) :
    (variadic op ts).magnitude = max 1 (op.joinAll (ts.map magnitude)) := by
  rw [magnitude, magnitudes_eq_map]

theorem valueIn_neutral (op : Variadic) :
    ((op.neutral.toInt : ℤ) : R) = op.joinAll [] := by
  cases op with
  | sum => exact Int.cast_zero
  | product => exact Int.cast_one

theorem join_joinAll_nil (op : Variadic) (a : R) : op.join a (op.joinAll []) = a := by
  cases op with
  | sum => exact add_zero a
  | product => exact mul_one a

/-- Operands that contribute nothing may be left out. -/
theorem joinAll_filter_neutral {f : Term → R}
    (h : ∀ t ∈ ts, t.isNumber op.neutral → f t = op.joinAll []) :
    op.joinAll ((ts.filter fun t => !t.isNumber op.neutral).map f) = op.joinAll (ts.map f) := by
  induction ts with
  | nil => rfl
  | cons t ts ih =>
    rw [List.forall_mem_cons] at h
    by_cases number : t.isNumber op.neutral
    · rw [List.filter_cons_of_neg (by simp [number]), ih h.2, List.map_cons, Variadic.joinAll_cons,
        h.1 number, Variadic.join_comm, join_joinAll_nil]
    · rw [List.filter_cons_of_pos (by simp [number]), List.map_cons, List.map_cons,
        Variadic.joinAll_cons, Variadic.joinAll_cons, ih h.2]

/-- Splicing keeps what the operands amount to together. -/
theorem joinAll_flatMap_splice {f : Term → R} {op : Variadic}
    (whole : ∀ us, f (variadic op us) = op.joinAll (us.map f)) (ts : List Term) :
    op.joinAll ((ts.flatMap (splice op)).map f) = op.joinAll (ts.map f) := by
  induction ts with
  | nil => rfl
  | cons t ts ih =>
    rw [List.flatMap_cons, List.map_append, Variadic.joinAll_append, ih, List.map_cons,
      Variadic.joinAll_cons]
    rcases splice_cases op t with ⟨us, rfl, spliced⟩ | ⟨-, spliced⟩
    · rw [spliced, whole]
    · rw [spliced, List.map_cons, List.map_nil, Variadic.joinAll_cons, join_joinAll_nil]

theorem joinAll_flatMap_splice_le (op : Variadic) (ts : List Term) :
    op.joinAll ((ts.flatMap (splice op)).map magnitude) ≤ op.joinAll (ts.map magnitude) := by
  induction ts with
  | nil => exact le_rfl
  | cons t ts ih =>
    rw [List.flatMap_cons, List.map_append, Variadic.joinAll_append, List.map_cons,
      Variadic.joinAll_cons]
    refine op.join_le_join ?_ ih
    rcases splice_cases op t with ⟨us, rfl, spliced⟩ | ⟨-, spliced⟩
    · rw [spliced, magnitude_variadic]
      exact le_max_right _ _
    · rw [spliced, List.map_cons, List.map_nil]
      cases op <;> simp [Variadic.joinAll]

/-- Differences taken out of a sum contribute to both sides. -/
theorem sum_parts {f : Term → R} (whole : ∀ l r, f (difference l r) = f l - f r)
    (ts : List Term) :
    ((ts.map (leftPart .difference)).map f).sum -
        ((ts.filterMap (rightPart? .difference)).map f).sum = (ts.map f).sum := by
  induction ts with
  | nil => simp
  | cons t ts ih =>
    simp only [List.map_cons, List.sum_cons, List.filterMap_cons, ← ih]
    rcases parts_cases .difference t with ⟨l, r, rfl, left, right⟩ | ⟨-, left, right⟩
    · simp only [left, right, List.map_cons, List.sum_cons, whole]
      ring
    · simp only [left, right]
      ring

theorem sum_magnitude_parts (ts : List Term) :
    ((ts.map (leftPart .difference)).map magnitude).sum +
        ((ts.filterMap (rightPart? .difference)).map magnitude).sum ≤
      (ts.map magnitude).sum := by
  induction ts with
  | nil => simp
  | cons t ts ih =>
    simp only [List.map_cons, List.sum_cons, List.filterMap_cons]
    rcases parts_cases .difference t with ⟨l, r, rfl, left, right⟩ | ⟨-, left, right⟩
    · simp only [left, right, List.map_cons, List.sum_cons, magnitude]
      omega
    · simp only [left, right]
      omega

end Operands

/-! ### What is kept -/

section Kept

variable {t u : Term}

/-- The value of a polynomial stays the same in every commutative ring. -/
theorem PolynomialStep.valueIn_eq {R : Type*} [CommRing R] (h : PolynomialStep t u)
    (polynomial : PolynomialOver IsExponent t) (assignment : String → R) :
    u.valueIn assignment = t.valueIn assignment := by
  cases h with
  -- nothing adds up to zero, and nothing multiplied is one
  | empty op => rw [valueIn_variadic, valueIn_int, valueIn_neutral, List.map_nil]
  | singleton op =>
    rw [valueIn_variadic, List.map_cons, List.map_nil, Variadic.joinAll_cons, join_joinAll_nil]
  | dropNeutral op ts =>
    have operands := polynomialOver_variadic.1 polynomial
    rw [valueIn_variadic, valueIn_variadic, joinAll_filter_neutral]
    intro t mem number
    rw [eq_int_of_isNumber (operands t mem) number, valueIn_int, valueIn_neutral]
  | subtractZero => simp [valueIn]
  | @multiplyZero ts mem =>
    have zero : (0 : R) ∈ ts.map (valueIn assignment) :=
      List.mem_map.2 ⟨int 0, mem, by simp [valueIn]⟩
    rw [valueIn_variadic, valueIn_int, Variadic.joinAll, List.prod_eq_zero zero]
    exact Int.cast_zero
  | zeroBase e =>
    have positive := one_le_exponentValue (polynomialOver_power.1 polynomial).2
    have exponent : e.exponentValue ≠ 0 := by omega
    simp [valueIn, zero_pow exponent]
  | oneBase e => simp [valueIn]
  | oneExponent => simp [valueIn, exponentValue]
  | @fold op ts us v two value perm =>
    -- the folded constants have their integer value in the ring, too
    have constants : (variadic op (ts.filter isConstantNode)).isConstant :=
      isConstant_variadic.2 fun t mem => isConstant_of_isConstantNode (List.mem_filter.1 mem).2
    have folded := valueIn_of_isConstant constants assignment
    rw [valueIn_variadic] at folded
    rw [valueIn_variadic, valueIn_variadic, op.joinAll_perm (perm.map _), List.map_cons,
      Variadic.joinAll_cons, valueIn_int, value, ← folded,
      op.joinAll_partition isConstantNode _ ts]
  | foldBinary constant value =>
    rw [valueIn_int, value, valueIn_of_isConstant constant]
  | flatten op ts =>
    rw [valueIn_variadic, valueIn_variadic, joinAll_flatMap_splice (valueIn_variadic assignment op)]
  | @pullOut ts some =>
    rw [valueIn_difference, valueIn_variadic, valueIn_variadic, valueIn_variadic]
    exact sum_parts (valueIn_difference assignment) ts
  | nestedLeft x y z =>
    simp [valueIn, Variadic.joinAll]
    ring
  | nestedRight x y z =>
    simp [valueIn, Variadic.joinAll]
    ring
  | powerOfPower x y z => simp [valueIn, exponentValue, Variadic.joinAll, pow_mul]

/-- What a rule makes of a polynomial is a polynomial, with the same kind of exponents if products
are of this kind, too. -/
theorem PolynomialStep.polynomialOver_of_products {P : Term → Prop} (h : PolynomialStep t u)
    (polynomial : PolynomialOver P t) (products : ∀ {y z}, P y → P z → P (product [y, z])) :
    PolynomialOver P u := by
  cases h with
  | singleton op => exact polynomialOver_variadic.1 polynomial u List.mem_cons_self
  | dropNeutral op ts =>
    have operands := polynomialOver_variadic.1 polynomial
    exact .variadic op fun t mem => operands t (List.mem_filter.1 mem).1
  | subtractZero => exact (polynomialOver_difference.1 polynomial).1
  | oneExponent => exact (polynomialOver_power.1 polynomial).1
  | @fold op ts us v two value perm =>
    have operands := polynomialOver_variadic.1 polynomial
    refine .variadic op fun t mem => ?_
    rcases List.mem_cons.1 (perm.mem_iff.1 mem) with rfl | mem
    · exact .int v
    · exact operands t (List.mem_filter.1 mem).1
  | flatten op ts =>
    have operands := polynomialOver_variadic.1 polynomial
    refine .variadic op (forall_mem_flatMap_splice ?_ operands)
    intro us inner
    exact polynomialOver_variadic.1 inner
  | @pullOut ts some =>
    have operands := polynomialOver_variadic.1 polynomial
    refine .difference (.variadic .sum ?_) (.variadic .sum ?_)
    · exact forall_mem_leftParts (fun l r inner => (polynomialOver_difference.1 inner).1) operands
    · exact forall_mem_rightParts (fun l r inner => (polynomialOver_difference.1 inner).2) operands
  | nestedLeft x y z =>
    obtain ⟨hl, hz⟩ := polynomialOver_difference.1 polynomial
    obtain ⟨hx, hy⟩ := polynomialOver_difference.1 hl
    exact .difference hx (.variadic .sum (by simp [hy, hz]))
  | nestedRight x y z =>
    obtain ⟨hx, hr⟩ := polynomialOver_difference.1 polynomial
    obtain ⟨hy, hz⟩ := polynomialOver_difference.1 hr
    exact .difference (.variadic .sum (by simp [hx, hz])) hy
  | powerOfPower x y z =>
    obtain ⟨hb, hz⟩ := polynomialOver_power.1 polynomial
    obtain ⟨hx, hy⟩ := polynomialOver_power.1 hb
    exact .power hx (products hy hz)
  | _ => exact .int _

theorem PolynomialStep.polynomialOver (h : PolynomialStep t u)
    (polynomial : PolynomialOver IsExponent t) : PolynomialOver IsExponent u :=
  h.polynomialOver_of_products polynomial fun hy hz => .product (by simp [hy, hz])

/-- What a rule makes of an exponent is an exponent. -/
theorem PolynomialStep.isExponent (h : PolynomialStep t u) (exponent : IsExponent t) :
    IsExponent u := by
  have operand : ∀ {op : Variadic} {ts : List Term}, IsExponent (variadic op ts) →
      op = .product ∧ ∀ t ∈ ts, IsExponent t := by
    intro op ts h
    cases h with
    | product operands => exact ⟨rfl, operands⟩
  cases h with
  | empty op =>
    obtain ⟨rfl, -⟩ := operand exponent
    exact .int (by decide)
  | singleton op => exact (operand exponent).2 u List.mem_cons_self
  | dropNeutral op ts =>
    obtain ⟨rfl, operands⟩ := operand exponent
    exact .product fun t mem => operands t (List.mem_filter.1 mem).1
  | multiplyZero mem =>
    have zero := isNumber_eq_false_of_isExponent ((operand exponent).2 _ mem)
    exact absurd zero (by decide)
  | @fold op ts us v two value perm =>
    obtain ⟨rfl, operands⟩ := operand exponent
    have constants : IsExponent (product (ts.filter isConstantNode)) :=
      .product fun t mem => operands t (List.mem_filter.1 mem).1
    -- the product of positive numbers is positive
    have positive := one_le_exponentValue constants
    rw [integerValue_of_isExponent constants] at value
    refine .product fun t mem => ?_
    rcases List.mem_cons.1 (perm.mem_iff.1 mem) with rfl | mem
    · exact .int (by omega)
    · exact operands t (List.mem_filter.1 mem).1
  | flatten op ts =>
    obtain ⟨rfl, operands⟩ := operand exponent
    refine .product (forall_mem_flatMap_splice ?_ operands)
    intro us inner
    exact (operand inner).2
  | _ => cases exponent

/-- The magnitude does not become larger. -/
theorem PolynomialStep.magnitude_le (h : PolynomialStep t u) : u.magnitude ≤ t.magnitude := by
  cases h with
  | empty op => cases op <;> decide
  | singleton op =>
    rw [magnitude_variadic, List.map_cons, List.map_nil, Variadic.joinAll_cons]
    cases op <;> simp [Variadic.join, Variadic.joinAll]
  | dropNeutral op ts =>
    rw [magnitude_variadic, magnitude_variadic]
    exact max_le_max le_rfl (op.joinAll_filter_le _ one_le_magnitude)
  | subtractZero =>
    rw [magnitude]
    omega
  | multiplyZero mem => exact one_le_magnitude _
  | zeroBase e => exact one_le_magnitude _
  | oneBase e => exact one_le_magnitude _
  | oneExponent => simp [magnitude, exponentValue]
  | @fold op ts us v two value perm =>
    obtain ⟨c, mem⟩ := List.exists_mem_of_length_pos (Nat.lt_of_lt_of_le two_pos two)
    -- the magnitude of a number counts as one at least, and so do the constants together
    have atLeastOne := (one_le_magnitude c).trans (magnitude_le_joinAll op mem)
    have constant : (int v).magnitude ≤ op.joinAll ((ts.filter isConstantNode).map magnitude) := by
      have bound := natAbs_integerValue_le (variadic op (ts.filter isConstantNode))
      rw [magnitude_variadic, ← value] at bound
      simp only [magnitude]
      omega
    rw [magnitude_variadic, magnitude_variadic, op.joinAll_perm (perm.map _), List.map_cons,
      Variadic.joinAll_cons, op.joinAll_partition isConstantNode _ ts]
    exact max_le_max le_rfl (op.join_le_join constant le_rfl)
  | @foldBinary op l r v constant value =>
    have bound := natAbs_integerValue_le (binary op l r)
    have atLeastOne := one_le_magnitude (binary op l r)
    rw [← value] at bound
    simp only [magnitude] at bound ⊢
    omega
  | flatten op ts =>
    rw [magnitude_variadic, magnitude_variadic]
    exact max_le_max le_rfl (joinAll_flatMap_splice_le op ts)
  | @pullOut ts some =>
    -- neither side is empty, so the least magnitude of one does not add anything
    have total := sum_magnitude_parts ts
    obtain ⟨t, mem, -⟩ := id some
    have leftOne := (one_le_magnitude _).trans
      (magnitude_le_joinAll .sum (List.mem_map_of_mem (f := leftPart .difference) mem))
    obtain ⟨r, memRight⟩ := List.exists_mem_of_length_pos (length_rightParts_pos some)
    have rightOne := (one_le_magnitude r).trans (magnitude_le_joinAll .sum memRight)
    simp only [magnitude, magnitudes_eq_map, Variadic.joinAll] at leftOne rightOne ⊢
    omega
  | nestedLeft x y z =>
    simp only [magnitude, magnitudes, Variadic.joinAll, List.sum_cons, List.sum_nil]
    have := one_le_magnitude y
    omega
  | nestedRight x y z =>
    simp only [magnitude, magnitudes, Variadic.joinAll, List.sum_cons, List.sum_nil]
    have := one_le_magnitude x
    omega
  | powerOfPower x y z => simp [magnitude, exponentValue, Variadic.joinAll, pow_mul]

/-- Nor does the degree. -/
theorem PolynomialStep.degree_le (h : PolynomialStep t u)
    (polynomial : PolynomialOver IsExponent t) : u.degree ≤ t.degree := by
  have atLeastOne := one_le_degree polynomial
  cases h with
  | singleton op => exact le_max_left _ _
  | dropNeutral op ts =>
    refine maxDegree_le_iff.2 ⟨atLeastOne, fun t mem => ?_⟩
    exact degree_le_maxDegree (List.mem_filter.1 mem).1
  | subtractZero => exact le_max_left _ _
  | oneExponent => simp [degree, exponentValue]
  | @fold op ts us v two value perm =>
    refine maxDegree_le_iff.2 ⟨atLeastOne, fun t mem => ?_⟩
    rcases List.mem_cons.1 (perm.mem_iff.1 mem) with rfl | mem
    · exact atLeastOne
    · exact degree_le_maxDegree (List.mem_filter.1 mem).1
  | flatten op ts =>
    have operands : ∀ t ∈ ts, t.degree ≤ maxDegree ts := fun t mem => degree_le_maxDegree mem
    refine maxDegree_le_iff.2 ⟨atLeastOne, forall_mem_flatMap_splice ?_ operands⟩
    intro us inner u mem
    exact (degree_le_maxDegree mem).trans inner
  | @pullOut ts some =>
    -- the degree of a difference is the larger one of its sides
    have operands : ∀ t ∈ ts, t.degree ≤ maxDegree ts := fun t mem => degree_le_maxDegree mem
    refine max_le (maxDegree_le_iff.2 ⟨atLeastOne, ?_⟩) (maxDegree_le_iff.2 ⟨atLeastOne, ?_⟩)
    · exact forall_mem_leftParts (fun l r inner => (le_max_left _ _).trans inner) operands
    · exact forall_mem_rightParts (fun l r inner => (le_max_right _ _).trans inner) operands
  | nestedLeft x y z =>
    simp only [degree, maxDegree] at atLeastOne ⊢
    omega
  | nestedRight x y z =>
    simp only [degree, maxDegree] at atLeastOne ⊢
    omega
  | powerOfPower x y z =>
    simp only [degree, exponentValue, exponentValues, Variadic.joinAll, List.prod_cons,
      List.prod_nil]
    rw [mul_one, mul_comm y.exponentValue, mul_assoc]
  | _ => exact atLeastOne

end Kept

end InequalityChaining

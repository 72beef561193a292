import InequalityChaining.Proofs.Polynomial.Step
import InequalityChaining.Proofs.Reduction.NormalForm
import InequalityChaining.Proofs.Reduction.Termination

/-!
# Simplification of polynomials

What a rule does to a bounded polynomial at the root it does inside one as well: the value of the
whole depends on the value of the part only, and the bounds are monotone in those of the parts. An
exponent stays an exponent of the same value. So passes by the standard rules keep the value of a
bounded polynomial in every commutative ring, never fail, and end in a polynomial. There all
exponents are single numbers, and where no variable occurs so is the polynomial itself.

## Main definitions

* `Refines` — a polynomial with the same value and no larger bounds

## Main results

* `refines_of_rewrites` — a single rewriting refines a bounded polynomial
* `simplify_polynomial` — simplification keeps the meaning of bounded polynomials
-/

open Relation (TransGen ReflTransGen)

namespace InequalityChaining

open Term Standard

/-- A polynomial that has the same value as another, under an assignment in a commutative ring, and
bounds that are no larger; it is an exponent of the same value if the other is an exponent. -/
structure Refines {R : Type*} [CommRing R] (assignment : String → R) (t u : Term) : Prop where
  polynomial : PolynomialOver IsExponent u
  exponent : IsExponent t → IsExponent u ∧ u.exponentValue = t.exponentValue
  magnitude : u.magnitude ≤ t.magnitude
  degree : u.degree ≤ t.degree
  value : u.valueIn assignment = t.valueIn assignment

section Refinement

variable {R : Type*} [CommRing R] {assignment : String → R} {t u v : Term}

theorem Refines.isBounded (h : Refines assignment t u) (bounded : t.IsBounded) : u.IsBounded :=
  ⟨h.polynomial, h.magnitude.trans bounded.magnitude, h.degree.trans bounded.degree⟩

theorem Refines.refl (polynomial : PolynomialOver IsExponent t) : Refines assignment t t :=
  ⟨polynomial, fun h => ⟨h, rfl⟩, le_rfl, le_rfl, rfl⟩

theorem Refines.trans (first : Refines assignment t u) (second : Refines assignment u v) :
    Refines assignment t v where
  polynomial := second.polynomial
  exponent h := by
    obtain ⟨isExponent, same⟩ := first.exponent h
    exact ⟨(second.exponent isExponent).1, (second.exponent isExponent).2.trans same⟩
  magnitude := second.magnitude.trans first.magnitude
  degree := second.degree.trans first.degree
  value := second.value.trans first.value

/-- A rule at the root refines a bounded polynomial. -/
theorem refines_of_reduces (bounded : t.IsBounded) (h : Reduces t u) :
    Refines assignment t u := by
  have step := polynomialStep_of_reduces bounded h
  refine ⟨step.polynomialOver bounded.polynomial, fun exponent => ?_, step.magnitude_le,
    step.degree_le bounded.polynomial, step.valueIn_eq bounded.polynomial assignment⟩
  have next := step.isExponent exponent
  refine ⟨next, ?_⟩
  -- the value of an exponent is its value in the integers
  have same := step.valueIn_eq bounded.polynomial fun _ => (0 : ℤ)
  change u.integerValue = t.integerValue at same
  rw [integerValue_of_isExponent next, integerValue_of_isExponent exponent] at same
  exact_mod_cast same

/-! ### Refinement inside a term -/

theorem Refines.operand {op : Variadic} {before after : List Term} (h : Refines assignment t u)
    (polynomial : PolynomialOver IsExponent (variadic op (before ++ t :: after))) :
    Refines assignment (variadic op (before ++ t :: after))
      (variadic op (before ++ u :: after)) := by
  have degreeOne := one_le_degree polynomial
  refine ⟨?_, fun exponent => ?_, ?_, ?_, ?_⟩
  · have operands := polynomialOver_variadic.1 polynomial
    exact .variadic op (forall_mem_replace operands h.polynomial)
  · cases exponent with
    | product operands =>
      obtain ⟨next, same⟩ := h.exponent (operands t (by simp))
      refine ⟨.product (forall_mem_replace operands next), ?_⟩
      simp only [exponentValue, exponentValues_eq_map, List.map_append, List.map_cons, same]
  · rw [magnitude_variadic, magnitude_variadic]
    simp only [List.map_append, List.map_cons, Variadic.joinAll_append, Variadic.joinAll_cons]
    refine max_le_max le_rfl (op.join_le_join le_rfl (op.join_le_join h.magnitude le_rfl))
  · have operands : ∀ v ∈ before ++ t :: after, v.degree ≤ maxDegree (before ++ t :: after) :=
      fun v mem => degree_le_maxDegree mem
    refine maxDegree_le_iff.2 ⟨degreeOne, forall_mem_replace operands ?_⟩
    exact h.degree.trans (operands t (by simp))
  · rw [valueIn_variadic, valueIn_variadic]
    simp only [List.map_append, List.map_cons, h.value]

theorem Refines.left {op : Binary} {r : Term} (h : Refines assignment t u)
    (polynomial : PolynomialOver IsExponent (binary op t r)) :
    Refines assignment (binary op t r) (binary op u r) := by
  cases polynomial with
  | difference hl hr =>
    refine ⟨.difference h.polynomial hr, fun exponent => (by cases exponent), ?_, ?_, ?_⟩
    · have := h.magnitude
      simp only [Term.magnitude]
      omega
    · exact max_le_max h.degree le_rfl
    · rw [valueIn_difference, valueIn_difference, h.value]
  | power hb he =>
    refine ⟨.power h.polynomial he, fun exponent => (by cases exponent), ?_, ?_, ?_⟩
    · exact Nat.pow_le_pow_left h.magnitude _
    · exact Nat.mul_le_mul_left _ h.degree
    · simp only [valueIn, h.value]

theorem Refines.right {op : Binary} {l : Term} (h : Refines assignment t u)
    (polynomial : PolynomialOver IsExponent (binary op l t)) :
    Refines assignment (binary op l t) (binary op l u) := by
  cases polynomial with
  | difference hl hr =>
    refine ⟨.difference hl h.polynomial, fun exponent => (by cases exponent), ?_, ?_, ?_⟩
    · have := h.magnitude
      simp only [Term.magnitude]
      omega
    · exact max_le_max le_rfl h.degree
    · rw [valueIn_difference, valueIn_difference, h.value]
  | power hb he =>
    obtain ⟨next, same⟩ := h.exponent he
    refine ⟨.power hb next, fun exponent => (by cases exponent), ?_, ?_, ?_⟩
    · simp only [Term.magnitude, same]
      exact le_rfl
    · simp only [Term.degree, same]
      exact le_rfl
    · simp only [valueIn, same]

theorem isBounded_left {op : Binary} {l r : Term} (h : (binary op l r).IsBounded) :
    l.IsBounded := by
  cases op with
  | difference => exact h.left
  | power => exact h.base
  | quotient => cases h.polynomial
  | root => cases h.polynomial

theorem isBounded_right {op : Binary} {l r : Term} (h : (binary op l r).IsBounded) :
    r.IsBounded := by
  cases op with
  | difference => exact h.right
  | power => exact h.exponent
  | quotient => cases h.polynomial
  | root => cases h.polynomial

/-- A single rewriting refines a bounded polynomial. -/
theorem refines_of_rewrites (h : Rewrites rules t u) (bounded : t.IsBounded) :
    Refines assignment t u := by
  induction h with
  | root h =>
    exact refines_of_reduces bounded (reduces_of_reduceRoot bounded.polynomial.isGround h)
  | operand op before after _ ih =>
    exact (ih (bounded.operand (by simp))).operand bounded.polynomial
  | left op r _ ih => exact (ih (isBounded_left bounded)).left bounded.polynomial
  | right op l _ ih => exact (ih (isBounded_right bounded)).right bounded.polynomial

/-- So do any number of passes. -/
theorem refines_of_passes {n : ℕ} (h : Passes rules n t u) (bounded : t.IsBounded) :
    Refines assignment t u := by
  have steps := h.reflTransGen
  clear h
  induction steps with
  | refl => exact .refl bounded.polynomial
  | tail _ step ih => exact ih.trans (refines_of_rewrites step (ih.isBounded bounded))

end Refinement

/-! ### Normal forms -/

section NormalForms

variable {t u : Term}

theorem Term.IsBounded.subterm (bounded : t.IsBounded) (mem : u ∈ t.subterms) : u.IsBounded := by
  induction t using Term.induction with
  | variadic op ts ih =>
    rcases mem_subterms_variadic.1 mem with rfl | ⟨t, operand, mem⟩
    · exact bounded
    · exact ih t operand (bounded.operand operand) mem
  | binary op l r ihl ihr =>
    rcases mem_subterms_binary.1 mem with rfl | mem | mem
    · exact bounded
    · exact ihl (isBounded_left bounded) mem
    · exact ihr (isBounded_right bounded) mem
  | _ =>
    obtain rfl : u = _ := by simpa [subterms] using mem
    exact bounded

/-- A pass over a bounded polynomial does not fail. -/
theorem reducePass_ne_error (bounded : t.IsBounded) (error : DomainError) :
    reducePass rules t ≠ .error error := by
  intro h
  obtain ⟨u, mem, atRoot⟩ := exists_subterm_of_reducePass_eq_error h
  have boundedPart := bounded.subterm mem
  exact not_fails_of_isBounded boundedPart
    (fails_of_reduceRoot boundedPart.polynomial.isGround atRoot)

/-- In a normal form every exponent is a single number. -/
theorem isPolynomial_of_normal (polynomial : PolynomialOver IsExponent t)
    (normal : reducePass rules t = .ok none) : IsPolynomial t := by
  induction polynomial with
  | int i => exact .int i
  | var name => exact .var name
  | variadic op _ ih =>
    refine .variadic op fun t mem => ih t mem ?_
    exact reducePass_eq_none_of_subterm normal (mem_subterms_operand mem)
  | difference _ _ ihl ihr =>
    refine .difference (ihl ?_) (ihr ?_)
    · exact reducePass_eq_none_of_subterm normal mem_subterms_left
    · exact reducePass_eq_none_of_subterm normal mem_subterms_right
  | power _ he ihb =>
    refine .power (ihb (reducePass_eq_none_of_subterm normal mem_subterms_left)) ?_
    -- an exponent is constant, and constant normal forms are numbers
    have exponent := reducePass_eq_none_of_subterm normal mem_subterms_right
    obtain ⟨value, rfl⟩ := exists_constant_of_normal he.isConstant exponent
    cases he with
    | int positive => exact ⟨_, positive, rfl⟩

/-- Simplification of a bounded polynomial ends in a normal form. -/
theorem exists_simplify_eq_ok (bounded : t.IsBounded) :
    ∃ u n, Passes rules n t u ∧ reducePass rules u = .ok none ∧
      ReductionTable.standard.simplify t = .ok u := by
  obtain ⟨n, within, u, passes, -, normal | ⟨error, fails⟩⟩ :=
    exists_passes bounded.polynomial.isGround
  · refine ⟨u, n, passes, normal, ?_⟩
    rw [simplify_of_passes passes within, reduceWithin_of_none normal]
  -- a bounded polynomial stays one, and passes over it do not fail
  · have refines : Refines (fun _ => (0 : ℤ)) t u := refines_of_passes passes bounded
    exact absurd fails (reducePass_ne_error (refines.isBounded bounded) error)

/-- Whatever simplification gives has been reached by passes and is a normal form. -/
theorem exists_passes_of_simplify (bounded : t.IsBounded)
    (h : ReductionTable.standard.simplify t = .ok u) :
    (∃ n, Passes rules n t u) ∧ reducePass rules u = .ok none := by
  obtain ⟨v, n, passes, normal, simplified⟩ := exists_simplify_eq_ok bounded
  obtain rfl : v = u := Except.ok.inj (simplified.symm.trans h)
  exact ⟨⟨n, passes⟩, normal⟩

/-- Simplification refines a bounded polynomial. -/
theorem refines_of_simplify {R : Type*} [CommRing R] {assignment : String → R}
    (bounded : t.IsBounded) (h : ReductionTable.standard.simplify t = .ok u) :
    Refines assignment t u := by
  obtain ⟨⟨n, passes⟩, -⟩ := exists_passes_of_simplify bounded h
  exact refines_of_passes passes bounded

/-- What simplification gives is a polynomial again. -/
theorem isPolynomial_of_simplify (bounded : t.IsBounded)
    (h : ReductionTable.standard.simplify t = .ok u) : IsPolynomial u := by
  obtain ⟨-, normal⟩ := exists_passes_of_simplify bounded h
  have refines : Refines (fun _ => (0 : ℤ)) t u := refines_of_simplify bounded h
  exact isPolynomial_of_normal refines.polynomial normal

/-- A bounded polynomial no part of which can be reduced is simple already. -/
theorem simplify_eq_self (bounded : t.IsBounded)
    (irreducible : ∀ u ∈ t.subterms, ∀ v, ¬ PolynomialStep u v) :
    ReductionTable.standard.simplify t = .ok t := by
  -- on bounded polynomials rules do not fail, and those that apply are steps
  have normal : reducePass rules t = .ok none := by
    refine reducePass_eq_none_iff.2 fun u mem => ?_
    have boundedPart := bounded.subterm mem
    have ground := boundedPart.polynomial.isGround
    cases result : reduceRoot rules u with
    | error error =>
      exact absurd (fails_of_reduceRoot ground result) (not_fails_of_isBounded boundedPart)
    | ok change =>
      cases change with
      | none => rfl
      | some v =>
        have step := polynomialStep_of_reduces boundedPart (reduces_of_reduceRoot ground result)
        exact absurd step (irreducible u mem v)
  rw [simplify_of_passes (.refl t) (Nat.zero_le _), reduceWithin_of_none normal]

/-- Simplification keeps the meaning of a polynomial whose magnitude and degree are bounded. It
gives a polynomial with integer constants that has the same value in every commutative ring; if
there are no variables, it gives the number that evaluation gives, and that is the integer value. -/
theorem simplify_polynomial (t : Term) (polynomial : IsPolynomial t)
    (magnitude : t.magnitude ≤ 2 ^ 63 - 1) (degree : t.degree ≤ 2 ^ 32 - 1) :
    ∃ u, ReductionTable.standard.simplify t = .ok u ∧ IsPolynomial u ∧
      (∀ c, constant c ∈ u.subterms → ∃ i, c = .int i) ∧
      (∀ (R : Type*) [CommRing R] (assignment : String → R),
        u.valueIn assignment = t.valueIn assignment) ∧
      (¬ t.hasVariable → ∃ i, u = int i ∧ t.evaluate = .ok (.int i) ∧
        ∀ assignment : String → ℤ, t.valueIn assignment = i.toInt) := by
  have bounded : t.IsBounded := ⟨polynomial.polynomialOver, magnitude, degree⟩
  obtain ⟨u, n, passes, normal, simplified⟩ := exists_simplify_eq_ok bounded
  have integers : Refines (fun _ => (0 : ℤ)) t u := refines_of_passes passes bounded
  refine ⟨u, simplified, isPolynomial_of_simplify bounded simplified,
    fun c => integers.polynomial.exists_int, fun R _ assignment => ?_, fun noVariable => ?_⟩
  · have refines : Refines assignment t u := refines_of_passes passes bounded
    exact refines.value
  · have constant := isConstant_of_isGround bounded.polynomial.isGround noVariable
    obtain ⟨value, rfl⟩ := exists_constant_of_normal (isConstant_of_passes passes constant) normal
    obtain ⟨i, rfl⟩ := integers.polynomial.exists_int (mem_subterms_self _)
    obtain ⟨j, evaluated, exact⟩ := bounded.evaluatesExactly constant
    -- both numbers are the integer value of the term
    have same : i = j := by
      have : i.toInt = t.integerValue := integers.value
      rw [← Int64.toInt_inj, this, exact]
    refine ⟨i, rfl, same ▸ evaluated, fun assignment => ?_⟩
    rw [valueIn_of_isConstant constant, same, exact]
    rfl

/-- A power of a power, which is a power with a product as its exponent on the way to its value. -/
theorem simplify_polynomial_power_of_power :
    let t := sum [power (power (int (-2)) (int 3)) (int 2), int 1]
    IsPolynomial t ∧ t.magnitude = 65 ∧ t.degree = 6 ∧
      ∃ i, ReductionTable.standard.simplify t = .ok (int i) ∧ t.evaluate = .ok (.int i) ∧
        i.toInt = 65 := by
  intro t
  have polynomial : IsPolynomial t := by
    refine .variadic .sum (List.forall_mem_cons.2 ⟨?_, List.forall_mem_singleton.2 (.int 1)⟩)
    exact .power (.power (.int (-2)) ⟨3, by decide, rfl⟩) ⟨2, by decide, rfl⟩
  have magnitude : t.magnitude = 65 := by decide
  have degree : t.degree = 6 := by decide
  obtain ⟨u, simplified, -, -, -, ground⟩ :=
    simplify_polynomial.{0} t polynomial (by omega) (by omega)
  obtain ⟨i, rfl, evaluated, value⟩ := ground (by decide)
  refine ⟨polynomial, magnitude, degree, i, simplified, evaluated, ?_⟩
  exact (value fun _ => 0).symm.trans (by decide)

end NormalForms

end InequalityChaining

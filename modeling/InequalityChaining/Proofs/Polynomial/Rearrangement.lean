import InequalityChaining.Proofs.Polynomial.Simplification
import InequalityChaining.Proofs.Term.Congruence

/-!
# Rules on rearranged polynomials

Equal polynomials differ in the order in which the operands of sums and products are written, and in
nothing else. So they have the same value, magnitude and degree. The standard rules do not look at
this order either: what a pattern matches in a bounded polynomial it matches in an equal one, and a
fold of constants gives the same number, since it is exact in either order. Therefore every rule
that applies to one of two equal bounded polynomials applies to the other, and makes equal terms of
them.

## Main definitions

* `DependsOnOperands` — functions that do not look at the order of operands
* `Term.MatchesAlike` — patterns that match equal polynomials alike
* `ReductionRule.RespectsEqual` — rules that make equal terms of equal polynomials

## Main results

* `DependsOnOperands.eq_of_equal` — such functions do not tell equal polynomials apart
* `respectsEqual_of_mem_rules` — every standard rule respects equality
-/

namespace InequalityChaining

open Term Standard

/-! ### What rearranging keeps -/

section Invariants

variable {t u e e' : Term} {ts us : List Term} {op : Variadic}

theorem IsExponent.isDefined (h : IsExponent e) : e.isDefined := by
  induction h with
  | int positive => rfl
  | product _ ih => exact isDefined_variadic.2 ih

theorem PolynomialOver.isDefined (h : PolynomialOver IsExponent t) : t.isDefined := by
  induction h with
  | int i => rfl
  | var name => rfl
  | variadic op _ ih => exact isDefined_variadic.2 ih
  | difference _ _ ihl ihr => exact isDefined_binary.2 ⟨ihl, ihr⟩
  | power _ he ihb => exact isDefined_binary.2 ⟨ihb, he.isDefined⟩

/-- The operands of equal polynomials are equal up to their order. -/
theorem equalOperands_of_equal (ht : ∀ t ∈ ts, PolynomialOver IsExponent t)
    (hu : ∀ u ∈ us, PolynomialOver IsExponent u) (h : equal (variadic op ts) (variadic op us)) :
    EqualOperands ts us :=
  (equal_variadic_iff_equalOperands (fun t mem => (ht t mem).isDefined)
    fun u mem => (hu u mem).isDefined).1 h

theorem exponentValue_eq_of_equal (he : IsExponent e) (he' : IsExponent e') (h : equal e e') :
    e.exponentValue = e'.exponentValue := by
  induction he generalizing e' with
  | @int i positive =>
    cases equalAtRoot_of_equal h with
    | constant same =>
      cases he' with
      | int positive => rw [Number.int_beq_int.1 same]
  | @product ts operands ih =>
    cases equalAtRoot_of_equal h with
    | variadic op _ _ =>
      cases he' with
      | @product us operands' =>
        have pairs := equalOperands_of_equal (fun t mem => (operands t mem).polynomialOver)
          (fun u mem => (operands' u mem).polynomialOver) h
        rw [exponentValue, exponentValue, exponentValues_eq_map, exponentValues_eq_map]
        refine Variadic.joinAll_perm .product (perm_map_of_equalOperands pairs ?_)
        exact fun t mem u mem' same => ih t mem (operands' u mem') same

/-- What the function gives for an operation depends on what it gives for the operands, not on their
order, and in a power on the value of the exponent. -/
structure DependsOnOperands {α : Type} (f : Term → α) : Prop where
  variadic : ∀ (op : Variadic) {ts us : List Term}, (ts.map f).Perm (us.map f) →
    f (Term.variadic op ts) = f (Term.variadic op us)
  difference : ∀ {l r l' r' : Term}, f l = f l' → f r = f r' →
    f (Term.difference l r) = f (Term.difference l' r')
  power : ∀ {b e b' e' : Term}, f b = f b' → e.exponentValue = e'.exponentValue →
    f (Term.power b e) = f (Term.power b' e')

/-- Such a function does not tell equal polynomials apart. -/
theorem DependsOnOperands.eq_of_equal {α : Type} {f : Term → α} (depends : DependsOnOperands f)
    (ht : PolynomialOver IsExponent t) (hu : PolynomialOver IsExponent u) (h : equal t u) :
    f t = f u := by
  induction ht generalizing u with
  | int i =>
    cases equalAtRoot_of_equal h with
    | constant same =>
      cases hu with
      | int j => rw [Number.int_beq_int.1 same]
  | var name => rw [equal_var_iff.1 h]
  | @variadic op ts operands ih =>
    cases equalAtRoot_of_equal h with
    | variadic op _ _ =>
      have operands' := polynomialOver_variadic.1 hu
      refine depends.variadic op
        (perm_map_of_equalOperands (equalOperands_of_equal operands operands' h) ?_)
      exact fun t mem u mem' same => ih t mem (operands' u mem') same
  | difference _ _ ihl ihr =>
    cases equalAtRoot_of_equal h with
    | binary o left right =>
      obtain ⟨hl, hr⟩ := polynomialOver_difference.1 hu
      exact depends.difference (ihl hl left) (ihr hr right)
  | power _ he ihb =>
    cases equalAtRoot_of_equal h with
    | binary o left right =>
      obtain ⟨hb, he'⟩ := polynomialOver_power.1 hu
      exact depends.power (ihb hb left) (exponentValue_eq_of_equal he he' right)

theorem dependsOnOperands_valueIn {R : Type} [CommRing R] (assignment : String → R) :
    DependsOnOperands (valueIn assignment) where
  variadic op _ _ perm := by
    rw [valueIn_variadic, valueIn_variadic, Variadic.joinAll_perm op perm]
  difference left right := by rw [valueIn_difference, valueIn_difference, left, right]
  power base exponent := by rw [valueIn, valueIn, base, exponent]

theorem dependsOnOperands_magnitude : DependsOnOperands magnitude where
  variadic op _ _ perm := by
    rw [magnitude_variadic, magnitude_variadic, Variadic.joinAll_perm op perm]
  difference left right := by rw [magnitude, magnitude, left, right]
  power base exponent := by rw [magnitude, magnitude, base, exponent]

theorem maxDegree_eq_foldr (ts : List Term) : maxDegree ts = (ts.map degree).foldr max 1 := by
  induction ts with
  | nil => rfl
  | cons t ts ih => rw [maxDegree, List.map_cons, List.foldr_cons, ih]

theorem dependsOnOperands_degree : DependsOnOperands degree where
  variadic op _ _ perm := by
    rw [degree, degree, maxDegree_eq_foldr, maxDegree_eq_foldr, perm.foldr_eq]
  difference left right := by rw [degree, degree, left, right]
  power base exponent := by rw [degree, degree, base, exponent]

/-- What equals a bounded polynomial is bounded if it is a polynomial. -/
theorem Term.IsBounded.of_equal (bounded : t.IsBounded) (hu : PolynomialOver IsExponent u)
    (h : equal t u) : u.IsBounded where
  polynomial := hu
  magnitude :=
    dependsOnOperands_magnitude.eq_of_equal bounded.polynomial hu h ▸ bounded.magnitude
  degree := dependsOnOperands_degree.eq_of_equal bounded.polynomial hu h ▸ bounded.degree

theorem isConstant_of_equal (ht : t.isDefined) (hu : u.isDefined) (h : equal t u)
    (constant : t.isConstant) : u.isConstant := by
  induction t using Term.induction generalizing u with
  | constant value =>
    cases equalAtRoot_of_equal h with
    | constant same => rfl
  | var name => simp at constant
  | placeholder name kind => simp at constant
  | variadic op ts ih =>
    cases equalAtRoot_of_equal h with
    | @variadic op _ us _ _ =>
      rw [isDefined_variadic] at ht hu
      rw [isConstant_variadic] at constant ⊢
      have pairs := (equal_variadic_iff_equalOperands ht hu).1 h
      intro u mem
      obtain ⟨t, memT, same⟩ :=
        Multiset.exists_mem_of_rel_of_mem (Multiset.rel_flip.2 pairs) (Multiset.mem_coe.2 mem)
      exact ih t memT (ht t memT) (hu u mem) same (constant t memT)
  | binary o l r ihl ihr =>
    cases equalAtRoot_of_equal h with
    | binary o left right =>
      rw [isDefined_binary] at ht hu
      rw [isConstant_binary] at constant ⊢
      exact ⟨ihl ht.1 hu.1 left constant.1, ihr ht.2 hu.2 right constant.2⟩

end Invariants

/-! ### Patterns -/

/-- Wherever the pattern matches a bounded polynomial, it matches equal ones, with equal terms for
the same names. -/
def Term.MatchesAlike (p : Term) : Prop :=
  ∀ t u b, t.IsBounded → u.IsBounded → equal t u → t.matchPattern? p .empty = some b →
    ∃ c, u.matchPattern? p .empty = some c ∧ b.Alike c

section Patterns

variable {op : Variadic} {o o' : Binary} {i : Int64}

theorem matchesAlike_empty : (variadic op []).MatchesAlike := by
  intro t u b _ _ h found
  obtain rfl := match_empty found
  cases equalAtRoot_of_equal h with
  | variadic op length =>
    obtain rfl := List.length_eq_zero_iff.1 length.symm
    -- both terms are the pattern itself, which binds nothing
    have itself : (variadic op []).matchPattern? (variadic op []) .empty = some .empty :=
      matchPattern?_of_beq (by cases op <;> rfl)
    obtain rfl := Option.some.inj (itself.symm.trans found)
    exact ⟨.empty, found, Bindings.alike_empty⟩

theorem matchesAlike_singleton : (variadic op [anyTerm "X"]).MatchesAlike := by
  intro t u b boundedT boundedU h found
  obtain ⟨x, rfl, rfl⟩ := match_singleton boundedT.polynomial.isGround found
  cases equalAtRoot_of_equal h with
  | @variadic op _ us length =>
    obtain ⟨y, rfl⟩ := List.length_eq_one_iff.1 length.symm
    obtain ⟨c, found'⟩ := (fits_singleton boundedU.polynomial.isGround).2 ⟨y, rfl⟩
    obtain ⟨y', e, rfl⟩ := match_singleton boundedU.polynomial.isGround found'
    cases e
    have pairs := equalOperands_of_equal (polynomialOver_variadic.1 boundedT.polynomial)
      (polynomialOver_variadic.1 boundedU.polynomial) h
    obtain ⟨z, mem, same⟩ :=
      Multiset.exists_mem_of_rel_of_mem pairs (Multiset.mem_coe.2 (List.mem_singleton_self x))
    obtain rfl : z = y := by simpa using mem
    exact ⟨_, found', Bindings.alike_empty.insert "X" same⟩

theorem matchesAlike_term_number : (binary o (anyTerm "X") (int i)).MatchesAlike := by
  intro t u b boundedT boundedU h found
  obtain ⟨l, r, rfl, number, rfl⟩ := match_term_number boundedT.polynomial.isGround found
  cases equalAtRoot_of_equal h with
  | @binary o _ _ l' r' left right =>
    obtain ⟨c, found'⟩ := (fits_term_number boundedU.polynomial.isGround).2
      ⟨l', r', rfl, isNumber_eq_of_equal right i ▸ number⟩
    obtain ⟨_, _, e, -, rfl⟩ := match_term_number boundedU.polynomial.isGround found'
    cases e
    exact ⟨_, found', Bindings.alike_empty.insert "X" left⟩

theorem matchesAlike_number_term : (binary o (int i) (anyTerm "X")).MatchesAlike := by
  intro t u b boundedT boundedU h found
  obtain ⟨l, r, rfl, number, rfl⟩ := match_number_term boundedT.polynomial.isGround found
  cases equalAtRoot_of_equal h with
  | @binary o _ _ l' r' left right =>
    obtain ⟨c, found'⟩ := (fits_number_term boundedU.polynomial.isGround).2
      ⟨l', r', rfl, isNumber_eq_of_equal left i ▸ number⟩
    obtain ⟨_, _, e, -, rfl⟩ := match_number_term boundedU.polynomial.isGround found'
    cases e
    exact ⟨_, found', Bindings.alike_empty.insert "X" right⟩

theorem matchesAlike_left_nested :
    (binary o (binary o' (anyTerm "X") (anyTerm "Y")) (anyTerm "Z")).MatchesAlike := by
  intro t u b boundedT boundedU h found
  obtain ⟨x, y, z, rfl, rfl⟩ := match_left_nested boundedT.polynomial.isGround found
  cases equalAtRoot_of_equal h with
  | @binary o _ _ l' z' left right =>
    cases equalAtRoot_of_equal left with
    | @binary o' _ _ x' y' first second =>
      obtain ⟨c, found'⟩ := (fits_left_nested boundedU.polynomial.isGround).2 ⟨_, z', rfl, rfl⟩
      obtain ⟨_, _, _, e, rfl⟩ := match_left_nested boundedU.polynomial.isGround found'
      cases e
      exact ⟨_, found',
        ((Bindings.alike_empty.insert "X" first).insert "Y" second).insert "Z" right⟩

theorem matchesAlike_right_nested :
    (binary o (anyTerm "X") (binary o' (anyTerm "Y") (anyTerm "Z"))).MatchesAlike := by
  intro t u b boundedT boundedU h found
  obtain ⟨x, y, z, rfl, rfl⟩ := match_right_nested boundedT.polynomial.isGround found
  cases equalAtRoot_of_equal h with
  | @binary o _ _ x' r' left right =>
    cases equalAtRoot_of_equal right with
    | @binary o' _ _ y' z' first second =>
      obtain ⟨c, found'⟩ := (fits_right_nested boundedU.polynomial.isGround).2 ⟨x', _, rfl, rfl⟩
      obtain ⟨_, _, _, e, rfl⟩ := match_right_nested boundedU.polynomial.isGround found'
      cases e
      exact ⟨_, found',
        ((Bindings.alike_empty.insert "X" left).insert "Y" first).insert "Z" second⟩

end Patterns

/-! ### Rules -/

/-- Wherever the rule applies to a bounded polynomial, it applies to equal ones, with equal
outcome. -/
def ReductionRule.RespectsEqual (rule : ReductionRule) : Prop :=
  ∀ t u v : Term, t.IsBounded → u.IsBounded → equal t u → rule.reduce? t = .ok (some v) →
    ∃ w, rule.reduce? u = .ok (some w) ∧ equal v w

theorem ReductionRule.reduce?_eq_some_iff {rule : ReductionRule} {t v : Term} :
    rule.reduce? t = .ok (some v) ↔
      ∃ b, rule.pattern.bind? t .empty = some b ∧ rule.action.perform t b = .ok v := by
  rw [reduce?]
  cases rule.pattern.bind? t .empty with
  | none => simp
  | some b => simp [map_eq_ok]

section Rules

variable {name : String} {p r : Term} {op : Variadic} {o : Binary} {holds : Term → Bool}
  {f : Term → Except DomainError Term}

/-- A rule that puts a term in the place of what its pattern matches. -/
theorem respectsEqual_replace (alike : p.MatchesAlike) (defined : r.isDefined) :
    (ReductionRule.replace name p r).RespectsEqual := by
  intro t u v boundedT boundedU h reduced
  obtain ⟨b, found, performed⟩ := ReductionRule.reduce?_eq_some_iff.1 reduced
  obtain rfl := Except.ok.inj performed
  obtain ⟨c, found', same⟩ := alike t u b boundedT boundedU h found
  exact ⟨r.substitute c, ReductionRule.reduce?_eq_some_iff.2 ⟨c, found', rfl⟩,
    equal_substitute_of_equal (equal_refl defined) same⟩

theorem respectsEqual_fail {error : DomainError} :
    (ReductionRule.fail name p error).RespectsEqual := by
  intro t u v _ _ _ reduced
  obtain ⟨b, -, performed⟩ := ReductionRule.reduce?_eq_some_iff.1 reduced
  cases performed

/-- A rule that computes with terms of a shape. -/
theorem respectsEqual_shape
    (respects : ∀ t u v, t.IsBounded → u.IsBounded → equal t u → holds t → f t = .ok v →
      holds u ∧ ∃ w, f u = .ok w ∧ equal v w) :
    (ReductionRule.shape name holds f).RespectsEqual := by
  intro t u v boundedT boundedU h reduced
  obtain ⟨b, found, performed⟩ := ReductionRule.reduce?_eq_some_iff.1 reduced
  obtain ⟨holdsT, -⟩ := Option.ite_none_right_eq_some.1 found
  obtain ⟨holdsU, w, performed', same⟩ := respects t u v boundedT boundedU h holdsT performed
  exact ⟨w, ReductionRule.reduce?_eq_some_iff.2 ⟨.empty, if_pos holdsU, performed'⟩, same⟩

/-- A rule for sums or products with an operand of a kind. -/
theorem respectsEqual_hasOperand {q : Term → Bool} {g : List Term → Term}
    (kind : ∀ t u, equal t u → q t = q u) (computes : ∀ ts, f (variadic op ts) = .ok (g ts))
    (respects : ∀ ts us, (variadic op ts).IsBounded → (variadic op us).IsBounded →
      EqualOperands ts us → ts.any q → equal (g ts) (g us)) :
    (ReductionRule.shape name (hasOperand op q) f).RespectsEqual := by
  refine respectsEqual_shape fun t u v boundedT boundedU h holdsT performed => ?_
  obtain ⟨ts, rfl, operand⟩ := mem_operandsOf holdsT
  cases equalAtRoot_of_equal h with
  | @variadic op _ us =>
    have pairs := equalOperands_of_equal (polynomialOver_variadic.1 boundedT.polynomial)
      (polynomialOver_variadic.1 boundedU.polynomial) h
    have any : ts.any q := List.any_eq_true.2 operand
    obtain rfl := Except.ok.inj ((computes ts).symm.trans performed)
    refine ⟨?_, g us, computes us, respects ts us boundedT boundedU pairs any⟩
    rwa [hasOperand, operandsOf_variadic, ← any_eq_of_equalOperands pairs fun t _ u _ => kind t u]

/-- The constants among equal operands are folded to the same number. -/
theorem fold_of_equalOperands {ts us : List Term} (boundedT : (variadic op ts).IsBounded)
    (boundedU : (variadic op us).IsBounded) (pairs : EqualOperands ts us) :
    ∃ i : Int64, (variadic op (ts.filter isConstantNode)).evaluate = .ok (.int i) ∧
      (variadic op (us.filter isConstantNode)).evaluate = .ok (.int i) := by
  obtain ⟨i, evaluatedT, valueT⟩ := evaluatesExactly_filter boundedT
  obtain ⟨j, evaluatedU, valueU⟩ := evaluatesExactly_filter boundedU
  have constants : equal (variadic op (ts.filter isConstantNode))
      (variadic op (us.filter isConstantNode)) :=
    equal_variadic_of_equalOperands (equalOperands_filter pairs fun _ _ =>
      isConstantNode_eq_of_equal)
  have same : i.toInt = j.toInt := by
    rw [valueT, valueU]
    exact (dependsOnOperands_valueIn _).eq_of_equal (isBounded_filter boundedT _).polynomial
      (isBounded_filter boundedU _).polynomial constants
  exact ⟨i, evaluatedT, Int64.toInt_inj.1 same ▸ evaluatedU⟩

/-- A rule that folds the constants of sums or products to one operand, wherever that goes. -/
theorem respectsEqual_fold {g : List Term → Term → List Term}
    (computes : ∀ ts, f (variadic op ts) = (do
      let value ← (variadic op (ts.filter isConstantNode)).evaluate
      return variadic op (g (ts.filter fun t => !isConstantNode t) (constant value))))
    (perm : ∀ ts t, (g ts t).Perm (t :: ts)) :
    (ReductionRule.shape name (hasConstants op) f).RespectsEqual := by
  refine respectsEqual_shape fun t u v boundedT boundedU h holdsT performed => ?_
  obtain ⟨ts, rfl, two⟩ := exists_of_hasConstants holdsT
  cases equalAtRoot_of_equal h with
  | @variadic op _ us =>
    have pairs := equalOperands_of_equal (polynomialOver_variadic.1 boundedT.polynomial)
      (polynomialOver_variadic.1 boundedU.polynomial) h
    have constants := equalOperands_filter pairs fun _ _ => isConstantNode_eq_of_equal
    obtain ⟨i, evaluatedT, evaluatedU⟩ := fold_of_equalOperands boundedT boundedU pairs
    rw [computes, evaluatedT] at performed
    obtain rfl := Except.ok.inj performed
    refine ⟨?_, _, by rw [computes, evaluatedU]; rfl, equal_variadic_of_equalOperands ?_⟩
    · have length : (ts.filter isConstantNode).length = (us.filter isConstantNode).length := by
        simpa using Multiset.card_eq_card_of_rel constants
      rw [hasConstants, operandsOf_variadic]
      exact decide_eq_true (length ▸ two)
    -- the order is of no importance, so the folded constant may as well come first
    · have others := equalOperands_filter pairs fun t u same =>
        congrArg not (isConstantNode_eq_of_equal same)
      rw [Multiset.coe_eq_coe.2 (perm _ _), Multiset.coe_eq_coe.2 (perm _ _),
        ← Multiset.cons_coe, ← Multiset.cons_coe]
      exact .cons (equal_refl rfl) others

/-- A rule that computes the value of an operation on two constants. -/
theorem respectsEqual_evaluated :
    (ReductionRule.compute name (binary o (anyConstant "X") (anyConstant "Y"))
      evaluated).RespectsEqual := by
  intro t u v boundedT boundedU h reduced
  obtain ⟨b, found, performed⟩ := ReductionRule.reduce?_eq_some_iff.1 reduced
  obtain ⟨l, r, rfl, hl, hr⟩ := match_constants boundedT.polynomial.isGround found
  have constant : (binary o l r).isConstant := isConstant_binary.2 ⟨hl, hr⟩
  have constant' := isConstant_of_equal boundedT.polynomial.isDefined
    boundedU.polynomial.isDefined h constant
  cases equalAtRoot_of_equal h with
  | @binary o _ _ l' r' =>
    obtain ⟨c, found'⟩ := (fits_constants boundedU.polynomial.isGround).2
      ⟨l', r', rfl, isConstant_binary.1 constant'⟩
    obtain ⟨i, evaluatedT, valueT⟩ := boundedT.evaluatesExactly constant
    obtain ⟨j, evaluatedU, valueU⟩ := boundedU.evaluatesExactly constant'
    have same : i.toInt = j.toInt := by
      rw [valueT, valueU]
      exact (dependsOnOperands_valueIn _).eq_of_equal boundedT.polynomial boundedU.polynomial h
    obtain rfl := Int64.toInt_inj.1 same
    have result : ∀ t : Term, t.evaluate = .ok (.int i) → evaluated t = .ok (int i) :=
      fun t h => by rw [evaluated, h]; rfl
    obtain rfl := Except.ok.inj ((result _ evaluatedT).symm.trans performed)
    exact ⟨int i, ReductionRule.reduce?_eq_some_iff.2 ⟨c, found', result _ evaluatedU⟩,
      equal_refl rfl⟩

end Rules

/-! ### The three groups of rules -/

section Groups

theorem respectsEqual_cleanup : ∀ rule ∈ cleanup, rule.RespectsEqual := by
  simp only [cleanup, List.forall_mem_cons, List.not_mem_nil, false_imp_iff, implies_true, and_true]
  refine ⟨?_, ?_, ?_, ?_, ?_⟩
  -- there are no reals in a polynomial
  · refine respectsEqual_shape fun t u v boundedT _ _ real _ => ?_
    obtain ⟨value, rfl, integral⟩ := isIntegralReal_iff.1 real
    obtain ⟨i, rfl⟩ := boundedT.polynomial.exists_int (mem_subterms_self _)
    exact absurd rfl integral
  · exact respectsEqual_replace matchesAlike_empty rfl
  · exact respectsEqual_replace matchesAlike_empty rfl
  · exact respectsEqual_replace matchesAlike_singleton rfl
  · exact respectsEqual_replace matchesAlike_singleton rfl

/-- The rules that drop the operands equal to a number. -/
theorem respectsEqual_withoutNumber {name : String} {op : Variadic} {i : Int64} :
    (ReductionRule.shape name (hasOperand op (·.isNumber i)) fun t =>
      .ok (withoutNumber op i t)).RespectsEqual := by
  refine respectsEqual_hasOperand (g := fun ts => variadic op (ts.filter fun t => !t.isNumber i))
    (fun t u same => isNumber_eq_of_equal same i) (fun ts => ?_) fun ts us _ _ pairs _ => ?_
  · rw [withoutNumber, operandsOf_variadic]
  · refine equal_variadic_of_equalOperands (equalOperands_filter pairs fun t u same => ?_)
    rw [isNumber_eq_of_equal same]

theorem respectsEqual_arithmetic : ∀ rule ∈ arithmetic, rule.RespectsEqual := by
  simp only [arithmetic, List.forall_mem_cons, List.not_mem_nil, false_imp_iff, implies_true,
    and_true]
  refine ⟨?_, ?_, ?_, ?_, ?_, ?_, ?_, ?_, ?_, ?_, ?_, ?_, ?_, ?_, ?_, ?_, ?_, ?_, ?_, ?_, ?_, ?_⟩
  -- what has no value, in the order of the rules as everywhere below
  · exact respectsEqual_fail
  · exact respectsEqual_fail
  · exact respectsEqual_fail
  -- zero and one in sums, products and their inverses
  · exact respectsEqual_withoutNumber
  · exact respectsEqual_replace matchesAlike_term_number rfl
  · exact respectsEqual_hasOperand (g := fun _ => int 0) (fun t u same =>
      isNumber_eq_of_equal same 0) (fun _ => rfl) fun _ _ _ _ _ _ => equal_refl rfl
  · exact respectsEqual_replace matchesAlike_number_term rfl
  · exact respectsEqual_withoutNumber
  · exact respectsEqual_replace matchesAlike_term_number rfl
  -- zero and one in powers and roots
  · exact respectsEqual_replace matchesAlike_number_term rfl
  · exact respectsEqual_replace matchesAlike_number_term rfl
  · exact respectsEqual_replace matchesAlike_term_number rfl
  · exact respectsEqual_replace matchesAlike_term_number rfl
  · exact respectsEqual_replace matchesAlike_number_term rfl
  · exact respectsEqual_replace matchesAlike_number_term rfl
  · exact respectsEqual_replace matchesAlike_term_number rfl
  -- operations on constants
  · refine respectsEqual_fold (g := fun ts t => ts ++ [t]) (fun ts => ?_) fun ts t => ?_
    · simp only [foldSum, operandsOf_variadic, List.partition_eq_filter_filter]
      rfl
    · exact List.perm_append_comm
  · exact respectsEqual_evaluated
  · refine respectsEqual_fold (g := fun ts t => t :: ts) (fun ts => ?_) fun ts t => .refl _
    simp only [foldProduct, operandsOf_variadic, List.partition_eq_filter_filter]
    rfl
  · exact respectsEqual_evaluated
  · exact respectsEqual_evaluated
  · exact respectsEqual_evaluated

/-- The rules that splice nested operations. -/
theorem respectsEqual_flatten {name : String} {op : Variadic} :
    (ReductionRule.shape name (hasOperand op (isVariadic op)) fun t =>
      .ok (flatten op t)).RespectsEqual := by
  refine respectsEqual_hasOperand (g := fun ts => variadic op (ts.flatMap (splice op)))
    (fun t u => isVariadic_eq_of_equal) (fun ts => ?_) fun ts us boundedT boundedU pairs _ => ?_
  · rw [flatten, operandsOf_variadic]
  · exact equal_variadic_of_equalOperands (equalOperands_flatMap_splice pairs
      (fun t mem => (boundedT.operand mem).polynomial.isDefined)
      fun u mem => (boundedU.operand mem).polynomial.isDefined)

/-- The rules that take inner operations out. -/
theorem respectsEqual_pullOut {name : String} {op : Variadic} {inner : Binary} :
    (ReductionRule.shape name (hasOperand op fun u => (partsOf? inner u).isSome) fun t =>
      .ok (pullOut op inner t)).RespectsEqual := by
  refine respectsEqual_hasOperand (fun t u same => ?_)
    (fun ts => congrArg Except.ok (pullOut_variadic op inner ts)) fun ts us _ _ pairs _ => ?_
  · have parts := rel_partsOf?_of_equal (o := inner) same
    generalize partsOf? inner t = a?, partsOf? inner u = b? at parts
    cases parts with
    | none => rfl
    | some both => rfl
  · exact equal_binary_iff.2 ⟨_, _, rfl,
      equal_variadic_of_equalOperands (equalOperands_leftParts pairs),
      equal_variadic_of_equalOperands (equalOperands_rightParts pairs)⟩

theorem respectsEqual_nesting : ∀ rule ∈ nesting, rule.RespectsEqual := by
  simp only [nesting, List.forall_mem_cons, List.not_mem_nil, false_imp_iff, implies_true, and_true]
  refine ⟨?_, ?_, ?_, ?_, ?_, ?_, ?_, ?_, ?_, ?_, ?_, ?_⟩
  -- sums and differences
  · exact respectsEqual_flatten
  · exact respectsEqual_pullOut
  · exact respectsEqual_replace matchesAlike_left_nested rfl
  · exact respectsEqual_replace matchesAlike_right_nested rfl
  -- products and quotients
  · exact respectsEqual_flatten
  · exact respectsEqual_pullOut
  · exact respectsEqual_replace matchesAlike_left_nested rfl
  · exact respectsEqual_replace matchesAlike_right_nested rfl
  -- powers and roots
  · exact respectsEqual_replace matchesAlike_left_nested rfl
  · exact respectsEqual_replace matchesAlike_left_nested rfl
  · exact respectsEqual_replace matchesAlike_left_nested rfl
  · exact respectsEqual_replace matchesAlike_left_nested rfl

theorem respectsEqual_of_mem_rules {rule : ReductionRule} (mem : rule ∈ rules) :
    rule.RespectsEqual := by
  rcases List.mem_append.1 mem with mem | mem
  · rcases List.mem_append.1 mem with mem | mem
    · exact respectsEqual_cleanup rule mem
    · exact respectsEqual_arithmetic rule mem
  · exact respectsEqual_nesting rule mem

end Groups

end InequalityChaining

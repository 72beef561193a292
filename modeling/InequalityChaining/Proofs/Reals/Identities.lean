import InequalityChaining.Proofs.Reals.Value

/-!
# Standard rules as identities over the reals

All standard rules but those that compute with numbers are identities over the reals: where the
term that a rule applies to has a value, the rule does not report an error, and what it puts in its
place has the same value. This is about the terms that have a value. A rule may give a value to a
term that has none, as the law of exponent zero does to a negative base, and the laws of powers of
powers and roots are wrong for negative numbers, of which powers have no value here.

## Main definitions

* `Term.KeepsValue` — another term has the value of the first where that has one
* `ReductionRule.IsIdentity` — rules that keep values and report errors only where there is none
* `Standard.computing` — the names of the rules that compute with numbers

## Main results

* `Standard.keepsValue_flatten`, `Standard.keepsValue_pullOut` — operand lists of any length
* `Standard.keepsValue_of_mul` — what the four laws of nested powers and roots have in common
* `Standard.isIdentity_of_mem` — all other standard rules are identities
* `identities_keep_values` — what this says of a term that one of them applies to
-/

namespace InequalityChaining

open Term

/-- The second term has the value of the first wherever that has one. -/
def Term.KeepsValue (t u : Term) : Prop :=
  ∀ assignment, t.HasValueAt assignment →
    u.HasValueAt assignment ∧ u.valueAt assignment = t.valueAt assignment

namespace Standard

section Laws

variable {op : Variadic} {ts : List Term} {t l r b e n z : Term} {assignment : String → ℝ}

/-! ### Zero and one -/

theorem toInt_neutral_eq_joinAll_nil (op : Variadic) : (op.neutral.toInt : ℝ) = op.joinAll [] :=
  valueIn_neutral op

theorem keepsValue_empty (op : Variadic) : (variadic op []).KeepsValue (int op.neutral) := by
  intro assignment h
  refine ⟨hasValueAt_int _, ?_⟩
  rw [valueAt_int, valueAt_variadic, toInt_neutral_eq_joinAll_nil, List.map_nil]

theorem keepsValue_singleton (op : Variadic) (t : Term) : (variadic op [t]).KeepsValue t := by
  intro assignment h
  refine ⟨hasValueAt_variadic_iff.1 h t List.mem_cons_self, ?_⟩
  rw [valueAt_variadic, List.map_singleton, Variadic.joinAll_cons, join_joinAll_nil]

theorem keepsValue_withoutNeutral (op : Variadic) (ts : List Term) :
    (variadic op ts).KeepsValue (variadic op (ts.filter fun t => !t.isNumber op.neutral)) := by
  intro assignment h
  have operands := hasValueAt_variadic_iff.1 h
  refine ⟨.variadic op fun t mem => operands t (List.mem_filter.1 mem).1, ?_⟩
  rw [valueAt_variadic, valueAt_variadic, joinAll_filter_neutral]
  intro t mem number
  rw [(valueAt_of_isNumber number).2, toInt_neutral_eq_joinAll_nil]

theorem keepsValue_neutralRight (op : Variadic) (h : n.isNumber op.neutral) :
    (binary op.inverse t n).KeepsValue t := by
  intro assignment hasValue
  have neutral : n.valueAt assignment = op.neutral.toInt := (valueAt_of_isNumber h).2
  cases op with
  | sum =>
    cases hasValue with
    | difference left right =>
      have zero : n.valueAt assignment = 0 := by simpa [Variadic.neutral] using neutral
      refine ⟨left, ?_⟩
      rw [Variadic.inverse, valueAt, zero, sub_zero]
  | product =>
    cases hasValue with
    | quotient left right nonzero =>
      have one : n.valueAt assignment = 1 := by simpa [Variadic.neutral] using neutral
      refine ⟨left, ?_⟩
      rw [Variadic.inverse, valueAt, one, div_one]

theorem keepsValue_multiplyZero (h : ∃ t ∈ ts, t.isNumber 0) :
    (product ts).KeepsValue (int 0) := by
  intro assignment hasValue
  obtain ⟨t, mem, number⟩ := h
  have zero : (0 : ℝ) ∈ ts.map (valueAt assignment) :=
    List.mem_map.2 ⟨t, mem, valueAt_eq_zero number⟩
  refine ⟨hasValueAt_int 0, ?_⟩
  rw [valueAt_variadic, Variadic.joinAll, List.prod_eq_zero zero]
  simp

theorem keepsValue_divideZero (h : z.isNumber 0) : (quotient z t).KeepsValue (int 0) := by
  intro assignment hasValue
  have zero : z.valueAt assignment = 0 := valueAt_eq_zero h
  refine ⟨hasValueAt_int 0, ?_⟩
  simp [valueAt, zero]

theorem keepsValue_zeroBase (h : b.isNumber 0) : (power b e).KeepsValue (int 0) := by
  intro assignment hasValue
  have zero : b.valueAt assignment = 0 := valueAt_eq_zero h
  cases hasValue with
  | power base exponent isPower =>
    rw [zero] at isPower
    refine ⟨hasValueAt_int 0, ?_⟩
    rw [valueAt_int, valueAt, zero, isPower.zero_rpow]
    simp

theorem keepsValue_oneBase (h : b.isNumber 1) : (power b e).KeepsValue (int 1) := by
  intro assignment hasValue
  have one : b.valueAt assignment = 1 := valueAt_eq_one h
  refine ⟨hasValueAt_int 1, ?_⟩
  simp [valueAt, one]

theorem keepsValue_zeroExponent (h : e.isNumber 0) : (power b e).KeepsValue (int 1) := by
  intro assignment hasValue
  have zero : e.valueAt assignment = 0 := valueAt_eq_zero h
  refine ⟨hasValueAt_int 1, ?_⟩
  simp [valueAt, zero]

theorem keepsValue_oneExponent (h : e.isNumber 1) : (power b e).KeepsValue b := by
  intro assignment hasValue
  have one : e.valueAt assignment = 1 := valueAt_eq_one h
  cases hasValue with
  | power base exponent isPower => exact ⟨base, by simp [valueAt, one]⟩

theorem keepsValue_rootOfZero (h : r.isNumber 0) : (root r n).KeepsValue (int 0) := by
  intro assignment hasValue
  have zero : r.valueAt assignment = 0 := valueAt_eq_zero h
  cases hasValue with
  | root radicand index nonzero isPower =>
    rw [zero] at isPower
    refine ⟨hasValueAt_int 0, ?_⟩
    rw [valueAt_int, valueAt, zero, isPower.zero_rpow]
    simp

theorem keepsValue_rootOfOne (h : r.isNumber 1) : (root r n).KeepsValue (int 1) := by
  intro assignment hasValue
  have one : r.valueAt assignment = 1 := valueAt_eq_one h
  refine ⟨hasValueAt_int 1, ?_⟩
  simp [valueAt, one]

theorem keepsValue_firstRoot (h : n.isNumber 1) : (root r n).KeepsValue r := by
  intro assignment hasValue
  have one : n.valueAt assignment = 1 := valueAt_eq_one h
  cases hasValue with
  | root radicand index nonzero isPower => exact ⟨radicand, by simp [valueAt, one]⟩

/-! ### Nested operations -/

/-- Splicing the operands of inner operations keeps the value. -/
theorem keepsValue_flatten (op : Variadic) (ts : List Term) :
    (variadic op ts).KeepsValue (variadic op (ts.flatMap (splice op))) := by
  intro assignment h
  have operands := hasValueAt_variadic_iff.1 h
  refine ⟨.variadic op (forall_mem_flatMap_splice ?_ operands), ?_⟩
  · exact fun us inner => hasValueAt_variadic_iff.1 inner
  · rw [valueAt_variadic, valueAt_variadic, joinAll_flatMap_splice (valueAt_variadic assignment op)]

theorem hasValueAt_inverse_iff :
    (binary op.inverse l r).HasValueAt assignment ↔ l.HasValueAt assignment ∧
      r.HasValueAt assignment ∧ (op = .product → r.valueAt assignment ≠ 0) := by
  cases op with
  | sum =>
    constructor
    · intro h
      cases h with
      | difference left right => exact ⟨left, right, nofun⟩
    · exact fun h => .difference h.1 h.2.1
  | product =>
    constructor
    · intro h
      cases h with
      | quotient left right nonzero => exact ⟨left, right, fun _ => nonzero⟩
    · exact fun h => .quotient h.1 h.2.1 (h.2.2 rfl)

/-- Quotients taken out of a product contribute to both sides. -/
theorem prod_parts {f : Term → ℝ} (whole : ∀ l r, f (quotient l r) = f l / f r)
    (ts : List Term) :
    ((ts.map (leftPart .quotient)).map f).prod /
        ((ts.filterMap (rightPart? .quotient)).map f).prod = (ts.map f).prod := by
  induction ts with
  | nil => simp
  | cons t ts ih =>
    simp only [List.map_cons, List.prod_cons, List.filterMap_cons, ← ih]
    rcases parts_cases .quotient t with ⟨l, r, rfl, left, right⟩ | ⟨-, left, right⟩
    · simp only [left, right, List.map_cons, List.prod_cons, whole]
      exact mul_div_mul_comm _ _ _ _
    · simp only [left, right]
      exact mul_div_assoc _ _ _

/-- Taking inner operations out keeps the value. What is divided by then are the denominators
multiplied, none of which is zero. -/
theorem keepsValue_pullOut (op : Variadic) (ts : List Term) :
    (variadic op ts).KeepsValue (binary op.inverse (variadic op (ts.map (leftPart op.inverse)))
      (variadic op (ts.filterMap (rightPart? op.inverse)))) := by
  intro assignment h
  have operands := hasValueAt_variadic_iff.1 h
  have lefts : ∀ u ∈ ts.map (leftPart op.inverse), u.HasValueAt assignment :=
    forall_mem_leftParts (fun l r inner => (hasValueAt_inverse_iff.1 inner).1) operands
  have rights : ∀ u ∈ ts.filterMap (rightPart? op.inverse),
      u.HasValueAt assignment ∧ (op = .product → u.valueAt assignment ≠ 0) := by
    intro u mem
    obtain ⟨t, operand, found⟩ := List.mem_filterMap.1 mem
    rcases parts_cases op.inverse t with ⟨l, r, rfl, -, right⟩ | ⟨-, -, right⟩
    · obtain rfl := Option.some.inj (right.symm.trans found)
      exact (hasValueAt_inverse_iff.1 (operands _ operand)).2
    · simp [right] at found
  refine ⟨hasValueAt_inverse_iff.2 ⟨.variadic op lefts, .variadic op fun u mem => (rights u mem).1,
    ?_⟩, ?_⟩
  · rintro rfl
    rw [valueAt_variadic]
    refine List.prod_ne_zero fun zero => ?_
    obtain ⟨u, mem, isZero⟩ := List.mem_map.1 zero
    exact (rights u mem).2 rfl isZero
  · cases op with
    | sum =>
      rw [Variadic.inverse, valueAt_difference, valueAt_variadic, valueAt_variadic,
        valueAt_variadic]
      exact sum_parts (valueAt_difference assignment) ts
    | product =>
      rw [Variadic.inverse, valueAt_quotient, valueAt_variadic, valueAt_variadic,
        valueAt_variadic]
      exact prod_parts (valueAt_quotient assignment) ts

theorem valueAt_pair (op : Variadic) (l r : Term) :
    (variadic op [l, r]).valueAt assignment =
      op.join (l.valueAt assignment) (r.valueAt assignment) := by
  rw [valueAt_variadic, List.map_cons, List.map_singleton, Variadic.joinAll_cons,
    Variadic.joinAll_cons, join_joinAll_nil]

theorem keepsValue_nestedLeft (op : Variadic) (x y z : Term) :
    (binary op.inverse (binary op.inverse x y) z).KeepsValue
      (binary op.inverse x (variadic op [y, z])) := by
  intro assignment h
  obtain ⟨inner, hz, nonzero⟩ := hasValueAt_inverse_iff.1 h
  obtain ⟨hx, hy, nonzero'⟩ := hasValueAt_inverse_iff.1 inner
  refine ⟨hasValueAt_inverse_iff.2 ⟨hx, .variadic op (by simp [hy, hz]), ?_⟩, ?_⟩
  · rintro rfl
    rw [valueAt_pair]
    exact mul_ne_zero (nonzero' rfl) (nonzero rfl)
  · cases op with
    | sum =>
      rw [Variadic.inverse, valueAt_difference, valueAt_difference, valueAt_difference,
        valueAt_pair]
      exact (sub_sub _ _ _).symm
    | product =>
      rw [Variadic.inverse, valueAt_quotient, valueAt_quotient, valueAt_quotient, valueAt_pair]
      exact (div_div _ _ _).symm

theorem keepsValue_nestedRight (op : Variadic) (x y z : Term) :
    (binary op.inverse x (binary op.inverse y z)).KeepsValue
      (binary op.inverse (variadic op [x, z]) y) := by
  intro assignment h
  obtain ⟨hx, inner, nonzero⟩ := hasValueAt_inverse_iff.1 h
  obtain ⟨hy, hz, nonzero'⟩ := hasValueAt_inverse_iff.1 inner
  refine ⟨hasValueAt_inverse_iff.2 ⟨.variadic op (by simp [hx, hz]), hy, ?_⟩, ?_⟩
  · -- a quotient with the value zero for its numerator has the value zero
    rintro rfl zero
    refine nonzero rfl ?_
    rw [Variadic.inverse, valueAt_quotient, zero, zero_div]
  · cases op with
    | sum =>
      rw [Variadic.inverse, valueAt_difference, valueAt_difference, valueAt_difference,
        valueAt_pair]
      exact (sub_sub_eq_add_sub _ _ _).symm
    | product =>
      rw [Variadic.inverse, valueAt_quotient, valueAt_quotient, valueAt_quotient, valueAt_pair]
      exact (div_div_eq_mul_div _ _ _).symm

/-! ### Powers and roots -/

theorem hasValueAt_power_iff :
    (power b e).HasValueAt assignment ↔ b.HasValueAt assignment ∧ e.HasValueAt assignment ∧
      IsPower (b.valueAt assignment) (e.valueAt assignment) := by
  constructor
  · intro h
    cases h with
    | power base exponent isPower => exact ⟨base, exponent, isPower⟩
  · exact fun h => .power h.1 h.2.1 h.2.2

theorem hasValueAt_root_iff :
    (root r n).HasValueAt assignment ↔ r.HasValueAt assignment ∧ n.HasValueAt assignment ∧
      n.valueAt assignment ≠ 0 ∧ IsPower (r.valueAt assignment) (1 / n.valueAt assignment) := by
  constructor
  · intro h
    cases h with
    | root radicand index nonzero isPower => exact ⟨radicand, index, nonzero, isPower⟩
  · exact fun h => .root h.1 h.2.1 h.2.2.1 h.2.2.2

/-- The nested operations are powers of powers, and the other operation is the power with the
product of the exponents. -/
theorem keepsValue_of_mul {t x e : Term} {y z : ℝ} (hx : x.HasValueAt assignment)
    (he : e.HasValueAt assignment) (inner : IsPower (x.valueAt assignment) y)
    (outer : IsPower (x.valueAt assignment ^ y) z)
    (value : t.valueAt assignment = (x.valueAt assignment ^ y) ^ z)
    (exponent : e.valueAt assignment = y * z) :
    (power x e).HasValueAt assignment ∧
      (power x e).valueAt assignment = t.valueAt assignment := by
  refine ⟨.power hx he (exponent ▸ inner.mul outer), ?_⟩
  rw [valueAt_power, value, exponent, Real.rpow_mul inner.nonneg]

theorem keepsValue_powerOfPower (x y z : Term) :
    (power (power x y) z).KeepsValue (power x (product [y, z])) := by
  intro assignment h
  obtain ⟨inner, hz, outer⟩ := hasValueAt_power_iff.1 h
  obtain ⟨hx, hy, isPower⟩ := hasValueAt_power_iff.1 inner
  rw [valueAt_power] at outer
  refine keepsValue_of_mul hx (.variadic .product (by simp [hy, hz])) isPower outer ?_ ?_
  · rw [valueAt_power, valueAt_power]
  · rw [valueAt_pair, Variadic.join]

theorem keepsValue_powerOfRoot (x y z : Term) :
    (power (root x y) z).KeepsValue (power x (quotient z y)) := by
  intro assignment h
  obtain ⟨inner, hz, outer⟩ := hasValueAt_power_iff.1 h
  obtain ⟨hx, hy, nonzero, isPower⟩ := hasValueAt_root_iff.1 inner
  rw [valueAt_root] at outer
  refine keepsValue_of_mul hx (.quotient hz hy nonzero) isPower outer ?_ ?_
  · rw [valueAt_power, valueAt_root]
  · rw [valueAt_quotient]
    ring

theorem keepsValue_rootOfPower (x y z : Term) :
    (root (power x y) z).KeepsValue (power x (quotient y z)) := by
  intro assignment h
  obtain ⟨inner, hz, nonzero, outer⟩ := hasValueAt_root_iff.1 h
  obtain ⟨hx, hy, isPower⟩ := hasValueAt_power_iff.1 inner
  rw [valueAt_power] at outer
  refine keepsValue_of_mul hx (.quotient hy hz nonzero) isPower outer ?_ ?_
  · rw [valueAt_root, valueAt_power]
  · rw [valueAt_quotient]
    ring

theorem keepsValue_rootOfRoot (x y z : Term) :
    (root (root x y) z).KeepsValue (root x (product [y, z])) := by
  intro assignment h
  obtain ⟨inner, hz, nonzero, outer⟩ := hasValueAt_root_iff.1 h
  obtain ⟨hx, hy, nonzero', isPower⟩ := hasValueAt_root_iff.1 inner
  rw [valueAt_root] at outer
  have index : 1 / (product [y, z]).valueAt assignment =
      1 / y.valueAt assignment * (1 / z.valueAt assignment) := by
    rw [valueAt_pair, Variadic.join, one_div_mul_one_div]
  have isProduct : (product [y, z]).HasValueAt assignment :=
    .variadic .product (by simp [hy, hz])
  refine ⟨.root hx isProduct ?_ (index ▸ isPower.mul outer), ?_⟩
  · rw [valueAt_pair]
    exact mul_ne_zero nonzero' nonzero
  · rw [valueAt_root, valueAt_root, valueAt_root, index, Real.rpow_mul isPower.nonneg]

/-! ### Operations without a value -/

theorem not_hasValueAt_quotient (h : n.isNumber 0) : ¬ (quotient t n).HasValueAt assignment := by
  have zero : n.valueAt assignment = 0 := valueAt_eq_zero h
  intro hasValue
  cases hasValue with
  | quotient left right nonzero => exact nonzero zero

theorem not_hasValueAt_power (hb : b.isNumber 0) (he : e.isNumber 0) :
    ¬ (power b e).HasValueAt assignment := by
  have zeroBase : b.valueAt assignment = 0 := valueAt_eq_zero hb
  have zeroExponent : e.valueAt assignment = 0 := valueAt_eq_zero he
  intro hasValue
  obtain ⟨-, -, isPower⟩ := hasValueAt_power_iff.1 hasValue
  simp [IsPower, zeroBase, zeroExponent] at isPower

theorem not_hasValueAt_root (h : n.isNumber 0) : ¬ (root r n).HasValueAt assignment := by
  have zero : n.valueAt assignment = 0 := valueAt_eq_zero h
  intro hasValue
  exact (hasValueAt_root_iff.1 hasValue).2.2.1 zero

end Laws

end Standard

/-! ### Rules -/

/-- The rule keeps the value of what it applies to, and reports an error only where there is none.
-/
def ReductionRule.IsIdentity (rule : ReductionRule) : Prop :=
  ∀ t b, t.isGround → rule.pattern.bind? t .empty = some b →
    match rule.action.perform t b with
    | .ok u => t.KeepsValue u
    | .error _ => ∀ assignment, ¬ t.HasValueAt assignment

/-- An identity makes another term of a term that it fits and that has a value. -/
theorem ReductionRule.IsIdentity.exists_reduce? {rule : ReductionRule} {t : Term} {b : Bindings}
    {assignment : String → ℝ} (identity : rule.IsIdentity)
    (fits : rule.pattern.bind? t .empty = some b) (hasValue : t.HasValueAt assignment) :
    ∃ u, rule.reduce? t = .ok (some u) ∧ t.KeepsValue u := by
  have outcome := identity t b hasValue.isGround fits
  cases performed : rule.action.perform t b with
  | error error =>
    rw [performed] at outcome
    exact absurd hasValue (outcome assignment)
  | ok u =>
    rw [performed] at outcome
    refine ⟨u, ?_, outcome⟩
    rw [reduce?, fits]
    exact congrArg (Except.map some) performed

namespace Standard

section Kinds

variable {name : String} {o o' : Binary} {i : Int64} {r p : Term}

theorem isIdentity_fail {error : DomainError} (h : ∀ (t : Term) b, t.isGround →
    t.matchPattern? p .empty = some b → ∀ assignment, ¬ t.HasValueAt assignment) :
    (ReductionRule.fail name p error).IsIdentity :=
  h

/-- A rule for a term with a number on the right. -/
theorem isIdentity_term_number (h : ∀ l n, n.isNumber i → (binary o l n).KeepsValue
    (r.substitute (Bindings.empty.insert "X" l))) :
    (ReductionRule.replace name (binary o (anyTerm "X") (int i)) r).IsIdentity := by
  intro t b ground fits
  obtain ⟨l, n, rfl, number, rfl⟩ := match_term_number ground fits
  exact h l n number

/-- A rule for a term with a number on the left. -/
theorem isIdentity_number_term (h : ∀ n l, n.isNumber i → (binary o n l).KeepsValue
    (r.substitute (Bindings.empty.insert "X" l))) :
    (ReductionRule.replace name (binary o (int i) (anyTerm "X")) r).IsIdentity := by
  intro t b ground fits
  obtain ⟨n, l, rfl, number, rfl⟩ := match_number_term ground fits
  exact h n l number

/-- A rule for an operation whose left operand is another. -/
theorem isIdentity_left_nested (h : ∀ x y z, (binary o (binary o' x y) z).KeepsValue
    (r.substitute (((Bindings.empty.insert "X" x).insert "Y" y).insert "Z" z))) :
    (ReductionRule.replace name
      (binary o (binary o' (anyTerm "X") (anyTerm "Y")) (anyTerm "Z")) r).IsIdentity := by
  intro t b ground fits
  obtain ⟨x, y, z, rfl, rfl⟩ := match_left_nested ground fits
  exact h x y z

/-- A rule for an operation whose right operand is another. -/
theorem isIdentity_right_nested (h : ∀ x y z, (binary o x (binary o' y z)).KeepsValue
    (r.substitute (((Bindings.empty.insert "X" x).insert "Y" y).insert "Z" z))) :
    (ReductionRule.replace name
      (binary o (anyTerm "X") (binary o' (anyTerm "Y") (anyTerm "Z"))) r).IsIdentity := by
  intro t b ground fits
  obtain ⟨x, y, z, rfl, rfl⟩ := match_right_nested ground fits
  exact h x y z

/-- A rule for a sum or product with an operand of a kind. -/
theorem isIdentity_hasOperand {op : Variadic} {kind : Term → Bool} {f : Term → Term}
    (h : ∀ ts, (∃ u ∈ ts, kind u) → (variadic op ts).KeepsValue (f (variadic op ts))) :
    (ReductionRule.shape name (hasOperand op kind) fun t => .ok (f t)).IsIdentity := by
  intro t b ground fits
  obtain ⟨ts, rfl, operand⟩ := mem_operandsOf (Option.ite_none_right_eq_some.1 fits).1
  exact h ts operand

theorem isIdentity_empty (op : Variadic) :
    (ReductionRule.replace name (variadic op []) (int op.neutral)).IsIdentity := by
  intro t b ground fits
  obtain rfl := match_empty fits
  exact keepsValue_empty op

theorem isIdentity_singleton (op : Variadic) :
    (ReductionRule.replace name (variadic op [anyTerm "X"]) (anyTerm "X")).IsIdentity := by
  intro t b ground fits
  obtain ⟨u, rfl, rfl⟩ := match_singleton ground fits
  exact keepsValue_singleton op u

/-- Operands of the kind of the operation give their own operands. -/
theorem isIdentity_flatten (op : Variadic) :
    (ReductionRule.shape name (hasOperand op (isVariadic op))
      fun t => .ok (flatten op t)).IsIdentity := by
  refine isIdentity_hasOperand fun ts _ => ?_
  rw [flatten, operandsOf_variadic]
  exact keepsValue_flatten op ts

theorem isIdentity_withoutNeutral (op : Variadic) :
    (ReductionRule.shape name (hasOperand op (·.isNumber op.neutral))
      fun t => .ok (withoutNumber op op.neutral t)).IsIdentity := by
  refine isIdentity_hasOperand fun ts _ => ?_
  rw [withoutNumber, operandsOf_variadic]
  exact keepsValue_withoutNeutral op ts

theorem isIdentity_pullOut (op : Variadic) :
    (ReductionRule.shape name (hasOperand op fun u => (partsOf? op.inverse u).isSome)
      fun t => .ok (pullOut op op.inverse t)).IsIdentity := by
  refine isIdentity_hasOperand fun ts _ => ?_
  rw [pullOut_variadic]
  exact keepsValue_pullOut op ts

end Kinds

/-- The names of the rules that compute with numbers. -/
def computing : List String :=
  ["integral_real", "fold_sum", "fold_difference", "fold_product", "fold_quotient", "fold_power",
    "fold_root"]

theorem isIdentity_cleanup :
    ∀ rule ∈ cleanup, rule.name ∉ computing → rule.IsIdentity := by
  simp only [cleanup, List.forall_mem_cons, List.not_mem_nil, false_imp_iff, implies_true, and_true]
  refine ⟨fun h => absurd ?_ h, fun _ => isIdentity_empty .sum, fun _ => isIdentity_empty .product,
    fun _ => isIdentity_singleton .sum, fun _ => isIdentity_singleton .product⟩
  decide

theorem isIdentity_arithmetic :
    ∀ rule ∈ arithmetic, rule.name ∉ computing → rule.IsIdentity := by
  simp only [arithmetic, List.forall_mem_cons, List.not_mem_nil, false_imp_iff, implies_true,
    and_true]
  refine ⟨fun _ => ?_, fun _ => ?_, fun _ => ?_, fun _ => ?_, fun _ => ?_, fun _ => ?_, fun _ => ?_,
    fun _ => ?_, fun _ => ?_, fun _ => ?_, fun _ => ?_, fun _ => ?_, fun _ => ?_, fun _ => ?_,
    fun _ => ?_, fun _ => ?_, ?_⟩
  -- what has no value, in the order of the rules as everywhere below
  · refine isIdentity_fail fun t b ground fits assignment => ?_
    obtain ⟨l, r, rfl, hr, -⟩ := match_term_number ground fits
    exact not_hasValueAt_quotient hr
  · refine isIdentity_fail fun t b ground fits assignment => ?_
    obtain ⟨l, r, c, rfl, hl, hr⟩ := matchPattern?_binary_eq_some.1 fits
    exact not_hasValueAt_power (match_int.1 hl).1 (match_int.1 hr).1
  · refine isIdentity_fail fun t b ground fits assignment => ?_
    obtain ⟨l, r, rfl, hr, -⟩ := match_term_number ground fits
    exact not_hasValueAt_root hr
  -- zero and one in sums, products and their inverses
  · exact isIdentity_withoutNeutral .sum
  · exact isIdentity_term_number fun l n hn => keepsValue_neutralRight .sum hn
  · exact isIdentity_hasOperand fun ts h => keepsValue_multiplyZero h
  · exact isIdentity_number_term fun n l hn => keepsValue_divideZero hn
  · exact isIdentity_withoutNeutral .product
  · exact isIdentity_term_number fun l n hn => keepsValue_neutralRight .product hn
  -- zero and one in powers and roots
  · exact isIdentity_number_term fun n l hn => keepsValue_zeroBase hn
  · exact isIdentity_number_term fun n l hn => keepsValue_oneBase hn
  · exact isIdentity_term_number fun l n hn => keepsValue_zeroExponent hn
  · exact isIdentity_term_number fun l n hn => keepsValue_oneExponent hn
  · exact isIdentity_number_term fun n l hn => keepsValue_rootOfZero hn
  · exact isIdentity_number_term fun n l hn => keepsValue_rootOfOne hn
  · exact isIdentity_term_number fun l n hn => keepsValue_firstRoot hn
  -- operations on constants are not among these rules
  · refine ⟨fun h => absurd ?_ h, fun h => absurd ?_ h, fun h => absurd ?_ h,
      fun h => absurd ?_ h, fun h => absurd ?_ h, fun h => absurd ?_ h⟩ <;> decide

theorem isIdentity_nesting : ∀ rule ∈ nesting, rule.IsIdentity := by
  simp only [nesting, List.forall_mem_cons, List.not_mem_nil, false_imp_iff, implies_true, and_true]
  refine ⟨?_, ?_, ?_, ?_, ?_, ?_, ?_, ?_, ?_, ?_, ?_, ?_⟩
  -- sums and differences
  · exact isIdentity_flatten .sum
  · exact isIdentity_pullOut .sum
  · exact isIdentity_left_nested (keepsValue_nestedLeft .sum)
  · exact isIdentity_right_nested (keepsValue_nestedRight .sum)
  -- products and quotients, by the same laws
  · exact isIdentity_flatten .product
  · exact isIdentity_pullOut .product
  · exact isIdentity_left_nested (keepsValue_nestedLeft .product)
  · exact isIdentity_right_nested (keepsValue_nestedRight .product)
  -- powers and roots
  · exact isIdentity_left_nested keepsValue_powerOfPower
  · exact isIdentity_left_nested keepsValue_powerOfRoot
  · exact isIdentity_left_nested keepsValue_rootOfPower
  · exact isIdentity_left_nested keepsValue_rootOfRoot

/-- All standard rules that do not compute with numbers are identities. -/
theorem isIdentity_of_mem {rule : ReductionRule} (mem : rule ∈ rules)
    (name : rule.name ∉ computing) : rule.IsIdentity := by
  rcases List.mem_append.1 mem with mem | mem
  · rcases List.mem_append.1 mem with mem | mem
    · exact isIdentity_cleanup rule mem name
    · exact isIdentity_arithmetic rule mem name
  · exact isIdentity_nesting rule mem

end Standard

/-- What a standard rule other than those that compute with numbers makes of a term has a value
wherever the term has one, and it is the same. The rules that report errors do not apply there. -/
theorem identities_keep_values (rule : ReductionRule) (mem : rule ∈ ReductionTable.standard.rules)
    (name : rule.name ∉ Standard.computing) (t : Term) (b : Bindings)
    (fits : rule.pattern.bind? t .empty = some b) (assignment : String → ℝ)
    (hasValue : t.HasValueAt assignment) :
    (∀ error, rule.action ≠ .fail error) ∧
      ∃ u, rule.reduce? t = .ok (some u) ∧ u.HasValueAt assignment ∧
        u.valueAt assignment = t.valueAt assignment := by
  obtain ⟨u, reduced, keeps⟩ := (Standard.isIdentity_of_mem mem name).exists_reduce? fits hasValue
  refine ⟨fun error fails => ?_, u, reduced, keeps assignment hasValue⟩
  simp [ReductionRule.reduce?, fits, fails, Action.perform, Except.map] at reduced

/-- A third root of a square root has a value where the variable is four, and the root whose index
is the product of the two, which it becomes, has the same. -/
theorem identities_keep_values_root_of_root :
    let t := root (root (var "x") (int 2)) (int 3)
    let u := root (var "x") (product [int 2, int 3])
    t.HasValueAt (fun _ => 4) ∧
      ∃ rule ∈ ReductionTable.standard.rules, rule.name = "root_of_root" ∧
        rule.name ∉ Standard.computing ∧ rule.reduce? t = .ok (some u) ∧
          u.HasValueAt (fun _ => 4) ∧ u.valueAt (fun _ => 4) = t.valueAt fun _ => 4 := by
  intro t u
  let rule := Standard.nesting.getLast (by decide)
  have mem : rule ∈ ReductionTable.standard.rules :=
    List.mem_append_right _ (List.getLast_mem _)
  have fits : rule.pattern.bind? t .empty =
      some (((Bindings.empty.insert "X" (var "x")).insert "Y" (int 2)).insert "Z" (int 3)) := by
    change t.matchPattern? (root (root (Standard.anyTerm "X") (Standard.anyTerm "Y"))
      (Standard.anyTerm "Z")) .empty = _
    rw [matchPattern?_binary, if_pos rfl, matchPattern?_binary, if_pos rfl,
      Standard.match_anyTerm rfl rfl, Option.bind_some, Standard.match_anyTerm rfl (by decide),
      Option.bind_some, Standard.match_anyTerm rfl (by decide)]
  have nonzero : ∀ i : Int64, i.toInt ≠ 0 → (int i).valueAt (fun _ => 4) ≠ 0 := by
    intro i h
    rw [valueAt_int]
    exact Int.cast_ne_zero.2 h
  have inner : (root (var "x") (int 2)).HasValueAt fun _ => 4 := by
    refine .root (.var "x") (hasValueAt_int 2) (nonzero 2 (by decide)) (.inl ?_)
    norm_num [valueAt]
  have hasValue : t.HasValueAt fun _ => 4 := by
    refine .root inner (hasValueAt_int 3) (nonzero 3 (by decide)) (.inl ?_)
    rw [valueAt_root]
    exact Real.rpow_pos_of_pos (by norm_num [valueAt]) _
  have name : rule.name ∉ Standard.computing := by decide
  have reduced : rule.reduce? t = .ok (some u) := by
    rw [ReductionRule.reduce?, fits]
    rfl
  obtain ⟨-, u', reduced', hasValue', value⟩ :=
    identities_keep_values rule mem name t _ fits _ hasValue
  obtain rfl := Option.some.inj (Except.ok.inj (reduced'.symm.trans reduced))
  exact ⟨hasValue, rule, mem, rfl, name, reduced, hasValue', value⟩

end InequalityChaining

import InequalityChaining.Proofs.Reduction.StandardStep
import InequalityChaining.Proofs.Term.Evaluation

/-!
# What occurs in a reduct

The standard rules rearrange the parts of a term and compute new numbers, which are finite, but they
bring in no variables and no placeholders. So a term without them is reduced to one without them,
wherever in the term a rule is applied, and so it is with constants that are not finite.

## Main definitions

* `Term.IsLeafProperty` — properties that only variables and placeholders may have
* `Term.IsUncomputed` — properties that infinite and undefined constants may have too
* `Term.isForeign` — variables that are not listed
* `Term.isFinite` — terms all constants of which are finite

## Main results

* `Standard.Reduces.any_eq_false` — a rule at the root brings in no leaf with such a property
* `Standard.any_eq_false_of_rewrites` — nor does a rewriting
* `Standard.any_eq_false_of_simplify` — nor does simplification
-/

open Relation (ReflTransGen)

namespace InequalityChaining

namespace Term

/-- A property that only variables and placeholders may have. -/
structure IsLeafProperty (p : Term → Bool) : Prop where
  constant : ∀ value, p (constant value) = false
  variadic : ∀ op ts, p (variadic op ts) = false
  binary : ∀ op l r, p (binary op l r) = false

/-- A property that nothing computed has: only variables, placeholders and constants that are not
finite may have it. -/
structure IsUncomputed (p : Term → Bool) : Prop where
  constant : ∀ value, value.isFinite → p (constant value) = false
  variadic : ∀ op ts, p (variadic op ts) = false
  binary : ∀ op l r, p (binary op l r) = false

/-- Whether the term is a variable that is not listed. -/
def isForeign (names : List String) : Term → Bool
  | var name => !names.contains name
  | _ => false

/-- Whether the term is by itself a constant that is not finite. -/
def isNonFiniteConstant : Term → Bool
  | constant value => !value.isFinite
  | _ => false

/-- Whether all constants in the term are finite. -/
def isFinite (t : Term) : Bool := !t.any isNonFiniteConstant

section Leaf

variable {p : Term → Bool} {op : Variadic} {o : Binary} {ts : List Term} {l r t : Term}
  {value : Number}

theorem isLeafProperty_isPlaceholder : IsLeafProperty isPlaceholder :=
  ⟨fun _ => rfl, fun _ _ => rfl, fun _ _ _ => rfl⟩

theorem isLeafProperty_isVar_or_isPlaceholder :
    IsLeafProperty fun u => u.isVar || u.isPlaceholder :=
  ⟨fun _ => rfl, fun _ _ => rfl, fun _ _ _ => rfl⟩

theorem isLeafProperty_isForeign (names : List String) : IsLeafProperty (isForeign names) :=
  ⟨fun _ => rfl, fun _ _ => rfl, fun _ _ _ => rfl⟩

theorem any_isForeign_eq_false_iff {names : List String} :
    t.any (isForeign names) = false ↔ ∀ name ∈ t.varNames, name ∈ names := by
  simp only [any, List.any_eq_false, varNames, Text.mem_ascending, List.mem_filterMap]
  constructor
  · rintro known name ⟨u, mem, named⟩
    cases u with
    | var n =>
      obtain rfl := Option.some.inj named
      simpa [isForeign] using known _ mem
    | _ => cases named
  · intro known u mem
    cases u with
    | var n => simpa [isForeign] using known n ⟨_, mem, rfl⟩
    | _ => simp [isForeign]

theorem IsLeafProperty.isUncomputed (leaf : IsLeafProperty p) : IsUncomputed p :=
  ⟨fun value _ => leaf.constant value, leaf.variadic, leaf.binary⟩

theorem isUncomputed_isNonFiniteConstant : IsUncomputed isNonFiniteConstant where
  constant value finite := by simp [isNonFiniteConstant, finite]
  variadic _ _ := rfl
  binary _ _ _ := rfl

theorem IsUncomputed.any_constant (uncomputed : IsUncomputed p) (finite : value.isFinite) :
    (Term.constant value).any p = false := by
  simp [any, subterms, uncomputed.constant value finite]

theorem IsUncomputed.any_int (uncomputed : IsUncomputed p) (i : Int64) :
    (Term.int i).any p = false :=
  uncomputed.any_constant (Number.isFinite_int i)

theorem IsUncomputed.any_variadic (uncomputed : IsUncomputed p) :
    (Term.variadic op ts).any p = false ↔ ∀ t ∈ ts, t.any p = false := by
  simp [Term.any_variadic, uncomputed.variadic]

theorem IsUncomputed.any_binary (uncomputed : IsUncomputed p) :
    (Term.binary o l r).any p = false ↔ l.any p = false ∧ r.any p = false := by
  simp [Term.any_binary, uncomputed.binary]

theorem IsLeafProperty.any_constant (leaf : IsLeafProperty p) (value : Number) :
    (Term.constant value).any p = false := by
  simp [any, subterms, leaf.constant]

theorem IsLeafProperty.any_variadic (leaf : IsLeafProperty p) :
    (Term.variadic op ts).any p = false ↔ ∀ t ∈ ts, t.any p = false :=
  leaf.isUncomputed.any_variadic

theorem IsLeafProperty.any_binary (leaf : IsLeafProperty p) :
    (Term.binary o l r).any p = false ↔ l.any p = false ∧ r.any p = false :=
  leaf.isUncomputed.any_binary

end Leaf

end Term

namespace Standard

open Term

variable {p : Term → Bool} {t u : Term}

/-- A rule brings in no leaf with a property that nothing computed has. -/
theorem Reduces.any_eq_false (h : Reduces t u) (uncomputed : IsUncomputed p)
    (none : t.any p = false) : u.any p = false := by
  cases h with
  | singleton op t => exact uncomputed.any_variadic.1 none _ List.mem_cons_self
  | dropNeutral op h =>
    apply uncomputed.any_variadic.2
    exact fun v mem => uncomputed.any_variadic.1 none v (List.mem_filter.1 mem).1
  | neutralRight op h => exact (uncomputed.any_binary.1 none).1
  | oneExponent h => exact (uncomputed.any_binary.1 none).1
  | firstRoot h => exact (uncomputed.any_binary.1 none).1
  | foldSum two h =>
    refine uncomputed.any_variadic.2 fun v mem => ?_
    rcases List.mem_append.1 mem with mem | mem
    · exact uncomputed.any_variadic.1 none v (List.mem_filter.1 mem).1
    · rw [List.mem_singleton.1 mem]
      exact uncomputed.any_constant (isFinite_of_evaluate_variadic h)
  | foldProduct two h =>
    refine uncomputed.any_variadic.2 fun v mem => ?_
    rcases List.mem_cons.1 mem with rfl | mem
    · exact uncomputed.any_constant (isFinite_of_evaluate_variadic h)
    · exact uncomputed.any_variadic.1 none v (List.mem_filter.1 mem).1
  | foldBinary hl hr h => exact uncomputed.any_constant (isFinite_of_evaluate_binary h)
  | flatten op h =>
    refine uncomputed.any_variadic.2
      (forall_mem_flatMap_splice ?_ (uncomputed.any_variadic.1 none))
    intro us inner
    exact uncomputed.any_variadic.1 inner
  | pullOut op h =>
    have operands := uncomputed.any_variadic.1 none
    refine uncomputed.any_binary.2 ⟨uncomputed.any_variadic.2 ?_, uncomputed.any_variadic.2 ?_⟩
    · exact forall_mem_leftParts (fun l r inner => (uncomputed.any_binary.1 inner).1) operands
    · exact forall_mem_rightParts (fun l r inner => (uncomputed.any_binary.1 inner).2) operands
  -- the parts of two nested operations are put together in another way
  | nestedLeft op x y z => simp_all [uncomputed.any_binary, uncomputed.any_variadic]
  | nestedRight op x y z => simp_all [uncomputed.any_binary, uncomputed.any_variadic]
  | powerOfPower x y z => simp_all [uncomputed.any_binary, uncomputed.any_variadic]
  | powerOfRoot x y z => simp_all [uncomputed.any_binary]
  | rootOfPower x y z => simp_all [uncomputed.any_binary]
  | rootOfRoot x y z => simp_all [uncomputed.any_binary, uncomputed.any_variadic]
  -- all other rules leave an integer behind
  | _ => exact uncomputed.any_int _

/-- Nor does a rewriting of a ground term, wherever it takes place. -/
theorem any_eq_false_of_rewrites (h : Rewrites rules t u) (uncomputed : IsUncomputed p)
    (ground : t.isGround) (none : t.any p = false) : u.any p = false := by
  induction h with
  | root h => exact (reduces_of_reduceRoot ground h).any_eq_false uncomputed none
  | @operand t u op before after _ ih =>
    have operands := uncomputed.any_variadic.1 none
    have replaced := ih (isGround_variadic.1 ground t (by simp)) (operands t (by simp))
    exact uncomputed.any_variadic.2 (forall_mem_replace operands replaced)
  | left o r _ ih =>
    obtain ⟨left, right⟩ := uncomputed.any_binary.1 none
    exact uncomputed.any_binary.2 ⟨ih (isGround_binary.1 ground).1 left, right⟩
  | right o l _ ih =>
    obtain ⟨left, right⟩ := uncomputed.any_binary.1 none
    exact uncomputed.any_binary.2 ⟨left, ih (isGround_binary.1 ground).2 right⟩

theorem isGround_of_rewrites (h : Rewrites rules t u) (ground : t.isGround) : u.isGround := by
  have none : t.any isPlaceholder = false := by simpa [isGround, hasPlaceholder] using ground
  have := any_eq_false_of_rewrites h isLeafProperty_isPlaceholder.isUncomputed ground none
  simpa [isGround, hasPlaceholder] using this

theorem isConstant_of_rewrites (h : Rewrites rules t u) (constant : t.isConstant) :
    u.isConstant := by
  have none : t.any (fun u => u.isVar || u.isPlaceholder) = false := by
    simpa [isConstant] using constant
  have := any_eq_false_of_rewrites h isLeafProperty_isVar_or_isPlaceholder.isUncomputed
    (isGround_of_isConstant constant) none
  simpa [isConstant] using this

theorem isGround_of_passes {n : Nat} (h : Passes rules n t u) (ground : t.isGround) :
    u.isGround := by
  have steps := h.reflTransGen
  clear h
  induction steps with
  | refl => exact ground
  | tail _ step ih => exact isGround_of_rewrites step ih

/-- Simplification of a ground term brings in no leaf with a property that nothing computed has. -/
theorem any_eq_false_of_simplify (h : ReductionTable.standard.simplify t = .ok u)
    (uncomputed : IsUncomputed p) (ground : t.isGround) (none : t.any p = false) :
    u.any p = false := by
  obtain ⟨n, passes⟩ := exists_passes_of_reduceWithin h
  have steps := passes.reflTransGen
  clear passes h
  induction steps using ReflTransGen.head_induction_on with
  | refl => exact none
  | head step _ ih =>
    apply ih (isGround_of_rewrites step ground)
    exact any_eq_false_of_rewrites step uncomputed ground none

theorem isConstant_of_passes {n : Nat} (h : Passes rules n t u) (constant : t.isConstant) :
    u.isConstant := by
  have steps := h.reflTransGen
  clear h
  induction steps with
  | refl => exact constant
  | tail _ step ih => exact isConstant_of_rewrites step ih

end Standard

end InequalityChaining

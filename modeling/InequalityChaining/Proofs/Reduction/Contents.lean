import InequalityChaining.Proofs.Reduction.NormalForm

/-!
# What simplification can give

A simplified term holds nothing that is foreign to the term it comes from: no placeholder, no
further variable, and no constant that is not finite. If there is no simplified term, then because
arithmetic fails on numbers. That a term is not constant is never the reason, because the rules that
fold constants evaluate nothing else, and because simplification comes to an end.

## Main results

* `Standard.Fails.ne_notConstant` — the errors of the rules
* `Standard.simplify_invents_nothing` — what simplification and evaluation can give
-/

namespace InequalityChaining

theorem Term.not_isConstant_iff {t : Term} :
    ¬ t.isConstant ↔ t.hasVariable ∨ t.hasPlaceholder := by
  simp only [isConstant, hasVariable, hasPlaceholder, any, Bool.not_eq_true', Bool.not_eq_false,
    List.any_eq_true, Bool.or_eq_true]
  grind

namespace Standard

open Term

/-- The constants that are folded are constant. -/
theorem isConstant_variadic_filter (op : Variadic) (ts : List Term) :
    (variadic op (ts.filter isConstantNode)).isConstant := by
  refine isConstant_variadic.2 fun t mem => ?_
  have constant := (List.mem_filter.1 mem).2
  cases t with
  | constant value => rfl
  | _ => cases constant

/-- A rule that fails has met numbers without a result, and not a variable. -/
theorem Fails.ne_notConstant {t : Term} {error : DomainError} (h : Fails t error) :
    error ≠ .notConstant := by
  rintro rfl
  cases h with
  | @foldVariadic op ts _ two h =>
    exact not_isConstant_of_evaluate h (isConstant_variadic_filter op ts)
  | foldBinary hl hr h => exact not_isConstant_of_evaluate h (isConstant_binary.2 ⟨hl, hr⟩)

/-- Simplification of a ground term fails on arithmetic only. -/
theorem exists_domain_of_simplify_eq_error {t : Term} {error : ReductionError} (ground : t.isGround)
    (h : ReductionTable.standard.simplify t = .error error) :
    ∃ cause, error = .domain cause ∧ cause ≠ .notConstant := by
  obtain ⟨n, within, u, passes, groundLast, ending⟩ := exists_passes ground
  obtain ⟨-, gives⟩ | ⟨cause, failed, fails⟩ := simplify_of_ending passes within ending
  · cases h.symm.trans gives
  · obtain rfl : error = .domain cause := Except.error.inj (h.symm.trans fails)
    obtain ⟨v, mem, atRoot⟩ := exists_subterm_of_reducePass_eq_error failed
    have groundPart := isGround_of_mem_subterms groundLast mem
    exact ⟨cause, rfl, (fails_of_reduceRoot groundPart atRoot).ne_notConstant⟩

/-- Simplification invents nothing. Of a term without placeholders and with finite constants only,
it gives a term without placeholders, with no further variables and with finite constants only, or
else it fails on arithmetic and not because something is not constant. As to evaluation, a term
with a value has no variables and no placeholders, and one that is reported as not constant has
some. -/
theorem simplify_invents_nothing (t : Term) :
    (t.isGround → t.isFinite →
      (∀ u, ReductionTable.standard.simplify t = .ok u →
        u.isGround ∧ (∀ name ∈ u.varNames, name ∈ t.varNames) ∧ u.isFinite) ∧
      ∀ error, ReductionTable.standard.simplify t = .error error →
        ∃ cause, error = .domain cause ∧ cause ≠ .notConstant) ∧
    (∀ value, t.evaluate = .ok value → ¬ t.hasVariable ∧ ¬ t.hasPlaceholder) ∧
    (t.evaluate = .error .notConstant → t.hasVariable ∨ t.hasPlaceholder) := by
  refine ⟨fun ground finite => ⟨fun u simplified => ⟨?_, ?_, ?_⟩, fun error failed => ?_⟩,
    fun value evaluated => ?_, fun reported => ?_⟩
  · obtain ⟨n, passes⟩ := exists_passes_of_reduceWithin simplified
    exact isGround_of_passes passes ground
  · have known : t.any (isForeign t.varNames) = false :=
      any_isForeign_eq_false_iff.2 fun name mem => mem
    exact any_isForeign_eq_false_iff.1 (any_eq_false_of_simplify simplified
      (isLeafProperty_isForeign t.varNames).isUncomputed ground known)
  · have finiteOnly : t.any isNonFiniteConstant = false := by simpa [isFinite] using finite
    simpa [isFinite] using
      any_eq_false_of_simplify simplified isUncomputed_isNonFiniteConstant ground finiteOnly
  · exact exists_domain_of_simplify_eq_error ground failed
  · exact not_or.1 fun occurs => not_isConstant_iff.2 occurs (isConstant_of_evaluate evaluated)
  · exact not_isConstant_iff.1 (not_isConstant_of_evaluate reported)

/-- The two numbers of a product become one, which is finite; the variable is that of the product,
and on account of it the product has no value. -/
theorem simplify_invents_nothing_product :
    let half := constant (.real (0.5 : Float))
    let t := product [int 3, var "x", half]
    let u := product [constant (.real (1.5 : Float)), var "x"]
    t.isGround ∧ t.isFinite ∧ ReductionTable.standard.simplify t = .ok u ∧
      (u.isGround ∧ (∀ name ∈ u.varNames, name ∈ t.varNames) ∧ u.isFinite) ∧
      t.evaluate = .error .notConstant ∧ (t.hasVariable ∨ t.hasPlaceholder) := by
  intro half t u
  have ground : t.isGround := by decide
  have finite : t.isFinite := by decide +kernel
  have folded : (product [int 3, half]).evaluate = .ok (.real (1.5 : Float)) := rfl
  have atRoot : reduceRoot rules t = .ok (some u) := by
    refine reduceRoot_of_forall_reduces ground (fun v reduces => ?_) (fun error fails => ?_) ?_
    · have reduces : Reduces (product [int 3, var "x", half]) v := reduces
      cases reduces with
      | dropNeutral op h => exact absurd h (by decide +kernel)
      | multiplyZero h => exact absurd h (by decide +kernel)
      | foldProduct two h =>
        obtain rfl := Except.ok.inj (folded.symm.trans h)
        rfl
      | flatten op h => exact absurd h (by decide +kernel)
      | pullOut op h => exact absurd h (by decide +kernel)
    · have fails : Fails (product [int 3, var "x", half]) error := fails
      cases fails with
      | foldVariadic two h => cases folded.symm.trans h
    · decide +kernel
  have simplified : ReductionTable.standard.simplify t = .ok u := by
    have normal : IsNormal u := by decide +kernel
    rw [simplify_of_passes (.head (reducePass_of_root_some atRoot) (.refl u)) (by decide),
      reduceWithin_of_none ((reducePass_eq_none_iff_isNormal rfl).2 normal)]
  obtain ⟨contents, -, reported⟩ := simplify_invents_nothing t
  exact ⟨ground, finite, simplified, (contents ground finite).1 u simplified, rfl, reported rfl⟩

end Standard

end InequalityChaining

import Mathlib
import InequalityChaining.Proofs.Reduction.NormalForm

/-!
# Simplification by the first rule that applies

Simplification replaces one subterm after the other by what the first rule that applies to it makes
of it, and it does so until no rule applies to any subterm. That a pass goes over many places at
once, prefers the root and gives up half of its work when an operand fails makes no difference to
this. A failure, too, is that of a first rule, at a subterm of a term that is reached so. All this
holds of every table of rules, whether or not simplification by it always comes to an end.

## Main definitions

* `IsFirstFitting` — a rule is the first one whose pattern fits a term
* `FirstRuleTurns` — the first rule that applies turns one term into another
* `Term.ReplacesOne` — one subterm is replaced by a related one

## Main results

* `reduceRoot_of_isFirstFitting` — at the root the first fitting rule counts
* `rewrites_iff_replacesOne` — a rewriting replaces one subterm by the first rule
* `simplify_refines_first_rules` — what simplification does, for any table
-/

open Relation (ReflTransGen)

namespace InequalityChaining

open Standard (Fits)

/-! ### The first rule that applies -/

/-- The rule is in the list, and its pattern is the first one that fits the term. -/
def IsFirstFitting (rules : List ReductionRule) (t : Term) (rule : ReductionRule) : Prop :=
  ∃ before after, rules = before ++ rule :: after ∧
    (∀ earlier ∈ before, ¬ Fits earlier.pattern t) ∧ Fits rule.pattern t

/-- The first rule that applies turns the one term into the other. -/
def FirstRuleTurns (rules : List ReductionRule) (t u : Term) : Prop :=
  ∃ rule, IsFirstFitting rules t rule ∧ rule.reduce? t = .ok (some u)

section Root

variable {rules : List ReductionRule} {rule : ReductionRule} {t u : Term} {error : DomainError}

/-- A rule leaves a term as it is exactly if its pattern does not fit. -/
theorem ReductionRule.reduce?_eq_none_iff : rule.reduce? t = .ok none ↔ ¬ Fits rule.pattern t := by
  have single := @Standard.reduceRoot_eq_none_iff_fits [rule] t
  rwa [reduceRoot_eq_none_iff, List.forall_mem_singleton, List.forall_mem_singleton] at single

/-- A rule fails if it says that the terms it fits have no value, or if it fails to compute one. -/
theorem ReductionRule.action_of_reduce?_eq_error (h : rule.reduce? t = .error error) :
    rule.action = .fail error ∨ ∃ f, rule.action = .compute f ∧ f t = .error error := by
  rw [reduce?] at h
  split at h
  · cases h
  · cases action : rule.action with
    | replace v => simp [action, Action.perform, Except.map] at h
    | fail error' =>
      obtain rfl : error' = error := by simpa [action, Action.perform, Except.map] using h
      exact .inl rfl
    | compute f =>
      refine .inr ⟨f, rfl, ?_⟩
      cases computed : f t with
      | ok v => simp [action, Action.perform, computed, Except.map] at h
      | error error' => simpa [action, Action.perform, computed, Except.map] using h

/-- At the root of a term the first rule whose pattern fits decides. -/
theorem reduceRoot_of_isFirstFitting (first : IsFirstFitting rules t rule) :
    reduceRoot rules t = rule.reduce? t := by
  obtain ⟨before, after, rfl, unfit, fits⟩ := first
  induction before with
  | nil =>
    rw [List.nil_append, reduceRoot_cons]
    cases result : rule.reduce? t with
    | error error => rfl
    | ok u? =>
      cases u? with
      | none => exact absurd fits (ReductionRule.reduce?_eq_none_iff.1 result)
      | some u => rfl
  | cons earlier before ih =>
    obtain ⟨skipped, unfit⟩ := List.forall_mem_cons.1 unfit
    rw [List.cons_append, reduceRoot_cons, ReductionRule.reduce?_eq_none_iff.2 skipped]
    exact ih unfit

/-- Where some pattern fits, one of them is the first. -/
theorem exists_isFirstFitting (h : ∃ rule ∈ rules, Fits rule.pattern t) :
    ∃ rule, IsFirstFitting rules t rule := by
  induction rules with
  | nil => simp at h
  | cons rule rules ih =>
    by_cases fits : Fits rule.pattern t
    · exact ⟨rule, [], rules, rfl, by simp, fits⟩
    · obtain ⟨other, mem, fitsOther⟩ := h
      rcases List.mem_cons.1 mem with rfl | mem
      · exact absurd fitsOther fits
      · obtain ⟨first, before, after, rfl, unfit, fitsFirst⟩ := ih ⟨other, mem, fitsOther⟩
        exact ⟨first, rule :: before, after, rfl, List.forall_mem_cons.2 ⟨fits, unfit⟩, fitsFirst⟩

/-- Unless the root is left as it is, a rule decides what becomes of it. -/
theorem exists_isFirstFitting_of_reduceRoot (h : reduceRoot rules t ≠ .ok none) :
    ∃ rule, IsFirstFitting rules t rule ∧ reduceRoot rules t = rule.reduce? t := by
  have someFits : ∃ rule ∈ rules, Fits rule.pattern t := by
    simpa [Standard.reduceRoot_eq_none_iff_fits] using h
  obtain ⟨rule, first⟩ := exists_isFirstFitting someFits
  exact ⟨rule, first, reduceRoot_of_isFirstFitting first⟩

theorem reduceRoot_eq_some_iff : reduceRoot rules t = .ok (some u) ↔ FirstRuleTurns rules t u := by
  constructor
  · intro h
    have acts : reduceRoot rules t ≠ .ok none := by simp [h]
    obtain ⟨rule, first, same⟩ := exists_isFirstFitting_of_reduceRoot acts
    exact ⟨rule, first, same.symm.trans h⟩
  · rintro ⟨rule, first, turns⟩
    rw [reduceRoot_of_isFirstFitting first, turns]

/-- A failure at the root is that of the first rule whose pattern fits. -/
theorem exists_isFirstFitting_of_reduceRoot_eq_error (h : reduceRoot rules t = .error error) :
    ∃ rule, IsFirstFitting rules t rule ∧
      (rule.action = .fail error ∨ ∃ f, rule.action = .compute f ∧ f t = .error error) := by
  have acts : reduceRoot rules t ≠ .ok none := by simp [h]
  obtain ⟨rule, first, same⟩ := exists_isFirstFitting_of_reduceRoot acts
  exact ⟨rule, first, ReductionRule.action_of_reduce?_eq_error (same.symm.trans h)⟩

end Root

/-! ### One place at a time -/

/-- One subterm of a term is replaced by a term to which it is related. -/
inductive Term.ReplacesOne (r : Term → Term → Prop) : Term → Term → Prop where
  | root {t u : Term} (h : r t u) : ReplacesOne r t u
  | operand {t u : Term} (op : Variadic) (before after : List Term) (h : ReplacesOne r t u) :
      ReplacesOne r (variadic op (before ++ t :: after)) (variadic op (before ++ u :: after))
  | left {t u : Term} (op : Binary) (right : Term) (h : ReplacesOne r t u) :
      ReplacesOne r (binary op t right) (binary op u right)
  | right {t u : Term} (op : Binary) (left : Term) (h : ReplacesOne r t u) :
      ReplacesOne r (binary op left t) (binary op left u)

/-- A rewriting replaces one subterm by what the first rule that applies makes of it. -/
theorem rewrites_iff_replacesOne {rules : List ReductionRule} {t u : Term} :
    Rewrites rules t u ↔ t.ReplacesOne (FirstRuleTurns rules) u := by
  constructor
  · intro h
    induction h with
    | root h => exact .root (reduceRoot_eq_some_iff.1 h)
    | operand op before after _ ih => exact .operand op before after ih
    | left op r _ ih => exact .left op r ih
    | right op l _ ih => exact .right op l ih
  · intro h
    induction h with
    | root h => exact .root (reduceRoot_eq_some_iff.2 h)
    | operand op before after _ ih => exact .operand op before after ih
    | left op r _ ih => exact .left op r ih
    | right op l _ ih => exact .right op l ih

/-- Passes replace one subterm after the other. -/
theorem Passes.reflTransGen_replacesOne {rules : List ReductionRule} {n : Nat} {t u : Term}
    (h : Passes rules n t u) : ReflTransGen (Term.ReplacesOne (FirstRuleTurns rules)) t u :=
  ReflTransGen.mono (fun _ _ => rewrites_iff_replacesOne.1) _ _ h.reflTransGen

/-! ### The theorem -/

/-- Simplification by any table reaches its result by replacing one subterm at a time by what the
first rule that applies to it makes of it; no rule applies to any part of the result, and a second
simplification gives back the very same term. If it fails, then because the first rule that applies
to some part of a term that is reached so has no value for it. -/
theorem simplify_refines_first_rules (table : ReductionTable) (t : Term) :
    (∀ u, table.simplify t = .ok u →
      ReflTransGen (Term.ReplacesOne (FirstRuleTurns table.rules)) t u ∧
      (∀ v ∈ u.subterms, ∀ rule ∈ table.rules, ¬ Fits rule.pattern v) ∧
      table.simplify u = .ok u) ∧
    (∀ error, table.simplify t = .error (.domain error) →
      ∃ u, ReflTransGen (Term.ReplacesOne (FirstRuleTurns table.rules)) t u ∧
        ∃ v ∈ u.subterms, ∃ rule, IsFirstFitting table.rules v rule ∧
          (rule.action = .fail error ∨
            ∃ f, rule.action = .compute f ∧ f v = .error error)) := by
  constructor
  · intro u result
    obtain ⟨n, passes, normal⟩ := exists_passes_of_reduceWithin_eq_ok result
    refine ⟨passes.reflTransGen_replacesOne, fun v mem => ?_, reduceWithin_of_none normal _⟩
    exact Standard.reduceRoot_eq_none_iff_fits.1 (reducePass_eq_none_iff.1 normal v mem)
  · intro error result
    obtain ⟨n, u, passes, failed⟩ := exists_passes_of_reduceWithin_eq_error result
    obtain ⟨v, mem, failedAt⟩ := exists_subterm_of_reducePass_eq_error failed
    exact ⟨u, passes.reflTransGen_replacesOne, v, mem,
      exists_isFirstFitting_of_reduceRoot_eq_error failedAt⟩

section Roots

open Term Standard

/-- First roots are their radicands, and zeroth roots have no value. -/
def rootRules : List ReductionRule :=
  [.replace "first_root" (root (anyTerm "X") (int 1)) (anyTerm "X"),
    .fail "zeroth_root" (root (anyTerm "X") (int 0)) .zerothRoot]

/-- Two roots are replaced in one pass, and a third one inside of another in the next. A root whose
index becomes zero has no value, which is found after the term has been changed. -/
theorem simplify_refines_first_rules_roots :
    let table : ReductionTable := ⟨rootRules, fun _ => 9⟩
    let one : Term → Term := fun t => root t (int 1)
    let t := sum [one (var "x"), one (one (var "y"))]
    let u := sum [var "x", var "y"]
    let t' := sum [one (var "x"), root (var "y") (one (int 0))]
    table.simplify t = .ok u ∧
      ReflTransGen (ReplacesOne (FirstRuleTurns table.rules)) t u ∧
      (∀ v ∈ u.subterms, ∀ rule ∈ table.rules, ¬ Fits rule.pattern v) ∧
      table.simplify u = .ok u ∧
      table.simplify t' = .error (.domain .zerothRoot) ∧
      ∃ u', ReflTransGen (ReplacesOne (FirstRuleTurns table.rules)) t' u' ∧
        ∃ v ∈ u'.subterms, ∃ rule, IsFirstFitting table.rules v rule ∧
          (rule.action = .fail .zerothRoot ∨
            ∃ f, rule.action = .compute f ∧ f v = .error .zerothRoot) := by
  intro table one t u t'
  have result : table.simplify t = .ok u := by cbv
  have failure : table.simplify t' = .error (.domain .zerothRoot) := by cbv
  obtain ⟨steps, normal, again⟩ := (simplify_refines_first_rules table t).1 u result
  exact ⟨result, steps, normal, again, failure,
    (simplify_refines_first_rules table t').2 .zerothRoot failure⟩

end Roots

end InequalityChaining

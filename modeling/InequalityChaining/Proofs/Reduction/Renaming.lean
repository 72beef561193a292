import InequalityChaining.Proofs.Reduction.Rewriting
import InequalityChaining.Proofs.Reduction.StandardStep
import InequalityChaining.Proofs.Term.Renaming

/-!
# Reduction of renamed terms

A rule whose pattern and replacement hold no variables cannot tell one variable from another: what
it makes of a renamed term is what it makes of the term, renamed. The standard rules are such, and
those that compute look at constants and at the kinds of operations only. Where every rule of a
table commutes with renaming, so do the first rule that applies, a pass, any number of passes and,
if the limit on the passes does not depend on names either, simplification.

## Main definitions

* `ReductionRule.CommutesWith` — a rule that commutes with a renaming

## Main results

* `Term.evaluate_rename`, `Term.weight_rename` — the value and the weight of a renamed term
* `reducePass_rename`, `reduceWithin_rename` — passes by rules that commute
* `Standard.commutesWith_of_mem_rules` — the standard rules
* `ReductionTable.simplify_rename` — simplification by the standard rules
-/

namespace InequalityChaining

open Term

/-! ### Values and weights -/

namespace Term

variable {ρ : String → String}

theorem evaluateFrom_rename {op : Variadic} {ts : List Term} (a : Number)
    (h : ∀ t ∈ ts, (t.rename ρ).evaluate = t.evaluate) :
    evaluateFrom op a (ts.map (rename ρ)) = evaluateFrom op a ts := by
  induction ts generalizing a with
  | nil => rfl
  | cons t ts ih =>
    rw [List.forall_mem_cons] at h
    rw [List.map_cons, evaluateFrom, evaluateFrom, h.1]
    simp only [fun a => ih a h.2]

/-- No value depends on the name of a variable. -/
theorem evaluate_rename (t : Term) : (t.rename ρ).evaluate = t.evaluate := by
  induction t using Term.induction with
  | variadic op ts ih =>
    rw [rename, renameAll_eq_map, evaluate, evaluate, evaluateFrom_rename _ ih]
  | binary op l r ihl ihr => rw [rename, evaluate, evaluate, ihl, ihr]
  | _ => rfl

theorem binaryCount_rename (t : Term) : (t.rename ρ).binaryCount = t.binaryCount := by
  induction t using Term.induction with
  | variadic op ts ih =>
    rw [rename, renameAll_eq_map, binaryCount, binaryCount]
    induction ts with
    | nil => rfl
    | cons t ts ihs =>
      rw [List.forall_mem_cons] at ih
      rw [List.map_cons, binaryCountOfAll, binaryCountOfAll, ih.1, ihs ih.2]
  | binary op l r ihl ihr => rw [rename, binaryCount, binaryCount, ihl, ihr]
  | _ => rfl

theorem weightAt_rename (unit depth : Nat) (t : Term) :
    (t.rename ρ).weightAt unit depth = t.weightAt unit depth := by
  induction t using Term.induction generalizing depth with
  | variadic op ts ih =>
    rw [rename, renameAll_eq_map, weightAt, weightAt]
    congr 1
    induction ts with
    | nil => rfl
    | cons t ts ihs =>
      rw [List.forall_mem_cons] at ih
      rw [List.map_cons, weightOfAll, weightOfAll, ih.1, ihs ih.2]
  | binary op l r ihl ihr => rw [rename, weightAt, weightAt, ihl, ihr]
  | _ => rfl

theorem weight_rename (t : Term) : (t.rename ρ).weight = t.weight := by
  rw [weight, weight, binaryCount_rename, weightAt_rename]

end Term

/-! ### Rules that commute -/

/-- What the rule makes of a renamed term is what it makes of the term, renamed. -/
def ReductionRule.CommutesWith (rule : ReductionRule) (ρ : String → String) : Prop :=
  ∀ t, rule.reduce? (t.rename ρ) = (rule.reduce? t).map (Option.map (Term.rename ρ))

section Rules

variable {ρ : String → String} {name : String} {p r : Term} {f : Term → Except DomainError Term}
  {holds : Term → Bool}

/-- A rule commutes if its pattern fits what is renamed just as well and its action commutes. -/
theorem commutesWith_of_bind? {rule : ReductionRule}
    (fits : ∀ t, rule.pattern.bind? (t.rename ρ) .empty =
      (rule.pattern.bind? t .empty).map (Bindings.rename ρ))
    (acts : ∀ t b, rule.action.perform (t.rename ρ) (b.rename ρ) =
      (rule.action.perform t b).map (Term.rename ρ)) : rule.CommutesWith ρ := by
  intro t
  rw [ReductionRule.reduce?, ReductionRule.reduce?, fits]
  cases rule.pattern.bind? t .empty with
  | none => rfl
  | some b =>
    change (rule.action.perform (t.rename ρ) (b.rename ρ)).map some =
      ((rule.action.perform t b).map some).map (Option.map (Term.rename ρ))
    rw [acts]
    cases rule.action.perform t b <;> rfl

theorem bind?_term_rename (injective : ρ.Injective) (pattern : ¬ p.hasVariable) (t : Term) :
    (Pattern.term p).bind? (t.rename ρ) .empty =
      ((Pattern.term p).bind? t .empty).map (Bindings.rename ρ) := by
  have matched := matchPattern?_rename injective t p .empty
  rwa [rename_of_not_hasVariable pattern, Bindings.rename_empty] at matched

theorem commutesWith_replace (injective : ρ.Injective) (pattern : ¬ p.hasVariable)
    (replacement : ¬ r.hasVariable) : (ReductionRule.replace name p r).CommutesWith ρ := by
  refine commutesWith_of_bind? (bind?_term_rename injective pattern) fun t b => ?_
  change Except.ok (r.substitute (b.rename ρ)) = .ok ((r.substitute b).rename ρ)
  rw [rename_substitute, rename_of_not_hasVariable replacement]

theorem commutesWith_fail (injective : ρ.Injective) (pattern : ¬ p.hasVariable)
    (error : DomainError) : (ReductionRule.fail name p error).CommutesWith ρ :=
  commutesWith_of_bind? (bind?_term_rename injective pattern) fun _ _ => rfl

theorem commutesWith_compute (injective : ρ.Injective) (pattern : ¬ p.hasVariable)
    (computes : ∀ t, f (t.rename ρ) = (f t).map (Term.rename ρ)) :
    (ReductionRule.compute name p f).CommutesWith ρ :=
  commutesWith_of_bind? (bind?_term_rename injective pattern) fun t _ => computes t

theorem commutesWith_shape (shape : ∀ t, holds (t.rename ρ) = holds t)
    (computes : ∀ t, f (t.rename ρ) = (f t).map (Term.rename ρ)) :
    (ReductionRule.shape name holds f).CommutesWith ρ := by
  refine commutesWith_of_bind? (fun t => ?_) fun t _ => computes t
  change (if holds (t.rename ρ) then some Bindings.empty else none) =
    (if holds t then some Bindings.empty else none).map (Bindings.rename ρ)
  rw [shape]
  split <;> rfl

end Rules

/-! ### Passes -/

section Passes

variable {ρ : String → String} {rules : List ReductionRule}

theorem reduceRoot_rename (commutes : ∀ rule ∈ rules, rule.CommutesWith ρ) (t : Term) :
    reduceRoot rules (t.rename ρ) = (reduceRoot rules t).map (Option.map (Term.rename ρ)) := by
  induction rules with
  | nil => rfl
  | cons rule rest ih =>
    rw [List.forall_mem_cons] at commutes
    rw [reduceRoot_cons, reduceRoot_cons, commutes.1 t]
    cases rule.reduce? t with
    | error e => rfl
    | ok u? =>
      cases u? with
      | none => exact ih commutes.2
      | some u => rfl

/-- Parts that change are renamed as a whole is. -/
theorem map_changedParts {α β : Type} (f : α → α) (g : β → β) (a : α) (b : β) (a? : Option α)
    (b? : Option β) :
    changedParts (f a) (g b) (a?.map f) (b?.map g) =
      (changedParts a b a? b?).map fun parts => (f parts.1, g parts.2) := by
  cases a? <;> cases b? <;> rfl

theorem reduceOperands_rename {ts : List Term}
    (h : ∀ t ∈ ts, reducePass rules (t.rename ρ) =
      (reducePass rules t).map (Option.map (Term.rename ρ))) :
    reduceOperands rules (ts.map (Term.rename ρ)) =
      (reduceOperands rules ts).map (Option.map (List.map (Term.rename ρ))) := by
  induction ts with
  | nil => simp [reduceOperands, pure, Except.pure, Except.map]
  | cons t ts ih =>
    rw [List.forall_mem_cons] at h
    rw [List.map_cons, reduceOperands_cons, reduceOperands_cons, h.1, ih h.2]
    cases reducePass rules t with
    | error e => rfl
    | ok t? =>
      cases reduceOperands rules ts with
      | error e => rfl
      | ok ts? =>
        change Except.ok _ = Except.ok _
        rw [map_changedParts, Option.map_map, Option.map_map]
        rfl

/-- A pass that ends at the root commutes, so that only the parts are left to be looked at. -/
theorem reducePass_rename_of_root {t : Term} (commutes : ∀ rule ∈ rules, rule.CommutesWith ρ)
    (parts : reduceRoot rules t = .ok none → reduceRoot rules (t.rename ρ) = .ok none →
      reducePass rules (t.rename ρ) = (reducePass rules t).map (Option.map (Term.rename ρ))) :
    reducePass rules (t.rename ρ) = (reducePass rules t).map (Option.map (Term.rename ρ)) := by
  have root := reduceRoot_rename commutes t
  cases applied : reduceRoot rules t with
  | error e =>
    rw [applied] at root
    rw [reducePass_of_root_error root, reducePass_of_root_error applied]
    rfl
  | ok u? =>
    rw [applied] at root
    cases u? with
    | some u =>
      rw [reducePass_of_root_some root, reducePass_of_root_some applied]
      rfl
    | none => exact parts applied root

/-- A pass commutes with renaming if every rule does. -/
theorem reducePass_rename (commutes : ∀ rule ∈ rules, rule.CommutesWith ρ) (t : Term) :
    reducePass rules (t.rename ρ) = (reducePass rules t).map (Option.map (Term.rename ρ)) := by
  induction t using Term.induction with
  | variadic op ts ih =>
    refine reducePass_rename_of_root commutes fun root renamed => ?_
    rw [rename, renameAll_eq_map] at renamed ⊢
    rw [reducePass_variadic root, reducePass_variadic renamed, reduceOperands_rename ih]
    cases reduceOperands rules ts with
    | error e => rfl
    | ok ts? => cases ts? <;> simp [bind, Except.bind, pure, Except.pure, Except.map, rename]
  | binary op l r ihl ihr =>
    refine reducePass_rename_of_root commutes fun root renamed => ?_
    rw [rename] at renamed ⊢
    rw [reducePass_binary root, reducePass_binary renamed, ihl, ihr]
    cases reducePass rules l with
    | error e => rfl
    | ok l? =>
      cases reducePass rules r with
      | error e => rfl
      | ok r? =>
        change Except.ok _ = Except.ok _
        rw [map_changedParts, Option.map_map, Option.map_map]
        rfl
  | _ =>
    refine reducePass_rename_of_root commutes fun root renamed => ?_
    rw [reducePass_of_atom root (by simp) (by simp)]
    exact reducePass_of_atom renamed (by simp [rename]) (by simp [rename])

theorem reduceWithin_rename (commutes : ∀ rule ∈ rules, rule.CommutesWith ρ) (passes : Nat)
    (t : Term) :
    reduceWithin rules passes (t.rename ρ) =
      (reduceWithin rules passes t).map (Term.rename ρ) := by
  induction passes generalizing t with
  | zero =>
    rw [reduceWithin.eq_def, reduceWithin.eq_def rules 0 t, reducePass_rename commutes]
    rcases reducePass rules t with e | ⟨_ | u⟩ <;> rfl
  | succ passes ih =>
    rw [reduceWithin.eq_def, reduceWithin.eq_def rules (passes + 1) t, reducePass_rename commutes]
    rcases reducePass rules t with e | ⟨_ | u⟩
    · rfl
    · rfl
    · exact ih u

end Passes

/-! ### The standard rules -/

namespace Standard

variable {ρ : String → String} {t : Term} {op : Variadic}

theorem constantValue?_rename : (t.rename ρ).constantValue? = t.constantValue? := by
  cases t <;> rfl

theorem isConstantNode_rename : isConstantNode (t.rename ρ) = isConstantNode t := by
  cases t <;> rfl

theorem isNumber_rename (i : Int64) : (t.rename ρ).isNumber i = t.isNumber i := by
  cases t <;> rfl

theorem isVariadic_rename : isVariadic op (t.rename ρ) = isVariadic op t := by
  cases t <;> rfl

theorem isIntegralReal_rename : isIntegralReal (t.rename ρ) = isIntegralReal t := by
  rw [isIntegralReal, isIntegralReal, constantValue?_rename]

theorem partsOf?_rename (inner : Binary) :
    partsOf? inner (t.rename ρ) =
      (partsOf? inner t).map fun parts => (parts.1.rename ρ, parts.2.rename ρ) := by
  cases t with
  | binary o l r =>
    rw [rename, partsOf?, partsOf?]
    split <;> rfl
  | _ => rfl

theorem operandsOf_rename : operandsOf op (t.rename ρ) = (operandsOf op t).map (rename ρ) := by
  cases t with
  | variadic o ts =>
    rw [rename, renameAll_eq_map, operandsOf, operandsOf]
    split <;> rfl
  | _ => rfl

theorem splice_rename : splice op (t.rename ρ) = (splice op t).map (rename ρ) := by
  cases t with
  | variadic o ts =>
    rw [rename, renameAll_eq_map, splice, splice]
    split
    · rfl
    · rw [List.map_singleton, rename, renameAll_eq_map]
  | _ => rfl

theorem toInteger_rename : toInteger (t.rename ρ) = (toInteger t).rename ρ := by
  rw [toInteger, toInteger, constantValue?_rename]
  cases t.constantValue?.bind Number.integralValue? <;> rfl

theorem hasOperand_rename {p : Term → Bool} (h : ∀ u, p (rename ρ u) = p u) :
    hasOperand op p (t.rename ρ) = hasOperand op p t := by
  rw [hasOperand, hasOperand, operandsOf_rename, List.any_map]
  exact congrArg _ (funext h)

/-- Operands chosen by what does not depend on names are the same ones. -/
theorem filter_rename {p : Term → Bool} (h : ∀ u, p (rename ρ u) = p u) (ts : List Term) :
    (ts.map (rename ρ)).filter p = (ts.filter p).map (rename ρ) := by
  rw [List.filter_map, funext h (f := p ∘ rename ρ)]

theorem hasConstants_rename : hasConstants op (t.rename ρ) = hasConstants op t := by
  rw [hasConstants, hasConstants, operandsOf_rename,
    filter_rename fun _ => isConstantNode_rename, List.length_map]

theorem withoutNumber_rename (i : Int64) :
    withoutNumber op i (t.rename ρ) = (withoutNumber op i t).rename ρ := by
  rw [withoutNumber, withoutNumber, operandsOf_rename, filter_rename fun u => by
    rw [isNumber_rename], rename, renameAll_eq_map]

theorem flatten_rename : flatten op (t.rename ρ) = (flatten op t).rename ρ := by
  rw [flatten, flatten, operandsOf_rename, List.flatMap_map, rename, renameAll_eq_map,
    List.map_flatMap]
  simp only [splice_rename]

theorem pullOut_rename (inner : Binary) :
    pullOut op inner (t.rename ρ) = (pullOut op inner t).rename ρ := by
  simp only [pullOut, operandsOf_rename, rename, renameAll_eq_map, List.map_map,
    List.filterMap_map, List.map_filterMap, Function.comp_def, partsOf?_rename, Option.map_map]
  congr 3
  funext u
  cases partsOf? inner u <;> rfl

theorem evaluated_rename : evaluated (t.rename ρ) = (evaluated t).map (rename ρ) := by
  rw [evaluated, evaluated, evaluate_rename]
  cases t.evaluate <;> rfl

/-- The constants of an operation and its other operands are those of the renamed one, renamed. -/
theorem partition_rename (ts : List Term) :
    (ts.map (rename ρ)).partition isConstantNode =
      ((ts.partition isConstantNode).1.map (rename ρ),
        (ts.partition isConstantNode).2.map (rename ρ)) := by
  have others : ∀ u, (not ∘ isConstantNode) (rename ρ u) = (not ∘ isConstantNode) u := fun u =>
    congrArg not isConstantNode_rename
  rw [List.partition_eq_filter_filter, List.partition_eq_filter_filter,
    filter_rename fun _ => isConstantNode_rename, filter_rename others]

theorem foldSum_rename : foldSum (t.rename ρ) = (foldSum t).map (rename ρ) := by
  have value : ∀ ts : List Term, (sum (ts.map (rename ρ))).evaluate = (sum ts).evaluate := by
    intro ts
    rw [← evaluate_rename (ρ := ρ) (sum ts), rename, renameAll_eq_map]
  rw [foldSum, foldSum, operandsOf_rename, partition_rename, value]
  cases (sum ((operandsOf .sum t).partition isConstantNode).1).evaluate with
  | error e => rfl
  | ok v => simp [bind, Except.bind, pure, Except.pure, Except.map, rename]

theorem foldProduct_rename : foldProduct (t.rename ρ) = (foldProduct t).map (rename ρ) := by
  have value : ∀ ts : List Term,
      (product (ts.map (rename ρ))).evaluate = (product ts).evaluate := by
    intro ts
    rw [← evaluate_rename (ρ := ρ) (product ts), rename, renameAll_eq_map]
  rw [foldProduct, foldProduct, operandsOf_rename, partition_rename, value]
  cases (product ((operandsOf .product t).partition isConstantNode).1).evaluate with
  | error e => rfl
  | ok v => simp [bind, Except.bind, pure, Except.pure, Except.map, rename]

/-- A rule for operations with a certain operand commutes if what it makes of them does. -/
theorem commutesWith_hasOperand {name : String} {p : Term → Bool} {f : Term → Term}
    (operand : ∀ u, p (rename ρ u) = p u) (makes : ∀ t, f (rename ρ t) = (f t).rename ρ) :
    (ReductionRule.shape name (hasOperand op p) fun t => .ok (f t)).CommutesWith ρ := by
  refine commutesWith_shape (fun t => hasOperand_rename operand) fun t => ?_
  rw [makes]
  rfl

section Rules

variable (injective : ρ.Injective)

include injective

theorem commutesWith_cleanup : ∀ rule ∈ cleanup, rule.CommutesWith ρ := by
  simp only [cleanup, List.forall_mem_cons, List.not_mem_nil, false_imp_iff, implies_true, and_true]
  refine ⟨commutesWith_shape (fun t => isIntegralReal_rename) fun t => ?_, ?_⟩
  · rw [toInteger_rename]
    rfl
  · refine ⟨?_, ?_, ?_, ?_⟩ <;> exact commutesWith_replace injective (by decide) (by decide)

theorem commutesWith_arithmetic : ∀ rule ∈ arithmetic, rule.CommutesWith ρ := by
  have fails : ∀ {name p error}, ¬ p.hasVariable →
      (ReductionRule.fail name p error).CommutesWith ρ := fun pattern =>
    commutesWith_fail injective pattern _
  have replaces : ∀ {name p r}, ¬ p.hasVariable → ¬ r.hasVariable →
      (ReductionRule.replace name p r).CommutesWith ρ := commutesWith_replace injective
  have folds : ∀ {name p}, ¬ p.hasVariable →
      (ReductionRule.compute name p evaluated).CommutesWith ρ := fun pattern =>
    commutesWith_compute injective pattern fun _ => evaluated_rename
  simp only [arithmetic, List.forall_mem_cons, List.not_mem_nil, false_imp_iff, implies_true,
    and_true]
  refine ⟨?_, ?_, ?_, ?_, ?_, ?_, ?_, ?_, ?_, ?_, ?_, ?_, ?_, ?_, ?_, ?_, ?_, ?_, ?_, ?_, ?_, ?_⟩
  -- what has no value, in the order of the rules as everywhere below
  · exact fails (by decide)
  · exact fails (by decide)
  · exact fails (by decide)
  -- zero and one in sums, products and their inverses
  · exact commutesWith_hasOperand (fun _ => isNumber_rename 0) fun _ => withoutNumber_rename 0
  · exact replaces (by decide) (by decide)
  · exact commutesWith_hasOperand (fun _ => isNumber_rename 0) fun _ => rfl
  · exact replaces (by decide) (by decide)
  · exact commutesWith_hasOperand (fun _ => isNumber_rename 1) fun _ => withoutNumber_rename 1
  · exact replaces (by decide) (by decide)
  -- zero and one in powers and roots
  · exact replaces (by decide) (by decide)
  · exact replaces (by decide) (by decide)
  · exact replaces (by decide) (by decide)
  · exact replaces (by decide) (by decide)
  · exact replaces (by decide) (by decide)
  · exact replaces (by decide) (by decide)
  · exact replaces (by decide) (by decide)
  -- operations on constants
  · exact commutesWith_shape (fun _ => hasConstants_rename) fun _ => foldSum_rename
  · exact folds (by decide)
  · exact commutesWith_shape (fun _ => hasConstants_rename) fun _ => foldProduct_rename
  · exact folds (by decide)
  · exact folds (by decide)
  · exact folds (by decide)

theorem commutesWith_nesting : ∀ rule ∈ nesting, rule.CommutesWith ρ := by
  have replaces : ∀ {name p r}, ¬ p.hasVariable → ¬ r.hasVariable →
      (ReductionRule.replace name p r).CommutesWith ρ := commutesWith_replace injective
  have pulls : ∀ {name op inner}, (ReductionRule.shape name
      (hasOperand op fun u => (partsOf? inner u).isSome)
      fun t => .ok (pullOut op inner t)).CommutesWith ρ := fun {_ _ inner} =>
    commutesWith_hasOperand (fun u => by rw [partsOf?_rename, Option.isSome_map])
      fun _ => pullOut_rename inner
  simp only [nesting, List.forall_mem_cons, List.not_mem_nil, false_imp_iff, implies_true, and_true]
  refine ⟨?_, pulls, ?_, ?_, ?_, pulls, ?_, ?_, ?_, ?_, ?_, ?_⟩
  -- sums and differences
  · exact commutesWith_hasOperand (fun _ => isVariadic_rename) fun _ => flatten_rename
  · exact replaces (by decide) (by decide)
  · exact replaces (by decide) (by decide)
  -- products and quotients, powers and roots
  · exact commutesWith_hasOperand (fun _ => isVariadic_rename) fun _ => flatten_rename
  · exact replaces (by decide) (by decide)
  · exact replaces (by decide) (by decide)
  · exact replaces (by decide) (by decide)
  · exact replaces (by decide) (by decide)
  · exact replaces (by decide) (by decide)
  · exact replaces (by decide) (by decide)

/-- Every standard rule commutes with every renaming that keeps names apart. -/
theorem commutesWith_of_mem_rules {rule : ReductionRule} (mem : rule ∈ rules) :
    rule.CommutesWith ρ := by
  rcases List.mem_append.1 mem with mem | mem
  · rcases List.mem_append.1 mem with mem | mem
    · exact commutesWith_cleanup injective rule mem
    · exact commutesWith_arithmetic injective rule mem
  · exact commutesWith_nesting injective rule mem

end Rules

end Standard

/-- Simplification by the standard rules commutes with every renaming that keeps names apart. -/
theorem ReductionTable.simplify_rename {ρ : String → String} (injective : ρ.Injective) (t : Term) :
    standard.simplify (t.rename ρ) = (standard.simplify t).map (Term.rename ρ) := by
  have limit : standard.passLimit (t.rename ρ) = standard.passLimit t := weight_rename t
  rw [simplify, simplify, limit]
  exact reduceWithin_rename (fun _ => Standard.commutesWith_of_mem_rules injective) _ t

end InequalityChaining

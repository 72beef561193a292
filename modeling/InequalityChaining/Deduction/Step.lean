import InequalityChaining.Deduction.Rule
import InequalityChaining.Knowledge
import InequalityChaining.Matching

/-!
# Deduction steps

A step admits one new fact. The rules are tried in order. For each rule the facts are matched with
its assumptions, one assumption after the other and each with the bindings of those before it; an
equation counts in both directions. Placeholders that are left in the conclusion are then matched
with the terms under consideration, on the left side before the right. The first conclusion that
is free of placeholders, has sides with normal forms and is a new fact is admitted.

## Main definitions

* `assumptionBindings` — the bindings under which all assumptions are facts
* `termBindings` — the bindings for what is left in a conclusion
* `InferenceRule.fire?`, `KnowledgeBase.deduce?` — the step of one rule and of a calculus
-/

namespace InequalityChaining

/-- The directions in which a fact can be used. -/
def Proposition.directions (p : Proposition) : List Proposition := p :: p.reversed?.toList

/-- All bindings under which the assumptions match facts. -/
def assumptionBindings (facts assumptions : List Proposition) : List Bindings :=
  assumptions.foldl
    (fun candidates assumption =>
      candidates.flatMap fun b =>
        facts.flatMap fun fact =>
          fact.directions.filterMap (·.matchPattern? assumption b))
    [.empty]

/-- Bindings without those that equal an earlier one. -/
def distinctBindings (candidates : List Bindings) : List Bindings :=
  candidates.foldl (fun kept b => if kept.any (· == b) then kept else kept ++ [b]) []

/-- All bindings under which the sides of a statement match terms, as far as the sides have
placeholders. -/
def termBindings (terms : List Term) (statement : Proposition) : List Bindings :=
  statement.sides.foldl
    (fun candidates side =>
      if side.hasPlaceholder then
        distinctBindings (candidates.flatMap fun b => terms.filterMap (·.matchPattern? side b))
      else candidates)
    [.empty]

/-- What a step has admitted, and the knowledge after it. -/
structure Deduced where
  rule : String
  fact : Proposition
  knowledge : KnowledgeBase

namespace InferenceRule

/-- Admits a candidate for a fact, if it can be. -/
def admit? (rule : InferenceRule) (table : ReductionTable) (k : KnowledgeBase)
    (candidate : Proposition) : Option Deduced :=
  if candidate.hasPlaceholder then none
  else
    match candidate.mapSides table.simplify with
    | .error _ => none
    | .ok fact =>
      let message := "deduced by " ++ rule.name ++ ": " ++ fact.text
      (k.addFact? fact message).map fun k => ⟨rule.name, fact, k⟩

/-- Admits the first new fact that the rule yields. -/
def fire? (rule : InferenceRule) (table : ReductionTable) (k : KnowledgeBase) : Option Deduced :=
  (assumptionBindings k.facts rule.assumptions).findSome? fun b =>
    let statement := rule.conclusion.substitute b
    (termBindings k.terms statement).findSome? fun c =>
      rule.admit? table k (statement.substitute c)

end InferenceRule

/-- Admits the first new fact that a rule yields, if one does. -/
def KnowledgeBase.deduce? (k : KnowledgeBase) (calculus : Calculus) : Option Deduced :=
  calculus.inference.findSome? fun rule => rule.fire? calculus.reduction k

end InequalityChaining

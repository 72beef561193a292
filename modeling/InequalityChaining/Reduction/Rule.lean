import InequalityChaining.Matching

/-!
# Reduction rules

A reduction rule says which terms it applies to and what it makes of them.

## Main definitions

* `Pattern` — a term with placeholders, or a shape given by a predicate
* `Action` — what becomes of a matched term
* `ReductionRule`, `ReductionRule.reduce?` — rules and their application at the root of a term
-/

namespace InequalityChaining

/-- What a rule looks for: a term with placeholders, or a shape that no single term describes. -/
inductive Pattern where
  | term (t : Term)
  | shape (holds : Term → Bool)

/-- Extends bindings so that the pattern fits; a shape binds nothing. -/
def Pattern.bind? (p : Pattern) (subject : Term) (seed : Bindings) : Option Bindings :=
  match p with
  | term t => subject.matchPattern? t seed
  | shape holds => if holds subject then some seed else none

/-- What becomes of a matched term: a term with the bindings substituted, a term computed from the
matched one, or an error because the matched term has no value. -/
inductive Action where
  | replace (t : Term)
  | compute (f : Term → Except DomainError Term)
  | fail (error : DomainError)

/-- The outcome for a matched term and the bindings of the match. -/
def Action.perform (a : Action) (subject : Term) (b : Bindings) : Except DomainError Term :=
  match a with
  | replace t => .ok (t.substitute b)
  | compute f => f subject
  | fail error => .error error

/-- A pattern and what becomes of the terms that it fits. -/
structure ReductionRule where
  name : String
  pattern : Pattern
  action : Action

namespace ReductionRule

/-- The rule that puts one term in the place of another. -/
def replace (name : String) (pattern replacement : Term) : ReductionRule :=
  ⟨name, .term pattern, .replace replacement⟩

/-- The rule that computes with what a pattern matches. -/
def compute (name : String) (pattern : Term) (f : Term → Except DomainError Term) : ReductionRule :=
  ⟨name, .term pattern, .compute f⟩

/-- The rule that computes with terms of a shape. -/
def shape (name : String) (holds : Term → Bool) (f : Term → Except DomainError Term) :
    ReductionRule :=
  ⟨name, .shape holds, .compute f⟩

/-- The rule that reports what has no value. -/
def fail (name : String) (pattern : Term) (error : DomainError) : ReductionRule :=
  ⟨name, .term pattern, .fail error⟩

/-- What the rule makes of a term, if it applies to it. -/
def reduce? (rule : ReductionRule) (t : Term) : Except DomainError (Option Term) :=
  match rule.pattern.bind? t .empty with
  | none => .ok none
  | some b => (rule.action.perform t b).map some

end ReductionRule

end InequalityChaining

import InequalityChaining.Proposition.Basic
import InequalityChaining.Reduction.Standard
import InequalityChaining.Text.Lines

/-!
# Inference rules

An inference rule derives its conclusion from facts that match its assumptions. Placeholders are
shared between the conclusion and the assumptions.

## Main definitions

* `InferenceRule`, `InferenceRule.text` — rules
* `Standard.inference` — the standard rules: squares are not negative, and inequalities add up
* `Calculus` — a reduction table together with inference rules
-/

namespace InequalityChaining

/-- A conclusion that holds for all terms for which the assumptions hold. -/
structure InferenceRule where
  name : String
  conclusion : Proposition
  assumptions : List Proposition

/-- The text of a rule: its name, its conclusion and its assumptions. -/
def InferenceRule.text (rule : InferenceRule) : String :=
  let assumptions := rule.assumptions.map Proposition.text
  rule.name ++ ": " ++ rule.conclusion.text ++
    if assumptions.isEmpty then "" else ", assuming: " ++ Text.commaSeparated assumptions

/-- The standard inference rules. -/
def Standard.inference : List InferenceRule :=
  let x := Standard.anyTerm
  [⟨"square_is_positive", .atMost (.int 0) (.power (x "X") (.int 2)), []⟩,
    ⟨"add_ineqs", .atMost (.sum [x "X1", x "X2"]) (.sum [x "Y1", x "Y2"]),
      [.atMost (x "X1") (x "Y1"), .atMost (x "X2") (x "Y2")]⟩]

/-- The rules of a proof attempt, each kind in the order in which they are tried. -/
structure Calculus where
  reduction : ReductionTable
  inference : List InferenceRule

namespace Calculus

/-- All standard rules. -/
def standard : Calculus := ⟨.standard, Standard.inference⟩

/-- The first inference rule of the given name. -/
def inferenceRule? (calculus : Calculus) (name : String) : Option InferenceRule :=
  calculus.inference.find? (·.name == name)

end Calculus

end InequalityChaining

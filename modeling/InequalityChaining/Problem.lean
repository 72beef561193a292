import InequalityChaining.Proposition.Basic
import InequalityChaining.Text.Lines

/-!
# Problems

A problem is an inequality to prove for all values of its variables, under assumptions about the
same variables.

## Main definitions

* `Problem`, `Problem.text` — problems
* `ProblemError`, `ProblemError.message` — what is wrong with a goal or an assumption
* `Problem.ofPropositions` — the problem with a goal and assumptions, after checking them
-/

namespace InequalityChaining

/-- A goal with assumptions; the variables are those of the goal. -/
structure Problem where
  goal : Proposition
  assumptions : List Proposition
  varNames : List String

/-- The reasons for rejecting a goal or an assumption. -/
inductive ProblemError where
  | goalNotInequality
  | placeholderInGoal
  | goalWithoutVariable
  | placeholderInAssumption (assumption : String)
  | assumptionWithoutVariable (assumption : String)
  | unknownVariable (name : String)
deriving DecidableEq, Repr

/-- The wording of a rejection. -/
def ProblemError.message : ProblemError → String
  | goalNotInequality => "the goal must be an inequality"
  | placeholderInGoal => "the goal must not contain placeholders"
  | goalWithoutVariable => "the goal must contain at least one variable"
  | placeholderInAssumption assumption => "assumption " ++ assumption ++ " contains placeholders"
  | assumptionWithoutVariable assumption =>
    "assumption " ++ assumption ++ " contains no variable"
  | unknownVariable name =>
    "variable " ++ name ++ " of the assumptions does not occur in the goal"

/-- Checks that a proposition can be a goal: an inequality without placeholders. -/
def Proposition.checkGoal (goal : Proposition) : Except ProblemError Unit :=
  if goal.relation ≠ .atMost then .error .goalNotInequality
  else if goal.hasPlaceholder then .error .placeholderInGoal
  else .ok ()

/-- Checks that a proposition can be an assumption about the given variables. -/
def Proposition.checkAssumption (varNames : List String) (assumption : Proposition) :
    Except ProblemError Unit :=
  if assumption.hasPlaceholder then .error (.placeholderInAssumption assumption.text)
  else if !assumption.hasVariable then .error (.assumptionWithoutVariable assumption.text)
  else
    match assumption.varNames.find? fun name => !varNames.contains name with
    | some name => .error (.unknownVariable name)
    | none => .ok ()

namespace Problem

/-- The problem with the given goal and assumptions. -/
def ofPropositions (goal : Proposition) (assumptions : List Proposition) :
    Except ProblemError Problem := do
  goal.checkGoal
  if !goal.hasVariable then throw .goalWithoutVariable
  assumptions.forM (Proposition.checkAssumption goal.varNames)
  return ⟨goal, assumptions, goal.varNames⟩

/-- The text of a problem. -/
def text (p : Problem) : String :=
  Text.underHeading "Variables" [Text.commaSeparated p.varNames] ++
    Text.underHeading "Assumptions" (p.assumptions.map Proposition.text) ++
    "Goal:\n" ++ p.goal.text

end Problem

end InequalityChaining

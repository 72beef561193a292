import InequalityChaining.Deduction.Run
import InequalityChaining.Problem

/-!
# Proof attempts

A proof attempt holds the goals and everything known so far. It starts with the variables and all
subterms of the problem under consideration and with the assumptions as facts. A goal is proved when
it is a fact; a proof of any alternative goal counts for the main one.

## Main definitions

* `Attempt`, `Attempt.start` — attempts and their beginning
* `Attempt.offerGoal` — a further goal
* `Attempt.prove` — deduction until a goal is a fact, with its `Outcome`
* `Report` — what an attempt has found, in printable form
-/

namespace InequalityChaining

/-- The goals of an attempt and what is known so far. -/
structure Attempt where
  varNames : List String
  mainGoal : Proposition
  alternatives : List Proposition
  knowledge : KnowledgeBase

/-- How proving has ended: a goal is a fact, no rule yields a new one, or the budget is used up. -/
inductive Outcome where
  | proved
  | goalNotReached
  | budgetExhausted
deriving DecidableEq, Repr

/-- The wording of an outcome. -/
def Outcome.message : Outcome → String
  | proved => "proved"
  | goalNotReached => "goal not reached"
  | budgetExhausted => "no proof found within budget"

/-- The name of an outcome in reports. -/
def Outcome.name : Outcome → String
  | proved => "Proved"
  | goalNotReached => "GoalNotReached"
  | budgetExhausted => "BudgetExhausted"

/-- The outcome of a run that looks for a goal. -/
def Outcome.ofEnding : Ending → Outcome
  | .stopped => proved
  | .saturated => goalNotReached
  | .budgetExhausted | .interrupted => budgetExhausted

/-- What an attempt has found. -/
structure Report where
  outcome : Outcome
  goal : String
  facts : List String
  history : List String

namespace KnowledgeBase

/-- Puts all subterms of both sides under consideration. -/
def addSubterms (k : KnowledgeBase) (p : Proposition) : KnowledgeBase :=
  p.sides.foldl (fun k side => k.addTerms side.subterms) k

/-- Adds an assumption as a fact. -/
def assume (k : KnowledgeBase) (assumption : Proposition) : KnowledgeBase :=
  let (added, k) := k.offerFact assumption ""
  if added then k.addHistory ("assuming: " ++ assumption.text) else k

end KnowledgeBase

namespace Attempt

/-- All goals, the main one first. -/
def goals (a : Attempt) : List Proposition := a.mainGoal :: a.alternatives

/-- The beginning of an attempt at a problem. -/
def start (p : Problem) : Attempt :=
  let opening := KnowledgeBase.empty
    |>.addHistory ("we will prove for all " ++ Text.commaSeparated p.varNames ++ ":")
    |>.addHistory p.goal.text
    |>.addTerms (p.varNames.map Term.var)
  let seeded := (p.assumptions ++ [p.goal]).foldl KnowledgeBase.addSubterms opening
  let assumed := p.assumptions.foldl KnowledgeBase.assume seeded
  ⟨p.varNames, p.goal, [], assumed.addHistory "here we go!"⟩

/-- Offers an alternative goal. It is added if it can be a goal and is none already. The answer is
whether it has been added, or why it cannot be a goal, next to the attempt afterwards. -/
def offerGoal (a : Attempt) (goal : Proposition) (message : String) :
    Except ProblemError Bool × Attempt :=
  match goal.checkGoal with
  | .error e => (.error e, a)
  | .ok () =>
    if a.goals.any (· == goal) then (.ok false, a)
    else
      let k := (a.knowledge.addSubterms goal).addHistory message
      (.ok true, { a with alternatives := a.alternatives ++ [goal], knowledge := k })

/-- The attempt with a further goal, if it is added. -/
def addGoal? (a : Attempt) (goal : Proposition) (message : String) :
    Except ProblemError (Option Attempt) :=
  let (answer, a) := a.offerGoal goal message
  answer.map fun added => if added then some a else none

/-- Whether a goal is a fact of the given knowledge. -/
def isProvedBy (a : Attempt) (k : KnowledgeBase) : Bool := a.goals.any k.containsFact

/-- Whether a goal is a known fact now. -/
def isProved (a : Attempt) : Bool := a.isProvedBy a.knowledge

/-- Deduces until a goal is a fact. -/
def prove (a : Attempt) (calculus : Calculus) (budget : Budget) (clock : Nat → Float) :
    Outcome × Attempt :=
  let run := a.knowledge.deduceUntil calculus budget a.isProvedBy clock
  (.ofEnding run.ending, { a with knowledge := run.knowledge })

/-- The report of an attempt that has ended so. -/
def report (a : Attempt) (outcome : Outcome) : Report :=
  ⟨outcome, a.mainGoal.text, a.knowledge.facts.map Proposition.text, a.knowledge.history⟩

/-- The text of an attempt. -/
def text (a : Attempt) : String :=
  Text.underHeading "Variables" [Text.commaSeparated a.varNames] ++
    Text.underHeading "Terms under consideration" (a.knowledge.terms.map Term.text) ++
    Text.underHeading "Facts assumed or derived" (a.knowledge.facts.map Proposition.text) ++
    Text.underHeading "Main goal" [a.mainGoal.text] ++
    Text.underHeading "Alternative goals" (a.alternatives.map Proposition.text)

end Attempt

end InequalityChaining

import InequalityChaining.Deduction.Step

/-!
# Deduction runs

A run takes one step after the other until a condition holds, no step is possible or its budget is
used up. The condition is looked at before the budget, and the budget before a step is tried.

A clock tells the milliseconds that have passed when the budget is looked at after a number of
steps; it is an argument, so that what is said of a run holds of every clock.

## Main definitions

* `Budget`, `Budget.isExhausted` — limits on the steps and the time
* `Run`, `Ending` — where a run has ended, and why
* `KnowledgeBase.deduceWithin` — a run of at most so many rounds
* `KnowledgeBase.deduceUntil` — a run with as many rounds as its budget allows
-/

namespace InequalityChaining

/-- Limits of a run; what is missing is no limit. -/
structure Budget where
  maxSteps : Option Nat
  timeLimit : Option Float

namespace Budget

/-- No limits. -/
def unlimited : Budget := ⟨none, none⟩

/-- Whether the steps taken or the milliseconds passed have reached a limit. -/
def isExhausted (b : Budget) (steps : Nat) (elapsed : Float) : Bool :=
  b.maxSteps.any (· ≤ steps) || b.timeLimit.any (· ≤ elapsed)

/-- The rounds of a run with this budget: one more than the steps that it allows, and without a
limit on the steps more than any run could take. -/
def rounds (b : Budget) : Nat := b.maxSteps.getD (Nat.pow 2 64) + 1

end Budget

/-- The clock of a run that takes no time. -/
def stillClock : Nat → Float := fun _ => 0

/-- Why a run has ended: its condition holds, no rule yields a new fact, the budget is used up, or
the rounds are. -/
inductive Ending where
  | stopped
  | saturated
  | budgetExhausted
  | interrupted
deriving DecidableEq, Repr

/-- Where a run has ended. -/
structure Run where
  ending : Ending
  steps : Nat
  knowledge : KnowledgeBase

namespace KnowledgeBase

/-- A run of at most `rounds` rounds after `steps` steps. -/
def deduceWithin (calculus : Calculus) (budget : Budget) (clock : Nat → Float)
    (stop : KnowledgeBase → Bool) (rounds steps : Nat) (k : KnowledgeBase) : Run :=
  match rounds with
  | 0 => ⟨.interrupted, steps, k⟩
  | rounds + 1 =>
    if stop k then ⟨.stopped, steps, k⟩
    else if budget.isExhausted steps (clock steps) then ⟨.budgetExhausted, steps, k⟩
    else
      match k.deduce? calculus with
      | none => ⟨.saturated, steps, k⟩
      | some deduced =>
        deduceWithin calculus budget clock stop rounds (steps + 1) deduced.knowledge

/-- A run until the condition holds. -/
def deduceUntil (k : KnowledgeBase) (calculus : Calculus) (budget : Budget)
    (stop : KnowledgeBase → Bool) (clock : Nat → Float) : Run :=
  deduceWithin calculus budget clock stop budget.rounds 0 k

/-- A run without a condition. -/
def deduce (k : KnowledgeBase) (calculus : Calculus) (budget : Budget) (clock : Nat → Float) :
    Run :=
  k.deduceUntil calculus budget (fun _ => false) clock

end KnowledgeBase

end InequalityChaining

import InequalityChaining.CommandLine.Answer

/-!
# The program

The outer layer of the command line: it hands the arguments on, tells the time to a proof under
way, and prints the answer.

## Main definitions

* `CommandLine.proveByTheClock` — a proof that looks at the clock after every step
* `CommandLine.answerByTheClock` — the answer to a request
* `main` — the program
-/

namespace InequalityChaining.CommandLine

/-- Proves one step at a time and looks at the clock in between. -/
partial def proveByTheClock (budget : Budget) (started steps : Nat) (a : Attempt) :
    IO (Outcome × Attempt) := do
  let elapsed := (← IO.monoMsNow) - started
  let exhausted := budget.isExhausted steps elapsed.toFloat
  match a.prove .standard ⟨some (if exhausted then 0 else 1), none⟩ stillClock with
  | (.budgetExhausted, a') =>
    if exhausted then return (.budgetExhausted, a')
    else proveByTheClock budget started (steps + 1) a'
  | ended => return ended

/-- The answer to a request, by the clock. -/
def answerByTheClock : Request → IO Answer
  | .prove goal assumptions budget format => do
    match startAttempt goal assumptions with
    | .error failure => return failure.toAnswer
    | .ok attempt =>
      let (outcome, attempt) ← proveByTheClock budget (← IO.monoMsNow) 0 attempt
      return tellAttempt format outcome attempt
  | request => return .toRequest stillClock request

end InequalityChaining.CommandLine

open InequalityChaining InequalityChaining.CommandLine

def main (arguments : List String) : IO UInt32 := do
  let answer ← match Request.ofArguments arguments with
    | .ok request => answerByTheClock request
    | .error refusal => pure (.toRefusal refusal)
  IO.print answer.output
  IO.eprint answer.errors
  return answer.exitCode.toUInt32

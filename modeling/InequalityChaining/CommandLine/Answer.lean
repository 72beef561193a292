import InequalityChaining.CommandLine.Arguments
import InequalityChaining.Attempt
import InequalityChaining.Document.Written
import InequalityChaining.Proposition.Reader

/-!
# Answers of the command line

## Main definitions

* `Answer` — what is printed, and the exit code
* `Answer.toRequest` — the answer to a request
* `Answer.toArguments` — the answer to arguments
-/

namespace InequalityChaining

namespace CommandLine

/-- What is written to the two outputs, and the exit code. -/
structure Answer where
  exitCode : Nat
  output : String
  errors : String

/-- A document for people or programs to read on. -/
def Answer.ofDocument (exitCode : Nat) (d : Document) : Answer :=
  ⟨exitCode, d.indented ++ "\n", ""⟩

/-- What has failed, and why. -/
structure Failure where
  what : String
  cause : String

/-- A failure is told on the error output, with its cause on a line of its own. -/
def Failure.toAnswer (f : Failure) : Answer :=
  ⟨1, "", "Error: " ++ f.what ++ "\n\nCaused by:\n    " ++ f.cause ++ "\n"⟩

/-- Turns an error into a failure. -/
def orFail {ε α : Type} (what : String) (message : ε → String) :
    Except ε α → Except Failure α
  | .ok a => .ok a
  | .error e => .error ⟨what, message e⟩

/-- A text between single quotation marks. -/
def quoted (text : String) : String := "'" ++ text ++ "'"

/-- The simplified term; the document also tells the term as read and its value, if it has one. -/
def simplifyTerm (text : String) (format : Format) : Except Failure Answer := do
  let t ← orFail ("failed to parse term " ++ quoted text) ReadError.message (Term.read text)
  let simplified ← orFail ("cannot simplify " ++ quoted t.text) ReductionError.message
    (ReductionTable.standard.simplify t)
  match format with
  | .text => return ⟨0, simplified.text ++ "\n", ""⟩
  | .json =>
    return .ofDocument 0 (.object [
      ("term", .string t.text),
      ("simplified", .string simplified.text),
      ("value", match t.evaluate with
        | .ok value => .string value.text
        | .error _ => .null)])

/-- The beginning of an attempt to prove a goal under assumptions. -/
def startAttempt (goal : String) (assumptions : List String) : Except Failure Attempt := do
  let goal ← orFail ("failed to parse goal " ++ quoted goal) ReadError.message
    (Proposition.read goal)
  let assumptions ← assumptions.mapM fun assumption =>
    orFail ("failed to parse assumption " ++ quoted assumption) ReadError.message
      (Proposition.read assumption)
  let problem ← orFail "invalid problem" ProblemError.message
    (Problem.ofPropositions goal assumptions)
  return Attempt.start problem

/-- A report as a document. -/
def reportDocument (r : Report) : Document :=
  .object [
    ("outcome", .string r.outcome.name),
    ("goal", .string r.goal),
    ("facts", .array (r.facts.map .string)),
    ("history", .array (r.history.map .string))]

/-- What is told of an attempt that has ended so. Success is a proof. -/
def tellAttempt (format : Format) (outcome : Outcome) (a : Attempt) : Answer :=
  let exitCode := if outcome = .proved then 0 else 1
  match format with
  | .text =>
    let history := String.join (a.knowledge.history.map (· ++ "\n"))
    ⟨exitCode, history ++ "\n" ++ a.text ++ "\n" ++ outcome.message ++ "\n", ""⟩
  | .json => .ofDocument exitCode (reportDocument (a.report outcome))

/-- The name and the version of the program. -/
def versionText : String := "prover 0.1.0\n"

/-- How the program is called. -/
def usageText : String :=
  "usage: prover [--format text|json] [-v] prove GOAL [-a PROPOSITION]... [--max-steps N]" ++
    " [--time-limit-ms T]\n       prover [--format text|json] [-v] simplify TERM\n"

/-- The answer to a request, proving with the given clock. -/
def Answer.toRequest (clock : Nat → Float) (request : Request) : Answer :=
  let answer : Except Failure Answer :=
    match request with
    | .version => .ok ⟨0, versionText, ""⟩
    | .help => .ok ⟨0, usageText, ""⟩
    | .simplify term format => simplifyTerm term format
    | .prove goal assumptions budget format =>
      (startAttempt goal assumptions).map fun attempt =>
        let (outcome, attempt) := attempt.prove .standard budget clock
        tellAttempt format outcome attempt
  match answer with
  | .ok answer => answer
  | .error failure => failure.toAnswer

/-- The answer to arguments that are not understood. -/
def Answer.toRefusal : Refusal → Answer
  | .usage => ⟨2, "", usageText⟩

/-- The answer to arguments. -/
def Answer.toArguments (clock : Nat → Float) (arguments : List String) : Answer :=
  match Request.ofArguments arguments with
  | .ok request => .toRequest clock request
  | .error refusal => .toRefusal refusal

end CommandLine

end InequalityChaining

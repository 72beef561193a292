import InequalityChaining.Term.Basic
import InequalityChaining.Text.Name

/-!
# Checked construction of terms

Terms from unchecked parts: names must be names, constants must be finite and operations on two
operands must be given two.

## Main definitions

* `TermError`, `TermError.message` — what is wrong with the parts
* `Term.checkedReal`, `Term.checkedVar`, `Term.checkedPlaceholder`, `Term.ofOperator` — the checks
-/

namespace InequalityChaining

/-- The reasons for rejecting the parts of a term. -/
inductive TermError where
  | arity (op : Operator) (given : Nat)
  | invalidName (name : String)
  | nonReal (value : Float)
deriving DecidableEq

/-- The wording of a rejection. -/
def TermError.message : TermError → String
  | arity op given => op.name ++ " takes 2 operands but " ++ toString given ++ " were given"
  | invalidName name =>
    "'" ++ name ++ "' is not a valid name, names must be alphanumeric and start with a letter"
  | nonReal value => (Number.real value).text ++ " is not a real number"

namespace Term

/-- The constant with a finite real value. -/
def checkedReal (value : Float) : Except TermError Term :=
  match Number.ofFloat value with
  | .ok number => .ok (constant number)
  | .error _ => .error (.nonReal value)

/-- The variable with a valid name. -/
def checkedVar (name : String) : Except TermError Term :=
  if Text.isName name.toList then .ok (var name) else .error (.invalidName name)

/-- The placeholder with a valid name. -/
def checkedPlaceholder (name : String) (kind : PlaceholderKind) : Except TermError Term :=
  if Text.isName name.toList then .ok (placeholder name kind) else .error (.invalidName name)

/-- An operation on a list of operands. -/
def ofOperator (op : Operator) (operands : List Term) : Except TermError Term :=
  match op, operands with
  | .variadic o, operands => .ok (variadic o operands)
  | .binary o, [left, right] => .ok (binary o left right)
  | .binary _, operands => .error (.arity op operands.length)

end Term

end InequalityChaining

import InequalityChaining.Proposition.Basic
import InequalityChaining.Term.Reader

/-!
# Reading propositions

A proposition is written as two terms with one relation sign between them.

## Main definitions

* `Proposition.ofTokens` — the proposition that a run of tokens is
* `Proposition.read` — the proposition that a text is
-/

namespace InequalityChaining

namespace Token

/-- The sign of a relation token. -/
def relationSign? : Token → Option RelationSign
  | relation sign => some sign
  | _ => none

end Token

namespace Proposition

/-- The proposition that the tokens are. The number of relation signs is looked at first, then the
parentheses of both sides, then the sides themselves. -/
def ofTokens (tokens : List Token) : Except ReadError Proposition :=
  match tokens.filterMap Token.relationSign? with
  | [] => .error .missingRelation
  | [sign] => do
    let left := tokens.takeWhile fun token => token.relationSign?.isNone
    let right := (tokens.dropWhile fun token => token.relationSign?.isNone).tail
    if Token.balanced left && Token.balanced right then
      let lhs ← Term.ofTokens left
      let rhs ← Term.ofTokens right
      return ofSign sign lhs rhs
    else .error .unbalancedParentheses
  | _ => .error .multipleRelations

/-- The proposition that a text is. -/
def read (text : String) : Except ReadError Proposition :=
  match Token.scan text with
  | .error c => .error (.invalidCharacter c)
  | .ok tokens => ofTokens tokens

end Proposition

end InequalityChaining

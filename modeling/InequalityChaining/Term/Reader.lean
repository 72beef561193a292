import InequalityChaining.Term.Checked
import InequalityChaining.Token.Scan
import InequalityChaining.Text.Capital

/-!
# Reading terms

The grammar of terms, in which a run of plus signs makes one sum and a run of stars one product,
minus and slash associate to the left and the caret to the right:

    sum      := negation (('+' | '-') product)*
    negation := '-' negation | product
    product  := factor (('*' | '/') factor)*
    factor   := '-' factor | power
    power    := radical ('^' factor)?
    radical  := RADICAL radical | primary
    primary  := NUMBER | IDENTIFIER | '#' IDENTIFIER | '(' sum ')'

An identifier with a capital initial is a placeholder for any term, another one a variable. Each
function of the reader returns the tokens that it leaves, together with a proof that they are
fewer; that is why reading ends.

## Main definitions

* `ReadError`, `ReadError.message` — what can be wrong with a text
* `Term.ofTokens` — the term that a run of tokens is
* `Term.read` — the term that a text is
-/

namespace InequalityChaining

/-- The reasons for which a text is not read. -/
inductive ReadError where
  | invalidCharacter (c : Char)
  | unexpectedToken (token : Token)
  | unexpectedEnd
  | unbalancedParentheses
  | multipleRelations
  | missingRelation
  | numberOutOfRange (literal : Literal)
  | invalidTerm (error : TermError)
deriving DecidableEq

/-- The wording of a reading error. -/
def ReadError.message : ReadError → String
  | invalidCharacter c => "invalid character '" ++ c.toString ++ "'"
  | unexpectedToken token => "unexpected '" ++ token.text ++ "'"
  | unexpectedEnd => "unexpected end of input"
  | unbalancedParentheses => "unbalanced parentheses"
  | multipleRelations => "more than one relation"
  | missingRelation => "expected one of =, <=, >="
  | numberOutOfRange literal => literal.text ++ " is not a representable number"
  | invalidTerm error => error.message

namespace Token

/-- The number of parentheses that are open after the tokens, if none is closed too early. -/
def depthAfter? (depth : Nat) : List Token → Option Nat
  | [] => some depth
  | leftParenthesis :: rest => depthAfter? (depth + 1) rest
  | rightParenthesis :: rest =>
    match depth with
    | 0 => none
    | depth + 1 => depthAfter? depth rest
  | _ :: rest => depthAfter? depth rest

/-- Whether every parenthesis has its partner. -/
def balanced (tokens : List Token) : Bool := depthAfter? 0 tokens == some 0

end Token

namespace Term

/-- A single operand stands for itself; several make one operation. -/
def collapse (op : Variadic) : List Term → Term
  | [t] => t
  | ts => variadic op ts

/-- The term for an identifier. -/
def ofIdentifier (name : String) : Except TermError Term :=
  if name.toList.head?.any Text.isCapital then checkedPlaceholder name .any else checkedVar name

/-- What reading a beginning of the tokens yields: the value and the fewer tokens left. -/
abbrev Reading (tokens : List Token) : Type :=
  Except ReadError (Term × { rest : List Token // rest.length < tokens.length })

/-- The same where nothing need be read. -/
abbrev Continuation (tokens : List Token) : Type :=
  Except ReadError (Term × { rest : List Token // rest.length ≤ tokens.length })

mutual

/-- Reads `sum`. -/
def readSum (tokens : List Token) : Reading tokens := do
  let (first, ⟨rest, _⟩) ← readNegation tokens
  let (t, ⟨rest', _⟩) ← readSummands [first] rest
  return (t, ⟨rest', by omega⟩)
termination_by (tokens.length, 8)

/-- Continues a sum of which the given operands are read. -/
def readSummands (operands : List Term) (tokens : List Token) : Continuation tokens :=
  match tokens with
  | .plus :: rest => do
    let (t, ⟨rest, _⟩) ← readProduct rest
    let (u, ⟨rest, _⟩) ← readSummands (operands ++ [t]) rest
    return (u, ⟨rest, by simp; omega⟩)
  | .minus :: rest => do
    let (t, ⟨rest, _⟩) ← readProduct rest
    let (u, ⟨rest, _⟩) ← readSummands [difference (collapse .sum operands) t] rest
    return (u, ⟨rest, by simp; omega⟩)
  | rest => .ok (collapse .sum operands, ⟨rest, Nat.le_refl _⟩)
termination_by (tokens.length, 0)

/-- Reads `negation`. -/
def readNegation (tokens : List Token) : Reading tokens :=
  match tokens with
  | .minus :: rest => do
    let (t, ⟨rest, _⟩) ← readNegation rest
    return (opposite t, ⟨rest, by simp; omega⟩)
  | rest => readProduct rest
termination_by (tokens.length, 7)

/-- Reads `product`. -/
def readProduct (tokens : List Token) : Reading tokens := do
  let (first, ⟨rest, _⟩) ← readFactor tokens
  let (t, ⟨rest', _⟩) ← readFactors [first] rest
  return (t, ⟨rest', by omega⟩)
termination_by (tokens.length, 6)

/-- Continues a product of which the given operands are read. -/
def readFactors (operands : List Term) (tokens : List Token) : Continuation tokens :=
  match tokens with
  | .star :: rest => do
    let (t, ⟨rest, _⟩) ← readFactor rest
    let (u, ⟨rest, _⟩) ← readFactors (operands ++ [t]) rest
    return (u, ⟨rest, by simp; omega⟩)
  | .slash :: rest => do
    let (t, ⟨rest, _⟩) ← readFactor rest
    let (u, ⟨rest, _⟩) ← readFactors [quotient (collapse .product operands) t] rest
    return (u, ⟨rest, by simp; omega⟩)
  | rest => .ok (collapse .product operands, ⟨rest, Nat.le_refl _⟩)
termination_by (tokens.length, 0)

/-- Reads `factor`. -/
def readFactor (tokens : List Token) : Reading tokens :=
  match tokens with
  | .minus :: rest => do
    let (t, ⟨rest, _⟩) ← readFactor rest
    return (opposite t, ⟨rest, by simp; omega⟩)
  | rest => readPower rest
termination_by (tokens.length, 5)

/-- Reads `power`. -/
def readPower (tokens : List Token) : Reading tokens := do
  match ← readRadical tokens with
  | (base, ⟨.caret :: rest, shorter⟩) => do
    have : rest.length < tokens.length := Nat.lt_of_succ_lt shorter
    let (exponent, ⟨rest, _⟩) ← readFactor rest
    return (power base exponent, ⟨rest, by omega⟩)
  | (base, rest) => return (base, rest)
termination_by (tokens.length, 4)

/-- Reads `radical`. -/
def readRadical (tokens : List Token) : Reading tokens :=
  match tokens with
  | .radical sign :: rest => do
    let (t, ⟨rest, _⟩) ← readRadical rest
    return (root t (int sign.index), ⟨rest, by simp; omega⟩)
  | rest => readPrimary rest
termination_by (tokens.length, 3)

/-- Reads `primary`. -/
def readPrimary (tokens : List Token) : Reading tokens :=
  match tokens with
  | .number literal :: rest =>
    match literal.toNumber? with
    | some value => .ok (constant value, ⟨rest, by simp⟩)
    | none => .error (.numberOutOfRange literal)
  | .identifier name :: rest =>
    match ofIdentifier name with
    | .ok t => .ok (t, ⟨rest, by simp⟩)
    | .error e => .error (.invalidTerm e)
  | .constantPlaceholder name :: rest =>
    match checkedPlaceholder name .constantOnly with
    | .ok t => .ok (t, ⟨rest, by simp⟩)
    | .error e => .error (.invalidTerm e)
  | .leftParenthesis :: rest => do
    match ← readSum rest with
    | (t, ⟨.rightParenthesis :: rest, _⟩) => return (t, ⟨rest, by simp at *; omega⟩)
    | (_, ⟨token :: _, _⟩) => .error (.unexpectedToken token)
    | (_, ⟨[], _⟩) => .error .unbalancedParentheses
  | token :: _ => .error (.unexpectedToken token)
  | [] => .error .unexpectedEnd
termination_by (tokens.length, 2)

end

/-- The term that the tokens are. Unbalanced parentheses are reported before all else. -/
def ofTokens (tokens : List Token) : Except ReadError Term :=
  if Token.balanced tokens then
    match readSum tokens with
    | .error e => .error e
    | .ok (t, ⟨[], _⟩) => .ok t
    | .ok (_, ⟨token :: _, _⟩) => .error (.unexpectedToken token)
  else .error .unbalancedParentheses

/-- The term that a text is. -/
def read (text : String) : Except ReadError Term :=
  match Token.scan text with
  | .error c => .error (.invalidCharacter c)
  | .ok tokens => ofTokens tokens

end Term

end InequalityChaining

import InequalityChaining.Term.Basic

/-!
# Written terms

A term is written with the fewest parentheses that its precedences ask for: an operand is bracketed
if it binds no tighter than the operation around it. A difference from zero is written with a
leading minus, and a root with index two, three or four with its radical sign, which binds tighter
than every operation. Any other root is written as a power with the reciprocal index.

## Main definitions

* `Term.bindingStrength` — the precedence of a term as an operand
* `Term.tokens`, `Term.text` — the written form
-/

namespace InequalityChaining

/-- The sign between the operands of a sum or a product. -/
def Variadic.sign : Variadic → Token
  | sum => .plus
  | product => .star

namespace Term

/-- The sign for a root with the given index. -/
def radicalSign? (index : Term) : Option RadicalSign :=
  if index.isNumber 2 then some .square
  else if index.isNumber 3 then some .cube
  else if index.isNumber 4 then some .fourth
  else none

/-- The strength of what needs no brackets anywhere. -/
def atomicStrength : Nat := 4

/-- How tightly a term holds together when it stands as an operand. -/
def bindingStrength : Term → Nat
  | constant value => if value.isNegative then 1 else atomicStrength
  | variadic op operands =>
    if operands.isEmpty then atomicStrength else (Operator.variadic op).precedence
  | binary .root _ index =>
    if index.radicalSign?.isSome then atomicStrength else (Operator.binary .root).precedence
  | binary op _ _ => (Operator.binary op).precedence
  | _ => atomicStrength

/-- The tokens of an operand of an operation of the given precedence. -/
def bracketed (precedence : Nat) (operand : Term) (tokens : List Token) : List Token :=
  if operand.bindingStrength ≤ precedence then
    .leftParenthesis :: tokens ++ [.rightParenthesis]
  else tokens

mutual

/-- The tokens that a term is written with. -/
def tokens : Term → List Token
  | constant value => value.tokens
  | var name => [.identifier name]
  | placeholder name .any => [.identifier name]
  | placeholder name .constantOnly => [.constantPlaceholder name]
  | variadic .sum [] => [.identifier "sum", .leftParenthesis, .rightParenthesis]
  | variadic .product [] => [.identifier "product", .leftParenthesis, .rightParenthesis]
  | variadic op (first :: rest) =>
    bracketed (Operator.variadic op).precedence first (tokens first) ++ tokensOfRest op rest
  | binary .difference left right =>
    (if left.isNumber 0 then [] else bracketed 1 left (tokens left)) ++
      .minus :: bracketed 1 right (tokens right)
  | binary .quotient left right =>
    bracketed 2 left (tokens left) ++ .slash :: bracketed 2 right (tokens right)
  | binary .power base exponent =>
    bracketed 3 base (tokens base) ++ .caret :: bracketed 3 exponent (tokens exponent)
  | binary .root radicand index =>
    match index.radicalSign? with
    | some sign => .radical sign :: bracketed 3 radicand (tokens radicand)
    | none =>
      bracketed 3 radicand (tokens radicand) ++
        [.caret, .leftParenthesis, .number (.ofNat 1), .slash] ++
        bracketed 2 index (tokens index) ++ [.rightParenthesis]

/-- The tokens of all operands after the first, each after its sign. -/
def tokensOfRest (op : Variadic) : List Term → List Token
  | [] => []
  | t :: ts =>
    op.sign :: bracketed (Operator.variadic op).precedence t (tokens t) ++ tokensOfRest op ts

end

/-- The text of a term. -/
def text (t : Term) : String := Token.textOfAll t.tokens

end Term

end InequalityChaining

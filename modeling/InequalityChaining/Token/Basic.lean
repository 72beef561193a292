import InequalityChaining.Number.Literal

/-!
# Tokens

Terms and propositions are written as runs of tokens. The text of a run is the text of its tokens
without anything in between.

## Main definitions

* `Token` — the lexical units, `RadicalSign` and `RelationSign` among them
* `Token.text`, `Token.textOfAll` — how tokens are written
* `Number.tokens`, `Number.text` — how numbers are written
-/

namespace InequalityChaining

/-- The signs for the second, third and fourth root. -/
inductive RadicalSign where
  | square
  | cube
  | fourth
deriving DecidableEq, Repr

/-- The index of the root that the sign stands for. -/
def RadicalSign.index : RadicalSign → Int64
  | square => 2
  | cube => 3
  | fourth => 4

/-- The character of a radical sign. -/
def RadicalSign.char : RadicalSign → Char
  | square => '√'
  | cube => '∛'
  | fourth => '∜'

/-- The signs of the relations that can be written. -/
inductive RelationSign where
  | equals
  | atMost
  | atLeast
deriving DecidableEq, Repr

/-- The ASCII spelling of a relation sign. -/
def RelationSign.text : RelationSign → String
  | equals => "="
  | atMost => "<="
  | atLeast => ">="

/-- A lexical unit. -/
inductive Token where
  | number (literal : Literal)
  | identifier (name : String)
  | constantPlaceholder (name : String)
  | leftParenthesis
  | rightParenthesis
  | plus
  | minus
  | star
  | slash
  | caret
  | radical (sign : RadicalSign)
  | relation (sign : RelationSign)
deriving DecidableEq, Repr

namespace Token

/-- The text of a token. -/
def text : Token → String
  | number literal => literal.text
  | identifier name => name
  | constantPlaceholder name => "#" ++ name
  | leftParenthesis => "("
  | rightParenthesis => ")"
  | plus => "+"
  | minus => "-"
  | star => "*"
  | slash => "/"
  | caret => "^"
  | radical sign => sign.char.toString
  | relation sign => sign.text

/-- The text of a run of tokens. -/
def textOfAll (tokens : List Token) : String := String.join (tokens.map text)

end Token

namespace Number

/-- Whether the number is written with a minus sign, which negative zero has too. -/
def hasMinus : Number → Bool
  | int i => decide (i.toInt < 0)
  | real x =>
    match Binary64.ofReal x with
    | .finite negative _ _ => negative
    | .infinite negative => negative
    | .notANumber _ _ => false

/-- The number without its sign: a literal, or a word for what has none. -/
def magnitudeToken : Number → Token
  | int i => .number (.ofNat i.toInt.natAbs)
  | real x =>
    match Binary64.ofReal x with
    | .finite _ magnitude exponent => .number (.ofBinary64 magnitude exponent)
    | .infinite _ => .identifier "inf"
    | .notANumber _ _ => .identifier "NaN"

/-- The tokens of a number. -/
def tokens (a : Number) : List Token :=
  if a.hasMinus then [.minus, a.magnitudeToken] else [a.magnitudeToken]

/-- The text of a number. -/
def text (a : Number) : String := Token.textOfAll a.tokens

end Number

end InequalityChaining

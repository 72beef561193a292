import InequalityChaining.Term.Equality
import InequalityChaining.Term.Written

/-!
# Propositions

A proposition relates two terms. An equation may be read in either direction, an inequality may
not.

## Main definitions

* `Proposition` — a relation and its two sides; `Proposition.atLeast` swaps them
* `Proposition.equal`, `BEq Proposition` — equality, of equations up to direction
* `Proposition.reversed?` — the other direction of an equation
* `Proposition.mapSides` — a fallible change of both sides
-/

namespace InequalityChaining

/-- The relations of terms. -/
inductive Relation where
  | equals
  | atMost
deriving DecidableEq, Repr

/-- The sign that the relation is written with. -/
def Relation.sign : Relation → RelationSign
  | equals => .equals
  | atMost => .atMost

/-- A relation between two terms. -/
structure Proposition where
  relation : Relation
  lhs : Term
  rhs : Term

namespace Proposition

/-- The equation of two terms. -/
def equals (lhs rhs : Term) : Proposition := ⟨.equals, lhs, rhs⟩

/-- The inequality with the lesser term first. -/
def atMost (lhs rhs : Term) : Proposition := ⟨.atMost, lhs, rhs⟩

/-- That one term is at least another is that the other is at most the one. -/
def atLeast (lhs rhs : Term) : Proposition := atMost rhs lhs

/-- The proposition that a relation sign between two terms states. -/
def ofSign (sign : RelationSign) (lhs rhs : Term) : Proposition :=
  match sign with
  | .equals => equals lhs rhs
  | .atMost => atMost lhs rhs
  | .atLeast => atLeast lhs rhs

/-- Equality of relation and sides; the sides of equations may be swapped. -/
def equal (p q : Proposition) : Bool :=
  match p.relation, q.relation with
  | .equals, .equals => (p.lhs == q.lhs && p.rhs == q.rhs) || (p.lhs == q.rhs && p.rhs == q.lhs)
  | .atMost, .atMost => p.lhs == q.lhs && p.rhs == q.rhs
  | _, _ => false

/-- Equations are compared in both directions. -/
instance : BEq Proposition := ⟨equal⟩

/-- An equation read in the other direction. -/
def reversed? (p : Proposition) : Option Proposition :=
  match p.relation with
  | .equals => some (equals p.rhs p.lhs)
  | .atMost => none

/-- The left side and the right side. -/
def sides (p : Proposition) : List Term := [p.lhs, p.rhs]

/-- Whether a variable occurs on a side. -/
def hasVariable (p : Proposition) : Bool := p.lhs.hasVariable || p.rhs.hasVariable

/-- Whether a placeholder occurs on a side. -/
def hasPlaceholder (p : Proposition) : Bool := p.lhs.hasPlaceholder || p.rhs.hasPlaceholder

/-- The names of the variables of both sides in ascending order. -/
def varNames (p : Proposition) : List String :=
  Text.ascending (p.lhs.varNames ++ p.rhs.varNames)

/-- Changes both sides, the left one first. -/
def mapSides {ε : Type} (f : Term → Except ε Term) (p : Proposition) : Except ε Proposition := do
  let lhs ← f p.lhs
  let rhs ← f p.rhs
  return ⟨p.relation, lhs, rhs⟩

/-- The tokens that a proposition is written with. -/
def tokens (p : Proposition) : List Token :=
  p.lhs.tokens ++ .relation p.relation.sign :: p.rhs.tokens

/-- The text of a proposition. -/
def text (p : Proposition) : String := Token.textOfAll p.tokens

end Proposition

end InequalityChaining

import InequalityChaining.Term.Basic

/-!
# Equality of terms

The operands of sums and products may stand in any order; everything else is compared position by
position. Constants are compared by their exact values, so a NaN is not equal to itself. A term
that holds one outside every sum and product is equal to no term. Among the operands of a sum or a
product such terms only count: two sums are equal if they have equally many operands and the
operands that are equal to themselves pair off.

## Main definitions

* `Term.isReflexive` — whether a term equals itself
* `Term.equal`, `BEq Term` — equality
* `Term.sameOperands` — equality of operand lists in any order
-/

namespace InequalityChaining

namespace Term

/-- Whether the term is equal to itself, which it is unless it holds an undefined constant outside
every sum and product. -/
def isReflexive : Term → Bool
  | constant value => value.isDefined
  | binary _ left right => left.isReflexive && right.isReflexive
  | _ => true

mutual

/-- Equality up to the order of the operands of sums and products. -/
def equal : Term → Term → Bool
  | constant a, constant b => a == b
  | var a, var b => a == b
  | placeholder a k, placeholder b l => a == b && k == l
  | variadic o as, variadic p bs => o == p && as.length == bs.length && pairOff as bs
  | binary o a₁ a₂, binary p b₁ b₂ => o == p && equal a₁ b₁ && equal a₂ b₂
  | _, _ => false

/-- Whether the operands that are equal to themselves can be paired with equal ones: each in turn
takes the first equal operand of the other list out of it. -/
def pairOff : List Term → List Term → Bool
  | [], bs => bs.all fun b => !b.isReflexive
  | a :: as, bs =>
    if a.isReflexive then bs.any (equal a) && pairOff as (bs.eraseP (equal a))
    else pairOff as bs

end

/-- Terms are compared up to the order of operands. -/
instance : BEq Term := ⟨equal⟩

/-- Whether two operand lists agree up to order. -/
def sameOperands (as bs : List Term) : Bool := as.length == bs.length && pairOff as bs

end Term

end InequalityChaining

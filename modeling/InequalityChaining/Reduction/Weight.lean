import InequalityChaining.Term.Basic

/-!
# The weight of a term

The weight bounds the passes by the standard rules. A node of two operands weighs at least as much
as four times the number of all such nodes, twice as much if it is a root, and the more the more
sums and products it stands in: taking a difference out of a sum makes it lighter although it
leaves two sums behind, and merging two nested operations of two operands into one pays for the
sum or product that joins their operands.

## Main definitions

* `Term.binaryCount` — the number of nodes with two operands
* `Term.weightAt` — the weight of a term inside a number of sums and products
* `Term.weight` — the weight of a whole term
-/

namespace InequalityChaining

/-- The multiple of the unit that a node of two operands weighs. A root weighs two, so that a power
of a root or a root of a power may leave a quotient behind. -/
def Binary.units : Binary → Nat
  | difference | quotient | power => 1
  | root => 2

namespace Term

mutual

/-- The number of nodes with two operands. -/
def binaryCount : Term → Nat
  | variadic _ operands => binaryCountOfAll operands
  | binary _ left right => 1 + binaryCount left + binaryCount right
  | _ => 0

/-- The same for a list of terms. -/
def binaryCountOfAll : List Term → Nat
  | [] => 0
  | t :: ts => binaryCount t + binaryCountOfAll ts

end

mutual

/-- The weight of a term that stands inside `depth` sums and products. -/
def weightAt (unit depth : Nat) : Term → Nat
  | constant (.real _) => 3
  | variadic _ operands => 3 + weightOfAll unit (depth + 1) operands
  | binary op left right =>
    op.units * unit + 4 * depth + weightAt unit depth left + weightAt unit depth right
  | _ => 2

/-- The same for a list of terms. -/
def weightOfAll (unit depth : Nat) : List Term → Nat
  | [] => 0
  | t :: ts => weightAt unit depth t + weightOfAll unit depth ts

end

/-- The weight of a term. -/
def weight (t : Term) : Nat := t.weightAt (4 * t.binaryCount + 4) 0

end Term

end InequalityChaining

import InequalityChaining.Reduction.Table
import InequalityChaining.Reduction.Weight
import InequalityChaining.Evaluation

/-!
# The standard reduction rules

The standard rules come in three groups that are tried in this order: the clean-up of reals that
pass for integers and of sums and products without or with one operand, the laws of zero and one
and the folding of constants, and the flattening of nested operations, by which differences move
out of sums and quotients out of products.

## Main definitions

* `Standard.cleanup`, `Standard.arithmetic`, `Standard.nesting` — the three groups
* `ReductionTable.standard` — the table of all standard rules
-/

namespace InequalityChaining

namespace Standard

open Term

/-- Any term. -/
def anyTerm (name : String) : Term := placeholder name .any

/-- Any term without variables. -/
def anyConstant (name : String) : Term := placeholder name .constantOnly

/-- Whether the term is a number by itself. -/
def isConstantNode : Term → Bool
  | constant _ => true
  | _ => false

/-- The operands of an operation of the given kind; other terms count as having none. -/
def operandsOf (op : Variadic) : Term → List Term
  | variadic o operands => if o = op then operands else []
  | _ => []

/-- The operands of a difference or quotient. -/
def partsOf? (op : Binary) : Term → Option (Term × Term)
  | binary o left right => if o = op then some (left, right) else none
  | _ => none

/-- A real that passes for an integer as that integer. -/
def toInteger (t : Term) : Term :=
  match t.constantValue?.bind Number.integralValue? with
  | some i => int i
  | none => t

/-- Whether the term is a real that passes for an integer. -/
def isIntegralReal (t : Term) : Bool := (t.constantValue?.bind Number.integralValue?).isSome

/-- The value of a constant term as a term. -/
def evaluated (t : Term) : Except DomainError Term := t.evaluate.map constant

/-- Whether the term is an operation of the given kind with an operand that satisfies the predicate.
-/
def hasOperand (op : Variadic) (p : Term → Bool) (t : Term) : Bool := (operandsOf op t).any p

/-- The operation without the operands equal to a number. -/
def withoutNumber (op : Variadic) (i : Int64) (t : Term) : Term :=
  variadic op ((operandsOf op t).filter fun u => !u.isNumber i)

/-- Whether constants can be folded: there is more than one. -/
def hasConstants (op : Variadic) (t : Term) : Bool :=
  decide (2 ≤ ((operandsOf op t).filter isConstantNode).length)

/-- The sum with one constant for all, behind the other operands. -/
def foldSum (t : Term) : Except DomainError Term := do
  let parts := (operandsOf .sum t).partition isConstantNode
  let value ← (sum parts.1).evaluate
  return sum (parts.2 ++ [constant value])

/-- The product with one constant for all, before the other operands. -/
def foldProduct (t : Term) : Except DomainError Term := do
  let parts := (operandsOf .product t).partition isConstantNode
  let value ← (product parts.1).evaluate
  return product (constant value :: parts.2)

/-- Whether the term is an operation of the given kind. -/
def isVariadic (op : Variadic) : Term → Bool
  | variadic o _ => o == op
  | _ => false

/-- The operands that an operand contributes to a flattened operation. -/
def splice (op : Variadic) (t : Term) : List Term :=
  match t with
  | variadic o operands => if o = op then operands else [t]
  | t => [t]

/-- The operation with the operands of operands of the same kind as its own. -/
def flatten (op : Variadic) (t : Term) : Term := variadic op ((operandsOf op t).flatMap (splice op))

/-- Takes differences out of a sum, or quotients out of a product: `a+(b-c)+(d-e)` becomes
`(a+b+d)-(c+e)`. -/
def pullOut (op : Variadic) (inner : Binary) (t : Term) : Term :=
  let lefts := (operandsOf op t).map fun u => ((partsOf? inner u).map Prod.fst).getD u
  let rights := (operandsOf op t).filterMap fun u => (partsOf? inner u).map Prod.snd
  binary inner (variadic op lefts) (variadic op rights)

/-- Empty and singleton sums and products, and reals that pass for integers. -/
def cleanup : List ReductionRule :=
  let x := anyTerm "X"
  [.shape "integral_real" isIntegralReal fun t => .ok (toInteger t),
    .replace "empty_sum" (sum []) (int 0),
    .replace "empty_product" (product []) (int 1),
    .replace "singleton_sum" (sum [x]) x,
    .replace "singleton_product" (product [x]) x]

/-- Operations without a value, the laws of zero and one, and the folding of constants. A root with
index zero is reported before the roots of zero and one are looked at. -/
def arithmetic : List ReductionRule :=
  let x := anyTerm "X"
  let c := anyConstant "X"
  let d := anyConstant "Y"
  [.fail "division_by_zero" (quotient x (int 0)) .divisionByZero,
    .fail "zero_to_the_zero" (power (int 0) (int 0)) .zeroToTheZero,
    .fail "zeroth_root" (root x (int 0)) .zerothRoot,
    .shape "add_zero" (hasOperand .sum (·.isNumber 0)) fun t => .ok (withoutNumber .sum 0 t),
    .replace "subtract_zero" (difference x (int 0)) x,
    .shape "multiply_zero" (hasOperand .product (·.isNumber 0)) fun _ => .ok (int 0),
    .replace "divide_zero" (quotient (int 0) x) (int 0),
    .shape "multiply_one" (hasOperand .product (·.isNumber 1)) fun t =>
      .ok (withoutNumber .product 1 t),
    .replace "divide_by_one" (quotient x (int 1)) x,
    .replace "zero_base" (power (int 0) x) (int 0),
    .replace "one_base" (power (int 1) x) (int 1),
    .replace "zero_exponent" (power x (int 0)) (int 1),
    .replace "one_exponent" (power x (int 1)) x,
    .replace "root_of_zero" (root (int 0) x) (int 0),
    .replace "root_of_one" (root (int 1) x) (int 1),
    .replace "first_root" (root x (int 1)) x,
    .shape "fold_sum" (hasConstants .sum) foldSum,
    .compute "fold_difference" (difference c d) evaluated,
    .shape "fold_product" (hasConstants .product) foldProduct,
    .compute "fold_quotient" (quotient c d) evaluated,
    .compute "fold_power" (power c d) evaluated,
    .compute "fold_root" (root c d) evaluated]

/-- Flat sums and products, and one operation in the place of two nested ones. -/
def nesting : List ReductionRule :=
  let x := anyTerm "X"
  let y := anyTerm "Y"
  let z := anyTerm "Z"
  [.shape "flatten_sum" (hasOperand .sum (isVariadic .sum)) fun t => .ok (flatten .sum t),
    .shape "subtraction_in_sum" (hasOperand .sum fun u => (partsOf? .difference u).isSome)
      fun t => .ok (pullOut .sum .difference t),
    .replace "nested_subtraction_left" (difference (difference x y) z) (difference x (sum [y, z])),
    .replace "nested_subtraction_right" (difference x (difference y z)) (difference (sum [x, z]) y),
    .shape "flatten_product" (hasOperand .product (isVariadic .product))
      fun t => .ok (flatten .product t),
    .shape "division_in_product" (hasOperand .product fun u => (partsOf? .quotient u).isSome)
      fun t => .ok (pullOut .product .quotient t),
    .replace "nested_division_left" (quotient (quotient x y) z) (quotient x (product [y, z])),
    .replace "nested_division_right" (quotient x (quotient y z)) (quotient (product [x, z]) y),
    .replace "power_of_power" (power (power x y) z) (power x (product [y, z])),
    .replace "power_of_root" (power (root x y) z) (power x (quotient z y)),
    .replace "root_of_power" (root (power x y) z) (power x (quotient y z)),
    .replace "root_of_root" (root (root x y) z) (root x (product [y, z]))]

/-- All standard rules in the order in which they are tried. -/
def rules : List ReductionRule := cleanup ++ arithmetic ++ nesting

end Standard

/-- The standard rules. The weight of a term is their limit. -/
def ReductionTable.standard : ReductionTable := ⟨Standard.rules, Term.weight⟩

end InequalityChaining

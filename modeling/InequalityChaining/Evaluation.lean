import InequalityChaining.Term.Basic

/-!
# Evaluation

A term without variables and placeholders has a value unless some operation in it has none. The
operands of sums and products are added or multiplied from the left.

## Main definitions

* `Variadic.apply`, `Binary.apply` — the operations on numbers
* `Term.evaluate` — the value of a term
-/

namespace InequalityChaining

/-- The value of the operation without operands. -/
def Variadic.unit : Variadic → Number
  | sum => .int 0
  | product => .int 1

/-- The operation on two numbers; more are taken from the left. -/
def Variadic.apply : Variadic → Number → Number → Except DomainError Number
  | sum => Number.add
  | product => Number.mul

/-- The operation on two numbers. -/
def Binary.apply : Binary → Number → Number → Except DomainError Number
  | difference => Number.sub
  | quotient => Number.div
  | power => Number.pow
  | root => Number.root

namespace Term

mutual

/-- The value of a constant term. -/
def evaluate : Term → Except DomainError Number
  | constant value => .ok value
  | var _ => .error .notConstant
  | placeholder _ _ => .error .notConstant
  | variadic op operands => evaluateFrom op op.unit operands
  | binary op left right => do
    let a ← evaluate left
    let b ← evaluate right
    op.apply a b

/-- The value that the operands of a sum or product take a first value to. -/
def evaluateFrom (op : Variadic) (a : Number) : List Term → Except DomainError Number
  | [] => .ok a
  | t :: ts => do
    let b ← evaluate t
    let c ← op.apply a b
    evaluateFrom op c ts

end

end Term

end InequalityChaining

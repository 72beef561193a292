import InequalityChaining.Number.Basic

/-!
# Arithmetic of numbers

Sums, differences, products and integer powers of integers stay integers as long as they fit;
everything else is computed in binary64. An operation without a real value reports the reason.

## Main definitions

* `DomainError` — the reasons for having no real value, and `DomainError.message`
* `Number.ofFloat` — accepts finite floats only
* `Number.add`, `sub`, `mul`, `div`, `pow`, `root`
-/

namespace InequalityChaining

/-- Arithmetic that has no real value. -/
inductive DomainError where
  | divisionByZero
  | zeroToTheZero
  | zerothRoot
  | nonReal
  | notConstant
deriving DecidableEq, Repr

/-- The wording of a domain error. -/
def DomainError.message : DomainError → String
  | divisionByZero => "division by zero"
  | zeroToTheZero => "0^0 encountered"
  | zerothRoot => "zeroth root encountered"
  | nonReal => "result is not a real number"
  | notConstant => "term contains variables or placeholders and has no value"

namespace Number

/-- A finite float as a number. -/
def ofFloat (x : Float) : Except DomainError Number :=
  if x.isFinite then .ok (real x) else .error .nonReal

/-- An integer as a 64-bit integer, if it is one. -/
def int64? (i : Int) : Option Int64 :=
  if Int64.minValue.toInt ≤ i ∧ i ≤ Int64.maxValue.toInt then some (.ofInt i) else none

/-- The sum, exact if it is a 64-bit integer. -/
def add (a b : Number) : Except DomainError Number :=
  match a, b with
  | int i, int j =>
    match int64? (i.toInt + j.toInt) with
    | some sum => .ok (int sum)
    | none => ofFloat (a.toFloat + b.toFloat)
  | _, _ => ofFloat (a.toFloat + b.toFloat)

/-- The difference, exact if it is a 64-bit integer. -/
def sub (a b : Number) : Except DomainError Number :=
  match a, b with
  | int i, int j =>
    match int64? (i.toInt - j.toInt) with
    | some difference => .ok (int difference)
    | none => ofFloat (a.toFloat - b.toFloat)
  | _, _ => ofFloat (a.toFloat - b.toFloat)

/-- The product, exact if it is a 64-bit integer. -/
def mul (a b : Number) : Except DomainError Number :=
  match a, b with
  | int i, int j =>
    match int64? (i.toInt * j.toInt) with
    | some product => .ok (int product)
    | none => ofFloat (a.toFloat * b.toFloat)
  | _, _ => ofFloat (a.toFloat * b.toFloat)

/-- A quotient is always real, also that of two integers. -/
def div (a b : Number) : Except DomainError Number :=
  if b.isZero then .error .divisionByZero else ofFloat (a.toFloat / b.toFloat)

/-- The power of an integer, if it is a 64-bit integer. Beyond an exponent of 63 that holds for
the bases `0`, `1` and `-1` only, whose powers depend on the parity of the exponent alone. -/
def intPow? (base : Int64) (exponent : Nat) : Option Int64 :=
  if exponent < 64 then int64? (base.toInt.pow exponent)
  else if base.toInt.natAbs ≤ 1 then int64? (base.toInt.pow (2 - exponent % 2))
  else none

/-- Exponents of exact powers are below this bound. -/
def exponentBound : Int := Int.pow 2 32

/-- The power, exact for an integer base and an exponent from zero to the bound, if it is a 64-bit
integer. -/
def pow (a b : Number) : Except DomainError Number :=
  if a.isZero && b.isZero then .error .zeroToTheZero
  else
    let integral? :=
      match a, b with
      | int base, int exponent =>
        if 0 ≤ exponent.toInt ∧ exponent.toInt < exponentBound then
          intPow? base exponent.toInt.toNat
        else none
      | _, _ => none
    match integral? with
    | some power => .ok (int power)
    | none => ofFloat (a.toFloat.pow b.toFloat)

/-- The root with index `b`, as the power with exponent `1 / b`. -/
def root (a b : Number) : Except DomainError Number :=
  if b.isZero then .error .zerothRoot else ofFloat (a.toFloat.pow (1.0 / b.toFloat))

end Number

end InequalityChaining

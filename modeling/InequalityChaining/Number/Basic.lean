import InequalityChaining.Number.Binary64

/-!
# Numbers

A number is a 64-bit integer, kept exact, or a binary64 real. Numbers of both kinds are compared by
their exact values, so that an integer is never confused with a real that merely rounds to it.

## Main definitions

* `Number` — integers and reals
* `Number.value` — the exact value, with the ends of the line and the undefined values of NaNs
* `Number.order` — a total order, with the undefined values beyond the ends of the line
* `BEq Number` — equality of defined exact values
* `Number.integralValue?` — the integer that a real is indistinguishable from
-/

namespace InequalityChaining

/-- A concrete number. -/
inductive Number where
  | int (value : Int64)
  | real (value : Real64)
deriving DecidableEq

namespace Number

/-- The exact value of a number. An undefined one keeps the sign and the fraction of its NaN. -/
inductive Value where
  | negInfinity
  | finite (value : ScaledInt)
  | posInfinity
  | undefined (negative : Bool) (fraction : Nat)
deriving DecidableEq, Repr

namespace Value

/-- The position of the kinds of values on the line; what is undefined lies beyond its ends. -/
def rank : Value → Nat
  | undefined true _ => 0
  | negInfinity => 1
  | finite _ => 2
  | posInfinity => 3
  | undefined false _ => 4

/-- Finite values are ordered as such, undefined ones outwards by their fraction, and values of
different kinds by their kind. -/
def order : Value → Value → Ordering
  | finite x, finite y => x.order y
  | undefined true m, undefined true n => compare n m
  | undefined false m, undefined false n => compare m n
  | x, y => compare x.rank y.rank

/-- Whether there is a value at all. -/
def isDefined : Value → Bool
  | undefined _ _ => false
  | _ => true

/-- The value that a binary64 pattern denotes. -/
def ofBinary64 : Binary64 → Value
  | .finite negative magnitude exponent =>
    finite ⟨if negative then -(magnitude : Int) else magnitude, exponent⟩
  | .infinite negative => if negative then negInfinity else posInfinity
  | .notANumber negative fraction => undefined negative fraction

end Value

/-- The exact value. -/
def value : Number → Value
  | int i => .finite (.ofInt i.toInt)
  | real x => .ofBinary64 (.ofReal x)

/-- The exact order, in which also every undefined value has its place. -/
def order (a b : Number) : Ordering := a.value.order b.value

/-- Two numbers are equal if both have a value and it is the same. -/
instance : BEq Number where
  beq a b := a.value.isDefined && a.order b == .eq

/-- Whether the number equals itself, which only an undefined one does not. -/
def isDefined (a : Number) : Bool := a.value.isDefined

/-- The nearest real. -/
def toFloat : Number → Float
  | int i => Float.ofInt i.toInt
  | real x => x.toFloat

/-- Whether the value is zero, of either sign. -/
def isZero (a : Number) : Bool := a == int 0

/-- Whether the value is one. -/
def isOne (a : Number) : Bool := a == int 1

/-- Whether the value is below zero; an undefined one is not. -/
def isNegative (a : Number) : Bool := a.isDefined && a.order (int 0) == .lt

/-- A real passes for an integer within this relative distance. -/
def integralTolerance : Float := 1e-9

/-- Every integer of a smaller magnitude is a binary64 value. -/
def exactIntegerBound : Nat := Nat.pow 2 53

/-- The integer that a real is indistinguishable from, if there is one. -/
def integralValue? : Number → Option Int64
  | int _ => none
  | real x =>
    match (real x).value with
    | .finite v =>
      let rounded := v.round
      -- below the bound the integer as a float is the integer itself
      if rounded.natAbs < exactIntegerBound then
        let r := Float.ofInt rounded
        let x := x.toFloat
        if (x - r).abs ≤ integralTolerance * max x.abs r.abs then some (.ofInt rounded) else none
      else none
    | _ => none

end Number

end InequalityChaining

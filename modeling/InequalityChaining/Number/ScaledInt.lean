/-!
# Scaled integers

A scaled integer is an integer times a power of two. Every finite binary64 value is one, and so is
every integer, so two numbers of different kinds can be compared exactly: both mantissas are
written over the smaller of the two exponents and compared as integers.

## Main definitions

* `ScaledInt` — a mantissa and an exponent of two
* `ScaledInt.rescale` — the mantissa over another, smaller exponent
* `ScaledInt.order` — the exact comparison
-/

namespace InequalityChaining

/-- The number `mantissa * 2 ^ exponent`. -/
structure ScaledInt where
  mantissa : Int
  exponent : Int
deriving DecidableEq, Repr

namespace ScaledInt

/-- An integer is itself times `2 ^ 0`. -/
def ofInt (i : Int) : ScaledInt := ⟨i, 0⟩

/-- The mantissa of `x` over the exponent `exponent`, which is exact if that is not the larger
one. -/
def rescale (x : ScaledInt) (exponent : Int) : Int :=
  x.mantissa * Int.pow 2 (x.exponent - exponent).toNat

/-- The order of the values. -/
def order (x y : ScaledInt) : Ordering :=
  let exponent := min x.exponent y.exponent
  compare (x.rescale exponent) (y.rescale exponent)

/-- The nearest integer, a half going away from zero. -/
def round (x : ScaledInt) : Int :=
  if 0 ≤ x.exponent then x.rescale 0
  else
    let unit := Nat.pow 2 (-x.exponent).toNat
    -- half a unit is added before cutting off, so a half moves outwards
    let magnitude := (2 * x.mantissa.natAbs + unit) / (2 * unit)
    if x.mantissa < 0 then -(magnitude : Int) else magnitude

end ScaledInt

end InequalityChaining

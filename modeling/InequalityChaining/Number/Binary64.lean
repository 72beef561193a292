import InequalityChaining.Number.ScaledInt

/-!
# Binary64 values

The fields of a binary64 pattern: a sign bit, eleven bits of biased exponent and fifty-two bits of
fraction. An exponent field of zeros marks the subnormal values, one of ones marks the infinities
and the values that are not numbers. There are many of the latter, which differ in their sign and
their fraction, and no arithmetic tells them apart.

## Main definitions

* `Real64` — a pattern, which a float coerces to and which coerces to a float
* `Binary64` — what a pattern stands for
* `Binary64.ofReal` — the reading of a pattern
-/

namespace InequalityChaining

/-- A binary64 pattern. There is only one float that is not a number, but many such patterns. -/
structure Real64 where
  bits : UInt64
deriving DecidableEq, Repr

namespace Real64

/-- The pattern of a float. -/
def ofFloat (x : Float) : Real64 := ⟨x.toBits⟩

/-- The float with the pattern, for arithmetic. -/
def toFloat (x : Real64) : Float := Float.ofBits x.bits

instance : Coe Float Real64 := ⟨ofFloat⟩

instance : Coe Real64 Float := ⟨toFloat⟩

end Real64

/-- What a binary64 pattern stands for. A finite one is `magnitude * 2 ^ exponent` with a sign,
which zero has too. -/
inductive Binary64 where
  | finite (negative : Bool) (magnitude : Nat) (exponent : Int)
  | infinite (negative : Bool)
  | notANumber (negative : Bool) (fraction : Nat)
deriving DecidableEq, Repr

namespace Binary64

/-- The reading of sixty-four bits. -/
def ofBits (bits : Nat) : Binary64 :=
  let fraction : Nat := bits % Nat.pow 2 52
  let field : Nat := bits / Nat.pow 2 52 % Nat.pow 2 11
  let negative := bits / Nat.pow 2 63 % 2 == 1
  if field = 2047 then
    if fraction = 0 then .infinite negative else .notANumber negative fraction
  else if field = 0 then
    .finite negative fraction (-1074)
  else
    .finite negative (Nat.pow 2 52 + fraction) (field - 1075)

/-- The reading of a pattern. -/
def ofReal (x : Real64) : Binary64 := ofBits x.bits.toNat

/-- The smaller neighbour of a finite value lies half as far away as the larger one exactly when
the value is the least of its binade, the subnormal binade and the one above it apart. -/
def opensBinade (magnitude : Nat) (exponent : Int) : Bool :=
  magnitude == Nat.pow 2 52 && decide (-1074 < exponent)

end Binary64

end InequalityChaining

import InequalityChaining.Number.Basic

/-!
# Comparison without exact values

Numbers can also be compared in machine arithmetic. Two reals are compared as floats, and where
these leave them unordered by their patterns. An integer is converted to the real next to it; if
that one ties with the other real, both are compared as integers, since the conversion may have
hidden a difference.

## Main definitions

* `Real64.exactInteger?` — the 64-bit integer that a real is
* `Real64.totalOrder` — the order of patterns as sign and magnitude
* `Number.equalByFloats`, `Number.orderByFloats` — the comparisons
-/

namespace InequalityChaining

namespace Real64

/-- Whether nothing stands behind the binary point. -/
def isWhole (x : Real64) : Bool :=
  match Binary64.ofReal x with
  | .finite _ magnitude exponent => magnitude % Nat.pow 2 (-exponent).toNat == 0
  | _ => false

/-- The 64-bit integer that a real is exactly equal to, if there is one. -/
def exactInteger? (x : Real64) : Option Int64 :=
  -- both bounds are reals, and the upper one is out of range
  let inRange := -9223372036854775808.0 ≤ x.toFloat ∧ x.toFloat < 9223372036854775808.0
  if inRange ∧ x.isWhole then some x.toFloat.toModel.toInt64 else none

/-- The pattern as a signed integer. The other bits of a negative one are flipped, so that it is
the smaller the larger its magnitude. -/
def orderingKey (x : Real64) : Int64 :=
  let bits := x.bits.toInt64
  bits ^^^ ((bits >>> 63).toUInt64 >>> 1).toInt64

/-- The order of patterns, which tells zeros and values that are not numbers apart. -/
def totalOrder (x y : Real64) : Ordering := compare x.orderingKey y.orderingKey

/-- The order of two floats, if both are numbers. -/
def partialOrder (x y : Float) : Option Ordering :=
  match decide (x ≤ y), decide (y ≤ x) with
  | false, false => none
  | false, true => some .gt
  | true, false => some .lt
  | true, true => some .eq

end Real64

namespace Number

/-- The comparison of an integer with a real. -/
def orderConverted (i : Int64) (x : Real64) : Ordering :=
  let converted := Float.ofInt i.toInt
  match Real64.partialOrder converted x with
  | some .eq =>
    -- rounding may have hidden a difference
    match x.exactInteger? with
    | some j => compare i j
    | none => .lt
  | some unequal => unequal
  | none => Real64.totalOrder converted x

/-- Whether two numbers have the same value, as far as they have one. -/
def equalByFloats : Number → Number → Bool
  | int i, int j => i == j
  | int i, real x => x.exactInteger? == some i
  | real x, int i => x.exactInteger? == some i
  | real x, real y => x.toFloat == y.toFloat

/-- The order of numbers. -/
def orderByFloats (a b : Number) : Ordering :=
  if a.equalByFloats b then .eq
  else
    match a, b with
    | int i, int j => compare i j
    | int i, real x => orderConverted i x
    | real x, int i => (orderConverted i x).swap
    | real x, real y => x.totalOrder y

end Number

end InequalityChaining

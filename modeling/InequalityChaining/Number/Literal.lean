import InequalityChaining.Number.Arithmetic

/-!
# Decimal literals

A literal is a run of digits, possibly followed by a point and a second run. Integers have the
literal of their decimal digits; a real has the literal with the fewest digits that reads back as
the same real, and of those the nearest to it. No literal has an exponent.

## Main definitions

* `Literal` — the digits before and after the point
* `Literal.toNumber?` — the number that a literal denotes
* `Literal.ofBinary64` — the literal of a magnitude
-/

namespace InequalityChaining

/-- Decimal digits before and after the point; without a fraction there is no point. -/
structure Literal where
  whole : List Char
  fraction : List Char
deriving DecidableEq, Repr

namespace Literal

/-- The literal as it is written. -/
def chars (l : Literal) : List Char :=
  if l.fraction.isEmpty then l.whole else l.whole ++ '.' :: l.fraction

/-- The text of a literal. -/
def text (l : Literal) : String := String.ofList l.chars

/-- The natural number with the given decimal digits. -/
def natOfDigits (digits : List Char) : Nat :=
  digits.foldl (fun n c => 10 * n + (c.toNat - '0'.toNat)) 0

/-- A literal without a fraction is an integer if it fits; every other literal is the nearest
real, if that is finite. -/
def toNumber? (l : Literal) : Option Number :=
  let float := Float.ofScientific (natOfDigits (l.whole ++ l.fraction)) true l.fraction.length
  match if l.fraction.isEmpty then Number.int64? (natOfDigits l.whole) else none with
  | some i => some (.int i)
  | none => (Number.ofFloat float).toOption

/-- The literal of a natural number. -/
def ofNat (n : Nat) : Literal := ⟨Nat.toDigits 10 n, []⟩

/-- The literal of `n / 10 ^ places`. -/
def ofScaled (n places : Nat) : Literal :=
  let digits := Nat.toDigits 10 (n % Nat.pow 10 places)
  ⟨Nat.toDigits 10 (n / Nat.pow 10 places), List.replicate (places - digits.length) '0' ++ digits⟩

/-- The multiple of `1 / 10 ^ places` that reads back as `magnitude / 2 ^ scale`, as a multiple.
The reals that read back lie between the midpoints to the two neighbours, and the midpoints
themselves do if the magnitude is even. If two multiples read back, the nearer is taken, and of
two equally near the larger. All is measured in quarters of the last binary place. -/
def readingBack? (magnitude scale : Nat) (opensBinade : Bool) (places : Nat) : Option Nat :=
  -- a quarter of the last binary place is `1 / unit`, so all bounds are naturals
  let unit := Nat.pow 2 (scale + 2)
  let scaled := 4 * magnitude * Nat.pow 10 places
  let low := (4 * magnitude - if opensBinade then 1 else 2) * Nat.pow 10 places
  let high := (4 * magnitude + 2) * Nat.pow 10 places
  let below := scaled / unit
  let above := below + 1
  -- a midpoint reads as the neighbour with the even magnitude
  let inclusive := magnitude % 2 == 0
  let lowFits := low < below * unit || (inclusive && low == below * unit)
  let highFits := above * unit < high || (inclusive && above * unit == high)
  if lowFits && (!highFits || 2 * (scaled % unit) < unit) then some below
  else if highFits then some above
  else none

/-- The least number of decimal places at which `magnitude / 2 ^ scale` has a multiple that reads
back, searched from `places` on. At `scale` places the value itself is such a multiple. -/
def fewestPlaces (magnitude scale : Nat) (opensBinade : Bool) (places : Nat) :
    (searches : Nat) → Literal
  | 0 => ofScaled (magnitude * Nat.pow 10 places / Nat.pow 2 scale) places
  | searches + 1 =>
    match readingBack? magnitude scale opensBinade places with
    | some n => ofScaled n places
    | none => fewestPlaces magnitude scale opensBinade (places + 1) searches

/-- The literal of the magnitude `magnitude * 2 ^ exponent`: all digits of an integer, otherwise
the fewest that read back. -/
def ofBinary64 (magnitude : Nat) (exponent : Int) : Literal :=
  if 0 ≤ exponent then ofNat (magnitude * Nat.pow 2 exponent.toNat)
  else
    let scale := (-exponent).toNat
    if magnitude % Nat.pow 2 scale = 0 then ofNat (magnitude / Nat.pow 2 scale)
    else fewestPlaces magnitude scale (Binary64.opensBinade magnitude exponent) 1 scale

end Literal

end InequalityChaining

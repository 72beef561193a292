/-!
# Ranges of code points

A class of characters is a table of ranges of code points in ascending order.

## Main definitions

* `Text.inRanges` — whether a code point lies in a range of a table
* `Text.inAlternating` — the same for ranges of which every other code point counts

## Main results

* `Text.inRanges_cons_of_le` — the code points of the first range
-/

namespace InequalityChaining.Text

/-- Whether a range of the ascending table holds the code point. -/
def inRanges (code : Nat) : List (Nat × Nat) → Bool
  | [] => false
  | (first, last) :: rest => decide (first ≤ code) && (decide (code ≤ last) || inRanges code rest)

theorem inRanges_cons_of_le {code first last : Nat} (rest : List (Nat × Nat))
    (above : first ≤ code) (below : code ≤ last) :
    inRanges code ((first, last) :: rest) = true := by
  simp [inRanges, above, below]

/-- Whether the code point is the first of a range of the ascending table or an even number of
places after it. -/
def inAlternating (code : Nat) : List (Nat × Nat) → Bool
  | [] => false
  | (first, last) :: rest =>
    decide (first ≤ code) &&
      (if code ≤ last then (code - first) % 2 == 0 else inAlternating code rest)

end InequalityChaining.Text

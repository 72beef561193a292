import InequalityChaining.Text.Letter
import InequalityChaining.Text.Numeral

/-!
# Names

A name is a letter followed by letters and numerals.

## Main definitions

* `Text.isNameChar` — what may follow the first letter
* `Text.isName` — whether the characters form a name
-/

namespace InequalityChaining.Text

/-- A letter or a numeral. -/
def isNameChar (c : Char) : Bool := isLetter c || isNumeral c

/-- Whether the characters form a name. -/
def isName : List Char → Bool
  | [] => false
  | first :: rest => isLetter first && rest.all isNameChar

end InequalityChaining.Text

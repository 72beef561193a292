/-!
# Lists in texts

## Main definitions

* `Text.commaSeparated` — a list in one line
* `Text.underHeading` — a list in lines of their own
-/

namespace InequalityChaining.Text

/-- The items with a comma and a blank between them. -/
def commaSeparated (items : List String) : String := ", ".intercalate items

/-- A heading and every item, each in a line; where there is no item, a line says so. -/
def underHeading (heading : String) (items : List String) : String :=
  let lines := (heading ++ ":") :: if items.isEmpty then ["None"] else items
  String.join (lines.map (· ++ "\n"))

end InequalityChaining.Text

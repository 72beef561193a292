import InequalityChaining.Document.Basic
import InequalityChaining.Token.Basic

/-!
# Written documents

A document is written either in one line without blanks, or indented by two blanks for every array
and object around it. In strings only quotation marks, backslashes and control characters are
escaped. A real that is not finite is written as null.

## Main definitions

* `Document.quote` — a string as a literal
* `Document.compact` — one line
* `Document.indented` — a line for every item and field
-/

namespace InequalityChaining

namespace Document

/-- The four digits of a code point below 256 in an escape. -/
def hexDigits (code : Nat) : String :=
  let digits := Nat.toDigits 16 code
  String.ofList (List.replicate (4 - digits.length) '0' ++ digits)

/-- A character inside a string literal. -/
def escape (c : Char) : String :=
  match c.toNat with
  | 0x22 => "\\\""
  | 0x5C => "\\\\"
  | 0x08 => "\\b"
  | 0x09 => "\\t"
  | 0x0A => "\\n"
  | 0x0C => "\\f"
  | 0x0D => "\\r"
  | code => if code < 0x20 then "\\u" ++ hexDigits code else c.toString

/-- A string literal. -/
def quote (s : String) : String := "\"" ++ String.join (s.toList.map escape) ++ "\""

/-- A value without parts. -/
def scalar : Document → String
  | bool true => "true"
  | bool false => "false"
  | integer value => toString value
  | real value => if value.isFinite then (Number.real value).text else "null"
  | string value => quote value
  | _ => "null"

mutual

/-- The document in one line. -/
def compact : Document → String
  | array items => "[" ++ ",".intercalate (compactItems items) ++ "]"
  | object fields => "\x7b" ++ ",".intercalate (compactFields fields) ++ "\x7d"
  | d => d.scalar

/-- The items of an array in one line each. -/
def compactItems : List Document → List String
  | [] => []
  | d :: ds => compact d :: compactItems ds

/-- The fields of an object in one line each. -/
def compactFields : List (String × Document) → List String
  | [] => []
  | (name, d) :: fields => (quote name ++ ":" ++ compact d) :: compactFields fields

end

/-- A new line with the given indentation. -/
def newLine (depth : Nat) : String := "\n" ++ String.ofList (List.replicate (2 * depth) ' ')

/-- Parts in lines of their own between an opening and a closing sign. -/
def enclosed (depth : Nat) (opening closing : String) (parts : List String) : String :=
  if parts.isEmpty then opening ++ closing
  else
    opening ++ newLine (depth + 1) ++ ("," ++ newLine (depth + 1)).intercalate parts ++
      newLine depth ++ closing

mutual

/-- The document over several lines, inside `depth` arrays and objects. -/
def indentedAt (depth : Nat) : Document → String
  | array items => enclosed depth "[" "]" (indentedItems (depth + 1) items)
  | object fields => enclosed depth "\x7b" "\x7d" (indentedFields (depth + 1) fields)
  | d => d.scalar

/-- The items of an array inside `depth` arrays and objects. -/
def indentedItems (depth : Nat) : List Document → List String
  | [] => []
  | d :: ds => indentedAt depth d :: indentedItems depth ds

/-- The fields of an object inside `depth` arrays and objects. -/
def indentedFields (depth : Nat) : List (String × Document) → List String
  | [] => []
  | (name, d) :: fields =>
    (quote name ++ ": " ++ indentedAt depth d) :: indentedFields depth fields

end

/-- The document over several lines. -/
def indented (d : Document) : String := indentedAt 0 d

end Document

end InequalityChaining

/-!
# Documents

A document is a value of the JSON format. It tells integers and reals apart, since an integer may
stand for a real but not the other way round.

## Main definitions

* `Document` — values
* `Document.field?` — the value of a field of an object
-/

namespace InequalityChaining

/-- A value of the format. Fields keep their order. -/
inductive Document where
  | null
  | bool (value : Bool)
  | integer (value : Int)
  | real (value : Float)
  | string (value : String)
  | array (items : List Document)
  | object (fields : List (String × Document))
deriving Inhabited

/-- The value of the first field of the given name. -/
def Document.field? (name : String) : Document → Option Document
  | object fields => (fields.find? fun field => field.1 == name).map Prod.snd
  | _ => none

end InequalityChaining

import InequalityChaining.Document.Basic
import InequalityChaining.Knowledge
import InequalityChaining.Term.Checked
import InequalityChaining.Deduction.Run

/-!
# Documents for numbers, terms, propositions, bindings and budgets

A value with alternatives is an object with one field, named for the alternative. Values with
fixed parts are objects with a field for each part; they may also be given as an array of the
parts in order. Nothing is checked beyond the form: names need not be names and reals need not be
finite.

## Main definitions

* `toDocument` of `Number`, `Term`, `Proposition`, `Bindings`, `Budget` and `KnowledgeBase`
* `ofDocument?` of all these but knowledge bases
-/

namespace InequalityChaining

namespace Document

/-- The name and the content of an object with one field. -/
def alternative? : Document → Option (String × Document)
  | object [field] => some field
  | _ => none

/-- The value of an optional part. -/
def optional? {α : Type} (decode : Document → Option α) : Document → Option (Option α)
  | null => some none
  | d => (decode d).map some

/-- The document of an optional part. -/
def ofOption {α : Type} (encode : α → Document) : Option α → Document
  | none => null
  | some a => encode a

/-- The string of a document. -/
def string? : Document → Option String
  | string value => some value
  | _ => none

/-- The real of a document, for which an integer may stand. -/
def real? : Document → Option Float
  | real value => some value
  | integer value => some (Float.ofInt value)
  | _ => none

/-- The unsigned 64-bit integer of a document. -/
def unsigned? : Document → Option Nat
  | integer value => if 0 ≤ value ∧ value < Int.pow 2 64 then some value.toNat else none
  | _ => none

/-- The signed 64-bit integer of a document. -/
def signed? : Document → Option Int64
  | integer value => Number.int64? value
  | _ => none

end Document

namespace Number

/-- The document of a number. -/
def toDocument : Number → Document
  | int value => .object [("Integer", .integer value.toInt)]
  | real value => .object [("Real", .real value)]

/-- The number of a document. -/
def ofDocument? (d : Document) : Option Number :=
  match d.alternative? with
  | some ("Integer", content) => content.signed?.map int
  | some ("Real", content) => content.real?.map fun value => real value
  | _ => none

end Number

namespace PlaceholderKind

/-- The document of a sort of placeholders. -/
def toDocument : PlaceholderKind → Document
  | any => .string "Any"
  | constantOnly => .string "ConstantOnly"

/-- A kind is given by its name alone, also as the name of an empty alternative. -/
def ofDocument? : Document → Option PlaceholderKind
  | .string "Any" | .object [("Any", .null)] => some any
  | .string "ConstantOnly" | .object [("ConstantOnly", .null)] => some constantOnly
  | _ => none

end PlaceholderKind

namespace Term

mutual

/-- The document of a term. -/
def toDocument : Term → Document
  | constant value => .object [("Constant", value.toDocument)]
  | var name => .object [("Variable", .string name)]
  | placeholder name kind =>
    .object [("Placeholder", .object [("name", .string name), ("kind", kind.toDocument)])]
  | variadic op operands =>
    .object [((Operator.variadic op).name, .array (toDocuments operands))]
  | binary op left right =>
    .object [((Operator.binary op).name, .array [toDocument left, toDocument right])]

/-- The documents of a list of terms. -/
def toDocuments : List Term → List Document
  | [] => []
  | t :: ts => toDocument t :: toDocuments ts

end

/-- The placeholder whose name and kind a document gives. -/
def placeholderOfDocument? : Document → Option Term
  | .array [name, kind] => do
    return placeholder (← name.string?) (← PlaceholderKind.ofDocument? kind)
  | .object fields => do
    let name ← (Document.object fields).field? "name"
    let kind ← (Document.object fields).field? "kind"
    return placeholder (← name.string?) (← PlaceholderKind.ofDocument? kind)
  | _ => none

mutual

/-- The term of a document. -/
def ofDocument? (d : Document) : Option Term :=
  match d with
  | .object [(name, content)] =>
    match Operator.ofName? name, content with
    | some op, .array items => do (ofOperator op (← ofDocuments? items)).toOption
    | some _, _ => none
    | none, content =>
      match name with
      | "Constant" => (Number.ofDocument? content).map constant
      | "Variable" => content.string?.map var
      | "Placeholder" => placeholderOfDocument? content
      | _ => none
  | _ => none

/-- The terms of a list of documents, if each is a term. -/
def ofDocuments? (ds : List Document) : Option (List Term) :=
  match ds with
  | [] => some []
  | d :: ds => do return (← ofDocument? d) :: (← ofDocuments? ds)

end

end Term

namespace Proposition

/-- The document of a proposition. -/
def toDocument (p : Proposition) : Document :=
  let name := match p.relation with
    | .equals => "Equals"
    | .atMost => "AtMost"
  .object [(name, .array [p.lhs.toDocument, p.rhs.toDocument])]

/-- The proposition of a document. -/
def ofDocument? (d : Document) : Option Proposition :=
  match d.alternative? with
  | some ("Equals", .array [lhs, rhs]) =>
    return equals (← Term.ofDocument? lhs) (← Term.ofDocument? rhs)
  | some ("AtMost", .array [lhs, rhs]) =>
    return atMost (← Term.ofDocument? lhs) (← Term.ofDocument? rhs)
  | _ => none

end Proposition

namespace Bindings

/-- The document of bindings: a field for every name. -/
def toDocument (b : Bindings) : Document :=
  .object (b.entries.map fun entry => (entry.1, entry.2.toDocument))

/-- The bindings of a document; of two fields of one name the later counts. -/
def ofDocument? : Document → Option Bindings
  | .object fields => do
    let entries ← fields.mapM fun field => return (field.1, ← Term.ofDocument? field.2)
    return empty.insertAll entries
  | _ => none

end Bindings

namespace Budget

/-- The document of a budget. -/
def toDocument (b : Budget) : Document :=
  .object [("max_steps", .ofOption (fun n => .integer n) b.maxSteps),
    ("time_limit_ms", .ofOption .real b.timeLimit)]

/-- The budget with the given limits, if they have the right form. -/
def ofLimits? (maxSteps timeLimit : Document) : Option Budget := do
  return ⟨← maxSteps.optional? Document.unsigned?, ← timeLimit.optional? Document.real?⟩

/-- In an object a missing limit is none. -/
def ofDocument? : Document → Option Budget
  | .array [maxSteps, timeLimit] => ofLimits? maxSteps timeLimit
  | .object fields =>
    ofLimits? (((Document.object fields).field? "max_steps").getD .null)
      (((Document.object fields).field? "time_limit_ms").getD .null)
  | _ => none

end Budget

/-- A knowledge base as a document. -/
def KnowledgeBase.toDocument (k : KnowledgeBase) : Document :=
  .object [("facts", .array (k.facts.map Proposition.toDocument)),
    ("terms", .array (k.terms.map Term.toDocument)),
    ("history", .array (k.history.map .string))]

end InequalityChaining

import InequalityChaining.Token.Basic
import InequalityChaining.Text.NameList

/-!
# Terms

A term is an expression over the reals. Sums and products take any number of operands, also none
or one; the other operations take two. A placeholder is a variable of patterns: it stands for a
term, or for a term without variables only.

## Main definitions

* `Term` — expressions, with the shorthands `Term.sum`, `Term.difference` and so on
* `Operator` — the operations, with their precedence
* `Term.operands`, `Term.subterms` — the parts of a term
* `Term.hasVariable`, `Term.hasPlaceholder`, `Term.isConstant` — what occurs in a term
* `Term.varNames` — the names of its variables in ascending order
-/

namespace InequalityChaining

/-- What a placeholder may stand for: any term, or one without variables. -/
inductive PlaceholderKind where
  | any
  | constantOnly
deriving DecidableEq, Repr

/-- The operations on any number of operands in any order. -/
inductive Variadic where
  | sum
  | product
deriving DecidableEq, Repr

/-- The operations on two operands. -/
inductive Binary where
  | difference
  | quotient
  | power
  | root
deriving DecidableEq, Repr

/-- An expression over the reals. The right operand of a root is its index. -/
inductive Term where
  | constant (value : Number)
  | var (name : String)
  | placeholder (name : String) (kind : PlaceholderKind)
  | variadic (op : Variadic) (operands : List Term)
  | binary (op : Binary) (left right : Term)

/-- An operation of either sort. -/
inductive Operator where
  | variadic (op : Variadic)
  | binary (op : Binary)
deriving DecidableEq, Repr

namespace Operator

/-- The name that is shown for an operation. -/
def name : Operator → String
  | variadic .sum => "Add"
  | variadic .product => "Mul"
  | binary .difference => "Sub"
  | binary .quotient => "Div"
  | binary .power => "Pow"
  | binary .root => "Root"

/-- All operations. -/
def all : List Operator :=
  [variadic .sum, binary .difference, variadic .product, binary .quotient, binary .power,
    binary .root]

/-- The operation with the given name. -/
def ofName? (name : String) : Option Operator := all.find? (·.name == name)

/-- Whether the operation takes any number of operands. -/
def isVariadic : Operator → Bool
  | variadic _ => true
  | binary _ => false

/-- The strength with which an operation binds its operands. -/
def precedence : Operator → Nat
  | variadic .sum | binary .difference => 1
  | variadic .product | binary .quotient => 2
  | binary .power | binary .root => 3

end Operator

namespace Term

@[match_pattern] abbrev int (value : Int64) : Term := constant (.int value)

@[match_pattern] abbrev sum (operands : List Term) : Term := variadic .sum operands

@[match_pattern] abbrev product (operands : List Term) : Term := variadic .product operands

@[match_pattern] abbrev difference (left right : Term) : Term := binary .difference left right

@[match_pattern] abbrev quotient (left right : Term) : Term := binary .quotient left right

@[match_pattern] abbrev power (base exponent : Term) : Term := binary .power base exponent

@[match_pattern] abbrev root (radicand index : Term) : Term := binary .root radicand index

/-- The opposite of a term is its difference from zero. -/
def opposite (t : Term) : Term := difference (int 0) t

/-- The operation at the root, if there is one. -/
def operator? : Term → Option Operator
  | variadic op _ => some (.variadic op)
  | binary op _ _ => some (.binary op)
  | _ => none

/-- The operands of the operation at the root. -/
def operands : Term → List Term
  | variadic _ operands => operands
  | binary _ left right => [left, right]
  | _ => []

/-- The value of a constant. -/
def constantValue? : Term → Option Number
  | constant value => some value
  | _ => none

/-- Whether the term is a constant equal to the integer. -/
def isNumber (t : Term) (i : Int64) : Bool :=
  match t with
  | constant value => value == .int i
  | _ => false

mutual

/-- The term and all its subterms, parents before their operands from left to right. -/
def subterms : Term → List Term
  | constant value => [constant value]
  | var name => [var name]
  | placeholder name kind => [placeholder name kind]
  | variadic op operands => variadic op operands :: subtermsOfAll operands
  | binary op left right => binary op left right :: (subterms left ++ subterms right)

/-- The subterms of a list of terms, one after the other. -/
def subtermsOfAll : List Term → List Term
  | [] => []
  | t :: ts => subterms t ++ subtermsOfAll ts

end

mutual

/-- The number of nodes. -/
def size : Term → Nat
  | variadic _ operands => 1 + sizeOfAll operands
  | binary _ left right => 1 + size left + size right
  | _ => 1

/-- The number of nodes of a list of terms. -/
def sizeOfAll : List Term → Nat
  | [] => 0
  | t :: ts => size t + sizeOfAll ts

end

/-- Whether the term is a variable by itself. -/
def isVar : Term → Bool
  | var _ => true
  | _ => false

/-- Whether the term is a placeholder by itself. -/
def isPlaceholder : Term → Bool
  | placeholder _ _ => true
  | _ => false

/-- Whether a subterm satisfies the predicate. -/
def any (p : Term → Bool) (t : Term) : Bool := t.subterms.any p

/-- Whether a variable occurs in the term. -/
def hasVariable (t : Term) : Bool := t.any isVar

/-- Whether a placeholder occurs in the term. -/
def hasPlaceholder (t : Term) : Bool := t.any isPlaceholder

/-- A term without placeholders. -/
def isGround (t : Term) : Bool := !t.hasPlaceholder

/-- A term without variables and placeholders. -/
def isConstant (t : Term) : Bool := !t.any fun u => u.isVar || u.isPlaceholder

/-- The name of a variable. -/
def varName? : Term → Option String
  | var name => some name
  | _ => none

/-- The names of the variables in ascending order. -/
def varNames (t : Term) : List String := Text.ascending (t.subterms.filterMap varName?)

@[simp] theorem subtermsOfAll_eq_flatMap (ts : List Term) :
    subtermsOfAll ts = ts.flatMap subterms := by
  induction ts with
  | nil => rfl
  | cons t ts ih => simp [subtermsOfAll, ih]

theorem size_pos (t : Term) : 0 < t.size := by
  cases t <;> simp only [size] <;> omega

@[simp] theorem sizeOfAll_append (ts us : List Term) :
    sizeOfAll (ts ++ us) = sizeOfAll ts + sizeOfAll us := by
  induction ts with
  | nil => simp [sizeOfAll]
  | cons t ts ih => simp [sizeOfAll, ih, Nat.add_assoc]

@[simp] theorem sizeOfAll_reverse (ts : List Term) : sizeOfAll ts.reverse = sizeOfAll ts := by
  induction ts with
  | nil => rfl
  | cons t ts ih => simp [sizeOfAll, ih, Nat.add_comm]

end Term

end InequalityChaining

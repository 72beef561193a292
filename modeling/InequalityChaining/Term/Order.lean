import InequalityChaining.Term.Basic

/-!
# The order of terms

Terms are ordered by their canonical forms, in which the operands of every sum and product are
sorted. Canonical forms are compared position by position, terms of different kinds by the rank of
the kind.

## Main definitions

* `Term.orderByPosition` — the order of canonical forms
* `Term.canonical` — the canonical form
* `Term.order`, `Ord Term` — the order of terms
* `Term.sort` — stable sorting
-/

namespace InequalityChaining

/-- The sorts of placeholders are ordered from the weaker restriction to the stronger. -/
def PlaceholderKind.rank : PlaceholderKind → Nat
  | any => 0
  | constantOnly => 1

namespace Term

/-- The position of the kinds of terms in the order. -/
def rank : Term → Nat
  | constant _ => 0
  | var _ => 1
  | placeholder _ _ => 2
  | variadic .sum _ => 3
  | binary .difference _ _ => 4
  | variadic .product _ => 5
  | binary .quotient _ _ => 6
  | binary .power _ _ => 7
  | binary .root _ _ => 8

mutual

/-- Comparison position by position, of operand lists lexicographically. -/
def orderByPosition : Term → Term → Ordering
  | constant a, constant b => a.order b
  | var a, var b => compare a b
  | placeholder a k, placeholder b l => (compare a b).then (compare k.rank l.rank)
  | variadic o as, variadic p bs =>
    (compare (variadic o as).rank (variadic p bs).rank).then (orderOperands as bs)
  | binary o a₁ a₂, binary p b₁ b₂ =>
    (compare (binary o a₁ a₂).rank (binary p b₁ b₂).rank).then
      ((orderByPosition a₁ b₁).then (orderByPosition a₂ b₂))
  | a, b => compare a.rank b.rank

/-- The lexicographic order of lists, a shorter one first. -/
def orderOperands : List Term → List Term → Ordering
  | [], [] => .eq
  | [], _ :: _ => .lt
  | _ :: _, [] => .gt
  | a :: as, b :: bs => (orderByPosition a b).then (orderOperands as bs)

end

mutual

/-- The term with the operands of every sum and product sorted. -/
def canonical : Term → Term
  | constant value => constant value
  | var name => var name
  | placeholder name kind => placeholder name kind
  | variadic op operands =>
    variadic op ((canonicalAll operands).mergeSort fun a b => (orderByPosition a b).isLE)
  | binary op left right => binary op (canonical left) (canonical right)

/-- The canonical forms of a list of terms. -/
def canonicalAll : List Term → List Term
  | [] => []
  | t :: ts => canonical t :: canonicalAll ts

end

/-- The order of terms, in which the order of the operands of sums and products is immaterial. -/
def order (a b : Term) : Ordering := orderByPosition a.canonical b.canonical

/-- Terms are ordered by their canonical forms. -/
instance : Ord Term := ⟨order⟩

/-- The terms in ascending order; terms that compare as equal keep their places. -/
def sort (ts : List Term) : List Term := ts.mergeSort fun a b => (order a b).isLE

@[simp] theorem canonicalAll_eq_map (ts : List Term) : canonicalAll ts = ts.map canonical := by
  induction ts with
  | nil => rfl
  | cons t ts ih => simp [canonicalAll, ih]

end Term

end InequalityChaining

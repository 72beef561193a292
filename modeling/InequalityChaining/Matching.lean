import InequalityChaining.Bindings

/-!
# Matching

Matching extends given bindings so that a pattern becomes a subject. The operands of sums and
products are matched from the last to the first: the last operands with each other, then what is
left of the subject with what is left of the pattern. If one of the two has a single operand left,
that operand is matched with the other's remaining operation, so a placeholder in front takes all
the remaining operands. No other pairing of operands is tried.

A placeholder that is bound already stands for the term it is bound to. Following such terms costs
a hop as long as the subject stays the same; bindings that lead back to where they came from run
out of hops, and then there is no match.

## Main definitions

* `Term.matchPattern?` — matching a term
* `Proposition.matchPattern?` — matching both sides with one set of bindings
-/

namespace InequalityChaining

namespace Term

mutual

/-- Matches a subject with a pattern, following at most `hops` bound placeholders in a row. -/
def matchWithin (hops : Nat) (subject pattern : Term) (seed : Bindings) : Option Bindings :=
  if subject == pattern then some seed
  else
    match subject, pattern with
    | subject, placeholder name kind =>
      -- a hop keeps the subject, all other calls make it smaller
      match seed.find? name, hops with
      | some _, 0 => none
      | some bound, hops + 1 => matchWithin hops subject bound seed
      | none, _ =>
        if kind = .constantOnly ∧ !subject.isConstant then none
        else some (seed.insert name subject)
    | variadic o ss, variadic p ps =>
      if o = p then matchBackwards o ss.reverse ps.reverse seed else none
    | binary o s₁ s₂, binary p p₁ p₂ =>
      if o = p then do
        let b ← matchWithin seed.size s₁ p₁ seed
        matchWithin b.size s₂ p₂ b
      else none
    | _, _ => none
termination_by (2 * subject.size, hops)
decreasing_by
  all_goals simp only [Prod.lex_def, size, sizeOfAll_reverse]
  all_goals grind [size_pos]

/-- Matches the operands of two operations of the same kind, listed from the last to the first. -/
def matchBackwards (op : Variadic) (subjects patterns : List Term) (seed : Bindings) :
    Option Bindings :=
  match subjects, patterns with
  | [], [] => some seed
  | [s], [p] => matchWithin seed.size s p seed
  | s :: s' :: ss, p :: p' :: ps => do
    let b ← matchWithin seed.size s p seed
    match ss.isEmpty, ps.isEmpty with
    | true, true => matchWithin b.size s' p' b
    | true, false => matchWithin b.size s' (variadic op (p' :: ps).reverse) b
    | false, true => matchWithin b.size (variadic op (s' :: ss).reverse) p' b
    | false, false =>
      -- operands that agree up to order need not be matched one by one
      if sameOperands (s' :: ss) (p' :: ps) then some b
      else matchBackwards op (s' :: ss) (p' :: ps) b
  | _, _ => none
termination_by (2 * sizeOfAll subjects + 1, 0)
decreasing_by
  all_goals simp only [Prod.lex_def, size, sizeOfAll, sizeOfAll_reverse]
  all_goals grind [size_pos]

end

/-- Extends the bindings so that the pattern becomes the subject, if they can be. -/
def matchPattern? (subject pattern : Term) (seed : Bindings) : Option Bindings :=
  matchWithin seed.size subject pattern seed

end Term

/-- Matches both sides of propositions of the same relation, the left sides first. -/
def Proposition.matchPattern? (subject pattern : Proposition) (seed : Bindings) :
    Option Bindings :=
  if subject.relation = pattern.relation then do
    let b ← subject.lhs.matchPattern? pattern.lhs seed
    subject.rhs.matchPattern? pattern.rhs b
  else none

end InequalityChaining

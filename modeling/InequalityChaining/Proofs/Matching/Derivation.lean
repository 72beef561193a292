import Mathlib.Tactic.ClearExcept
import InequalityChaining.Matching
import InequalityChaining.Proofs.Term.Parts

/-!
# Derivations of matches

A successful match is a tree: each node says which branch of the matcher was taken and what it
bound, and the bindings are threaded from one operand to the next. An operation is matched by its
last operand and what is in front of it, which is an operation again or, where a single operand is
left, possibly that operand by itself. Facts about all matches are proved by induction on this tree;
hops and the order of the recursive calls play no part in it.

## Main definitions

* `Splits` — an operation as its last operand and what is in front of it
* `Matches` — the ways in which a pattern becomes a subject
* `PassesToParts` — properties that whatever is bound has from the subject

## Main results

* `matches_of_matchPattern?` — what the matcher finds has a derivation
* `Matches.forall_bound` — what holds of all bound terms
-/

namespace InequalityChaining

open Term

/-- An operation splits into its last operand and what is in front of it: the operation with the
other operands, or the other operand if there is only one. -/
inductive Splits (op : Variadic) : List Term → Term → Term → Prop where
  | append (ts : List Term) (t : Term) : Splits op (ts ++ [t]) (variadic op ts) t
  | pair (u t : Term) : Splits op [u, t] u t

/-- The pattern becomes the subject when the first bindings are extended to the second. -/
inductive Matches : Term → Term → Bindings → Bindings → Prop where
  | equal {s p : Term} {b : Bindings} (h : Term.equal s p) : Matches s p b b
  | sameOperands {ss ps : List Term} {b : Bindings} (op : Variadic)
      (h : Term.sameOperands ss.reverse ps.reverse) :
      Matches (variadic op ss) (variadic op ps) b b
  | take {s : Term} {name : String} {kind : PlaceholderKind} {b : Bindings}
      (unbound : b.find? name = none) (allowed : kind = .constantOnly → s.isConstant) :
      Matches s (placeholder name kind) b (b.insert name s)
  | follow {s t : Term} {name : String} {kind : PlaceholderKind} {b r : Bindings}
      (bound : b.find? name = some t) (h : Matches s t b r) :
      Matches s (placeholder name kind) b r
  | binary {s₁ s₂ p₁ p₂ : Term} {b c r : Bindings} (o : Binary) (left : Matches s₁ p₁ b c)
      (right : Matches s₂ p₂ c r) : Matches (.binary o s₁ s₂) (.binary o p₁ p₂) b r
  | single {s p : Term} {b r : Bindings} (op : Variadic) (h : Matches s p b r) :
      Matches (variadic op [s]) (variadic op [p]) b r
  | operands {ss ps : List Term} {s s' p p' : Term} {b c r : Bindings} {op : Variadic}
      (subject : Splits op ss s' s) (pattern : Splits op ps p' p) (last : Matches s p b c)
      (front : Matches s' p' c r) : Matches (variadic op ss) (variadic op ps) b r

mutual

/-- What is found with any number of hops has a derivation. -/
theorem matches_of_matchWithin {hops : Nat} {s p : Term} {b r : Bindings}
    (h : matchWithin hops s p b = some r) : Matches s p b r := by
  rw [matchWithin.eq_def] at h
  by_cases same : (s == p) = true
  · rw [if_pos same] at h
    obtain rfl := Option.some.inj h
    exact .equal same
  rw [if_neg same] at h
  clear same
  -- a placeholder, operand lists, two operands each, or anything else, which does not match
  split at h
  · next name kind =>
    split at h
    · simp at h
    · next hops t bound => exact .follow bound (matches_of_matchWithin h)
    · next unbound =>
      split at h
      · simp at h
      · next allowed =>
        obtain rfl := Option.some.inj h
        exact .take unbound (by simpa using allowed)
  · next o ss o' ps =>
    split at h
    · next same =>
      subst same
      have := matches_of_matchBackwards h
      rwa [List.reverse_reverse, List.reverse_reverse] at this
    · simp at h
  · next o s₁ s₂ o' p₁ p₂ =>
    split at h
    · next same =>
      subst same
      obtain ⟨c, left, right⟩ := Option.bind_eq_some_iff.1 h
      exact .binary o (matches_of_matchWithin left) (matches_of_matchWithin right)
    · simp at h
  · simp at h
termination_by (2 * s.size, hops)
decreasing_by
  all_goals subst_vars
  all_goals simp only [Prod.lex_def, size, sizeOfAll_reverse, true_and]
  all_goals omega

/-- Operand lists are those of a derivation, read from the end. -/
theorem matches_of_matchBackwards {op : Variadic} {ss ps : List Term} {b r : Bindings}
    (h : matchBackwards op ss ps b = some r) :
    Matches (variadic op ss.reverse) (variadic op ps.reverse) b r := by
  rw [matchBackwards.eq_def] at h
  split at h
  · obtain rfl := Option.some.inj h
    exact .equal (by simp [equal, pairOff])
  · next s p => exact .single op (matches_of_matchWithin h)
  · next s s' ss p p' ps =>
    obtain ⟨c, last, h⟩ := Option.bind_eq_some_iff.1 h
    have lastMatch := matches_of_matchWithin last
    rw [List.reverse_cons, List.reverse_cons (a := p)]
    -- what is in front is a single operand or an operation again, on either side
    cases ss with
    | nil =>
      cases ps with
      | nil => exact .operands (.pair s' s) (.pair p' p) lastMatch (matches_of_matchWithin h)
      | cons p'' ps =>
        exact .operands (.pair s' s) (.append _ p) lastMatch (matches_of_matchWithin h)
    | cons s'' ss =>
      cases ps with
      | nil => exact .operands (.append _ s) (.pair p' p) lastMatch (matches_of_matchWithin h)
      | cons p'' ps =>
        refine .operands (.append _ s) (.append _ p) lastMatch ?_
        simp only [List.isEmpty_cons] at h
        split at h
        · next same =>
          obtain rfl := Option.some.inj h
          exact .sameOperands op (by simpa using same)
        · exact matches_of_matchBackwards h
  · simp at h
termination_by (2 * sizeOfAll ss + 1, 0)
decreasing_by
  all_goals subst_vars
  all_goals simp only [Prod.lex_def, size, sizeOfAll, sizeOfAll_reverse]
  all_goals clear * -
  all_goals grind [size_pos]

end

/-- What the matcher finds has a derivation. -/
theorem matches_of_matchPattern? {s p : Term} {b r : Bindings}
    (h : s.matchPattern? p b = some r) : Matches s p b r :=
  matches_of_matchWithin h

/-! ### What is bound -/

/-- A property of terms that carries over to the parts that a derivation matches by themselves. -/
structure PassesToParts (P : Term → Prop) : Prop where
  splits : ∀ {op ts u t}, Splits op ts u t → P (variadic op ts) → P u ∧ P t
  single : ∀ {op t}, P (variadic op [t]) → P t
  binary : ∀ {o l r}, P (.binary o l r) → P l ∧ P r

theorem PassesToParts.and {P Q : Term → Prop} (first : PassesToParts P) (second : PassesToParts Q) :
    PassesToParts fun t => P t ∧ Q t where
  splits split h := and_and_and_comm.1 ⟨first.splits split h.1, second.splits split h.2⟩
  single h := ⟨first.single h.1, second.single h.2⟩
  binary h := and_and_and_comm.1 ⟨first.binary h.1, second.binary h.2⟩

/-- What is bound already is bound to the same term in the end. -/
theorem Matches.keeps {s p : Term} {b r : Bindings} (h : Matches s p b r) {name : String}
    {t : Term} (bound : b.find? name = some t) : r.find? name = some t := by
  induction h with
  | equal => exact bound
  | sameOperands => exact bound
  | @take s n kind b unbound allowed =>
    have distinct : name ≠ n := by
      rintro rfl
      simp [unbound] at bound
    rw [Bindings.find?_insert, if_neg distinct, bound]
  | follow _ h ih => exact ih bound
  | binary o left right ihl ihr => exact ihr (ihl bound)
  | single op h ih => exact ih bound
  | operands split pattern last front ihLast ihFront => exact ihFront (ihLast bound)

/-- A match binds parts of the subject only. -/
theorem Matches.forall_bound {P : Term → Prop} (parts : PassesToParts P) {s p : Term}
    {b r : Bindings} (h : Matches s p b r) (subject : P s)
    (seed : ∀ name t, b.find? name = some t → P t) : ∀ name t, r.find? name = some t → P t := by
  induction h with
  | equal => exact seed
  | sameOperands => exact seed
  | take unbound allowed =>
    intro name t found
    rw [Bindings.find?_insert] at found
    split at found
    · exact Option.some.inj found ▸ subject
    · exact seed name t found
  | follow bound h ih => exact ih subject seed
  | binary o left right ihl ihr =>
    obtain ⟨subjectLeft, subjectRight⟩ := parts.binary subject
    exact ihr subjectRight (ihl subjectLeft seed)
  | single op h ih => exact ih (parts.single subject) seed
  | operands split pattern last front ihLast ihFront =>
    obtain ⟨subjectFront, subjectLast⟩ := parts.splits split subject
    exact ihFront subjectFront (ihLast subjectLast seed)

end InequalityChaining

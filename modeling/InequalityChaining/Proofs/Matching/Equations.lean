import InequalityChaining.Matching
import InequalityChaining.Proofs.Term.Parts

/-!
# The matcher by the shape of the pattern

For subjects and bound terms without placeholders the matcher never follows more than one binding
at a time. Its limit on hops then plays no part, and matching is determined by the shape of the
pattern: an unbound placeholder takes the subject, a bound one stands for its term, an operation is
matched operand by operand, and anything else has to equal the subject.

## Main results

* `Term.matchPattern?_of_unbound`, `Term.matchPattern?_of_bound` — placeholders
* `Term.matchPattern?_constant`, `Term.matchPattern?_var` — atoms
* `Term.matchPattern?_binary`, `Term.matchPattern?_variadic` — operations
-/

namespace InequalityChaining

/-- Where a name is bound there is a binding. -/
theorem Bindings.size_pos_of_find? {b : Bindings} {name : String} {t : Term}
    (h : b.find? name = some t) : 0 < b.size := by
  obtain ⟨entry, found, -⟩ := Option.map_eq_some_iff.1 h
  exact List.length_pos_of_mem (List.mem_of_find?_eq_some found)

namespace Term

section Equality

theorem beq_eq_equal (s p : Term) : (s == p) = equal s p := rfl

/-- Only a placeholder equals a placeholder. -/
theorem not_beq_placeholder {s : Term} (ground : s.isGround) (name : String)
    (kind : PlaceholderKind) : (s == placeholder name kind) = false := by
  cases s with
  | placeholder n k => simp at ground
  | _ => simp [beq_eq_equal, equal]

theorem isNumber_eq_beq (t : Term) (i : Int64) : t.isNumber i = (t == int i) := by
  cases t <;> rfl

end Equality

section Equations

variable {s s₁ s₂ p p₁ p₂ bound : Term} {b c : Bindings} {name : String} {kind : PlaceholderKind}

theorem matchPattern?_of_beq (h : (s == p) = true) : s.matchPattern? p b = some b := by
  rw [matchPattern?, matchWithin.eq_def, if_pos h]

/-- Hops count for placeholders only. -/
theorem matchWithin_eq_matchPattern? (hops : Nat) (h : ∀ name kind, p ≠ placeholder name kind) :
    matchWithin hops s p b = s.matchPattern? p b := by
  rw [matchPattern?, matchWithin.eq_def, matchWithin.eq_def]
  cases p with
  | placeholder name kind => exact absurd rfl (h name kind)
  | _ => cases s <;> rfl

/-- A placeholder that is not the subject itself takes the subject or stands for its term. -/
theorem matchWithin_placeholder_of_not_beq (distinct : (s == placeholder name kind) = false)
    (hops : Nat) :
    matchWithin hops s (placeholder name kind) b =
      match b.find? name, hops with
      | some _, 0 => none
      | some bound, hops + 1 => matchWithin hops s bound b
      | none, _ =>
        if kind = .constantOnly ∧ !s.isConstant then none else some (b.insert name s) := by
  rw [matchWithin.eq_def, distinct]
  cases s <;> rfl

theorem matchWithin_placeholder (ground : s.isGround) (hops : Nat) :
    matchWithin hops s (placeholder name kind) b =
      match b.find? name, hops with
      | some _, 0 => none
      | some bound, hops + 1 => matchWithin hops s bound b
      | none, _ =>
        if kind = .constantOnly ∧ !s.isConstant then none else some (b.insert name s) :=
  matchWithin_placeholder_of_not_beq (not_beq_placeholder ground name kind) hops

/-- A placeholder that is not bound takes the subject, if it may. -/
theorem matchPattern?_of_unbound (ground : s.isGround) (unbound : b.find? name = none) :
    s.matchPattern? (placeholder name kind) b =
      if kind = .constantOnly ∧ !s.isConstant then none else some (b.insert name s) := by
  rw [matchPattern?, matchWithin_placeholder ground, unbound]

/-- A bound placeholder stands for the term that it is bound to. -/
theorem matchPattern?_of_bound (ground : s.isGround) (groundBound : bound.isGround)
    (h : b.find? name = some bound) :
    s.matchPattern? (placeholder name kind) b = s.matchPattern? bound b := by
  obtain ⟨hops, hsize⟩ := Nat.exists_eq_add_one.2 (Bindings.size_pos_of_find? h)
  rw [matchPattern?, matchWithin_placeholder ground, h, hsize]
  -- what the name is bound to is no placeholder, so the hops that are left do not count
  exact matchWithin_eq_matchPattern? hops fun n k e => by simp [e] at groundBound

theorem matchPattern?_constant {value : Number} :
    s.matchPattern? (constant value) b = if s == constant value then some b else none := by
  rw [matchPattern?, matchWithin.eq_def]

theorem matchPattern?_var :
    s.matchPattern? (var name) b = if s == var name then some b else none := by
  rw [matchPattern?, matchWithin.eq_def]

/-- The parts of an operation on two terms are matched in turn. -/
theorem matchPattern?_binary {o o' : Binary} :
    (binary o' s₁ s₂).matchPattern? (binary o p₁ p₂) b =
      if o' = o then (s₁.matchPattern? p₁ b).bind fun c => s₂.matchPattern? p₂ c else none := by
  rw [matchPattern?, matchWithin.eq_def]
  by_cases h : (binary o' s₁ s₂ == binary o p₁ p₂) = true
  · rw [if_pos h]
    -- equal operations have equal parts, which match without binding anything
    simp only [beq_eq_equal, equal, Bool.and_eq_true, beq_iff_eq] at h
    obtain ⟨⟨rfl, h₁⟩, h₂⟩ := h
    rw [if_pos rfl, matchPattern?_of_beq h₁, Option.bind_some, matchPattern?_of_beq h₂]
  · rw [if_neg h]
    rfl

/-- Only an operation of the same kind matches an operation on two terms. -/
theorem matchPattern?_binary_eq_some {o : Binary} :
    s.matchPattern? (binary o p₁ p₂) b = some c ↔
      ∃ s₁ s₂ d, s = binary o s₁ s₂ ∧ s₁.matchPattern? p₁ b = some d ∧
        s₂.matchPattern? p₂ d = some c := by
  constructor
  · intro h
    cases s with
    | binary o' s₁ s₂ =>
      rw [matchPattern?_binary] at h
      split at h
      · next e =>
        obtain ⟨d, h₁, h₂⟩ := Option.bind_eq_some_iff.1 h
        exact ⟨s₁, s₂, d, e ▸ rfl, h₁, h₂⟩
      · simp at h
    | _ => rw [matchPattern?, matchWithin.eq_def] at h; cases h
  · rintro ⟨s₁, s₂, d, rfl, h₁, h₂⟩
    rw [matchPattern?_binary, if_pos rfl, h₁, Option.bind_some, h₂]

/-- Anything else does not match an operation on two terms. -/
theorem matchPattern?_binary_of_ne {o : Binary} (other : ∀ s₁ s₂, s ≠ binary o s₁ s₂) :
    s.matchPattern? (binary o p₁ p₂) b = none := by
  refine Option.eq_none_iff_forall_ne_some.2 fun c found => ?_
  obtain ⟨s₁, s₂, -, same, -⟩ := matchPattern?_binary_eq_some.1 found
  exact other s₁ s₂ same

/-- Operand lists are matched from the end, unless the operations are equal. -/
theorem matchPattern?_variadic {op op' : Variadic} {ss ps : List Term} :
    (variadic op' ss).matchPattern? (variadic op ps) b =
      if (variadic op' ss == variadic op ps) = true then some b
      else if op' = op then matchBackwards op' ss.reverse ps.reverse b else none := by
  rw [matchPattern?, matchWithin.eq_def]

/-- A single operand is matched with a single operand. -/
theorem matchBackwards_singleton {op : Variadic} :
    matchBackwards op [s] [p] b = s.matchPattern? p b := by
  rw [matchBackwards.eq_def]
  rfl

/-- Only an operation of the same kind matches an operation on a list of terms. -/
theorem exists_of_matchPattern?_variadic {op : Variadic} {ps : List Term}
    (h : s.matchPattern? (variadic op ps) b = some c) : ∃ ss, s = variadic op ss := by
  cases s with
  | variadic op' ss =>
    rw [matchPattern?_variadic] at h
    split at h
    · next e =>
      simp only [beq_eq_equal, equal, Bool.and_eq_true, beq_iff_eq] at e
      exact ⟨ss, e.1.1 ▸ rfl⟩
    · split at h
      · next e => exact ⟨ss, e ▸ rfl⟩
      · simp at h
  | _ => rw [matchPattern?, matchWithin.eq_def] at h; cases h

/-- Anything else does not match an operation on a list of terms. -/
theorem matchPattern?_variadic_of_ne {op : Variadic} {ps : List Term}
    (other : ∀ ss, s ≠ variadic op ss) : s.matchPattern? (variadic op ps) b = none := by
  refine Option.eq_none_iff_forall_ne_some.2 fun c found => ?_
  obtain ⟨ss, same⟩ := exists_of_matchPattern?_variadic found
  exact other ss same

end Equations

end Term

end InequalityChaining

/-!
# Computations that may fail

When a computation in sequence succeeds, each part of it has succeeded; when it fails, one part has
failed and those before it have not.

## Main results

* `bind_eq_ok`, `bind_eq_error` — the outcome of two parts in sequence
* `map_eq_ok` — the outcome of a computation whose result is passed on
* `forM_eq_ok` — the outcomes for the items of a list
-/

namespace InequalityChaining

variable {ε α β : Type} {x : Except ε α} {f : α → Except ε β} {g : α → β} {b : β} {e : ε}

theorem bind_eq_ok : (x >>= f) = .ok b ↔ ∃ a, x = .ok a ∧ f a = .ok b := by
  cases x with
  | error e => simp [bind, Except.bind]
  | ok a => simp [bind, Except.bind]

theorem bind_eq_error : (x >>= f) = .error e ↔ x = .error e ∨ ∃ a, x = .ok a ∧ f a = .error e := by
  cases x with
  | error e => simp [bind, Except.bind]
  | ok a => simp [bind, Except.bind]

theorem map_eq_ok : x.map g = .ok b ↔ ∃ a, x = .ok a ∧ g a = b := by
  cases x <;> simp [Except.map]

/-- Where a computation succeeds for a whole list, it succeeds for every item. -/
theorem forM_eq_ok {γ : Type} {f : γ → Except ε Unit} {as : List γ} (h : as.forM f = .ok ()) :
    ∀ a ∈ as, f a = .ok () := by
  induction as with
  | nil => simp
  | cons a as ih =>
    obtain ⟨⟨⟩, first, rest⟩ := bind_eq_ok.1 h
    exact List.forall_mem_cons.2 ⟨first, ih rest⟩

@[simp] theorem pure_eq_ok {a a' : α} : (pure a : Except ε α) = .ok a' ↔ a = a' := by
  simp [pure, Except.pure]

@[simp] theorem pure_ne_error {a : α} : (pure a : Except ε α) ≠ .error e := by
  simp [pure, Except.pure]

end InequalityChaining

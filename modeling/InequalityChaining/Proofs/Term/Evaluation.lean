import InequalityChaining.Proofs.Number.Finiteness
import InequalityChaining.Proofs.Term.Parts

/-!
# When a term has a value

Evaluation comes to every leaf before it gives a value, so only constant terms have one. It stops
early where the arithmetic of a part fails, but arithmetic has reasons of its own: that a term is
not constant is reported at a variable or a placeholder only. An operation yields a finite number,
whatever the constants are that it starts from.

## Main results

* `Term.isConstant_of_evaluate` — a term with a value is constant
* `Term.not_isConstant_of_evaluate` — a term reported as not constant is not
* `Term.isFinite_of_evaluate_variadic`, `Term.isFinite_of_evaluate_binary` — values of operations
-/

namespace InequalityChaining

/-! ### The errors of arithmetic -/

namespace Number

variable {a b : Number}

theorem ofFloat_ne_notConstant {x : Float} : ofFloat x ≠ .error .notConstant := by
  rw [ofFloat]
  split <;> simp

/-- Neither is it reported where integers that do not fit are replaced by reals. -/
theorem exact_or_ne_notConstant {i? : Option Int64} {x : Float} :
    (match i? with
      | some i => Except.ok (int i)
      | none => ofFloat x) ≠ .error .notConstant := by
  cases i? with
  | some i => simp
  | none => exact ofFloat_ne_notConstant

theorem add_ne_notConstant : add a b ≠ .error .notConstant := by
  rw [add.eq_def]
  split
  · exact exact_or_ne_notConstant
  · exact ofFloat_ne_notConstant

theorem sub_ne_notConstant : sub a b ≠ .error .notConstant := by
  rw [sub.eq_def]
  split
  · exact exact_or_ne_notConstant
  · exact ofFloat_ne_notConstant

theorem mul_ne_notConstant : mul a b ≠ .error .notConstant := by
  rw [mul.eq_def]
  split
  · exact exact_or_ne_notConstant
  · exact ofFloat_ne_notConstant

theorem div_ne_notConstant : div a b ≠ .error .notConstant := by
  rw [div]
  split
  · simp
  · exact ofFloat_ne_notConstant

theorem pow_ne_notConstant : pow a b ≠ .error .notConstant := by
  rw [pow.eq_def]
  split
  · simp
  · exact exact_or_ne_notConstant

theorem root_ne_notConstant : root a b ≠ .error .notConstant := by
  rw [root]
  split
  · simp
  · exact ofFloat_ne_notConstant

end Number

theorem Variadic.apply_ne_notConstant {op : Variadic} {a b : Number} :
    op.apply a b ≠ .error .notConstant := by
  cases op with
  | sum => exact Number.add_ne_notConstant
  | product => exact Number.mul_ne_notConstant

theorem Binary.apply_ne_notConstant {op : Binary} {a b : Number} :
    op.apply a b ≠ .error .notConstant := by
  cases op with
  | difference => exact Number.sub_ne_notConstant
  | quotient => exact Number.div_ne_notConstant
  | power => exact Number.pow_ne_notConstant
  | root => exact Number.root_ne_notConstant

/-! ### Terms with and without a value -/

namespace Term

variable {op : Variadic} {o : Binary} {ts : List Term} {l r t : Term} {a v : Number}

theorem isConstant_of_evaluateFrom (operands : ∀ t ∈ ts, ∀ v, t.evaluate = .ok v → t.isConstant)
    (h : evaluateFrom op a ts = .ok v) : ∀ t ∈ ts, t.isConstant := by
  induction ts generalizing a with
  | nil => simp
  | cons t ts ih =>
    rw [evaluateFrom] at h
    obtain ⟨b, first, h⟩ := bind_eq_ok.1 h
    obtain ⟨c, -, h⟩ := bind_eq_ok.1 h
    rw [List.forall_mem_cons] at operands ⊢
    exact ⟨operands.1 b first, ih operands.2 h⟩

/-- Only a term without variables and placeholders has a value. -/
theorem isConstant_of_evaluate (h : t.evaluate = .ok v) : t.isConstant := by
  induction t using Term.induction generalizing v with
  | constant value => rfl
  | var name => cases h
  | placeholder name kind => cases h
  | variadic op ts ih =>
    rw [evaluate] at h
    exact isConstant_variadic.2 (isConstant_of_evaluateFrom (fun t mem v => ih t mem) h)
  | binary op l r ihl ihr =>
    rw [evaluate] at h
    obtain ⟨a, left, h⟩ := bind_eq_ok.1 h
    obtain ⟨b, right, -⟩ := bind_eq_ok.1 h
    exact isConstant_binary.2 ⟨ihl left, ihr right⟩

theorem not_isConstant_of_evaluateFrom
    (operands : ∀ t ∈ ts, t.evaluate = .error .notConstant → ¬ t.isConstant)
    (h : evaluateFrom op a ts = .error .notConstant) : ∃ t ∈ ts, ¬ t.isConstant := by
  induction ts generalizing a with
  | nil => cases h
  | cons t ts ih =>
    rw [List.forall_mem_cons] at operands
    rw [evaluateFrom] at h
    rcases bind_eq_error.1 h with first | ⟨b, -, h⟩
    · exact ⟨t, List.mem_cons_self, operands.1 first⟩
    · -- the operation itself has other reasons to fail
      rcases bind_eq_error.1 h with failed | ⟨c, -, h⟩
      · exact absurd failed Variadic.apply_ne_notConstant
      · obtain ⟨u, mem, found⟩ := ih operands.2 h
        exact ⟨u, List.mem_cons_of_mem t mem, found⟩

/-- A term that is reported as not constant has a variable or a placeholder. -/
theorem not_isConstant_of_evaluate (h : t.evaluate = .error .notConstant) : ¬ t.isConstant := by
  induction t using Term.induction with
  | constant value => cases h
  | var name => simp
  | placeholder name kind => simp
  | variadic op ts ih =>
    rw [evaluate] at h
    obtain ⟨t, mem, found⟩ := not_isConstant_of_evaluateFrom ih h
    exact fun constant => found (isConstant_variadic.1 constant t mem)
  | binary op l r ihl ihr =>
    rw [evaluate] at h
    intro constant
    obtain ⟨constantLeft, constantRight⟩ := isConstant_binary.1 constant
    rcases bind_eq_error.1 h with left | ⟨a, -, h⟩
    · exact ihl left constantLeft
    · rcases bind_eq_error.1 h with right | ⟨b, -, failed⟩
      · exact ihr right constantRight
      · exact absurd failed Binary.apply_ne_notConstant

/-! ### Values of operations -/

theorem isFinite_of_evaluateFrom (finite : a.isFinite) (h : evaluateFrom op a ts = .ok v) :
    v.isFinite := by
  induction ts generalizing a with
  | nil => exact Except.ok.inj h ▸ finite
  | cons t ts ih =>
    rw [evaluateFrom] at h
    obtain ⟨b, -, h⟩ := bind_eq_ok.1 h
    obtain ⟨c, applied, h⟩ := bind_eq_ok.1 h
    exact ih (Variadic.isFinite_of_apply applied) h

theorem isFinite_of_evaluate_variadic (h : (variadic op ts).evaluate = .ok v) : v.isFinite := by
  rw [evaluate] at h
  refine isFinite_of_evaluateFrom ?_ h
  cases op <;> rfl

theorem isFinite_of_evaluate_binary (h : (binary o l r).evaluate = .ok v) : v.isFinite := by
  rw [evaluate] at h
  obtain ⟨a, -, h⟩ := bind_eq_ok.1 h
  obtain ⟨b, -, applied⟩ := bind_eq_ok.1 h
  exact Binary.isFinite_of_apply applied

end Term

end InequalityChaining

import InequalityChaining.Term.Equality

/-!
# The parts of a term

What holds of all parts of a term holds of a term exactly if it holds of its root and of its
operands; the predicates on terms are read off the operands accordingly. A property of terms is
proved by induction on the tree, where the hypothesis for a sum or product covers every operand.

## Main definitions

* `Variadic.inverse` — differences undo sums, quotients undo products

## Main results

* `Term.induction` — induction on terms, with one hypothesis for all operands of a sum or product
* `Term.isGround_variadic`, `Term.isGround_binary` — groundness of an operation, and so on
* `Term.mem_subterms_variadic`, `Term.mem_subterms_binary` — the subterms of an operation
* `Term.mem_subterms_trans` — subterms of subterms
-/

namespace InequalityChaining

/-- The operation that undoes a sum or a product. -/
def Variadic.inverse : Variadic → Binary
  | sum => .difference
  | product => .quotient

namespace Term

/-- Induction on terms. The operands of a sum or a product are treated all at once. -/
@[elab_as_elim]
theorem induction {motive : Term → Prop}
    (constant : ∀ value, motive (constant value))
    (var : ∀ name, motive (var name))
    (placeholder : ∀ name kind, motive (placeholder name kind))
    (variadic : ∀ op operands, (∀ t ∈ operands, motive t) → motive (variadic op operands))
    (binary : ∀ op left right, motive left → motive right → motive (binary op left right))
    (t : Term) : motive t := by
  refine @Term.rec motive (fun ts => ∀ t ∈ ts, motive t) constant var placeholder variadic binary
    ?_ ?_ t
  · simp
  · intro t ts ht hts u hu
    rcases List.mem_cons.1 hu with rfl | hu
    · exact ht
    · exact hts u hu

/-! ### What occurs in a term -/

section Occurrence

variable {p : Term → Bool} {op : Variadic} {o : Binary} {ts : List Term} {l r t u v : Term}

theorem any_variadic :
    (variadic op ts).any p = (p (variadic op ts) || ts.any fun t => t.any p) := by
  simp [any, subterms, List.any_flatMap]

theorem any_binary : (binary o l r).any p = (p (binary o l r) || (l.any p || r.any p)) := by
  simp [any, subterms]

@[simp] theorem isGround_constant {value : Number} : (constant value).isGround = true := rfl

@[simp] theorem isGround_var {name : String} : (var name).isGround = true := rfl

@[simp] theorem isGround_placeholder {name : String} {kind : PlaceholderKind} :
    (placeholder name kind).isGround = false := rfl

@[simp] theorem isGround_variadic : (variadic op ts).isGround ↔ ∀ t ∈ ts, t.isGround := by
  simp [isGround, hasPlaceholder, any_variadic, isPlaceholder]

@[simp] theorem isGround_binary : (binary o l r).isGround ↔ l.isGround ∧ r.isGround := by
  simp [isGround, hasPlaceholder, any_binary, isPlaceholder]

@[simp] theorem isConstant_constant {value : Number} : (constant value).isConstant = true := rfl

@[simp] theorem isConstant_var {name : String} : (var name).isConstant = false := rfl

@[simp] theorem isConstant_placeholder {name : String} {kind : PlaceholderKind} :
    (placeholder name kind).isConstant = false := rfl

@[simp] theorem isConstant_variadic : (variadic op ts).isConstant ↔ ∀ t ∈ ts, t.isConstant := by
  simp only [isConstant, any_variadic, isVar, isPlaceholder]
  simp

@[simp] theorem isConstant_binary : (binary o l r).isConstant ↔ l.isConstant ∧ r.isConstant := by
  simp only [isConstant, any_binary, isVar, isPlaceholder]
  simp

@[simp] theorem hasVariable_constant {value : Number} : (constant value).hasVariable = false := rfl

@[simp] theorem hasVariable_var {name : String} : (var name).hasVariable = true := rfl

@[simp] theorem hasVariable_variadic :
    (variadic op ts).hasVariable ↔ ∃ t ∈ ts, t.hasVariable := by
  simp [hasVariable, any_variadic, isVar]

@[simp] theorem hasVariable_binary :
    (binary o l r).hasVariable ↔ l.hasVariable ∨ r.hasVariable := by
  simp [hasVariable, any_binary, isVar]

/-- A term without variables and placeholders is ground. -/
theorem isGround_of_isConstant (h : t.isConstant) : t.isGround := by
  induction t using Term.induction with
  | constant value => rfl
  | var name => rfl
  | placeholder name kind => simp at h
  | variadic op ts ih =>
    exact isGround_variadic.2 fun t ht => ih t ht (isConstant_variadic.1 h t ht)
  | binary o l r ihl ihr =>
    obtain ⟨hl, hr⟩ := isConstant_binary.1 h
    exact isGround_binary.2 ⟨ihl hl, ihr hr⟩

/-- A ground term without variables is constant. -/
theorem isConstant_of_isGround (ground : t.isGround) (h : ¬ t.hasVariable) : t.isConstant := by
  induction t using Term.induction with
  | constant value => rfl
  | var name => simp at h
  | placeholder name kind => simp at ground
  | variadic op ts ih =>
    refine isConstant_variadic.2 fun t ht => ih t ht (isGround_variadic.1 ground t ht) fun hv => ?_
    exact h (hasVariable_variadic.2 ⟨t, ht, hv⟩)
  | binary o l r ihl ihr =>
    obtain ⟨gl, gr⟩ := isGround_binary.1 ground
    rw [hasVariable_binary, not_or] at h
    exact isConstant_binary.2 ⟨ihl gl h.1, ihr gr h.2⟩

theorem not_hasVariable_of_isConstant (h : t.isConstant) : ¬ t.hasVariable := by
  intro hv
  obtain ⟨u, mem, isVar⟩ := List.any_eq_true.1 hv
  simp only [isConstant, any, Bool.not_eq_true', List.any_eq_false] at h
  exact h u mem (by simp [isVar])

/-! ### Subterms -/

theorem mem_subterms_self (t : Term) : t ∈ t.subterms := by
  cases t <;> simp [subterms]

@[simp] theorem mem_subterms_variadic :
    u ∈ (variadic op ts).subterms ↔ u = variadic op ts ∨ ∃ t ∈ ts, u ∈ t.subterms := by
  simp [subterms]

@[simp] theorem mem_subterms_binary :
    u ∈ (binary o l r).subterms ↔ u = binary o l r ∨ u ∈ l.subterms ∨ u ∈ r.subterms := by
  simp [subterms]

theorem mem_subterms_operand (mem : t ∈ ts) : t ∈ (variadic op ts).subterms :=
  mem_subterms_variadic.2 (.inr ⟨t, mem, t.mem_subterms_self⟩)

theorem mem_subterms_left : l ∈ (binary o l r).subterms :=
  mem_subterms_binary.2 (.inr (.inl l.mem_subterms_self))

theorem mem_subterms_right : r ∈ (binary o l r).subterms :=
  mem_subterms_binary.2 (.inr (.inr r.mem_subterms_self))

/-- Subterms of subterms are subterms. -/
theorem mem_subterms_trans (inner : v ∈ u.subterms) (outer : u ∈ t.subterms) :
    v ∈ t.subterms := by
  induction t using Term.induction with
  | variadic op ts ih =>
    rcases mem_subterms_variadic.1 outer with rfl | ⟨t, mem, outer⟩
    · exact inner
    · exact mem_subterms_variadic.2 (.inr ⟨t, mem, ih t mem outer⟩)
  | binary o l r ihl ihr =>
    rcases mem_subterms_binary.1 outer with rfl | outer | outer
    · exact inner
    · exact mem_subterms_binary.2 (.inr (.inl (ihl outer)))
    · exact mem_subterms_binary.2 (.inr (.inr (ihr outer)))
  | _ =>
    obtain rfl : u = _ := by simpa [subterms] using outer
    exact inner

/-- The parts of a term without placeholders have none either. -/
theorem isGround_of_mem_subterms (ground : t.isGround) (mem : u ∈ t.subterms) : u.isGround := by
  simp only [isGround, hasPlaceholder, any, Bool.not_eq_true', List.any_eq_false] at ground ⊢
  exact fun v inner => ground v (mem_subterms_trans inner mem)

end Occurrence

end Term

end InequalityChaining

import Mathlib.Data.Multiset.Bind
import InequalityChaining.Proofs.Term.EqualityLaws
import InequalityChaining.Reduction.Standard

/-!
# Terms up to associativity

A flat term has no sum directly inside a sum and no product directly inside a product. Every term
has a flat form, in which the operands of inner operations of the same kind take the place of the
operation. Two terms are equal up to associativity if their flat forms are equal. What an operand
contributes to the flat form of an operation is a multiset of terms, and that of the operation is
the sum of those of its operands, so operations are compared by adding up.

## Main definitions

* `Term.flattened` — the flat form
* `Term.contribution` — what an operand adds to the flat form of a sum or product

## Main results

* `Term.equal_flattened` — equal terms have equal flat forms
* `Term.equal_flattened_variadic_iff` — operations are compared by their contributions
-/

namespace InequalityChaining

namespace Term

mutual

/-- The flat form of a term: every sum directly inside a sum and every product directly inside a
product is spliced. -/
def flattened : Term → Term
  | variadic op operands => variadic op (flattenedOperands op operands)
  | binary op left right => binary op (flattened left) (flattened right)
  | t => t

/-- The operands that are left of a list of operands of one operation. -/
def flattenedOperands (op : Variadic) : List Term → List Term
  | [] => []
  | t :: ts => Standard.splice op (flattened t) ++ flattenedOperands op ts

end

/-- What an operand contributes to the flat form of an operation. -/
def contribution (op : Variadic) (t : Term) : Multiset Term := Standard.splice op t.flattened

section Flattening

variable {op : Variadic} {a b t : Term} {as bs ts us : List Term}

theorem coe_flattenedOperands (op : Variadic) (ts : List Term) :
    (flattenedOperands op ts : Multiset Term) = (ts : Multiset Term).bind (contribution op) := by
  induction ts with
  | nil => rfl
  | cons t ts ih =>
    rw [flattenedOperands, ← Multiset.cons_coe, Multiset.cons_bind, ← ih, contribution,
      Multiset.coe_add]

/-- An operation of the same kind contributes what its operands contribute. -/
theorem contribution_variadic (op : Variadic) (ts : List Term) :
    contribution op (variadic op ts) = (ts : Multiset Term).bind (contribution op) := by
  rw [← coe_flattenedOperands, contribution, flattened]
  simp [Standard.splice]

theorem contribution_append (op : Variadic) (ts : List Term) (t : Term) :
    contribution op (variadic op (ts ++ [t])) =
      contribution op (variadic op ts) + contribution op t := by
  simp only [contribution_variadic, ← Multiset.coe_add, Multiset.add_bind]
  rw [Multiset.coe_singleton, Multiset.singleton_bind]

theorem contribution_singleton (op : Variadic) (t : Term) :
    contribution op (variadic op [t]) = contribution op t := by
  rw [contribution_variadic, Multiset.coe_singleton, Multiset.singleton_bind]

theorem contribution_pair (op : Variadic) (t u : Term) :
    contribution op (variadic op [t, u]) = contribution op t + contribution op u := by
  rw [← contribution_singleton op t, ← contribution_append]
  rfl

/-! ### Undefined constants -/

theorem isDefined_of_mem_splice (h : t.isDefined) : ∀ u ∈ Standard.splice op t, u.isDefined := by
  intro u mem
  cases t with
  | variadic o ts =>
    simp only [Standard.splice] at mem
    split at mem
    · exact isDefined_variadic.1 h u mem
    · exact List.mem_singleton.1 mem ▸ h
  | _ => exact List.mem_singleton.1 mem ▸ h

/-- Flattening introduces no undefined constants. -/
theorem isDefined_flattened (h : t.isDefined) : t.flattened.isDefined := by
  induction t using Term.induction with
  | variadic op ts ih =>
    rw [flattened, isDefined_variadic]
    intro u mem
    rw [← Multiset.mem_coe, coe_flattenedOperands, Multiset.mem_bind] at mem
    obtain ⟨t, ht, hu⟩ := mem
    exact isDefined_of_mem_splice (ih t ht (isDefined_variadic.1 h t ht)) u hu
  | binary op l r ihl ihr =>
    obtain ⟨hl, hr⟩ := isDefined_binary.1 h
    rw [flattened, isDefined_binary]
    exact ⟨ihl hl, ihr hr⟩
  | _ => exact h

/-! ### Equality -/

/-- Equal terms contribute equal operands. -/
theorem equalOperands_splice (ha : a.isDefined) (hb : b.isDefined) (h : equal a b) :
    EqualOperands (Standard.splice op a) (Standard.splice op b) := by
  -- all but an operation of the same kind contributes itself
  have whole : ∀ {c d : Term}, equal c d → EqualOperands [c] [d] := by
    intro c d h
    exact Multiset.Rel.cons (r := fun a b => equal a b = true) (a := c) (b := d) h .zero
  cases a with
  | constant value =>
    obtain ⟨value', rfl, -⟩ := equal_constant_iff.1 h
    exact whole h
  | var name =>
    obtain rfl := equal_var_iff.1 h
    exact whole h
  | placeholder name kind =>
    obtain rfl := equal_placeholder_iff.1 h
    exact whole h
  | binary o l r =>
    obtain ⟨l', r', rfl, -, -⟩ := equal_binary_iff.1 h
    exact whole h
  | variadic o as =>
    obtain ⟨bs, rfl, -, -⟩ := equal_variadic_iff.1 h
    by_cases same : o = op
    · subst same
      simp only [Standard.splice, if_true]
      exact (equal_variadic_iff_equalOperands (isDefined_variadic.1 ha)
        (isDefined_variadic.1 hb)).1 h
    · simp only [Standard.splice, if_neg same]
      exact whole h

/-- Two operations are equal up to associativity exactly if they contribute equal operands. -/
theorem equal_flattened_variadic_iff (has : ∀ a ∈ as, a.isDefined) (hbs : ∀ b ∈ bs, b.isDefined) :
    equal (variadic op as).flattened (variadic op bs).flattened ↔
      EqualOperands (contribution op (variadic op as)) (contribution op (variadic op bs)) := by
  have defined : ∀ {ts : List Term}, (∀ t ∈ ts, t.isDefined) →
      ∀ u ∈ flattenedOperands op ts, u.isDefined := by
    intro ts hts u mem
    have whole : (variadic op ts).isDefined := isDefined_variadic.2 hts
    have := isDefined_flattened whole
    rw [flattened, isDefined_variadic] at this
    exact this u mem
  rw [flattened, flattened, equal_variadic_iff_equalOperands (defined has) (defined hbs),
    contribution_variadic, contribution_variadic, coe_flattenedOperands, coe_flattenedOperands]

/-- Terms that are equal up to associativity contribute equal operands to any operation. -/
theorem equalOperands_contribution (op : Variadic) (ha : a.isDefined) (hb : b.isDefined)
    (h : equal a.flattened b.flattened) :
    EqualOperands (contribution op a) (contribution op b) :=
  equalOperands_splice (isDefined_flattened ha) (isDefined_flattened hb) h

/-- Equal terms have equal flat forms. -/
theorem equal_flattened (ha : a.isDefined) (hb : b.isDefined) (h : equal a b) :
    equal a.flattened b.flattened := by
  induction a using Term.induction generalizing b with
  | constant value =>
    obtain ⟨value', rfl, -⟩ := equal_constant_iff.1 h
    exact h
  | var name =>
    obtain rfl := equal_var_iff.1 h
    exact h
  | placeholder name kind =>
    obtain rfl := equal_placeholder_iff.1 h
    exact h
  | binary op l r ihl ihr =>
    obtain ⟨l', r', rfl, left, right⟩ := equal_binary_iff.1 h
    obtain ⟨hl, hr⟩ := isDefined_binary.1 ha
    obtain ⟨hl', hr'⟩ := isDefined_binary.1 hb
    exact equal_binary_iff.2 ⟨_, _, rfl, ihl hl hl' left, ihr hr hr' right⟩
  | variadic op as ih =>
    obtain ⟨bs, rfl, -, -⟩ := equal_variadic_iff.1 h
    rw [isDefined_variadic] at ha hb
    have operands := (equal_variadic_iff_equalOperands ha hb).1 h
    rw [equal_flattened_variadic_iff ha hb, contribution_variadic, contribution_variadic]
    -- operands that are paired with each other are operands of the two terms
    let paired : Term → Term → Prop := fun a b => a ∈ as ∧ b ∈ bs ∧ equal a b
    have pairs : Multiset.Rel paired as bs := operands.mono fun a memA b memB h => ⟨memA, memB, h⟩
    refine Multiset.rel_bind (r := paired) ?_ pairs
    rintro a b ⟨memA, memB, h⟩
    exact equalOperands_contribution op (ha a memA) (hb b memB)
      (ih a memA (ha a memA) (hb b memB) h)

end Flattening

end Term

end InequalityChaining

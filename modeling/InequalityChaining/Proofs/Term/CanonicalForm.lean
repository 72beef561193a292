import InequalityChaining.Proofs.Reading.Desugaring
import InequalityChaining.Proofs.Term.OrderLaws

/-!
# Canonical forms

Sorting the operands from the leaves upwards leaves a term in which every list of operands is
sorted, since the order of terms that are in canonical form is their order position by position.
Sorting again changes nothing, so a term ties with its canonical form, and equal terms have
canonical forms that tie. Where all constants are defined, such a tie is one at every node.

## Main results

* `Term.canonical_canonical` — a canonical form is its own canonical form
* `Term.orderByPosition_eq_eq_iff` — the terms that tie position by position are alike
* `Term.canonical_laws` — equal terms have canonical forms that are alike
-/

namespace InequalityChaining

namespace Term

variable {a b : Term}

/-! ### Sorting again -/

/-- The operands of a canonical form ascend position by position. -/
theorem pairwise_canonical_sort (as : List Term) :
    ((sort as).map canonical).Pairwise fun a b => (orderByPosition a b).isLE :=
  List.pairwise_map.2 (pairwise_sort as)

/-- Canonicalising a canonical form changes nothing. -/
theorem canonical_canonical (a : Term) : a.canonical.canonical = a.canonical := by
  induction a using Term.induction with
  | constant value => rfl
  | var name => rfl
  | placeholder name kind => rfl
  | variadic op as ih =>
    have members : ((sort as).map canonical).map canonical = (sort as).map canonical := by
      rw [List.map_map]
      refine List.map_congr_left fun a mem => ih a ?_
      exact (List.mergeSort_perm as _).mem_iff.1 mem
    rw [canonical_variadic, canonical, canonicalAll_eq_map, members,
      List.mergeSort_of_pairwise (pairwise_canonical_sort as)]
  | binary op left right ihLeft ihRight => rw [canonical, canonical, ihLeft, ihRight]

/-! ### Ties position by position -/

theorem isDefined_canonical (h : a.isDefined) : a.canonical.isDefined := by
  induction a using Term.induction with
  | constant value => exact h
  | var name => rfl
  | placeholder name kind => rfl
  | variadic op as ih =>
    rw [canonical_variadic, isDefined_variadic, List.forall_mem_map]
    intro a mem
    have member : a ∈ as := (List.mergeSort_perm as _).mem_iff.1 mem
    exact ih a member (isDefined_variadic.1 h a member)
  | binary op left right ihLeft ihRight =>
    obtain ⟨hLeft, hRight⟩ := isDefined_binary.1 h
    exact isDefined_binary.2 ⟨ihLeft hLeft, ihRight hRight⟩

/-- Lists are related one by one in two ways if the entries of the first one are. -/
theorem forall₂_congr_of_mem {r s : Term → Term → Prop} {as bs : List Term}
    (h : ∀ a ∈ as, ∀ b, r a b ↔ s a b) : List.Forall₂ r as bs ↔ List.Forall₂ s as bs := by
  rw [List.forall₂_iff_zip, List.forall₂_iff_zip]
  refine and_congr_right fun _ => ⟨fun related a b mem => ?_, fun related a b mem => ?_⟩
  · exact (h a (List.of_mem_zip mem).1 b).1 (related mem)
  · exact (h a (List.of_mem_zip mem).1 b).2 (related mem)

/-- Terms that are alike are of the same kind. -/
theorem rank_eq_of_alike (h : a.alike b) : a.rank = b.rank := by
  cases a with
  | variadic op as =>
    cases b with
    | variadic op' bs =>
      obtain ⟨rfl, -⟩ : op = op' ∧ _ := by simpa [alike] using h
      cases op <;> rfl
    | _ => simp [alike] at h
  | binary op a₁ a₂ =>
    cases b with
    | binary op' b₁ b₂ =>
      obtain ⟨⟨rfl, -⟩, -⟩ : (op = op' ∧ _) ∧ _ := by simpa [alike] using h
      cases op <;> rfl
    | _ => simp [alike] at h
  | _ => cases b <;> first | rfl | simp [alike] at h

/-- Terms of which one has no undefined constants tie position by position if they are the same
node by node, constants up to their form. -/
theorem orderByPosition_eq_eq_iff (h : a.isDefined) : orderByPosition a b = .eq ↔ a.alike b := by
  -- only terms of the same kind have to be looked at
  have ofKind : ∀ {a b : Term}, (SameKind a b → (orderParts a b = .eq ↔ a.alike b)) →
      (orderByPosition a b = .eq ↔ a.alike b) := by
    intro a b parts
    rw [orderByPosition_eq_then]
    exact rank_then_eq_eq_iff rank_eq_of_alike parts
  induction a using Term.induction generalizing b with
  | constant v =>
    refine ofKind fun kind => ?_
    cases kind with
    | constants v w =>
      rw [alike]
      exact (Number.beq_iff_order (by simpa using h)).symm
  | var m =>
    refine ofKind fun kind => ?_
    cases kind with
    | vars m n => simp [orderParts, alike]
  | placeholder m k =>
    refine ofKind fun kind => ?_
    cases kind with
    | placeholders m n k l =>
      have kinds : k.rank = l.rank ↔ k = l := by cases k <;> cases l <;> decide
      simp [orderParts, alike, Ordering.then_eq_eq, kinds]
  | variadic op as ih =>
    refine ofKind fun kind => ?_
    cases kind with
    | variadics op as bs =>
      rw [orderParts, orderOperands_eq_compareLex, compareLex_eq_eq_iff, alike, beq_self_eq_true,
        Bool.true_and, alikeAll_iff]
      exact forall₂_congr_of_mem fun a mem b => ih a mem (isDefined_variadic.1 h a mem)
  | binary op a₁ a₂ ih₁ ih₂ =>
    refine ofKind fun kind => ?_
    cases kind with
    | binaries op a₁ a₂ b₁ b₂ =>
      obtain ⟨h₁, h₂⟩ := isDefined_binary.1 h
      rw [orderParts, Ordering.then_eq_eq, alike, beq_self_eq_true, Bool.true_and,
        Bool.and_eq_true]
      exact and_congr (ih₁ h₁) (ih₂ h₂)

/-! ### Equality -/

theorem order_canonical_left (a b : Term) : a.canonical.order b = a.order b := by
  rw [order, canonical_canonical, order]

/-- Where all constants are defined, terms are equal exactly if their canonical forms are the same
node by node, with constants compared as numbers. A term without undefined constants is equal to
its canonical form, and a canonical form is its own. -/
theorem canonical_laws :
    (∀ a b : Term, a.isDefined → b.isDefined → (a == b ↔ a.canonical.alike b.canonical)) ∧
    (∀ a : Term, a.isDefined → a.canonical == a) ∧
    (∀ a : Term, a.canonical.canonical = a.canonical) := by
  refine ⟨fun a b ha hb => ?_, fun a ha => ?_, canonical_canonical⟩
  · calc a == b ↔ a.order b = .eq := (order_eq_eq_iff ha hb).symm
      _ ↔ a.canonical.alike b.canonical := orderByPosition_eq_eq_iff (isDefined_canonical ha)
  · refine (order_eq_eq_iff (isDefined_canonical ha) ha).1 ?_
    rw [order_canonical_left]
    exact Std.ReflCmp.compare_self

/-- A sum in a product, with the operands of both in another order and a constant in another form,
has a canonical form that is alike; with one operand twice instead of another, it has not. -/
theorem canonical_laws_nested :
    let a := product [sum [var "y", int 2, var "x"], var "z"]
    let b := product [var "z", sum [constant (.real (2.0 : Float)), var "y", var "x"]]
    let c := product [var "z", sum [int 2, var "x", var "x"]]
    a.isDefined ∧ b.isDefined ∧ c.isDefined ∧ a.canonical.alike b.canonical ∧
      ¬ a.canonical.alike c.canonical ∧ a.canonical == a ∧
      a.canonical.canonical = a.canonical := by
  intro a b c
  have definedLeft : a.isDefined := by decide +kernel
  have definedRight : b.isDefined := by decide +kernel
  have definedOther : c.isDefined := by decide +kernel
  have same : a == b := by decide +kernel
  have notSame : ¬ a == c := by decide +kernel
  obtain ⟨alike, equal, again⟩ := canonical_laws
  refine ⟨definedLeft, definedRight, definedOther, (alike a b definedLeft definedRight).1 same,
    fun h => notSame ((alike a c definedLeft definedOther).2 h),
    equal a definedLeft, again a⟩

end Term

end InequalityChaining

import Mathlib.Data.Fintype.Basic
import Mathlib.Logic.Equiv.Fin.Basic
import InequalityChaining.Proofs.Term.Counting
import InequalityChaining.Proposition.Basic
import InequalityChaining.Term.Order

/-!
# Equality as rearrangement

Equality of terms is an equivalence relation that looks at the order of operands nowhere but in
operations on two terms: two sums or two products are equal exactly if their operands correspond
one to one, in whatever order, each to an equal one. Terms of different kinds are never equal.
Equality of propositions is an equivalence relation as well, because reading an equation backwards
twice leads back to it.

## Main definitions

* `Proposition.isDefined` — whether all constants of a proposition are defined

## Main results

* `rel_coe_iff_exists_equiv` — related multisets are those whose entries correspond one to one
* `Term.rank_eq_of_equal` — equal terms are of the same kind
* `beq_rearrangement` — the laws of equality, for terms and propositions
-/

namespace InequalityChaining

/-! ### Corresponding entries of two lists -/

section Correspondence

variable {α β : Type} {r : α → β → Prop}

/-- The positions of a list and of a permutation of it correspond. -/
theorem exists_equiv_of_perm {as bs : List α} (h : as.Perm bs) :
    ∃ σ : Fin as.length ≃ Fin bs.length, ∀ i, as.get i = bs.get (σ i) := by
  induction h with
  | nil => exact ⟨Equiv.refl _, fun i => rfl⟩
  | @cons a as bs _ ih =>
    obtain ⟨σ, same⟩ := ih
    -- the new first positions correspond, all others do as they did
    refine ⟨(finSuccEquiv _).trans ((Equiv.optionCongr σ).trans (finSuccEquiv _).symm), ?_⟩
    refine Fin.cases ?_ fun i => ?_
    · simp
    · simpa using same i
  | swap a b as =>
    refine ⟨Equiv.swap 0 1, Fin.cases ?_ (Fin.cases ?_ fun i => ?_)⟩
    · simp
    · simp
    · rw [Equiv.swap_apply_of_ne_of_ne (Fin.succ_ne_zero _) (by simp [Fin.ext_iff])]
      rfl
  | trans _ _ ih ih' =>
    obtain ⟨σ, same⟩ := ih
    obtain ⟨τ, same'⟩ := ih'
    exact ⟨σ.trans τ, fun i => (same i).trans (same' (σ i))⟩

/-- The entries of related multisets are related position by position, once those of one of them
are put in the right order. -/
theorem exists_perm_of_rel_coe {as : List α} {bs : List β} (h : Multiset.Rel r as bs) :
    ∃ cs, List.Forall₂ r as cs ∧ cs.Perm bs := by
  induction as generalizing bs with
  | nil =>
    obtain rfl : bs = [] := by simpa using Multiset.rel_zero_left.1 h
    exact ⟨[], .nil, .nil⟩
  | cons a as ih =>
    rw [← Multiset.cons_coe] at h
    obtain ⟨b, rest, hab, hrest, split⟩ := Multiset.rel_cons_left.1 h
    obtain ⟨bs', rfl⟩ := Quotient.exists_rep rest
    obtain ⟨cs, related, perm⟩ := ih hrest
    exact ⟨b :: cs, .cons hab related, (perm.cons b).trans (Multiset.coe_eq_coe.1 split).symm⟩

/-- Two lists are related as multisets exactly if their positions correspond one to one so that
the entries at corresponding positions are related. -/
theorem rel_coe_iff_exists_equiv {as : List α} {bs : List β} :
    Multiset.Rel r as bs ↔
      ∃ σ : Fin as.length ≃ Fin bs.length, ∀ i, r (as.get i) (bs.get (σ i)) := by
  constructor
  · intro h
    obtain ⟨cs, related, perm⟩ := exists_perm_of_rel_coe h
    obtain ⟨σ, same⟩ := exists_equiv_of_perm perm
    refine ⟨(finCongr related.length_eq).trans σ, fun i => ?_⟩
    rw [Equiv.trans_apply, ← same]
    exact related.get i.isLt (related.length_eq ▸ i.isLt)
  · rintro ⟨σ, related⟩
    -- both lists run over the positions of the first one
    have entries : ∀ {γ : Type} (cs : List γ), (cs : Multiset γ) = Finset.univ.val.map cs.get := by
      intro γ cs
      rw [Fin.univ_val_map, List.ofFn_get]
    rw [entries as, entries bs, ← Multiset.map_univ_val_equiv σ, Multiset.map_map, Multiset.rel_map]
    exact Multiset.rel_refl_of_refl_on fun i _ => related i

end Correspondence

/-! ### Terms -/

namespace Term

/-- Equal terms are of the same kind: the same sort of atom or the same operation. -/
theorem rank_eq_of_equal {t u : Term} (h : equal t u) : t.rank = u.rank := by
  cases t with
  | constant value =>
    obtain ⟨value', rfl, -⟩ := equal_constant_iff.1 h
    rfl
  | var name => rw [equal_var_iff.1 h]
  | placeholder name kind => rw [equal_placeholder_iff.1 h]
  | variadic op ts =>
    obtain ⟨us, rfl, -, -⟩ := equal_variadic_iff.1 h
    cases op <;> rfl
  | binary op l r =>
    obtain ⟨l', r', rfl, -, -⟩ := equal_binary_iff.1 h
    cases op <;> rfl

theorem equal_binary_binary {op : Binary} {l r l' r' : Term} :
    equal (binary op l r) (binary op l' r') ↔ equal l l' ∧ equal r r' := by
  simp [equal]

end Term

/-! ### Propositions -/

namespace Proposition

/-- Whether all constants on both sides are defined. -/
def isDefined (p : Proposition) : Bool := p.lhs.isDefined && p.rhs.isDefined

section Laws

variable {p q : Proposition}

/-- Propositions are equal if their sides are, in this order, or for equations in the other. -/
theorem beq_iff_sides :
    p == q ↔ p.relation = q.relation ∧ ((p.lhs == q.lhs ∧ p.rhs == q.rhs) ∨
      (p.relation = .equals ∧ p.lhs == q.rhs ∧ p.rhs == q.lhs)) := by
  change p.equal q = true ↔ _
  rw [equal]
  split
  · next equation equation' => simp [equation, equation']
  · next inequality inequality' => simp [inequality, inequality']
  · next notEquations notInequalities =>
    -- the relations differ
    have different : p.relation ≠ q.relation := by
      intro same
      cases relation : p.relation with
      | equals => exact notEquations relation (same ▸ relation)
      | atMost => exact notInequalities relation (same ▸ relation)
    simp [different]

/-- Equality of propositions is an equivalence relation where equality of their sides is one. -/
theorem isEquivalenceOn_beq :
    IsEquivalenceOn (fun p : Proposition => p.isDefined = true) fun p q => p == q := by
  have laws := Term.isEquivalenceOn_equal
  simp only [isDefined, Bool.and_eq_true]
  refine ⟨fun h => ?_, fun ha hb h => ?_, fun ha hb hc hab hbc => ?_⟩
  · exact beq_iff_sides.2 ⟨rfl, .inl ⟨laws.refl h.1, laws.refl h.2⟩⟩
  · obtain ⟨relation, ⟨left, right⟩ | ⟨equation, left, right⟩⟩ := beq_iff_sides.1 h
    · exact beq_iff_sides.2 ⟨relation.symm,
        .inl ⟨laws.symm ha.1 hb.1 left, laws.symm ha.2 hb.2 right⟩⟩
    · exact beq_iff_sides.2 ⟨relation.symm,
        .inr ⟨relation ▸ equation, laws.symm ha.2 hb.1 right, laws.symm ha.1 hb.2 left⟩⟩
  · obtain ⟨relation, sides⟩ := beq_iff_sides.1 hab
    obtain ⟨relation', sides'⟩ := beq_iff_sides.1 hbc
    refine beq_iff_sides.2 ⟨relation.trans relation', ?_⟩
    -- two changes of direction cancel out
    rcases sides with ⟨left, right⟩ | ⟨equation, left, right⟩ <;>
      rcases sides' with ⟨left', right'⟩ | ⟨equation', left', right'⟩
    · exact .inl ⟨laws.trans ha.1 hb.1 hc.1 left left', laws.trans ha.2 hb.2 hc.2 right right'⟩
    · exact .inr ⟨relation.trans equation', laws.trans ha.1 hb.1 hc.2 left left',
        laws.trans ha.2 hb.2 hc.1 right right'⟩
    · exact .inr ⟨equation, laws.trans ha.1 hb.2 hc.2 left right',
        laws.trans ha.2 hb.1 hc.1 right left'⟩
    · exact .inl ⟨laws.trans ha.1 hb.2 hc.1 left right',
        laws.trans ha.2 hb.1 hc.2 right left'⟩

end Laws

end Proposition

/-! ### The theorem -/

open Term in
/-- Equality is an equivalence relation on terms and on propositions without undefined constants.
Sums and products are equal exactly if counting their operands with equality gives the same tally
and exactly if these correspond one to one, each to an equal one; operations on two terms are
compared operand by operand, terms of different kinds are not equal, and the sides of equations may
be swapped while those of inequalities may not. -/
theorem beq_rearrangement :
    IsEquivalenceOn (fun t : Term => t.isDefined = true) (fun t u => t == u) ∧
    (∀ (op : Variadic) (ts us : List Term), (∀ t ∈ ts, t.isDefined) → (∀ u ∈ us, u.isDefined) →
      (variadic op ts == variadic op us) = Tally.agree (fun t u => t == u) ts us ∧
      (variadic op ts == variadic op us ↔
        ∃ σ : Fin ts.length ≃ Fin us.length, ∀ i, ts.get i == us.get (σ i))) ∧
    (∀ (op : Binary) (l r l' r' : Term),
      binary op l r == binary op l' r' ↔ l == l' ∧ r == r') ∧
    (∀ t u : Term, t.rank ≠ u.rank → ¬ t == u) ∧
    IsEquivalenceOn (fun p : Proposition => p.isDefined = true) (fun p q => p == q) ∧
    (∀ p q : Proposition, p == q ↔ p.relation = q.relation ∧
      ((p.lhs == q.lhs ∧ p.rhs == q.rhs) ∨
        (p.relation = .equals ∧ p.lhs == q.rhs ∧ p.rhs == q.lhs))) := by
  refine ⟨isEquivalenceOn_equal, fun op ts us hts hus => ?_, fun op l r l' r' => ?_,
    fun t u different same => ?_, Proposition.isEquivalenceOn_beq,
    fun p q => Proposition.beq_iff_sides⟩
  · exact ⟨equal_variadic_eq_agree hts hus,
      (equal_variadic_iff_equalOperands hts hus).trans rel_coe_iff_exists_equiv⟩
  · exact equal_binary_binary
  · exact different (rank_eq_of_equal same)

open Term in
/-- The integer two and the real two are equal operands, and each of the two lists holds both. -/
theorem beq_rearrangement_equal_constants :
    let two := constant (.real (2.0 : Float))
    let ts := [var "x", int 2, power (var "y") two]
    let us := [power (var "y") (int 2), two, var "x"]
    (∀ t ∈ ts, t.isDefined) ∧ (∀ u ∈ us, u.isDefined) ∧ sum ts == sum us ∧ sum us == sum ts ∧
      (∃ σ : Fin ts.length ≃ Fin us.length, ∀ i, ts.get i == us.get (σ i)) ∧
      ¬ sum ts == product ts ∧
      Proposition.equals (sum ts) (int 0) == .equals (int 0) (sum us) := by
  intro two ts us
  have definedLeft : ∀ t ∈ ts, t.isDefined := by decide +kernel
  have definedRight : ∀ u ∈ us, u.isDefined := by decide +kernel
  have same : sum ts == sum us := by decide +kernel
  obtain ⟨laws, operands, -, kinds, laws', -⟩ := beq_rearrangement
  refine ⟨definedLeft, definedRight, same, ?_, ?_, ?_, ?_⟩
  · exact laws.symm (isDefined_variadic.2 definedLeft) (isDefined_variadic.2 definedRight) same
  · exact (operands .sum ts us definedLeft definedRight).2.1 same
  · exact kinds _ _ (by decide)
  · exact laws'.symm (by decide +kernel) (by decide +kernel) (by decide +kernel)

end InequalityChaining

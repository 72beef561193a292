import Mathlib
import InequalityChaining.Proofs.Polynomial.Rearrangement

/-!
# Simplification of rearranged polynomials

Two equal bounded polynomials are simplified in lockstep. Since every standard rule respects
equality, in either direction, the first rule that applies is the same for both, and so is whether
any rule applies. A pass therefore changes both terms or neither of them. What it makes of them is
equal again, and bounded, so the next pass starts from equal terms, and the passes come to an end
at the same time.

## Main definitions

* `Agree` — outcomes that are equal terms, or none
* `passed?` — a pass over a term on which no rule fails

## Main results

* `agree_reduceRoot` — rules at the root of equal terms
* `rel_passed?` — passes over equal terms
* `equal_of_passes` — any number of passes over equal terms
* `simplify_respects_equality` — equal polynomials have equal normal forms
-/

namespace InequalityChaining

open Term Standard

/-! ### The first rule that applies -/

/-- Both computations succeed, with equal terms or with none. -/
def Agree (x y : Except DomainError (Option Term)) : Prop :=
  ∃ t? u?, x = .ok t? ∧ y = .ok u? ∧ Option.Rel (fun t u : Term => equal t u = true) t? u?

section Agreement

variable {t u v w : Term} {v? : Option Term} {ts us : List Term} {n m : ℕ}

/-- No rule fails on a bounded polynomial. -/
theorem exists_reduce?_eq_ok (bounded : t.IsBounded) {rule : ReductionRule} (mem : rule ∈ rules) :
    ∃ v?, rule.reduce? t = .ok v? := by
  have stated := stated_of_mem_rules bounded.polynomial.isGround mem
  cases result : rule.reduce? t with
  | error error =>
    rw [result] at stated
    exact absurd stated (not_fails_of_isBounded bounded)
  | ok v? => exact ⟨v?, rfl⟩

theorem agree_reduce? (boundedT : t.IsBounded) (boundedU : u.IsBounded) (h : equal t u)
    {rule : ReductionRule} (mem : rule ∈ rules) : Agree (rule.reduce? t) (rule.reduce? u) := by
  have respects := respectsEqual_of_mem_rules mem
  obtain ⟨v?, first⟩ := exists_reduce?_eq_ok boundedT mem
  obtain ⟨w?, second⟩ := exists_reduce?_eq_ok boundedU mem
  refine ⟨v?, w?, first, second, ?_⟩
  cases v? with
  | some v =>
    obtain ⟨w, second', same⟩ := respects t u v boundedT boundedU h first
    obtain rfl := Except.ok.inj (second.symm.trans second')
    exact .some same
  | none =>
    cases w? with
    | none => exact .none
    | some w =>
      -- the rule would apply to the first term as well
      obtain ⟨v, first', -⟩ := respects u t w boundedU boundedT (equal_symm h) second
      cases first.symm.trans first'

theorem agree_reduceRoot (boundedT : t.IsBounded) (boundedU : u.IsBounded) (h : equal t u) :
    Agree (reduceRoot rules t) (reduceRoot rules u) := by
  have tried : ∀ tail : List ReductionRule, (∀ rule ∈ tail, rule ∈ rules) →
      Agree (reduceRoot tail t) (reduceRoot tail u) := by
    intro tail standard
    induction tail with
    | nil => exact ⟨none, none, rfl, rfl, .none⟩
    | cons rule tail ih =>
      obtain ⟨v?, w?, first, second, same⟩ :=
        agree_reduce? boundedT boundedU h (standard rule List.mem_cons_self)
      rw [reduceRoot_cons, reduceRoot_cons, first, second]
      cases same with
      | none => exact ih fun rule mem => standard rule (List.mem_cons_of_mem _ mem)
      | some same => exact ⟨_, _, rfl, rfl, .some same⟩
  exact tried rules fun _ mem => mem

/-! ### Passes -/

/-- What a pass makes of a term, if it changes the term. -/
def passed? (t : Term) : Option Term := (reducePass rules t).toOption.join

theorem reducePass_eq_ok (bounded : t.IsBounded) : reducePass rules t = .ok (passed? t) := by
  rw [passed?]
  cases result : reducePass rules t with
  | error error => exact absurd result (reducePass_ne_error bounded error)
  | ok t? => cases t? <;> rfl

theorem passed?_eq (h : reducePass rules t = .ok v?) : passed? t = v? := by
  rw [passed?, h]
  cases v? <;> rfl

/-- A pass goes over the operands one by one. -/
theorem reduceOperands_eq_ok (h : ∀ t ∈ ts, reducePass rules t = .ok (passed? t)) :
    reduceOperands rules ts = .ok (if ts.any fun t => (passed? t).isSome then
      some (ts.map fun t => (passed? t).getD t) else none) := by
  induction ts with
  | nil =>
    rw [reduceOperands]
    rfl
  | cons t ts ih =>
    rw [reduceOperands_cons, h t List.mem_cons_self,
      ih fun u mem => h u (List.mem_cons_of_mem t mem), List.any_cons, List.map_cons]
    by_cases changed : (ts.any fun t => (passed? t).isSome) = true
    · rw [if_pos changed, changed]
      cases passed? t <;> rfl
    · rw [if_neg changed, Bool.eq_false_of_not_eq_true changed]
      -- the other operands are left as they are
      have unchanged : ts.map (fun t => (passed? t).getD t) = ts := by
        refine (List.map_congr_left fun u mem => ?_).trans (List.map_id ts)
        have : passed? u = none := by simpa using fun h => changed (List.any_eq_true.2 ⟨u, mem, h⟩)
        rw [this]
        rfl
      rw [unchanged]
      cases passed? t <;> rfl

theorem passed?_variadic {op : Variadic} (bounded : (variadic op ts).IsBounded)
    (root : reduceRoot rules (variadic op ts) = .ok none) :
    passed? (variadic op ts) = if ts.any fun t => (passed? t).isSome then
      some (variadic op (ts.map fun t => (passed? t).getD t)) else none := by
  refine passed?_eq ?_
  rw [reducePass_variadic root,
    reduceOperands_eq_ok fun t mem => reducePass_eq_ok (bounded.operand mem)]
  split <;> rfl

theorem passed?_binary {op : Binary} {l r : Term} (bounded : (binary op l r).IsBounded)
    (root : reduceRoot rules (binary op l r) = .ok none) :
    passed? (binary op l r) = if (passed? l).isSome || (passed? r).isSome then
      some (binary op ((passed? l).getD l) ((passed? r).getD r)) else none := by
  refine passed?_eq ?_
  rw [reducePass_binary root, reducePass_eq_ok (isBounded_left bounded),
    reducePass_eq_ok (isBounded_right bounded)]
  cases passed? l <;> cases passed? r <;> rfl

/-- Passes over equal terms do the same at the root, or nothing. -/
theorem rel_passed?_of_root (boundedT : t.IsBounded) (boundedU : u.IsBounded) (h : equal t u)
    (below : reduceRoot rules t = .ok none → reduceRoot rules u = .ok none →
      Option.Rel (fun t u : Term => equal t u = true) (passed? t) (passed? u)) :
    Option.Rel (fun t u : Term => equal t u = true) (passed? t) (passed? u) := by
  obtain ⟨v?, w?, first, second, same⟩ := agree_reduceRoot boundedT boundedU h
  cases same with
  | none => exact below first second
  | some same =>
    rw [passed?_eq (reducePass_of_root_some first), passed?_eq (reducePass_of_root_some second)]
    exact .some same

/-- Parts that agree after a pass. -/
theorem equal_getD_of_rel {t? u? : Option Term} (h : equal t u)
    (same : Option.Rel (fun t u : Term => equal t u = true) t? u?) :
    equal (t?.getD t) (u?.getD u) ∧ t?.isSome = u?.isSome := by
  cases same with
  | none => exact ⟨h, rfl⟩
  | some same => exact ⟨same, rfl⟩

/-- A pass changes equal terms to equal terms, or neither of them. -/
theorem rel_passed? (boundedT : t.IsBounded) (boundedU : u.IsBounded) (h : equal t u) :
    Option.Rel (fun t u : Term => equal t u = true) (passed? t) (passed? u) := by
  induction t using Term.induction generalizing u with
  | variadic op ts ih =>
    refine rel_passed?_of_root boundedT boundedU h fun rootT rootU => ?_
    cases equalAtRoot_of_equal h with
    | @variadic op _ us =>
      have pairs := equalOperands_of_equal (polynomialOver_variadic.1 boundedT.polynomial)
        (polynomialOver_variadic.1 boundedU.polynomial) h
      have parts : ∀ t ∈ ts, ∀ u ∈ us, equal t u →
          equal ((passed? t).getD t) ((passed? u).getD u) ∧
            (passed? t).isSome = (passed? u).isSome := fun t mem u mem' same =>
        equal_getD_of_rel same (ih t mem (boundedT.operand mem) (boundedU.operand mem') same)
      rw [passed?_variadic boundedT rootT, passed?_variadic boundedU rootU,
        any_eq_of_equalOperands pairs fun t mem u mem' same => (parts t mem u mem' same).2]
      split
      · refine .some (equal_variadic_of_equalOperands ?_)
        rw [EqualOperands, ← Multiset.map_coe, ← Multiset.map_coe, Multiset.rel_map]
        exact pairs.mono fun t mem u mem' same => (parts t mem u mem' same).1
      · exact .none
  | binary op l r ihl ihr =>
    refine rel_passed?_of_root boundedT boundedU h fun rootT rootU => ?_
    cases equalAtRoot_of_equal h with
    | @binary op _ _ l' r' left right =>
      obtain ⟨equalLeft, changedLeft⟩ := equal_getD_of_rel left
        (ihl (isBounded_left boundedT) (isBounded_left boundedU) left)
      obtain ⟨equalRight, changedRight⟩ := equal_getD_of_rel right
        (ihr (isBounded_right boundedT) (isBounded_right boundedU) right)
      rw [passed?_binary boundedT rootT, passed?_binary boundedU rootU, changedLeft, changedRight]
      split
      · exact .some (equal_binary_iff.2 ⟨_, _, rfl, equalLeft, equalRight⟩)
      · exact .none
  | _ =>
    -- nothing but the root can change
    refine rel_passed?_of_root boundedT boundedU h fun rootT rootU => ?_
    rw [passed?_eq (reducePass_of_atom rootT (by simp) (by simp))]
    cases equalAtRoot_of_equal h
    all_goals
      rw [passed?_eq (reducePass_of_atom rootU (by simp) (by simp))]
      exact .none

/-- Passes over equal terms end with equal terms. -/
theorem equal_of_passes (passesT : Passes rules n t v) (normalT : reducePass rules v = .ok none)
    (passesU : Passes rules m u w) (normalU : reducePass rules w = .ok none)
    (boundedT : t.IsBounded) (boundedU : u.IsBounded) (h : equal t u) : equal v w := by
  induction passesT generalizing m u with
  | refl t =>
    -- equal terms are changed by a pass both or not at all, so the runs have the same length
    have same := rel_passed? boundedT boundedU h
    rw [passed?_eq normalT] at same
    cases passesU with
    | refl u => exact h
    | head step _ =>
      rw [passed?_eq step] at same
      cases same
  | @head n t t' v step _ ih =>
    have same := rel_passed? boundedT boundedU h
    rw [passed?_eq step] at same
    cases passesU with
    | refl u =>
      rw [passed?_eq normalU] at same
      cases same
    | @head m u u' w step' rest =>
      rw [passed?_eq step'] at same
      cases same with
      | some same =>
        have bounded : ∀ {t t' : Term}, t.IsBounded → reducePass rules t = .ok (some t') →
            t'.IsBounded := by
          intro t t' bounded step
          have refines : Refines (fun _ => (0 : ℤ)) t t' :=
            refines_of_passes (.head step (.refl t')) bounded
          exact refines.isBounded bounded
        exact ih normalT rest (bounded boundedT step) (bounded boundedU step') same

/-- Simplification respects equality: whatever the order in which the operands of sums and products
are written, simplification of a polynomial with bounded magnitude and degree gives an equal
result. -/
theorem simplify_respects_equality (t u : Term) (polynomialT : IsPolynomial t)
    (polynomialU : IsPolynomial u) (h : t == u) (magnitude : t.magnitude ≤ 2 ^ 63 - 1)
    (degree : t.degree ≤ 2 ^ 32 - 1) :
    ∃ v w, ReductionTable.standard.simplify t = .ok v ∧
      ReductionTable.standard.simplify u = .ok w ∧ v == w := by
  have boundedT : t.IsBounded := ⟨polynomialT.polynomialOver, magnitude, degree⟩
  have boundedU := boundedT.of_equal polynomialU.polynomialOver h
  obtain ⟨v, n, passesT, normalT, simplifiedT⟩ := exists_simplify_eq_ok boundedT
  obtain ⟨w, m, passesU, normalU, simplifiedU⟩ := exists_simplify_eq_ok boundedU
  exact ⟨v, w, simplifiedT, simplifiedU,
    equal_of_passes passesT normalT passesU normalU boundedT boundedU h⟩

/-- Two orders of the operands of a sum and of a product in it, whose constants are folded. -/
theorem simplify_respects_equality_two_orders :
    let t := sum [product [int 2, power (var "x") (int 3), int 4],
      difference (var "y") (int 1), int 7]
    let u := sum [int 7, difference (var "y") (int 1),
      product [power (var "x") (int 3), int 4, int 2]]
    let v := difference (sum [product [int 8, power (var "x") (int 3)], var "y", int 7]) (int 1)
    let w := difference (sum [int 7, var "y", product [int 8, power (var "x") (int 3)]]) (int 1)
    IsPolynomial t ∧ IsPolynomial u ∧ (t == u) = true ∧ t ≠ u ∧ t.magnitude = 17 ∧ t.degree = 3 ∧
      ReductionTable.standard.simplify t = .ok v ∧
      ReductionTable.standard.simplify u = .ok w ∧ v ≠ w ∧ (v == w) = true := by
  intro t u v w
  have cube : IsPolynomial (power (var "x") (int 3)) := .power (.var "x") ⟨3, by decide, rfl⟩
  have shifted : IsPolynomial (difference (var "y") (int 1)) := .difference (.var "y") (.int 1)
  have polynomialT : IsPolynomial t := by
    refine .variadic .sum (List.forall_mem_cons.2 ⟨.variadic .product ?_, ?_⟩)
    · simpa using ⟨.int 2, cube, .int 4⟩
    · simpa using ⟨shifted, .int 7⟩
  have polynomialU : IsPolynomial u := by
    refine .variadic .sum (List.forall_mem_cons.2 ⟨.int 7, List.forall_mem_cons.2 ⟨shifted, ?_⟩⟩)
    rw [List.forall_mem_singleton]
    refine .variadic .product ?_
    simpa using ⟨cube, .int 4, .int 2⟩
  have same : t == u := by decide
  have magnitude : t.magnitude = 17 := by decide
  have degree : t.degree = 3 := by decide
  have resultT : ReductionTable.standard.simplify t = .ok v := by cbv
  have resultU : ReductionTable.standard.simplify u = .ok w := by cbv
  obtain ⟨v', w', simplifiedT, simplifiedU, equals⟩ :=
    simplify_respects_equality t u polynomialT polynomialU same (by omega) (by omega)
  obtain rfl := Except.ok.inj (simplifiedT.symm.trans resultT)
  obtain rfl := Except.ok.inj (simplifiedU.symm.trans resultU)
  exact ⟨polynomialT, polynomialU, same, by simp [t, u], magnitude, degree, resultT, resultU,
    by simp [v, w], equals⟩

end Agreement

end InequalityChaining

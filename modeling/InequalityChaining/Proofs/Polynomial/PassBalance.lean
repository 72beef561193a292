import InequalityChaining.Proofs.Polynomial.Pass

/-!
# Passes keep balances

What a product of fixed value exposes is found by following its passes. With this the entry of every
product is kept, so that a pass keeps the balance of every term without powers, and the entry of
every term that is no offset. Both carry over to whole simplifications.

## Main definitions

* `exposed` — what is added and subtracted with a product that comes to be a difference
* `StaysIntegral` — no fold on the way to the normal form leaves the integers of 64 bits
* `Keeps` — what simplification keeps

## Main results

* `balance_eq_of_pass`, `entry_eq_of_pass` — what a pass keeps
* `keeps_of_passes` — what any number of passes keeps
* `staysIntegral_of_isBounded` — a bounded magnitude is enough for integers to stay integers
-/

namespace InequalityChaining

open Balance Term Standard

/-- With every product that a pass changes, as much is added and subtracted as with the result. -/
def FollowsPasses (shift : Term → ℤ) : Prop :=
  ∀ ts u, IsPowerFree (product ts) → reducePass rules (product ts) = .ok (some u) →
    shift (product ts) = (entry shift u).2.2

section Kept

variable {shift : Term → ℤ} {t u : Term} {ts : List Term}

theorem entry_of_product_pass (follows : FollowsPasses shift) (powerFree : IsPowerFree (product ts))
    (pass : reducePass rules (product ts) = .ok (some u))
    (same : balance shift u = balance shift (product ts)) :
    entry shift u = entry shift (product ts) := by
  rw [entry_product, follows ts u powerFree pass, ← balance_product, ← same, balance,
    widen_collapse]

/-- A pass keeps the balance, and it keeps the entry of whatever is not a difference. Differences
that are operands of sums and differences are not passed over, because a rule applies there. -/
theorem balance_and_entry_of_pass (follows : FollowsPasses shift) (h : PolynomialPass t u)
    (powerFree : IsPowerFree t) : balance shift u = balance shift t ∧
      (t.operator? ≠ some (.binary .difference) → entry shift u = entry shift t) := by
  induction h with
  | unchanged t => exact ⟨rfl, fun _ => rfl⟩
  | @rule t u pass step =>
    have same := balance_of_step shift step powerFree
    refine ⟨same, fun other => ?_⟩
    cases powerFree with
    | int i => cases step
    | var name => cases step
    | variadic op operands =>
      cases op with
      | sum => exact entry_of_sum_step step (.variadic .sum operands)
      | product => exact entry_of_product_pass follows (.variadic .product operands) pass same
    | difference => exact absurd rfl other
    | power _ impossible => exact impossible.elim
  | @variadic op ts pass root _ ih =>
    have operands := polynomialOver_variadic.1 powerFree
    have shape := (reduceRoot_eq_none_iff_isNormalNode powerFree.polynomialOver.isGround).1 root
    cases op with
    | sum =>
      have same : entry shift (sum (ts.map afterPass)) = entry shift (sum ts) := by
        rw [entry_sum, entry_sum, List.map_map]
        refine congrArg List.sum (List.map_congr_left fun t mem => ?_)
        -- differences are taken out of a sum first, so that no operand is one
        exact (ih t mem (operands t mem)).2 (shape.2.2 t mem).2.1
      exact ⟨congrArg collapse same, fun _ => same⟩
    | product =>
      have same : balance shift (product (ts.map afterPass)) = balance shift (product ts) := by
        rw [balance_product, balance_product, Variadic.balanceOf, Variadic.balanceOf, List.map_map,
          List.map_map, List.map_map]
        refine congrArg (fun ms => ofMonomial (multiplied ms)) (List.map_congr_left fun t mem => ?_)
        have operand := (ih t mem (operands t mem)).1
        rw [Function.comp_apply, Function.comp_apply, Function.comp_apply, ← toMonomial_collapse,
          ← toMonomial_collapse (entry shift t)]
        exact congrArg toMonomial operand
      exact ⟨same, fun _ => entry_of_product_pass follows powerFree pass same⟩
  | @difference l r pass root _ _ ihl ihr =>
    obtain ⟨hl, hr⟩ := polynomialOver_difference.1 powerFree
    have shape := (reduceRoot_eq_none_iff_isNormalNode powerFree.polynomialOver.isGround).1 root
    have same : entry shift (difference (afterPass l) (afterPass r)) =
        entry shift (difference l r) := by
      rw [entry_difference, entry_difference, (ihl hl).2 shape.2.2.1, (ihr hr).2 shape.2.2.2]
    exact ⟨congrArg collapse same, fun other => absurd rfl other⟩

end Kept

/-! ### What comes to be taken out of a product -/

/-- What is added and subtracted with a product that comes to be a difference within a number of
passes. -/
noncomputable def exposedWithin : ℕ → Term → ℤ
  | 0, _ => 0
  | n + 1, t =>
    match passed? t with
    | some u => (entry (exposedWithin n) u).2.2
    | none => 0

/-- What is added and subtracted with a product that comes to be a difference. -/
noncomputable def exposed (t : Term) : ℤ := exposedWithin t.weight t

section Exposed

variable {t u : Term} {n m : ℕ}

theorem entry_congr {f g : Term → ℤ} (h : ∀ u ∈ t.subterms, f u = g u) : entry f t = entry g t := by
  induction t using Term.induction with
  | constant value => cases value <;> rfl
  | var name => rfl
  | placeholder name kind => rfl
  | variadic op ts ih =>
    have operands : ts.map (entry f) = ts.map (entry g) :=
      List.map_congr_left fun t mem =>
        ih t mem fun u part => h u (mem_subterms_variadic.2 (.inr ⟨t, mem, part⟩))
    cases op with
    | sum => rw [entry_sum, entry_sum, operands]
    | product => rw [entry_product, entry_product, operands, h _ (mem_subterms_self _)]
  | binary op l r ihl ihr =>
    cases op with
    | difference =>
      rw [entry_difference, entry_difference,
        ihl fun u part => h u (mem_subterms_binary.2 (.inr (.inl part))),
        ihr fun u part => h u (mem_subterms_binary.2 (.inr (.inr part)))]
    | _ => rfl

theorem exposedWithin_succ_of_some (h : reducePass rules t = .ok (some u)) (n : ℕ) :
    exposedWithin (n + 1) t = (entry (exposedWithin n) u).2.2 := by
  rw [exposedWithin, passed?_eq h]

/-- More passes than a term can take make no difference. -/
theorem exposedWithin_eq (ground : t.isGround) (hn : t.weight ≤ n) (hm : t.weight ≤ m) :
    exposedWithin n t = exposedWithin m t := by
  have positive : 2 ≤ t.weight := two_le_weightAt _ _ t
  induction n generalizing m t with
  | zero => omega
  | succ n ih =>
    cases m with
    | zero => omega
    | succ m =>
      cases pass : passed? t with
      | none => rw [exposedWithin, exposedWithin, pass]
      | some u =>
        have pass := reducePass_of_passed?_eq_some pass
        have lighter := weight_lt_of_reducePass ground pass
        have groundNext := isGround_of_passes (.head pass (.refl u)) ground
        rw [exposedWithin_succ_of_some pass, exposedWithin_succ_of_some pass]
        -- the parts of what the pass gives are lighter than the term, so both numbers suffice
        refine congrArg (fun b : Balance => b.2.2) (entry_congr fun v part => ?_)
        have := weight_le_of_mem_subterms part
        exact ih (isGround_of_mem_subterms groundNext part) (by omega) (by omega)
          (two_le_weightAt _ _ v)

theorem followsPasses_exposed : FollowsPasses exposed := by
  intro ts u powerFree pass
  have ground := powerFree.polynomialOver.isGround
  have lighter := weight_lt_of_reducePass ground pass
  have groundNext := isGround_of_passes (.head pass (.refl u)) ground
  obtain ⟨n, weight⟩ : ∃ n, (product ts).weight = n + 1 := ⟨(product ts).weight - 1, by omega⟩
  rw [exposed, weight, exposedWithin_succ_of_some pass]
  refine congrArg (fun b : Balance => b.2.2) (entry_congr fun v part => ?_)
  have := weight_le_of_mem_subterms part
  exact exposedWithin_eq (isGround_of_mem_subterms groundNext part) (by omega) (Nat.le_refl _)

end Exposed

/-! ### Offset parts -/

section Offset

variable {t u : Term} {ts : List Term}

theorem balance_eq_of_pass (h : PolynomialPass t u) (powerFree : IsPowerFree t) :
    balance exposed u = balance exposed t :=
  (balance_and_entry_of_pass followsPasses_exposed h powerFree).1

theorem fixedValue?_eq_of_pass (h : PolynomialPass t u) (powerFree : IsPowerFree t) :
    u.fixedValue? = t.fixedValue? :=
  fixedValue?_eq_of_balance_eq powerFree (h.isPowerFree powerFree) (balance_eq_of_pass h powerFree)

/-- Passes leave nothing that may be taken apart where there was no such thing. -/
theorem isOffset_of_pass (h : PolynomialPass t u) (powerFree : IsPowerFree t)
    (offset : IsOffset u) : IsOffset t := by
  have fixed : t.isFixed := by
    rw [Term.isFixed, ← fixedValue?_eq_of_pass h powerFree]
    exact offset.isFixed
  induction h with
  | unchanged t => exact offset
  | rule _ step => exact isOffset_of_step step powerFree offset
  | @variadic op ts _ _ passes ih =>
    have operands := polynomialOver_variadic.1 powerFree
    have operand : ∀ t ∈ ts, IsOffset (afterPass t) → IsOffset t := by
      intro t mem offset
      refine ih t mem (operands t mem) offset ?_
      rw [Term.isFixed, ← fixedValue?_eq_of_pass (passes t mem) (operands t mem)]
      exact offset.isFixed
    cases op with
    | sum =>
      cases offset with
      | sum _ passed offset =>
        obtain ⟨t, mem, rfl⟩ := List.mem_map.1 passed
        exact .sum fixed mem (operand t mem offset)
    | product =>
      obtain ⟨before, u, after, split, offset, units⟩ := exists_append_of_isOffset offset
      obtain ⟨before, rest, rfl, rfl, passed⟩ := List.map_eq_append_iff.1 split
      obtain ⟨t, after, rfl, rfl, rfl⟩ := List.map_eq_cons_iff.1 passed
      refine isOffset_product_append (operand t (by simp) offset) fun v mem => ?_
      have factor : v ∈ before ++ t :: after := by
        rcases List.mem_append.1 mem with mem | mem <;> simp [mem]
      rw [HasUnitValue, ← fixedValue?_eq_of_pass (passes v factor) (operands v factor)]
      exact units _ (by rw [← List.map_append]; exact List.mem_map_of_mem mem)
  | difference => exact .difference fixed

/-- A pass keeps the entry of everything but a difference of fixed value. -/
theorem entry_eq_of_pass (h : PolynomialPass t u) (powerFree : IsPowerFree t)
    (firm : ¬ IsOffset t) : entry exposed u = entry exposed t := by
  obtain ⟨same, notDifference⟩ := balance_and_entry_of_pass followsPasses_exposed h powerFree
  by_cases fixed : t.isFixed
  · refine notDifference fun difference => ?_
    obtain ⟨l, r, rfl⟩ := exists_of_operator?_eq_binary difference
    exact firm (.difference fixed)
  · have varies := mt (isFixed_iff_isNumber exposed powerFree).2 fixed
    rw [balance, balance, collapse_of_not_isNumber varies] at same
    rwa [collapse_of_not_isNumber] at same
    rwa [← isNumber_collapse, same]

end Offset

/-! ### Whole simplifications -/

/-- No fold on the way to the normal form leaves the integers of 64 bits. -/
def StaysIntegral (t : Term) : Prop := ∀ n u, Passes rules n t u → u.FoldsToIntegers

section Runs

variable {t u : Term} {n : ℕ}

theorem StaysIntegral.now (h : StaysIntegral t) : t.FoldsToIntegers := h 0 t (.refl t)

theorem StaysIntegral.afterPass (h : StaysIntegral t) (pass : reducePass rules t = .ok (some u)) :
    StaysIntegral u :=
  fun n v passes => h (n + 1) v (.head pass passes)

theorem StaysIntegral.polynomialPass (h : StaysIntegral t) (powerFree : IsPowerFree t)
    (pass : reducePass rules t = .ok (some u)) : PolynomialPass t u := by
  rw [← afterPass_of_some pass]
  exact polynomialPass_of_reducePass powerFree h.now (by rw [passed?_eq pass, pass])

/-- What simplification keeps of a term without powers: there are no powers, and the balance stays,
and so does the entry of a term that is no offset. -/
structure Keeps (t u : Term) : Prop where
  powerFree : IsPowerFree u
  balance : balance exposed u = balance exposed t
  entry : ¬ IsOffset t → entry exposed u = entry exposed t

theorem keeps_of_passes (passes : Passes rules n t u) (powerFree : IsPowerFree t)
    (integral : StaysIntegral t) : Keeps t u := by
  induction passes with
  | refl t => exact ⟨powerFree, rfl, fun _ => rfl⟩
  | head pass _ ih =>
    have step := integral.polynomialPass powerFree pass
    have rest := ih (step.isPowerFree powerFree) (integral.afterPass pass)
    refine ⟨rest.powerFree, rest.balance.trans (balance_eq_of_pass step powerFree), fun firm => ?_⟩
    rw [rest.entry (mt (isOffset_of_pass step powerFree) firm),
      entry_eq_of_pass step powerFree firm]

/-- A bounded polynomial stays among the integers. -/
theorem staysIntegral_of_isBounded (bounded : t.IsBounded) : StaysIntegral t := by
  intro n u passes v part constants isPart
  have refines : Refines (fun _ => (0 : ℤ)) t u := refines_of_passes passes bounded
  have boundedPart := (refines.isBounded bounded).subterm part
  cases v with
  | variadic op ts =>
    obtain ⟨-, same⟩ := Option.ite_none_right_eq_some.1 isPart
    obtain rfl := Option.some.inj same
    obtain ⟨i, value, -⟩ := evaluatesExactly_filter boundedPart
    exact ⟨i, value⟩
  | binary op l r =>
    obtain ⟨isConstant, same⟩ := Option.ite_none_right_eq_some.1 isPart
    obtain rfl := Option.some.inj same
    obtain ⟨i, value, -⟩ := boundedPart.evaluatesExactly (isConstant_binary.2 isConstant)
    exact ⟨i, value⟩
  | _ => cases isPart

/-- Where no fold leaves the integers, simplification ends in a normal form. -/
theorem exists_simplify_of_staysIntegral (powerFree : IsPowerFree t) (integral : StaysIntegral t) :
    ∃ u n, Passes rules n t u ∧ reducePass rules u = .ok none ∧
      ReductionTable.standard.simplify t = .ok u := by
  obtain ⟨n, within, u, passes, -, ending⟩ := exists_passes powerFree.polynomialOver.isGround
  obtain ⟨normal, result⟩ | ⟨error, fails, -⟩ := simplify_of_ending passes within ending
  · exact ⟨u, n, passes, normal, result⟩
  · have last := (keeps_of_passes passes powerFree integral).powerFree
    have noError := reducePass_ne_error_of_foldsToIntegers last (integral n u passes)
    exact absurd fails (noError error)

end Runs

end InequalityChaining

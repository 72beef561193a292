import InequalityChaining.Proofs.Polynomial.EntryStep
import InequalityChaining.Proofs.Polynomial.Lockstep

/-!
# Passes over polynomials without powers

As long as integers stay integers, a pass does one of a few things: it leaves the term as it is, it
applies a rule at the root, or it passes over the operands of an operation at whose root no rule
applies.

## Main definitions

* `Term.FoldsToIntegers` — whatever constants can be folded, the result is an integer of 64 bits
* `PolynomialPass` — what a pass does

## Main results

* `polynomialPass_of_reducePass` — every pass is one of those
* `reducePass_ne_error_of_foldsToIntegers` — no pass fails
-/

namespace InequalityChaining

open Balance Term Standard

/-! ### What a pass does -/

/-- The term after a pass, which may have left it as it is. -/
def afterPass (t : Term) : Term := (passed? t).getD t

/-- The constants at the root of the term that a rule may evaluate. -/
def Term.constantPart? : Term → Option Term
  | variadic op ts =>
    if 2 ≤ (ts.filter isConstantNode).length then some (variadic op (ts.filter isConstantNode))
    else none
  | binary op l r => if l.isConstant ∧ r.isConstant then some (binary op l r) else none
  | _ => none

/-- Wherever a rule may evaluate constants in the term, the result is an integer of 64 bits. -/
def Term.FoldsToIntegers (t : Term) : Prop :=
  ∀ u ∈ t.subterms, ∀ part, u.constantPart? = some part → ∃ i, part.evaluate = .ok (.int i)

/-- A pass over a polynomial applies a rule at the root, or it passes over the operands. -/
inductive PolynomialPass : Term → Term → Prop where
  | unchanged (t : Term) : PolynomialPass t t
  | rule {t u : Term} (pass : reducePass rules t = .ok (some u)) (step : PolynomialStep t u) :
      PolynomialPass t u
  | variadic {op : Variadic} {ts : List Term}
      (pass : reducePass rules (variadic op ts) = .ok (some (variadic op (ts.map afterPass))))
      (root : reduceRoot rules (variadic op ts) = .ok none)
      (operands : ∀ t ∈ ts, PolynomialPass t (afterPass t)) :
      PolynomialPass (variadic op ts) (variadic op (ts.map afterPass))
  | difference {l r : Term}
      (pass : reducePass rules (difference l r) =
        .ok (some (difference (afterPass l) (afterPass r))))
      (root : reduceRoot rules (difference l r) = .ok none)
      (left : PolynomialPass l (afterPass l)) (right : PolynomialPass r (afterPass r)) :
      PolynomialPass (difference l r) (difference (afterPass l) (afterPass r))

section Passes

variable {t u l r : Term} {ts us : List Term} {op : Variadic}

theorem afterPass_of_some (h : reducePass rules t = .ok (some u)) : afterPass t = u := by
  rw [afterPass, passed?_eq h]
  rfl

theorem reducePass_of_passed?_eq_some (h : passed? t = some u) :
    reducePass rules t = .ok (some u) := by
  rw [passed?] at h
  cases pass : reducePass rules t with
  | error error => simp [pass, Except.toOption] at h
  | ok v? =>
    rw [pass] at h
    exact congrArg Except.ok (by simpa [Except.toOption] using h)

/-- The parts of a polynomial without powers are of this kind. -/
theorem IsPowerFree.subterm (powerFree : IsPowerFree t) (mem : u ∈ t.subterms) : IsPowerFree u :=
  powerFree.of_mem_subterms (fun _ impossible => impossible.elim) mem

theorem Term.FoldsToIntegers.subterm (h : t.FoldsToIntegers) (mem : u ∈ t.subterms) :
    u.FoldsToIntegers := fun v part => h v (mem_subterms_trans part mem)

theorem constantPart?_variadic (two : 2 ≤ (ts.filter isConstantNode).length) :
    (variadic op ts).constantPart? = some (variadic op (ts.filter isConstantNode)) := if_pos two

theorem constantPart?_binary {op : Binary} (isConstant : (binary op l r).isConstant) :
    (binary op l r).constantPart? = some (binary op l r) := if_pos (isConstant_binary.1 isConstant)

/-- Where a fold gives an integer, it is exact. -/
theorem polynomialStep_of_foldsToIntegers (powerFree : IsPowerFree t)
    (integers : t.FoldsToIntegers) (h : Reduces t u) : PolynomialStep t u := by
  rcases polynomialStep_or_folds powerFree.polynomialOver h with step | folds
  · exact step
  cases folds with
  | @operands op ts us v two evaluated perm =>
    obtain ⟨i, value⟩ := integers _ (mem_subterms_self _) _ (constantPart?_variadic two)
    obtain rfl := Except.ok.inj (evaluated.symm.trans value)
    have constants : IsPowerFree (variadic op (ts.filter isConstantNode)) :=
      .variadic op fun t mem => polynomialOver_variadic.1 powerFree t (List.mem_filter.1 mem).1
    exact .fold op two (integerValue_of_evaluate constants evaluated) perm
  | @whole op l r v isConstant evaluated =>
    obtain ⟨i, value⟩ := integers _ (mem_subterms_self _) _ (constantPart?_binary isConstant)
    obtain rfl := Except.ok.inj (evaluated.symm.trans value)
    exact .foldBinary isConstant (integerValue_of_evaluate powerFree evaluated)

/-- Only a fold could fail where there are no quotients, powers and roots. -/
theorem reducePass_ne_error_of_foldsToIntegers (powerFree : IsPowerFree t)
    (integers : t.FoldsToIntegers) (error : DomainError) : reducePass rules t ≠ .error error := by
  intro h
  obtain ⟨u, mem, atRoot⟩ := exists_subterm_of_reducePass_eq_error h
  have powerFreePart := powerFree.subterm mem
  cases fails_of_reduceRoot powerFreePart.polynomialOver.isGround atRoot with
  | foldVariadic two fails =>
    obtain ⟨i, value⟩ := integers _ mem _ (constantPart?_variadic two)
    cases fails.symm.trans value
  | foldBinary hl hr fails =>
    obtain ⟨i, value⟩ := integers _ mem _ (constantPart?_binary (isConstant_binary.2 ⟨hl, hr⟩))
    cases fails.symm.trans value
  | divisionByZero => cases powerFreePart
  | zerothRoot => cases powerFreePart
  | zeroToTheZero => exact (polynomialOver_power.1 powerFreePart).2

/-- A pass over a list goes over all of its elements. -/
theorem reducePass_of_reduceOperands {us? : Option (List Term)}
    (h : reduceOperands rules ts = .ok us?) : ∀ t ∈ ts, reducePass rules t = .ok (passed? t) := by
  induction ts generalizing us? with
  | nil => simp
  | cons t ts ih =>
    rw [reduceOperands_cons, bind_eq_ok] at h
    obtain ⟨t?, first, h⟩ := h
    obtain ⟨ts?, rest, -⟩ := bind_eq_ok.1 h
    refine List.forall_mem_cons.2 ⟨?_, ih rest⟩
    rw [passed?_eq first, first]

theorem operands_of_reducePass (root : reduceRoot rules (variadic op ts) = .ok none)
    (h : reducePass rules (variadic op ts) = .ok (some u)) :
    u = variadic op (ts.map afterPass) ∧ ∀ t ∈ ts, reducePass rules t = .ok (passed? t) := by
  rw [reducePass_variadic root] at h
  obtain ⟨us?, pass, h⟩ := bind_eq_ok.1 h
  have operands := reducePass_of_reduceOperands pass
  rw [reduceOperands_eq_ok operands] at pass
  obtain rfl := Except.ok.inj pass
  refine ⟨?_, operands⟩
  rw [pure_eq_ok, Option.map_eq_some_iff] at h
  obtain ⟨us, passed, rfl⟩ := h
  split at passed
  · rw [← Option.some.inj passed]
    rfl
  · cases passed

theorem sides_of_reducePass {op : Binary} (root : reduceRoot rules (binary op l r) = .ok none)
    (h : reducePass rules (binary op l r) = .ok (some u)) :
    u = binary op (afterPass l) (afterPass r) ∧ reducePass rules l = .ok (passed? l) ∧
      reducePass rules r = .ok (passed? r) := by
  rw [reducePass_binary root] at h
  obtain ⟨l?, left, h⟩ := bind_eq_ok.1 h
  obtain ⟨r?, right, h⟩ := bind_eq_ok.1 h
  obtain rfl := passed?_eq left
  obtain rfl := passed?_eq right
  refine ⟨?_, left, right⟩
  rw [pure_eq_ok, Option.map_eq_some_iff] at h
  obtain ⟨parts, changed, rfl⟩ := h
  rw [changedParts] at changed
  split at changed
  · rw [← Option.some.inj changed]
    rfl
  · cases changed

/-- A pass does nothing, or it applies a rule at the root, or no rule applies there. -/
theorem polynomialPass_of_below (powerFree : IsPowerFree t) (integers : t.FoldsToIntegers)
    (h : reducePass rules t = .ok (passed? t))
    (below : ∀ u, reducePass rules t = .ok (some u) → reduceRoot rules t = .ok none →
      PolynomialPass t u) : PolynomialPass t (afterPass t) := by
  cases changed : passed? t with
  | none =>
    rw [afterPass, changed]
    exact .unchanged t
  | some u =>
    rw [changed] at h
    rw [afterPass_of_some h]
    rcases reduceRoot_of_reducePass h with root | root
    · have reduces := reduces_of_reduceRoot powerFree.polynomialOver.isGround root
      exact .rule h (polynomialStep_of_foldsToIntegers powerFree integers reduces)
    · exact below u h root

/-- Every pass over a term without powers is one of those stated, if integers stay integers. -/
theorem polynomialPass_of_reducePass (powerFree : IsPowerFree t) (integers : t.FoldsToIntegers)
    (h : reducePass rules t = .ok (passed? t)) : PolynomialPass t (afterPass t) := by
  induction powerFree with
  | @variadic op ts powerFree ih =>
    refine polynomialPass_of_below (.variadic op powerFree) integers h fun u pass root => ?_
    obtain ⟨rfl, operands⟩ := operands_of_reducePass root pass
    exact .variadic pass root fun t mem =>
      ih t mem (integers.subterm (mem_subterms_operand mem)) (operands t mem)
  | @difference l r hl hr ihl ihr =>
    refine polynomialPass_of_below (.difference hl hr) integers h fun u pass root => ?_
    obtain ⟨rfl, left, right⟩ := sides_of_reducePass root pass
    exact .difference pass root (ihl (integers.subterm mem_subterms_left) left)
      (ihr (integers.subterm mem_subterms_right) right)
  | power _ impossible => exact impossible.elim
  | int i =>
    refine polynomialPass_of_below (.int i) integers h fun u pass root => ?_
    rw [reducePass_of_atom root (by simp) (by simp)] at pass
    cases pass
  | var name =>
    refine polynomialPass_of_below (.var name) integers h fun u pass root => ?_
    rw [reducePass_of_atom root (by simp) (by simp)] at pass
    cases pass

/-- A pass leaves a term without powers. -/
theorem PolynomialPass.isPowerFree (h : PolynomialPass t u) (powerFree : IsPowerFree t) :
    IsPowerFree u := by
  induction h with
  | unchanged t => exact powerFree
  | rule _ step => exact step.isPowerFree powerFree
  | variadic _ _ _ ih =>
    refine polynomialOver_variadic.2 (List.forall_mem_map.2 fun t mem => ih t mem ?_)
    exact polynomialOver_variadic.1 powerFree t mem
  | difference _ _ _ _ ihl ihr =>
    obtain ⟨hl, hr⟩ := polynomialOver_difference.1 powerFree
    exact .difference (ihl hl) (ihr hr)

end Passes

end InequalityChaining

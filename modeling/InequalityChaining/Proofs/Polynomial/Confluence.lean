import Mathlib
import InequalityChaining.Proofs.Polynomial.NormalBalance
import InequalityChaining.Proofs.Polynomial.PassBalance

/-!
# Simplifying the operands first

A rule at the root of a term may take the term apart before the numbers in its operands are folded:
`(5-3)-x` becomes `5-(3+x)`, while `2-x` stays as it is. What is left of this when the operands are
simplified first is a matter of what the operands contribute. Passes keep the balance of a term, and
also its entry unless the term is an offset; the balance of an operation depends on the entries of
its operands; and normal forms with one balance are equal. So the order matters only where an offset
is an operand of a sum or of a difference that has no fixed value itself.

## Main definitions

* `OperandsRelated` — an operation with other operands

## Main results

* `balance_eq_of_operands` — operands that keep what they contribute keep the balance of the whole
* `equal_of_balance_eq` — normal forms with the same balance are equal
* `simplify_operands_first` — simplifying the operands first gives an equal result
* `simplify_operands_first_not_difference` — a difference of numbers as an operand of a difference
-/

namespace InequalityChaining

open Balance Term Standard

/-- An operation of the same kind, each operand of which is related to one of the first. -/
inductive OperandsRelated (related : Term → Term → Prop) : Term → Term → Prop where
  | variadic (op : Variadic) {ts us : List Term} (operands : List.Forall₂ related ts us) :
      OperandsRelated related (variadic op ts) (variadic op us)
  | binary (op : Binary) {l r l' r' : Term} (left : related l l') (right : related r r') :
      OperandsRelated related (binary op l r) (binary op l' r')

section Operands

variable {related related' : Term → Term → Prop} {t u : Term} {ts us : List Term}

theorem OperandsRelated.imp (h : OperandsRelated related t u)
    (imp : ∀ s ∈ t.operands, ∀ s', related s s' → related' s s') :
    OperandsRelated related' t u := by
  cases h with
  | variadic op operands =>
    refine .variadic op ?_
    induction operands with
    | nil => exact .nil
    | cons first _ ih =>
      exact .cons (imp _ List.mem_cons_self _ first)
        (ih fun s mem => imp s (List.mem_cons_of_mem _ mem))
  | binary op left right =>
    exact .binary op (imp _ (by simp [operands]) _ left) (imp _ (by simp [operands]) _ right)

theorem isPowerFree_of_mem_operands (powerFree : IsPowerFree t) (mem : u ∈ t.operands) :
    IsPowerFree u := by
  cases powerFree with
  | variadic op operands => exact operands u mem
  | difference hl hr =>
    rcases by simpa [operands] using mem with rfl | rfl
    · exact hl
    · exact hr
  | power _ impossible => exact impossible.elim
  | _ => simp [operands] at mem

theorem OperandsRelated.isPowerFree (h : OperandsRelated Keeps t u) (powerFree : IsPowerFree t) :
    IsPowerFree u := by
  cases h with
  | variadic op operands =>
    refine .variadic op ?_
    clear powerFree
    induction operands with
    | nil => simp
    | cons first _ ih => exact List.forall_mem_cons.2 ⟨first.powerFree, ih⟩
  | binary op left right =>
    cases powerFree with
    | difference => exact .difference left.powerFree right.powerFree
    | power _ impossible => exact impossible.elim

theorem map_eq_of_forall₂ {α : Type*} {f : Term → α}
    (h : List.Forall₂ (fun t u => f u = f t) ts us) : us.map f = ts.map f := by
  induction h with
  | nil => rfl
  | cons same _ ih => rw [List.map_cons, List.map_cons, same, ih]

/-- An operation keeps its fixed value if its operands do. -/
theorem fixedValue?_eq_of_operands
    (h : OperandsRelated (fun s s' => s'.fixedValue? = s.fixedValue?) t u) :
    u.fixedValue? = t.fixedValue? := by
  cases h with
  | variadic op operands =>
    rw [fixedValue?_variadic, fixedValue?_variadic, map_eq_of_forall₂ operands]
  | binary op left right =>
    cases op with
    | difference => rw [fixedValue?, fixedValue?, left, right]
    | _ => rfl

/-- A sum or difference keeps its entry if its operands do. -/
theorem entry_eq_of_operands {shift : Term → ℤ}
    (notProduct : t.operator? ≠ some (.variadic .product))
    (h : OperandsRelated (fun s s' => entry shift s' = entry shift s) t u) :
    entry shift u = entry shift t := by
  cases h with
  | variadic op operands =>
    cases op with
    | sum => rw [entry_sum, entry_sum, map_eq_of_forall₂ operands]
    | product => exact absurd rfl notProduct
  | binary op left right =>
    cases op with
    | difference => rw [entry_difference, entry_difference, left, right]
    | _ => rfl

/-- A product keeps its balance if its operands do. -/
theorem balance_product_eq_of_operands {shift : Term → ℤ}
    (h : List.Forall₂ (fun s s' => balance shift s' = balance shift s) ts us) :
    balance shift (product us) = balance shift (product ts) := by
  have monomials : us.map (toMonomial ∘ entry shift) = ts.map (toMonomial ∘ entry shift) := by
    refine map_eq_of_forall₂ (h.imp fun s s' same => ?_)
    rw [Function.comp_apply, Function.comp_apply, ← toMonomial_collapse,
      ← toMonomial_collapse (entry shift s)]
    exact congrArg toMonomial same
  rw [balance_product, balance_product, Variadic.balanceOf, Variadic.balanceOf, List.map_map,
    List.map_map, monomials]

/-- Operands that keep what they contribute keep the balance of the whole. In a product this is
their balance, in a sum or difference their entry, which an offset does not keep. -/
theorem balance_eq_of_operands (powerFree : IsPowerFree t) (h : OperandsRelated Keeps t u)
    (firm : t.operator? = some (.variadic .product) ∨ t.isFixed ∨ ∀ s ∈ t.operands, ¬ IsOffset s) :
    balance exposed u = balance exposed t := by
  by_cases isProduct : t.operator? = some (.variadic .product)
  · cases h with
    | variadic op operands =>
      obtain rfl : op = .product := by simpa [operator?] using isProduct
      exact balance_product_eq_of_operands (operands.imp fun _ _ kept => kept.balance)
    | binary => cases isProduct
  rcases firm with impossible | fixed | noOffset
  · exact absurd impossible isProduct
  · obtain ⟨v, value⟩ := isFixed_iff.1 fixed
    have same := fixedValue?_eq_of_operands (h.imp fun s mem s' kept =>
      fixedValue?_eq_of_balance_eq (isPowerFree_of_mem_operands powerFree mem) kept.powerFree
        kept.balance)
    rw [balance_of_fixedValue?_eq_some powerFree value,
      balance_of_fixedValue?_eq_some (h.isPowerFree powerFree) (same.trans value)]
  · exact congrArg collapse (entry_eq_of_operands isProduct
      (h.imp fun s mem _ kept => kept.entry (noOffset s mem)))

end Operands

section Normal

variable {shift : Term → ℤ} {t u : Term}

/-- In a normal form nothing can be offset. -/
theorem balance_of_isNormal (powerFree : IsPowerFree t) (normal : IsNormal t) :
    balance shift t = entry shift t := by
  by_cases number : IsNumber (entry shift t)
  · obtain ⟨i, rfl⟩ := exists_int_of_isFixed powerFree normal
      ((isFixed_iff_isNumber shift powerFree).2 number)
    rw [balance, entry_int]
    exact isFirm_ofNumber
  · exact balance_of_not_isNumber number

variable (shift) in
/-- Normal forms with the same balance are equal. -/
theorem equal_of_balance_eq (powerFreeT : IsPowerFree t) (powerFreeU : IsPowerFree u)
    (normalT : IsNormal t) (normalU : IsNormal u) (h : balance shift t = balance shift u) :
    equal t u := by
  rw [balance_of_isNormal powerFreeT normalT, balance_of_isNormal powerFreeU normalU] at h
  exact equal_of_entry_eq powerFreeT powerFreeU normalT normalU h

/-- Where no fold leaves the integers, there is a normal form, which keeps what the term
contributes. -/
theorem exists_simplify_keeps (powerFree : IsPowerFree t) (integral : StaysIntegral t) :
    ∃ u, ReductionTable.standard.simplify t = .ok u ∧ IsNormal u ∧ Keeps t u := by
  obtain ⟨u, n, passes, normal, simplified⟩ := exists_simplify_of_staysIntegral powerFree integral
  have kept := keeps_of_passes passes powerFree integral
  exact ⟨u, simplified,
    (reducePass_eq_none_iff_isNormal kept.powerFree.polynomialOver.isGround).1 normal, kept⟩

end Normal

/-- Simplifying the operands of a sum, product or difference of integers and variables first does
not change the result, if no fold leaves the integers of 64 bits: both simplifications succeed, with
equal results. This holds of every product and of every term of fixed value; of another sum or
difference it holds if no operand is an offset. -/
theorem simplify_operands_first (t u : Term) (powerFree : IsPowerFree t)
    (operands : OperandsRelated (fun s s' => ReductionTable.standard.simplify s = .ok s') t u)
    (integralOperands : ∀ s ∈ t.operands, StaysIntegral s) (integral : StaysIntegral t)
    (integralSimplified : StaysIntegral u)
    (firm : t.operator? = some (.variadic .product) ∨ t.isFixed ∨ ∀ s ∈ t.operands, ¬ IsOffset s) :
    ∃ v w, ReductionTable.standard.simplify t = .ok v ∧
      ReductionTable.standard.simplify u = .ok w ∧ v == w := by
  have kept : OperandsRelated Keeps t u := operands.imp fun s mem s' simplified => by
    obtain ⟨s'', simplified', -, kept⟩ :=
      exists_simplify_keeps (isPowerFree_of_mem_operands powerFree mem) (integralOperands s mem)
    obtain rfl := Except.ok.inj (simplified.symm.trans simplified')
    exact kept
  obtain ⟨v, simplifiedT, normalT, keptT⟩ := exists_simplify_keeps powerFree integral
  obtain ⟨w, simplifiedU, normalU, keptU⟩ :=
    exists_simplify_keeps (kept.isPowerFree powerFree) integralSimplified
  refine ⟨v, w, simplifiedT, simplifiedU, ?_⟩
  refine equal_of_balance_eq exposed keptT.powerFree keptU.powerFree normalT normalU ?_
  rw [keptT.balance, keptU.balance, balance_eq_of_operands powerFree kept firm]

/-- A difference that is taken out of a sum before the numbers in it are folded. -/
theorem simplify_operands_first_taken_out :
    let t := sum [difference (var "y") (sum [int 1, int 2]), product [int 2, var "x", int 3]]
    let u := sum [difference (var "y") (int 3), product [int 6, var "x"]]
    IsPowerFree t ∧
      OperandsRelated (fun s s' => ReductionTable.standard.simplify s = .ok s') t u ∧
      (∀ s ∈ t.operands, StaysIntegral s ∧ ¬ IsOffset s) ∧ StaysIntegral t ∧ StaysIntegral u ∧
      ∃ v w, ReductionTable.standard.simplify t = .ok v ∧
        ReductionTable.standard.simplify u = .ok w ∧ v == w := by
  intro t u
  have taken : IsPowerFree (difference (var "y") (sum [int 1, int 2])) := by
    exact .difference (.var "y") (.variadic .sum (by simpa using ⟨.int 1, .int 2⟩))
  have factors : IsPowerFree (product [int 2, var "x", int 3]) :=
    .variadic .product (by simpa using ⟨.int 2, .var "x", .int 3⟩)
  have powerFree : IsPowerFree t := .variadic .sum (by simpa using ⟨taken, factors⟩)
  have folded : IsPowerFree (product [int 6, var "x"]) :=
    .variadic .product (by simpa using ⟨.int 6, .var "x"⟩)
  have powerFreeU : IsPowerFree u :=
    .variadic .sum (by simpa using ⟨.difference (.var "y") (.int 3), folded⟩)
  have operands :
      OperandsRelated (fun s s' => ReductionTable.standard.simplify s = .ok s') t u := by
    refine .variadic .sum (.cons ?_ (.cons ?_ .nil))
    all_goals cbv
  have integralOperands : ∀ s ∈ t.operands, StaysIntegral s := by
    refine List.forall_mem_cons.2 ⟨?_, List.forall_mem_singleton.2 ?_⟩
    · exact staysIntegral_of_isBounded ⟨taken.polynomialOver, by decide, by decide⟩
    · exact staysIntegral_of_isBounded ⟨factors.polynomialOver, by decide, by decide⟩
  have integral : StaysIntegral t :=
    staysIntegral_of_isBounded ⟨powerFree.polynomialOver, by decide, by decide⟩
  have integralU : StaysIntegral u :=
    staysIntegral_of_isBounded ⟨powerFreeU.polynomialOver, by decide, by decide⟩
  -- neither operand has a fixed value
  have noOffset : ∀ s ∈ t.operands, ¬ IsOffset s := by
    have varies : ∀ s ∈ t.operands, s.isFixed = false := by decide
    exact fun s mem offset => absurd offset.isFixed (by simp [varies s mem])
  exact ⟨powerFree, operands, fun s mem => ⟨integralOperands s mem, noOffset s mem⟩, integral,
    integralU, simplify_operands_first t u powerFree operands integralOperands integral integralU
      (.inr (.inr noOffset))⟩

/-- A difference of numbers as an operand of a difference is taken apart before it is folded. -/
theorem simplify_operands_first_not_difference :
    let t := difference (difference (int 5) (int 3)) (var "x")
    let u := difference (int 2) (var "x")
    let v := difference (int 5) (sum [int 3, var "x"])
    IsPowerFree t ∧
      OperandsRelated (fun s s' => ReductionTable.standard.simplify s = .ok s') t u ∧
      (∀ s ∈ t.operands, StaysIntegral s) ∧ StaysIntegral t ∧ StaysIntegral u ∧
      ReductionTable.standard.simplify t = .ok v ∧ ReductionTable.standard.simplify u = .ok u ∧
      ¬ v == u := by
  intro t u v
  have inner : (difference (int 5) (int 3)).IsBounded :=
    ⟨.difference (.int 5) (.int 3), by decide, by decide⟩
  have outer : t.IsBounded := ⟨.difference inner.polynomial (.var "x"), by decide, by decide⟩
  have simplified : u.IsBounded := ⟨.difference (.int 2) (.var "x"), by decide, by decide⟩
  refine ⟨.difference (.difference (.int 5) (.int 3)) (.var "x"), .binary .difference ?_ ?_,
    List.forall_mem_cons.2 ⟨staysIntegral_of_isBounded inner, List.forall_mem_singleton.2
      (staysIntegral_of_isBounded ⟨.var "x", by decide, by decide⟩)⟩,
    staysIntegral_of_isBounded outer, staysIntegral_of_isBounded simplified, ?_, ?_, by decide⟩
  all_goals cbv

end InequalityChaining

import Mathlib.Algebra.BigOperators.Group.Multiset.Basic
import Mathlib.Data.Countable.Basic
import Mathlib.Data.Multiset.OrderedMonoid
import Mathlib.Logic.Equiv.List
import Mathlib.Tactic.Abel
import Mathlib.Tactic.Ring
import InequalityChaining.Proofs.Polynomial.Basic

/-!
# Balances

A balance says what is left of a sum or difference when it is flat: the monomials and the numbers
that are added, and those that are subtracted. Monomials are not offset against each other, since no
rule does so, and numbers only where there is nothing else. A monomial is a number with factors; a
factor is a variable or a whole sum or difference, of which the monomial holds the code of its
balance. Multiplying out sums is no rule either, so products only merge the numbers and the factors
of their operands.

## Main definitions

* `Balance`, `Monomial`, `Factor` — what a term is made of
* `Balance.collapse` — numbers are offset if there is nothing else
* `Balance.toMonomial`, `Balance.ofMonomial` — a balance as a factor, and a product as a balance
* `Balance.IsValid` — the balances that terms have
* `Variadic.balanceOf` — the balance of a sum or product from those of its operands

## Main results

* `Balance.ofMonomial_toMonomial`, `Balance.toMonomial_ofMonomial` — the two are inverse as far as
  numbers are offset and products are not zero
* `Variadic.balanceOf_nested` — operands of operands of the same kind may as well be operands
-/

namespace InequalityChaining

/-- What a product is made of: a variable, or a sum or difference by the code of its balance. -/
abbrev Factor := String ⊕ ℕ

/-- A number times factors. -/
abbrev Monomial := ℤ × Multiset Factor

/-- Monomials and a number that are added up. -/
abbrev Share := Multiset Monomial × ℤ

/-- What is added and what is subtracted. -/
abbrev Balance := Share × Share

namespace Balance

/-! ### Codes -/

instance : Countable Char := Function.Injective.countable (f := Char.toNat) fun _ _ h =>
  Char.toNat_inj.1 h

instance : Countable String := Function.Injective.countable fun _ _ => String.toList_injective

instance : Countable Balance := inferInstance

/-- Balances are numbered, so that factors need not contain them. -/
noncomputable def code : Balance → ℕ := (exists_injective_nat Balance).choose

theorem code_injective : Function.Injective code := (exists_injective_nat Balance).choose_spec

/-! ### Numbers -/

/-- The balance of a number. -/
def ofNumber (v : ℤ) : Balance := ((0, v), 0)

/-- The balance of a monomial. -/
def single (m : Monomial) : Balance := (({m}, 0), 0)

/-- The monomials on both sides. -/
def monomials (b : Balance) : Multiset Monomial := b.1.1 + b.2.1

/-- The number that is left when the numbers on both sides are offset. -/
def value (b : Balance) : ℤ := b.1.2 - b.2.2

/-- There is nothing but numbers. -/
def IsNumber (b : Balance) : Prop := monomials b = 0

section Numbers

variable {a b : Balance} {m n : Monomial} {v : ℤ}

theorem single_injective : Function.Injective single := by
  intro m n h
  exact Multiset.singleton_inj.1 (congrArg (fun b : Balance => b.1.1) h)

@[simp] theorem monomials_ofNumber : monomials (ofNumber v) = 0 := rfl

@[simp] theorem monomials_single : monomials (single m) = {m} := rfl

@[simp] theorem monomials_add : monomials (a + b) = monomials a + monomials b := by
  simp only [monomials, Prod.fst_add, Prod.snd_add]
  exact add_add_add_comm _ _ _ _

@[simp] theorem monomials_swap : monomials b.swap = monomials b := add_comm _ _

@[simp] theorem value_ofNumber : value (ofNumber v) = v := sub_zero v

@[simp] theorem value_add : value (a + b) = value a + value b := by
  simp only [value, Prod.fst_add, Prod.snd_add]
  ring

@[simp] theorem value_swap : value b.swap = - value b := by
  simp [value]

theorem swap_add (a b : Balance) : (a + b).swap = a.swap + b.swap := rfl

theorem isNumber_ofNumber : IsNumber (ofNumber v) := rfl

theorem not_isNumber_single : ¬ IsNumber (single m) := Multiset.singleton_ne_zero m

theorem isNumber_add : IsNumber (a + b) ↔ IsNumber a ∧ IsNumber b := by
  rw [IsNumber, monomials_add, add_eq_zero]
  rfl

theorem isNumber_swap : IsNumber b.swap ↔ IsNumber b := by
  rw [IsNumber, monomials_swap]
  rfl

open Classical in
/-- The balance where numbers are offset if there is nothing else. -/
noncomputable def collapse (b : Balance) : Balance := if IsNumber b then ofNumber (value b) else b

theorem collapse_of_isNumber (h : IsNumber b) : collapse b = ofNumber (value b) := if_pos h

theorem collapse_of_not_isNumber (h : ¬ IsNumber b) : collapse b = b := if_neg h

@[simp] theorem monomials_collapse : monomials (collapse b) = monomials b := by
  by_cases h : IsNumber b
  · rw [collapse_of_isNumber h, monomials_ofNumber]
    exact h.symm
  · rw [collapse_of_not_isNumber h]

@[simp] theorem value_collapse : value (collapse b) = value b := by
  by_cases h : IsNumber b
  · rw [collapse_of_isNumber h, value_ofNumber]
  · rw [collapse_of_not_isNumber h]

theorem isNumber_collapse : IsNumber (collapse b) ↔ IsNumber b := by
  rw [IsNumber, monomials_collapse, IsNumber]

theorem collapse_congr (sameMonomials : monomials a = monomials b) (sameValue : value a = value b)
    (h : ¬ IsNumber a → a = b) : collapse a = collapse b := by
  by_cases number : IsNumber a
  · have number' : IsNumber b := sameMonomials.symm.trans number
    rw [collapse_of_isNumber number, collapse_of_isNumber number', sameValue]
  · rw [h number]

theorem collapse_collapse (b : Balance) : collapse (collapse b) = collapse b := by
  by_cases h : IsNumber b
  · rw [collapse_of_isNumber h, collapse_of_isNumber isNumber_ofNumber, value_ofNumber]
  · rw [collapse_of_not_isNumber h, collapse_of_not_isNumber h]

open Classical in
/-- The balance where the same number is put on both sides if there are only numbers. -/
noncomputable def widen (k : ℤ) (b : Balance) : Balance :=
  if IsNumber b then b + ((0, k), (0, k)) else b

theorem widen_of_isNumber (k : ℤ) (h : IsNumber b) : widen k b = b + ((0, k), (0, k)) := if_pos h

theorem widen_of_not_isNumber (k : ℤ) (h : ¬ IsNumber b) : widen k b = b := if_neg h

@[simp] theorem monomials_widen (k : ℤ) (b : Balance) : monomials (widen k b) = monomials b := by
  by_cases h : IsNumber b
  · rw [widen_of_isNumber k h, monomials_add]
    exact add_zero _
  · rw [widen_of_not_isNumber k h]

@[simp] theorem value_widen (k : ℤ) (b : Balance) : value (widen k b) = value b := by
  by_cases h : IsNumber b
  · rw [widen_of_isNumber k h, value_add]
    simp [value]
  · rw [widen_of_not_isNumber k h]

theorem collapse_widen (k : ℤ) (b : Balance) : collapse (widen k b) = collapse b := by
  refine collapse_congr (monomials_widen k b) (value_widen k b) fun varies => ?_
  rw [IsNumber, monomials_widen] at varies
  exact widen_of_not_isNumber k varies

/-- What has been offset is the number on the right. -/
theorem widen_collapse (b : Balance) : widen b.2.2 (collapse b) = b := by
  by_cases h : IsNumber b
  · obtain ⟨⟨left, v⟩, right, w⟩ := b
    obtain ⟨rfl, rfl⟩ : left = 0 ∧ right = 0 := add_eq_zero.1 h
    rw [collapse_of_isNumber h, widen_of_isNumber _ isNumber_ofNumber]
    simp [ofNumber, value]
  · rw [collapse_of_not_isNumber h, widen_of_not_isNumber _ h]

/-- There is nothing to offset. -/
def IsFirm (b : Balance) : Prop := collapse b = b

theorem IsFirm.eq_ofNumber (firm : IsFirm b) (h : IsNumber b) : b = ofNumber (value b) :=
  firm.symm.trans (collapse_of_isNumber h)

theorem isFirm_ofNumber : IsFirm (ofNumber v) := by
  rw [IsFirm, collapse_of_isNumber isNumber_ofNumber, value_ofNumber]

theorem isFirm_of_not_isNumber (h : ¬ IsNumber b) : IsFirm b := collapse_of_not_isNumber h

theorem ofNumber_add (v w : ℤ) : ofNumber (v + w) = ofNumber v + ofNumber w := by
  simp [ofNumber]

theorem IsFirm.add (ha : IsFirm a) (hb : IsFirm b) : IsFirm (a + b) := by
  by_cases h : IsNumber (a + b)
  · obtain ⟨numberA, numberB⟩ := isNumber_add.1 h
    rw [ha.eq_ofNumber numberA, hb.eq_ofNumber numberB, ← ofNumber_add]
    exact isFirm_ofNumber
  · exact isFirm_of_not_isNumber h

end Numbers

/-! ### Products -/

section Products

variable {b c : Balance} {m n : Monomial} {bs : List Balance}

/-- Neither a number nor a single monomial. -/
def IsCompound (b : Balance) : Prop := ¬ IsNumber b ∧ ∀ m, b ≠ single m

open Classical in
/-- A balance as an operand of a product: numbers and monomials are multiplied out, and everything
else is a factor. -/
noncomputable def toMonomial (b : Balance) : Monomial :=
  if IsNumber b then (value b, 0)
  else if h : ∃ m, b = single m then h.choose
  else (1, {.inr (code b)})

open Classical in
/-- A product as a balance: numbers, and balances that are the only factor, do not stay products. -/
noncomputable def ofMonomial (m : Monomial) : Balance :=
  if m.1 = 0 then 0
  else if m.2 = 0 then ofNumber m.1
  else if h : ∃ b, m = (1, {.inr (code b)}) then h.choose
  else single m

theorem toMonomial_of_isNumber (h : IsNumber b) : toMonomial b = (value b, 0) := if_pos h

theorem toMonomial_single : toMonomial (single m) = m := by
  have h : ∃ n, single m = single n := ⟨m, rfl⟩
  rw [toMonomial, if_neg not_isNumber_single, dif_pos h]
  exact single_injective h.choose_spec.symm

theorem toMonomial_of_isCompound (h : IsCompound b) : toMonomial b = (1, {.inr (code b)}) := by
  rw [toMonomial, if_neg h.1, dif_neg (not_exists.2 h.2)]

theorem cases_toMonomial (b : Balance) : IsNumber b ∨ (∃ m, b = single m) ∨ IsCompound b := by
  by_cases number : IsNumber b
  · exact .inl number
  by_cases one : ∃ m, b = single m
  · exact .inr (.inl one)
  · exact .inr (.inr ⟨number, not_exists.1 one⟩)

/-- Offsetting makes no difference to a product. -/
theorem toMonomial_collapse (b : Balance) : toMonomial (collapse b) = toMonomial b := by
  by_cases h : IsNumber b
  · rw [toMonomial_of_isNumber (isNumber_collapse.2 h), toMonomial_of_isNumber h, value_collapse]
  · rw [collapse_of_not_isNumber h]

theorem toMonomial_widen (k : ℤ) (b : Balance) : toMonomial (widen k b) = toMonomial b := by
  rw [← toMonomial_collapse, collapse_widen, toMonomial_collapse]

theorem ofMonomial_of_zero (h : m.1 = 0) : ofMonomial m = 0 := if_pos h

theorem ofMonomial_of_isNumber (h : m.2 = 0) : ofMonomial m = ofNumber m.1 := by
  by_cases zero : m.1 = 0
  · rw [ofMonomial_of_zero zero, zero]
    rfl
  · rw [ofMonomial, if_neg zero, if_pos h]

theorem ofMonomial_code (b : Balance) : ofMonomial (1, {.inr (code b)}) = b := by
  have h : ∃ c, ((1, {.inr (code b)}) : Monomial) = (1, {.inr (code c)}) := ⟨b, rfl⟩
  rw [ofMonomial, if_neg one_ne_zero, if_neg (Multiset.singleton_ne_zero _), dif_pos h]
  have same := congrArg Prod.snd h.choose_spec
  exact (code_injective (Sum.inr_injective (Multiset.singleton_inj.1 same))).symm

/-- Neither a number nor a balance by itself. -/
def IsProper (m : Monomial) : Prop := m.1 ≠ 0 ∧ m.2 ≠ 0 ∧ ∀ b, m ≠ (1, {.inr (code b)})

theorem ofMonomial_of_isProper (h : IsProper m) : ofMonomial m = single m := by
  rw [ofMonomial, if_neg h.1, if_neg h.2.1, dif_neg (not_exists.2 h.2.2)]

theorem cases_ofMonomial (m : Monomial) :
    m.1 = 0 ∨ m.2 = 0 ∨ (∃ b, m = (1, {.inr (code b)})) ∨ IsProper m := by
  by_cases zero : m.1 = 0
  · exact .inl zero
  by_cases number : m.2 = 0
  · exact .inr (.inl number)
  by_cases coded : ∃ b, m = (1, {.inr (code b)})
  · exact .inr (.inr (.inl coded))
  · exact .inr (.inr (.inr ⟨zero, number, not_exists.1 coded⟩))

/-- All monomials are proper, and the balances in them are compound and of this kind themselves. -/
inductive IsValid : Balance → Prop where
  | intro {b : Balance} (proper : ∀ m ∈ monomials b, IsProper m)
      (compound : ∀ m ∈ monomials b, ∀ c, .inr (code c) ∈ m.2 → IsCompound c)
      (inner : ∀ m ∈ monomials b, ∀ c, .inr (code c) ∈ m.2 → IsValid c) : IsValid b

/-- The balances in the monomial are compound and valid. -/
def HasValidFactors (m : Monomial) : Prop := ∀ c, .inr (code c) ∈ m.2 → IsCompound c ∧ IsValid c

theorem isValid_iff :
    IsValid b ↔ ∀ m ∈ monomials b, IsProper m ∧ HasValidFactors m := by
  constructor
  · rintro ⟨proper, compound, inner⟩ m mem
    exact ⟨proper m mem, fun c factor => ⟨compound m mem c factor, inner m mem c factor⟩⟩
  · intro h
    exact ⟨fun m mem => (h m mem).1, fun m mem c factor => ((h m mem).2 c factor).1,
      fun m mem c factor => ((h m mem).2 c factor).2⟩

theorem isValid_of_isNumber (h : IsNumber b) : IsValid b := by
  rw [isValid_iff, show monomials b = 0 from h]
  simp

theorem IsValid.collapse (h : IsValid b) : IsValid (collapse b) := by
  rw [isValid_iff] at h ⊢
  rwa [monomials_collapse]

theorem IsValid.swap (h : IsValid b) : IsValid b.swap := by
  rw [isValid_iff] at h ⊢
  rwa [monomials_swap]

theorem IsValid.add (hb : IsValid b) (hc : IsValid c) : IsValid (b + c) := by
  rw [isValid_iff] at hb hc ⊢
  intro m mem
  rw [monomials_add, Multiset.mem_add] at mem
  exact mem.elim (hb m) (hc m)

theorem IsValid.hasValidFactors (h : IsValid b) : HasValidFactors (toMonomial b) := by
  rcases cases_toMonomial b with number | ⟨m, rfl⟩ | compound
  · rw [toMonomial_of_isNumber number]
    intro c mem
    simp at mem
  · rw [toMonomial_single]
    exact (isValid_iff.1 h m (by simp)).2
  · rw [toMonomial_of_isCompound compound]
    intro c mem
    obtain rfl : c = b := code_injective (by simpa using mem)
    exact ⟨compound, h⟩

theorem HasValidFactors.isValid (h : HasValidFactors m) : IsValid (ofMonomial m) := by
  rcases cases_ofMonomial m with zero | number | ⟨b, rfl⟩ | proper
  · rw [ofMonomial_of_zero zero]
    exact isValid_of_isNumber rfl
  · rw [ofMonomial_of_isNumber number]
    exact isValid_of_isNumber rfl
  · rw [ofMonomial_code]
    exact (h b (by simp)).2
  · rw [ofMonomial_of_isProper proper, isValid_iff]
    simpa using ⟨proper, h⟩

theorem HasValidFactors.isFirm (h : HasValidFactors m) : IsFirm (ofMonomial m) := by
  rcases cases_ofMonomial m with zero | number | ⟨b, rfl⟩ | proper
  · rw [ofMonomial_of_zero zero]
    exact isFirm_ofNumber
  · rw [ofMonomial_of_isNumber number]
    exact isFirm_ofNumber
  · rw [ofMonomial_code]
    exact isFirm_of_not_isNumber (h b (by simp)).1.1
  · rw [ofMonomial_of_isProper proper]
    exact isFirm_of_not_isNumber not_isNumber_single

/-- A product of one operand is this operand. -/
theorem ofMonomial_toMonomial (valid : IsValid b) (firm : IsFirm b) :
    ofMonomial (toMonomial b) = b := by
  rcases cases_toMonomial b with number | ⟨m, rfl⟩ | compound
  · rw [toMonomial_of_isNumber number, ofMonomial_of_isNumber rfl]
    exact (firm.eq_ofNumber number).symm
  · rw [toMonomial_single, ofMonomial_of_isProper (isValid_iff.1 valid m (by simp)).1]
  · rw [toMonomial_of_isCompound compound, ofMonomial_code]

/-- A product that is not zero is multiplied out with other operands. -/
theorem toMonomial_ofMonomial (valid : HasValidFactors m) (nonzero : m.1 ≠ 0) :
    toMonomial (ofMonomial m) = m := by
  rcases cases_ofMonomial m with zero | number | ⟨b, rfl⟩ | proper
  · exact absurd zero nonzero
  · rw [ofMonomial_of_isNumber number, toMonomial_of_isNumber isNumber_ofNumber, value_ofNumber,
      ← number]
  · rw [ofMonomial_code, toMonomial_of_isCompound (valid b (by simp)).1]
  · rw [ofMonomial_of_isProper proper, toMonomial_single]

theorem toMonomial_ofMonomial_of_zero (zero : m.1 = 0) : toMonomial (ofMonomial m) = (0, 0) := by
  rw [ofMonomial_of_zero zero, toMonomial_of_isNumber (show IsNumber 0 from rfl)]
  rfl

/-- The number of a monomial is zero for the balance zero only. -/
theorem toMonomial_fst_eq_zero (valid : IsValid b) (zero : (toMonomial b).1 = 0) :
    IsNumber b ∧ value b = 0 := by
  rcases cases_toMonomial b with number | ⟨m, rfl⟩ | compound
  · rw [toMonomial_of_isNumber number] at zero
    exact ⟨number, zero⟩
  · rw [toMonomial_single] at zero
    exact absurd zero (isValid_iff.1 valid m (by simp)).1.1
  · rw [toMonomial_of_isCompound compound] at zero
    exact absurd zero one_ne_zero

/-- The product of monomials. -/
def multiplied (ms : List Monomial) : Monomial := ((ms.map Prod.fst).prod, (ms.map Prod.snd).sum)

theorem multiplied_cons (m : Monomial) (ms : List Monomial) :
    multiplied (m :: ms) = (m.1 * (multiplied ms).1, m.2 + (multiplied ms).2) := by
  simp [multiplied]

theorem multiplied_append (ms ns : List Monomial) : multiplied (ms ++ ns) =
    ((multiplied ms).1 * (multiplied ns).1, (multiplied ms).2 + (multiplied ns).2) := by
  simp [multiplied]

theorem multiplied_perm {ms ns : List Monomial} (h : ms.Perm ns) :
    multiplied ms = multiplied ns := by
  rw [multiplied, multiplied, (h.map Prod.fst).prod_eq, (h.map Prod.snd).sum_eq]

theorem hasValidFactors_multiplied {ms : List Monomial} (h : ∀ m ∈ ms, HasValidFactors m) :
    HasValidFactors (multiplied ms) := by
  induction ms with
  | nil =>
    intro c mem
    simp [multiplied] at mem
  | cons m ms ih =>
    intro c mem
    rw [multiplied_cons, Multiset.mem_add] at mem
    rcases mem with mem | mem
    · exact h m List.mem_cons_self c mem
    · exact ih (fun n mem => h n (List.mem_cons_of_mem m mem)) c mem

end Products

end Balance

/-! ### Terms -/

open Balance

/-- The balance of a sum or product from those of its operands. -/
noncomputable def Variadic.balanceOf : Variadic → List Balance → Balance
  | sum, bs => bs.sum
  | product, bs => ofMonomial (multiplied (bs.map toMonomial))

namespace Variadic

section Operands

variable {op : Variadic} {b : Balance} {bs cs : List Balance}

theorem balanceOf_perm (op : Variadic) (h : bs.Perm cs) : op.balanceOf bs = op.balanceOf cs := by
  cases op with
  | sum => exact h.sum_eq
  | product => rw [balanceOf, balanceOf, multiplied_perm (h.map toMonomial)]

theorem balanceOf_ofNumber (op : Variadic) (vs : List ℤ) :
    op.balanceOf (vs.map ofNumber) = ofNumber (op.joinAll vs) := by
  cases op with
  | sum =>
    induction vs with
    | nil => rfl
    | cons v vs ih =>
      rw [balanceOf] at ih ⊢
      rw [List.map_cons, List.sum_cons, ih, ← ofNumber_add, joinAll_cons]
      rfl
  | product =>
    have numbers : multiplied ((vs.map ofNumber).map toMonomial) = (vs.prod, 0) := by
      induction vs with
      | nil => rfl
      | cons v vs ih =>
        rw [List.map_cons, List.map_cons, multiplied_cons, ih, List.prod_cons,
          toMonomial_of_isNumber isNumber_ofNumber, value_ofNumber]
        rfl
    rw [balanceOf, numbers, ofMonomial_of_isNumber rfl]
    rfl

theorem collapse_balanceOf_singleton (op : Variadic) (valid : IsValid b) :
    collapse (op.balanceOf [b]) = collapse b := by
  cases op with
  | sum => exact congrArg collapse (add_zero b)
  | product =>
    have alone : multiplied [toMonomial b] = toMonomial b := by
      rw [multiplied_cons]
      simp [multiplied]
    rw [balanceOf, List.map_singleton, alone, ← toMonomial_collapse,
      ofMonomial_toMonomial valid.collapse (collapse_collapse b), collapse_collapse]

/-- The operands of an operand of the same kind may as well be operands. -/
theorem balanceOf_nested (op : Variadic) (valid : ∀ b ∈ bs, IsValid b) :
    op.balanceOf (op.balanceOf bs :: cs) = op.balanceOf (bs ++ cs) := by
  cases op with
  | sum => rw [balanceOf, balanceOf, balanceOf, List.sum_cons, List.sum_append]
  | product =>
    rw [balanceOf, balanceOf, balanceOf, List.map_append, multiplied_append, List.map_cons,
      multiplied_cons]
    have factors : HasValidFactors (multiplied (bs.map toMonomial)) :=
      hasValidFactors_multiplied (List.forall_mem_map.2 fun b mem => (valid b mem).hasValidFactors)
    by_cases zero : (multiplied (bs.map toMonomial)).1 = 0
    -- zero has lost its factors, but so does the whole
    · rw [toMonomial_ofMonomial_of_zero zero, ofMonomial_of_zero (by simp),
        ofMonomial_of_zero (by simp [zero])]
    · rw [toMonomial_ofMonomial factors zero]

/-- What contributes the same may take the place of operands. -/
theorem balanceOf_cons_congr (op : Variadic) (b : Balance) (validB : ∀ b ∈ bs, IsValid b)
    (validC : ∀ c ∈ cs, IsValid c) (h : op.balanceOf bs = op.balanceOf cs) :
    op.balanceOf (b :: bs) = op.balanceOf (b :: cs) := by
  have front : ∀ ds : List Balance, (∀ d ∈ ds, IsValid d) →
      op.balanceOf (b :: ds) = op.balanceOf (op.balanceOf ds :: [b]) := by
    intro ds valid
    rw [op.balanceOf_nested valid]
    exact op.balanceOf_perm (List.perm_append_singleton b ds).symm
  rw [front bs validB, front cs validC, h]

end Operands

end Variadic

end InequalityChaining

import InequalityChaining.Proofs.Polynomial.Entry
import InequalityChaining.Proofs.Reduction.NormalForm
import InequalityChaining.Proofs.Term.Congruence

/-!
# Normal forms with equal entries

In a normal form at most one operand of a sum or product is a number, and every other operand
contributes a single monomial or a single factor. So the entry of a normal form tells the operation
at its root, and its operands up to their order: normal forms with the same entry are equal.

## Main definitions

* `Variadic.IsReduced` — operands that contribute one number at most and one atom each
* `Balance.operation?` — the operation at the root of a normal form, from its entry

## Main results

* `exists_int_of_isFixed` — a normal form of fixed value is a number
* `tellsOperation` — the entry of a normal form tells the operation at its root
* `equal_of_entry_eq` — normal forms with the same entry are equal
-/

namespace InequalityChaining

open Balance Term Standard

/-! ### Numbers and atoms -/

/-- Operands of which at most one is a number, and not a neutral one, while each of the others
contributes one atom. -/
structure Variadic.IsReduced {α : Type} (op : Variadic) (number : Term → ℤ)
    (atoms : Term → Multiset α) (ts : List Term) : Prop where
  few : (ts.filter isConstantNode).length ≤ 1
  constant : ∀ t ∈ ts, isConstantNode t →
    (∃ i, t = int i ∧ number t = i.toInt) ∧ number t ≠ op.joinAll [] ∧ atoms t = 0
  other : ∀ t ∈ ts, ¬ isConstantNode t → number t = op.joinAll [] ∧ ∃ x, atoms t = {x}

section Reduced

variable {α : Type} {op : Variadic} {number : Term → ℤ} {atoms : Term → Multiset α}
  {ts us : List Term}

theorem joinAll_of_neutral (h : ∀ t ∈ ts, number t = op.joinAll []) :
    op.joinAll (ts.map number) = op.joinAll [] := by
  induction ts with
  | nil => rfl
  | cons t ts ih =>
    rw [List.map_cons, Variadic.joinAll_cons, h t List.mem_cons_self,
      ih fun u mem => h u (List.mem_cons_of_mem t mem), join_joinAll_nil]

/-- The atoms that elements with one atom each have together. -/
theorem map_singleton_sum (h : ∀ t ∈ ts, ∃ x, atoms t = {x}) :
    (ts.map atoms).sum.map ({·}) = (ts.map atoms : Multiset (Multiset α)) := by
  induction ts with
  | nil => rfl
  | cons t ts ih =>
    obtain ⟨x, atom⟩ := h t List.mem_cons_self
    rw [List.map_cons, List.sum_cons, Multiset.map_add,
      ih fun u mem => h u (List.mem_cons_of_mem t mem), atom, Multiset.map_singleton,
      Multiset.singleton_add, Multiset.cons_coe]

theorem rel_of_sum_atoms_eq (hts : ∀ t ∈ ts, ∃ x, atoms t = {x})
    (hus : ∀ u ∈ us, ∃ x, atoms u = {x}) (h : (ts.map atoms).sum = (us.map atoms).sum) :
    Multiset.Rel (fun t u => atoms t = atoms u) (ts : Multiset Term) (us : Multiset Term) := by
  have same : (ts.map atoms : Multiset (Multiset α)) = (us.map atoms : Multiset (Multiset α)) := by
    rw [← map_singleton_sum hts, ← map_singleton_sum hus, h]
  rw [← Multiset.map_coe, ← Multiset.map_coe, ← Multiset.rel_eq, Multiset.rel_map] at same
  exact same

namespace Variadic.IsReduced

theorem joinAll_eq (h : op.IsReduced number atoms ts) :
    op.joinAll (ts.map number) = op.joinAll ((ts.filter isConstantNode).map number) := by
  have others : op.joinAll ((ts.filter fun t => !isConstantNode t).map number) =
      op.joinAll [] := by
    refine joinAll_of_neutral fun t mem => ?_
    obtain ⟨mem, varies⟩ := List.mem_filter.1 mem
    exact (h.other t mem (by simpa using varies)).1
  rw [op.joinAll_partition isConstantNode number ts, others, join_joinAll_nil]

theorem exists_atom (h : op.IsReduced number atoms ts) :
    ∀ t ∈ ts.filter fun t => !isConstantNode t, ∃ x, atoms t = {x} := by
  intro t mem
  obtain ⟨mem, varies⟩ := List.mem_filter.1 mem
  exact (h.other t mem (by simpa using varies)).2

theorem sum_eq (h : op.IsReduced number atoms ts) :
    (ts.map atoms).sum = ((ts.filter fun t => !isConstantNode t).map atoms).sum := by
  have constants : ((ts.filter isConstantNode).map atoms).sum = 0 := by
    refine List.sum_eq_zero (List.forall_mem_map.2 fun t mem => ?_)
    obtain ⟨mem, constant⟩ := List.mem_filter.1 mem
    exact (h.constant t mem constant).2.2
  rw [← ((List.filter_append_perm isConstantNode ts).map atoms).sum_eq, List.map_append,
    List.sum_append, constants, zero_add]

/-- There is no number, or there is one, which is what the numbers come to. -/
theorem constants_cases (h : op.IsReduced number atoms ts) :
    (ts.filter isConstantNode = [] ∧ op.joinAll (ts.map number) = op.joinAll []) ∨
      ∃ i : Int64, ts.filter isConstantNode = [int i] ∧ op.joinAll (ts.map number) = i.toInt ∧
        op.joinAll (ts.map number) ≠ op.joinAll [] := by
  rw [h.joinAll_eq]
  have few := h.few
  match constants : ts.filter isConstantNode with
  | [] => exact .inl ⟨rfl, rfl⟩
  | [t] =>
    obtain ⟨mem, constant⟩ := List.mem_filter.1 (constants ▸ List.mem_singleton_self t)
    obtain ⟨⟨i, rfl, value⟩, notNeutral, -⟩ := h.constant t mem constant
    refine .inr ⟨i, rfl, ?_⟩
    rw [List.map_singleton, Variadic.joinAll_cons, join_joinAll_nil]
    exact ⟨value, notNeutral⟩
  | t :: u :: rest =>
    rw [constants] at few
    simp at few

/-- Of two operands one is an atom, and if it is the only one, the other one is a number. -/
theorem atoms_of_two (h : op.IsReduced number atoms ts) (two : 2 ≤ ts.length) :
    (ts.map atoms).sum ≠ 0 ∧
      ∀ x, (ts.map atoms).sum = {x} → op.joinAll (ts.map number) ≠ op.joinAll [] := by
  -- every operand is a number or contributes one atom
  have count : (ts.map atoms).sum.card + (ts.filter isConstantNode).length = ts.length := by
    rw [h.sum_eq, ← Multiset.card_map (fun x => ({x} : Multiset α)),
      map_singleton_sum h.exists_atom, Multiset.coe_card, List.length_map, add_comm,
      ← List.length_append]
    exact (List.filter_append_perm isConstantNode ts).length_eq
  have few := h.few
  constructor
  · intro none
    rw [none, Multiset.card_zero] at count
    omega
  · intro x one
    rw [one, Multiset.card_singleton] at count
    rcases h.constants_cases with ⟨noNumber, -⟩ | ⟨i, -, -, notNeutral⟩
    · rw [noNumber] at count
      simp at count
      omega
    · exact notNeutral

/-- Operands with the same numbers and atoms are equal if the atoms are. -/
theorem equalOperands (hts : op.IsReduced number atoms ts) (hus : op.IsReduced number atoms us)
    (numbers : op.joinAll (ts.map number) = op.joinAll (us.map number))
    (sums : (ts.map atoms).sum = (us.map atoms).sum)
    (same : ∀ t ∈ ts, ∀ u ∈ us, ¬ isConstantNode t → ¬ isConstantNode u → atoms t = atoms u →
      equal t u) : EqualOperands ts us := by
  -- there is at most one number, and what the numbers come to tells which
  have constants : ts.filter isConstantNode = us.filter isConstantNode := by
    rcases hts.constants_cases with ⟨none, neutral⟩ | ⟨i, one, value, notNeutral⟩
    · rcases hus.constants_cases with ⟨none', -⟩ | ⟨j, -, -, notNeutral⟩
      · rw [none, none']
      · exact absurd (numbers.symm.trans neutral) notNeutral
    · rcases hus.constants_cases with ⟨-, neutral⟩ | ⟨j, one', value', -⟩
      · exact absurd (numbers.trans neutral) notNeutral
      · rw [one, one', Int64.toInt_inj.1 (value.symm.trans (numbers.trans value'))]
  have numbersEqual : EqualOperands (ts.filter isConstantNode) (us.filter isConstantNode) := by
    rw [constants]
    refine Multiset.rel_refl_of_refl_on fun t mem => ?_
    obtain ⟨mem, constant⟩ := List.mem_filter.1 mem
    obtain ⟨⟨i, rfl, -⟩, -⟩ := hus.constant t mem constant
    exact equal_refl rfl
  have atomsEqual : EqualOperands (ts.filter fun t => !isConstantNode t)
      (us.filter fun t => !isConstantNode t) := by
    rw [hts.sum_eq, hus.sum_eq] at sums
    refine (rel_of_sum_atoms_eq hts.exists_atom hus.exists_atom sums).mono fun t ht u hu h => ?_
    obtain ⟨ht, varies⟩ := List.mem_filter.1 ht
    obtain ⟨hu, varies'⟩ := List.mem_filter.1 hu
    exact same t ht u hu (by simpa using varies) (by simpa using varies') h
  have all := numbersEqual.add atomsEqual
  rw [Multiset.coe_add, Multiset.coe_add] at all
  rwa [Multiset.coe_eq_coe.2 (List.filter_append_perm isConstantNode ts),
    Multiset.coe_eq_coe.2 (List.filter_append_perm isConstantNode us)] at all

end Variadic.IsReduced

end Reduced

/-! ### The operation at the root -/

open Classical in
/-- The operation at the root of a normal form, from its balance. -/
noncomputable def Balance.operation? (b : Balance) : Option Operator :=
  if IsNumber b ∨ ∃ f, b = single (1, {f}) then none
  else if ∃ m, b = single m then some (.variadic .product)
  else if b.2 = 0 then some (.variadic .sum)
  else some (.binary .difference)

section Operations

variable {b : Balance} {m : Monomial}

theorem operation?_of_isNumber (h : IsNumber b) : operation? b = none := if_pos (.inl h)

theorem operation?_of_atom (f : Factor) : operation? (single (1, {f})) = none :=
  if_pos (.inr ⟨f, rfl⟩)

theorem operation?_single (h : ∀ f, m ≠ (1, {f})) :
    operation? (single m) = some (.variadic .product) := by
  rw [operation?, if_neg, if_pos ⟨m, rfl⟩]
  rintro (number | ⟨f, same⟩)
  · exact not_isNumber_single number
  · exact h f (single_injective same)

theorem operation?_of_isCompound (h : IsCompound b) : operation? b =
    if b.2 = 0 then some (.variadic .sum) else some (.binary .difference) := by
  rw [operation?, if_neg, if_neg (not_exists.2 h.2)]
  rintro (number | ⟨f, same⟩)
  · exact h.1 number
  · exact h.2 _ same

/-- What may stand as an atom in a sum. -/
theorem exists_eq_single (varies : ¬ IsNumber b) (notSum : operation? b ≠ some (.variadic .sum))
    (notDifference : operation? b ≠ some (.binary .difference)) : ∃ m, b = single m := by
  by_contra compound
  have operation := operation?_of_isCompound ⟨varies, not_exists.1 compound⟩
  split at operation
  · exact notSum operation
  · exact notDifference operation

/-- What may stand as an atom in a product. -/
theorem exists_toMonomial_eq (varies : ¬ IsNumber b)
    (notProduct : operation? b ≠ some (.variadic .product)) : ∃ f, toMonomial b = (1, {f}) := by
  rcases cases_toMonomial b with number | ⟨m, rfl⟩ | compound
  · exact absurd number varies
  · by_contra other
    push Not at other
    refine notProduct (operation?_single fun f same => other f ?_)
    rw [toMonomial_single, same]
  · exact ⟨_, toMonomial_of_isCompound compound⟩

theorem snd_eq_zero (h : operation? b ≠ some (.binary .difference)) (varies : ¬ IsNumber b) :
    b.2 = 0 := by
  by_cases one : ∃ m, b = single m
  · obtain ⟨m, rfl⟩ := one
    rfl
  · by_contra right
    rw [operation?_of_isCompound ⟨varies, not_exists.1 one⟩, if_neg right] at h
    exact h rfl

end Operations

/-! ### Normal forms -/

section Normal

variable {shift : Term → ℤ} {t u l r : Term} {ts us : List Term}

/-- A normal form with a fixed value is a number. -/
theorem exists_int_of_isFixed (powerFree : IsPowerFree t) (normal : IsNormal t)
    (fixed : t.isFixed) : ∃ i, t = int i := by
  have shape := normal t (mem_subterms_self t)
  induction powerFree with
  | int i => exact ⟨i, rfl⟩
  | var name => simp [isFixed, fixedValue?] at fixed
  | @variadic op ts _ ih =>
    have operand : ∀ t ∈ ts, t.isFixed → ∃ i, t = int i := fun t mem fixed =>
      have normalPart := normal.subterm (mem_subterms_operand mem)
      ih t mem normalPart fixed (normalPart t (mem_subterms_self t))
    -- only one operand may be a number
    have several : (ts.filter isConstantNode).length ≤ 1 → 2 ≤ ts.length →
        ¬ ∀ t ∈ ts, t.isFixed := by
      intro one two all
      rw [List.filter_eq_self.2] at one
      · omega
      · intro t mem
        obtain ⟨i, rfl⟩ := operand t mem (all t mem)
        rfl
    cases op with
    | sum => exact absurd (isFixed_sum.1 fixed) (several shape.2.1 shape.1)
    | product =>
      rcases isFixed_product.1 fixed with all | ⟨t, mem, zero⟩
      · exact absurd all (several shape.2.1 shape.1)
      · obtain ⟨i, rfl⟩ := operand t mem (isFixed_iff.2 ⟨0, zero⟩)
        rw [fixedValue?_int] at zero
        obtain rfl : i = 0 := Int64.toInt_inj.1 (Option.some.inj zero)
        exact absurd rfl (shape.2.2 _ mem).2.2.1
  | @difference l r hl hr ihl ihr =>
    obtain ⟨fixedLeft, fixedRight⟩ := isFixed_difference.1 fixed
    have normalLeft := normal.subterm mem_subterms_left
    have normalRight := normal.subterm mem_subterms_right
    obtain ⟨i, rfl⟩ := ihl normalLeft fixedLeft (normalLeft l (mem_subterms_self l))
    obtain ⟨j, rfl⟩ := ihr normalRight fixedRight (normalRight r (mem_subterms_self r))
    simpa using shape.1
  | power _ impossible => exact impossible.elim

variable (shift) in
theorem isNumber_entry_iff (powerFree : IsPowerFree t) (normal : IsNormal t) :
    IsNumber (entry shift t) ↔ isConstantNode t := by
  rw [← isFixed_iff_isNumber shift powerFree]
  constructor
  · intro fixed
    obtain ⟨i, rfl⟩ := exists_int_of_isFixed powerFree normal fixed
    rfl
  · intro constant
    obtain ⟨i, rfl⟩ := exists_eq_int_of_isConstantNode powerFree.polynomialOver constant
    exact isFixed_iff.2 ⟨_, fixedValue?_int i⟩

/-- The balance of an operand tells the operation at its root. -/
def TellsOperation (shift : Term → ℤ) (t : Term) : Prop :=
  t.operator? = operation? (entry shift t)

theorem toInt_ne_of_not_isNumber {i j : Int64} (h : ¬ (int i).isNumber j) : i.toInt ≠ j.toInt := by
  intro same
  obtain rfl := Int64.toInt_inj.1 same
  exact h (Number.int_beq_int.2 rfl)

theorem isReduced_sum (powerFree : IsPowerFree (sum ts)) (normal : IsNormal (sum ts))
    (tells : ∀ t ∈ ts, TellsOperation shift t) :
    Variadic.sum.IsReduced (fun t => (entry shift t).1.2) (fun t => (entry shift t).1.1) ts := by
  have operands : ∀ t ∈ ts, IsPowerFree t := polynomialOver_variadic.1 powerFree
  obtain ⟨-, few, shape⟩ := normal _ (mem_subterms_self _)
  refine ⟨few, fun t mem constant => ?_, fun t mem varies => ?_⟩
  · obtain ⟨i, rfl⟩ := exists_eq_int_of_isConstantNode (operands t mem).polynomialOver constant
    rw [entry_int]
    exact ⟨⟨i, rfl, rfl⟩, toInt_ne_of_not_isNumber (shape _ mem).2.2, rfl⟩
  · obtain ⟨notSum, notDifference, -⟩ := shape t mem
    rw [tells t mem] at notSum notDifference
    have notNumber : ¬ IsNumber (entry shift t) :=
      mt (isNumber_entry_iff shift (operands t mem)
        (normal.subterm (mem_subterms_operand mem))).1 varies
    obtain ⟨m, one⟩ := exists_eq_single notNumber notSum notDifference
    rw [one]
    exact ⟨rfl, m, rfl⟩

theorem isReduced_product (powerFree : IsPowerFree (product ts)) (normal : IsNormal (product ts))
    (tells : ∀ t ∈ ts, TellsOperation shift t) :
    Variadic.product.IsReduced (fun t => (toMonomial (entry shift t)).1)
      (fun t => (toMonomial (entry shift t)).2) ts := by
  have operands : ∀ t ∈ ts, IsPowerFree t := polynomialOver_variadic.1 powerFree
  obtain ⟨-, few, shape⟩ := normal _ (mem_subterms_self _)
  refine ⟨few, fun t mem constant => ?_, fun t mem varies => ?_⟩
  · obtain ⟨i, rfl⟩ := exists_eq_int_of_isConstantNode (operands t mem).polynomialOver constant
    rw [entry_int, toMonomial_of_isNumber isNumber_ofNumber, value_ofNumber]
    exact ⟨⟨i, rfl, rfl⟩, toInt_ne_of_not_isNumber (shape _ mem).2.2.2, rfl⟩
  · have notProduct := (shape t mem).1
    rw [tells t mem] at notProduct
    have notNumber : ¬ IsNumber (entry shift t) :=
      mt (isNumber_entry_iff shift (operands t mem)
        (normal.subterm (mem_subterms_operand mem))).1 varies
    obtain ⟨f, atom⟩ := exists_toMonomial_eq notNumber notProduct
    rw [atom]
    exact ⟨rfl, f, rfl⟩

/-- In a normal form only a difference has something on the right. -/
theorem snd_entry_eq_zero (powerFree : IsPowerFree t) (normal : IsNormal t)
    (tells : TellsOperation shift t) (h : t.operator? ≠ some (.binary .difference)) :
    (entry shift t).2 = 0 := by
  by_cases constant : isConstantNode t
  · obtain ⟨i, rfl⟩ := exists_eq_int_of_isConstantNode powerFree.polynomialOver constant
    rw [entry_int]
    rfl
  · rw [tells] at h
    exact snd_eq_zero h (mt (isNumber_entry_iff shift powerFree normal).1 constant)

theorem entry_sum_eq (h : ∀ t ∈ ts, (entry shift t).2 = 0) :
    entry shift (sum ts) =
      (((ts.map fun t => (entry shift t).1.1).sum,
        (ts.map fun t => (entry shift t).1.2).sum), 0) := by
  rw [entry_sum]
  induction ts with
  | nil => rfl
  | cons t ts ih =>
    rw [List.map_cons, List.sum_cons, ih fun u mem => h u (List.mem_cons_of_mem t mem)]
    refine Prod.ext rfl ?_
    rw [Prod.snd_add, h t List.mem_cons_self, add_zero]

/-- A product in normal form is a monomial, and not a factor alone. -/
theorem entry_product_eq (powerFree : IsPowerFree (product ts)) (normal : IsNormal (product ts))
    (tells : ∀ t ∈ ts, TellsOperation shift t) :
    entry shift (product ts) =
        single (multiplied ((ts.map (entry shift)).map toMonomial)) ∧
      ∀ f, multiplied ((ts.map (entry shift)).map toMonomial) ≠ (1, {f}) := by
  have operands : ∀ t ∈ ts, IsPowerFree t := polynomialOver_variadic.1 powerFree
  obtain ⟨two, -, shape⟩ := normal _ (mem_subterms_self _)
  have reduced := isReduced_product powerFree normal tells
  obtain ⟨atoms, oneAtom⟩ := reduced.atoms_of_two two
  have parts : multiplied ((ts.map (entry shift)).map toMonomial) =
      ((ts.map fun t => (toMonomial (entry shift t)).1).prod,
        (ts.map fun t => (toMonomial (entry shift t)).2).sum) := by
    simp only [multiplied, List.map_map, Function.comp_def]
  -- with a single atom the other operand is a number, and this is not one
  have notAlone : ∀ f, multiplied ((ts.map (entry shift)).map toMonomial) ≠ (1, {f}) := by
    intro f same
    rw [parts] at same
    exact oneAtom f (congrArg Prod.snd same) (congrArg Prod.fst same)
  have nonzero : (multiplied ((ts.map (entry shift)).map toMonomial)).1 ≠ 0 := by
    rw [parts]
    refine List.prod_ne_zero fun zero => ?_
    obtain ⟨t, mem, zero⟩ := List.mem_map.1 zero
    by_cases constant : isConstantNode t
    · obtain ⟨⟨i, rfl, value⟩, -⟩ := reduced.constant t mem constant
      exact toInt_ne_of_not_isNumber (shape _ mem).2.2.1 (value.symm.trans zero)
    · exact one_ne_zero ((reduced.other t mem constant).1.symm.trans zero)
  have proper : IsProper (multiplied ((ts.map (entry shift)).map toMonomial)) := by
    refine ⟨nonzero, ?_, fun b => notAlone _⟩
    rw [parts]
    exact atoms
  refine ⟨?_, notAlone⟩
  rw [entry_product, Variadic.balanceOf, ofMonomial_of_isProper proper,
    widen_of_not_isNumber _ not_isNumber_single]

/-- A sum in normal form is neither a number nor a single monomial. -/
theorem isCompound_entry_sum (powerFree : IsPowerFree (sum ts)) (normal : IsNormal (sum ts))
    (tells : ∀ t ∈ ts, TellsOperation shift t) (right : ∀ t ∈ ts, (entry shift t).2 = 0) :
    IsCompound (entry shift (sum ts)) := by
  obtain ⟨two, -⟩ := normal _ (mem_subterms_self _)
  obtain ⟨-, oneAtom⟩ := (isReduced_sum powerFree normal tells).atoms_of_two two
  refine ⟨mt (isNumber_entry_iff shift powerFree normal).1 (by simp [isConstantNode]), ?_⟩
  intro m one
  rw [entry_sum_eq right] at one
  exact oneAtom m (congrArg (fun b : Balance => b.1.1) one)
    (congrArg (fun b : Balance => b.1.2) one)

theorem isCompound_entry_difference (powerFree : IsPowerFree (difference l r))
    (normal : IsNormal (difference l r)) (left : (entry shift l).2 = 0)
    (right : (entry shift r).2 = 0) :
    IsCompound (entry shift (difference l r)) ∧ (entry shift (difference l r)).2 ≠ 0 := by
  have nonzero : (entry shift (difference l r)).2 ≠ 0 := by
    intro none
    rw [entry_difference, Prod.snd_add, left, zero_add, Prod.snd_swap] at none
    have zero : entry shift r = 0 := Prod.ext none right
    have normalRight := normal.subterm (mem_subterms_right (o := .difference) (l := l))
    have powerFreeRight : IsPowerFree r := (polynomialOver_difference.1 powerFree).2
    have number : IsNumber (entry shift r) := by
      rw [zero]
      rfl
    obtain ⟨i, rfl⟩ := exists_eq_int_of_isConstantNode powerFreeRight.polynomialOver
      ((isNumber_entry_iff shift powerFreeRight normalRight).1 number)
    -- zero is not subtracted in a normal form
    have shape := (normal _ (mem_subterms_self _)).2.1
    rw [entry_int] at zero
    exact toInt_ne_of_not_isNumber shape (congrArg (fun b : Balance => b.1.2) zero)
  refine ⟨⟨mt (isNumber_entry_iff shift powerFree normal).1 (by simp [isConstantNode]), ?_⟩,
    nonzero⟩
  intro m one
  exact nonzero (congrArg Prod.snd one)

variable (shift) in
theorem tellsOperation (powerFree : IsPowerFree t) (normal : IsNormal t) :
    TellsOperation shift t := by
  rw [TellsOperation]
  induction powerFree with
  | int i =>
    rw [entry_int, operation?_of_isNumber isNumber_ofNumber]
    rfl
  | var name =>
    rw [entry_var, operation?_of_atom]
    rfl
  | @variadic op ts operands ih =>
    have powerFree : IsPowerFree (variadic op ts) := .variadic op operands
    have tells : ∀ t ∈ ts, TellsOperation shift t := fun t mem =>
      ih t mem (normal.subterm (mem_subterms_operand mem))
    cases op with
    | sum =>
      have right : ∀ t ∈ ts, (entry shift t).2 = 0 := fun t mem =>
        snd_entry_eq_zero (operands t mem) (normal.subterm (mem_subterms_operand mem)) (tells t mem)
          ((normal _ (mem_subterms_self _)).2.2 t mem).2.1
      rw [operation?_of_isCompound (isCompound_entry_sum powerFree normal tells right),
        entry_sum_eq right, if_pos rfl, operator?]
    | product =>
      obtain ⟨one, notAlone⟩ := entry_product_eq powerFree normal tells
      rw [one, operation?_single notAlone, operator?]
  | @difference l r hl hr ihl ihr =>
    have normalLeft := normal.subterm (mem_subterms_left (o := .difference) (r := r))
    have normalRight := normal.subterm (mem_subterms_right (o := .difference) (l := l))
    obtain ⟨-, -, leftShape, rightShape⟩ := normal _ (mem_subterms_self _)
    obtain ⟨compound, right⟩ := isCompound_entry_difference (.difference hl hr) normal
      (snd_entry_eq_zero hl normalLeft (ihl normalLeft) leftShape)
      (snd_entry_eq_zero hr normalRight (ihr normalRight) rightShape)
    rw [operation?_of_isCompound compound, if_neg right, operator?]
  | power _ impossible => exact impossible.elim

theorem operator?_eq_of_entry_eq (powerFreeT : IsPowerFree t) (powerFreeU : IsPowerFree u)
    (normalT : IsNormal t) (normalU : IsNormal u) (h : entry shift t = entry shift u) :
    t.operator? = u.operator? := by
  rw [tellsOperation shift powerFreeT normalT,
    tellsOperation shift powerFreeU normalU, h]

variable (shift) in
theorem tellsOperation_operand {op : Variadic} (powerFree : IsPowerFree (variadic op ts))
    (normal : IsNormal (variadic op ts)) : ∀ t ∈ ts, TellsOperation shift t := fun t mem =>
  tellsOperation shift (polynomialOver_variadic.1 powerFree t mem)
    (normal.subterm (mem_subterms_operand mem))

variable (shift) in
/-- The operands of a sum in normal form have nothing on the right. -/
theorem snd_entry_of_mem_sum (powerFree : IsPowerFree (sum ts)) (normal : IsNormal (sum ts)) :
    ∀ t ∈ ts, (entry shift t).2 = 0 := by
  intro t mem
  exact snd_entry_eq_zero (polynomialOver_variadic.1 powerFree t mem)
    (normal.subterm (mem_subterms_operand mem))
    (tellsOperation_operand shift powerFree normal t mem)
    ((normal _ (mem_subterms_self _)).2.2 t mem).2.1

variable (shift) in
theorem snd_entry_of_difference (powerFree : IsPowerFree (difference l r))
    (normal : IsNormal (difference l r)) : (entry shift l).2 = 0 ∧ (entry shift r).2 = 0 := by
  obtain ⟨hl, hr⟩ : IsPowerFree l ∧ IsPowerFree r := polynomialOver_difference.1 powerFree
  obtain ⟨-, -, leftShape, rightShape⟩ := normal _ (mem_subterms_self _)
  have normalLeft := normal.subterm (mem_subterms_left (o := .difference) (r := r))
  have normalRight := normal.subterm (mem_subterms_right (o := .difference) (l := l))
  exact ⟨snd_entry_eq_zero hl normalLeft (tellsOperation shift hl normalLeft) leftShape,
    snd_entry_eq_zero hr normalRight (tellsOperation shift hr normalRight) rightShape⟩

theorem equalOperands_of_entry_sum_eq (powerFreeT : IsPowerFree (sum ts))
    (powerFreeU : IsPowerFree (sum us)) (normalT : IsNormal (sum ts)) (normalU : IsNormal (sum us))
    (h : entry shift (sum ts) = entry shift (sum us))
    (operands : ∀ t ∈ ts, ∀ u ∈ us, entry shift t = entry shift u → equal t u) :
    EqualOperands ts us := by
  have rightT := snd_entry_of_mem_sum shift powerFreeT normalT
  have rightU := snd_entry_of_mem_sum shift powerFreeU normalU
  have tellsT := tellsOperation_operand shift powerFreeT normalT
  have tellsU := tellsOperation_operand shift powerFreeU normalU
  have reducedT := isReduced_sum powerFreeT normalT tellsT
  have reducedU := isReduced_sum powerFreeU normalU tellsU
  rw [entry_sum_eq rightT, entry_sum_eq rightU] at h
  refine reducedT.equalOperands reducedU (congrArg (fun b : Balance => b.1.2) h)
    (congrArg (fun b : Balance => b.1.1) h) fun t ht u hu variesT variesU same => ?_
  refine operands t ht u hu (Prod.ext (Prod.ext same ?_) ?_)
  · exact (reducedT.other t ht variesT).1.trans (reducedU.other u hu variesU).1.symm
  · exact (rightT t ht).trans (rightU u hu).symm

theorem equalOperands_of_entry_product_eq (powerFreeT : IsPowerFree (product ts))
    (powerFreeU : IsPowerFree (product us)) (normalT : IsNormal (product ts))
    (normalU : IsNormal (product us)) (h : entry shift (product ts) = entry shift (product us))
    (operands : ∀ t ∈ ts, ∀ u ∈ us, entry shift t = entry shift u → equal t u) :
    EqualOperands ts us := by
  have tellsT := tellsOperation_operand shift powerFreeT normalT
  have tellsU := tellsOperation_operand shift powerFreeU normalU
  have reducedT := isReduced_product powerFreeT normalT tellsT
  have reducedU := isReduced_product powerFreeU normalU tellsU
  rw [(entry_product_eq powerFreeT normalT tellsT).1,
    (entry_product_eq powerFreeU normalU tellsU).1] at h
  have monomials := single_injective h
  simp only [multiplied, List.map_map] at monomials
  refine reducedT.equalOperands reducedU (congrArg Prod.fst monomials)
    (congrArg Prod.snd monomials) fun t ht u hu variesT variesU same => ?_
  have sameMonomial : toMonomial (entry shift t) = toMonomial (entry shift u) := by
    refine Prod.ext ?_ same
    exact (reducedT.other t ht variesT).1.trans (reducedU.other u hu variesU).1.symm
  -- what varies is what its monomial says
  have fromMonomial : ∀ {v vs}, IsPowerFree (product vs) → IsNormal (product vs) → v ∈ vs →
      ¬ isConstantNode v → ofMonomial (toMonomial (entry shift v)) = entry shift v := by
    intro v vs powerFree normal mem varies
    refine ofMonomial_toMonomial (isValid_entry v) (isFirm_of_not_isNumber ?_)
    exact mt (isNumber_entry_iff shift (polynomialOver_variadic.1 powerFree v mem)
      (normal.subterm (mem_subterms_operand mem))).1 varies
  refine operands t ht u hu ?_
  rw [← fromMonomial powerFreeT normalT ht variesT, sameMonomial,
    fromMonomial powerFreeU normalU hu variesU]

/-- Normal forms with the same entry are equal. -/
theorem equal_of_entry_eq (powerFreeT : IsPowerFree t) (powerFreeU : IsPowerFree u)
    (normalT : IsNormal t) (normalU : IsNormal u) (h : entry shift t = entry shift u) :
    equal t u := by
  induction powerFreeT generalizing u with
  | int i =>
    have number := (isNumber_entry_iff shift powerFreeU normalU).1 (h ▸ rfl)
    obtain ⟨j, rfl⟩ := exists_eq_int_of_isConstantNode powerFreeU.polynomialOver number
    rw [entry_int, entry_int] at h
    obtain rfl : i = j := Int64.toInt_inj.1 (congrArg (fun b : Balance => b.1.2) h)
    exact equal_refl rfl
  | var name =>
    -- the entry tells which operation stands at the root, if any
    have sameOperator := operator?_eq_of_entry_eq (.var name) powerFreeU normalT normalU h
    cases powerFreeU with
    | int j => exact absurd (h ▸ rfl : IsNumber (entry shift (var name))) not_isNumber_single
    | var name' =>
      rw [entry_var, entry_var] at h
      obtain rfl : name = name' := by simpa using single_injective h
      exact equal_refl rfl
    | power _ impossible => exact impossible.elim
    | _ => cases sameOperator
  | @variadic op ts hts ih =>
    have powerFreeT : IsPowerFree (variadic op ts) := .variadic op hts
    have sameOperator := operator?_eq_of_entry_eq powerFreeT powerFreeU normalT normalU h
    cases powerFreeU with
    | @variadic op' us hus =>
      obtain rfl : op = op' := by simpa [operator?] using sameOperator
      have powerFreeU : IsPowerFree (variadic op us) := .variadic op hus
      have operands : ∀ t ∈ ts, ∀ u ∈ us, entry shift t = entry shift u → equal t u :=
        fun t ht u hu => ih t ht (hus u hu) (normalT.subterm (mem_subterms_operand ht))
          (normalU.subterm (mem_subterms_operand hu))
      refine equal_variadic_of_equalOperands ?_
      cases op with
      | sum => exact equalOperands_of_entry_sum_eq powerFreeT powerFreeU normalT normalU h operands
      | product =>
        exact equalOperands_of_entry_product_eq powerFreeT powerFreeU normalT normalU h operands
    | power _ impossible => exact impossible.elim
    | _ => cases sameOperator
  | @difference l r hl hr ihl ihr =>
    have powerFreeT : IsPowerFree (difference l r) := .difference hl hr
    have sameOperator := operator?_eq_of_entry_eq powerFreeT powerFreeU normalT normalU h
    cases powerFreeU with
    | @difference l' r' hl' hr' =>
      obtain ⟨leftT, rightT⟩ := snd_entry_of_difference shift powerFreeT normalT
      obtain ⟨leftU, rightU⟩ :=
        snd_entry_of_difference shift (.difference hl' hr') normalU
      -- neither side is a difference itself, so the entries of the sides have nothing on the right
      rw [entry_difference, entry_difference] at h
      refine equal_binary_iff.2 ⟨l', r', rfl, ?_, ?_⟩
      · refine ihl hl' (normalT.subterm mem_subterms_left) (normalU.subterm mem_subterms_left) ?_
        refine Prod.ext ?_ (leftT.trans leftU.symm)
        simpa [rightT, rightU] using congrArg Prod.fst h
      · refine ihr hr' (normalT.subterm mem_subterms_right) (normalU.subterm mem_subterms_right) ?_
        refine Prod.ext ?_ (rightT.trans rightU.symm)
        simpa [leftT, leftU] using congrArg Prod.snd h
    | power _ impossible => exact impossible.elim
    | _ => cases sameOperator
  | power _ impossible => exact impossible.elim

end Normal

end InequalityChaining

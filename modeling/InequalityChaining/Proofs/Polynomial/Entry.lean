import InequalityChaining.Proofs.Polynomial.Balance
import InequalityChaining.Proofs.Polynomial.FixedValue
import InequalityChaining.Proofs.Polynomial.Step

/-!
# The entry of a term

The entry of a term is what the term contributes to a sum that it is an operand of. It differs from
the balance of the term where numbers stand on both sides: by itself the term becomes one number,
but as an operand it is taken apart. For a product of fixed value a rule may expose a difference
later; what is then added and subtracted is a parameter here, `shift`.

## Main definitions

* `Term.entry`, `Term.balance` — what a term contributes to a sum, and what it is by itself

## Main results

* `balance_variadic` — the balance of an operation from the entries of its operands
* `fixedValue?_eq` — the fixed value is the number that the entry comes to
* `balance_of_fixedValue?_eq_some` — by itself a term of fixed value is this number
-/

namespace InequalityChaining

open Balance Term Standard

namespace Term

section Contribution

variable (shift : Term → ℤ)

mutual

/-- What a term without powers contributes to a sum that it is an operand of. For a product of
fixed value this is a number, with something that is added and subtracted. -/
noncomputable def entry : Term → Balance
  | constant (.int i) => ofNumber i.toInt
  | var name => single (1, {.inl name})
  | sum operands => (entries operands).sum
  | product operands =>
    widen (shift (product operands)) (Variadic.product.balanceOf (entries operands))
  | difference left right => entry left + (entry right).swap
  | _ => 0

/-- The entries of a list of terms. -/
noncomputable def entries : List Term → List Balance
  | [] => []
  | t :: ts => entry t :: entries ts

end

/-- The balance of a term by itself, where numbers are offset if there is nothing else. -/
noncomputable def balance (t : Term) : Balance := collapse (entry shift t)

end Contribution

end Term

variable {shift : Term → ℤ}

section Basic

variable {t u l r : Term} {ts us : List Term} {op : Variadic}

theorem entries_eq_map (ts : List Term) :
    entries shift ts = ts.map (entry shift) := by
  induction ts with
  | nil => rfl
  | cons t ts ih => rw [entries, ih, List.map_cons]

theorem entry_int (i : Int64) : entry shift (int i) = ofNumber i.toInt := by
  rw [entry]

theorem entry_var (name : String) :
    entry shift (var name) = single (1, {.inl name}) := by
  rw [entry]

theorem entry_sum (ts : List Term) :
    entry shift (sum ts) = (ts.map (entry shift)).sum := by
  rw [entry, entries_eq_map]

theorem entry_product (ts : List Term) : entry shift (product ts) =
    widen (shift (product ts)) (Variadic.product.balanceOf (ts.map (entry shift))) := by
  rw [entry, entries_eq_map]

theorem entry_difference (l r : Term) : entry shift (difference l r) =
    entry shift l + (entry shift r).swap := by
  rw [entry]

theorem isValid_sum {bs : List Balance} (h : ∀ b ∈ bs, IsValid b) : IsValid bs.sum := by
  induction bs with
  | nil => exact isValid_of_isNumber rfl
  | cons b bs ih =>
    rw [List.sum_cons]
    exact (h b List.mem_cons_self).add (ih fun c mem => h c (List.mem_cons_of_mem b mem))

theorem isValid_entry (t : Term) : IsValid (entry shift t) := by
  induction t using Term.induction with
  | constant value => cases value <;> exact isValid_of_isNumber rfl
  | var name =>
    rw [entry_var, isValid_iff]
    simp [IsProper, HasValidFactors]
  | placeholder name kind => exact isValid_of_isNumber rfl
  | variadic op ts ih =>
    cases op with
    | sum =>
      rw [entry_sum]
      exact isValid_sum (by simpa using ih)
    | product =>
      rw [entry_product, isValid_iff, monomials_widen, ← isValid_iff, Variadic.balanceOf]
      refine HasValidFactors.isValid (hasValidFactors_multiplied ?_)
      simpa using fun t mem => (ih t mem).hasValidFactors
  | binary op l r ihl ihr =>
    cases op with
    | difference =>
      rw [entry_difference]
      exact ihl.add ihr.swap
    | _ => exact isValid_of_isNumber rfl

theorem isValid_of_mem_map {b : Balance} (mem : b ∈ ts.map (entry shift)) : IsValid b := by
  obtain ⟨t, -, rfl⟩ := List.mem_map.1 mem
  exact isValid_entry t

theorem balance_variadic (op : Variadic) (ts : List Term) :
    balance shift (variadic op ts) = collapse (op.balanceOf (ts.map (entry shift))) := by
  cases op with
  | sum => rw [balance, entry_sum, Variadic.balanceOf]
  | product => rw [balance, entry_product, collapse_widen]

theorem isFirm_product (ts : List Term) :
    IsFirm (Variadic.product.balanceOf (ts.map (entry shift))) := by
  refine HasValidFactors.isFirm (hasValidFactors_multiplied (List.forall_mem_map.2 ?_))
  exact fun b mem => (isValid_of_mem_map mem).hasValidFactors

theorem balance_product (ts : List Term) : balance shift (product ts) =
    Variadic.product.balanceOf (ts.map (entry shift)) := by
  rw [balance_variadic]
  exact isFirm_product ts

/-- Where there is more than numbers, there is nothing to offset. -/
theorem balance_of_not_isNumber (h : ¬ IsNumber (entry shift t)) :
    balance shift t = entry shift t := collapse_of_not_isNumber h

end Basic

/-! ### Fixed values -/

section Numbers

variable {a b : Balance} {bs : List Balance} {m : Monomial} {t : Term}

open Classical in
/-- The value of a balance in which there are only numbers. -/
noncomputable def Balance.number? (b : Balance) : Option ℤ :=
  if IsNumber b then some (value b) else none

theorem number?_eq_none_iff : number? b = none ↔ ¬ IsNumber b := by
  by_cases number : IsNumber b <;> simp [number?, number]

theorem number?_eq_some_iff {v : ℤ} : number? b = some v ↔ IsNumber b ∧ value b = v := by
  by_cases number : IsNumber b <;> simp [number?, number]

theorem number?_ofNumber (v : ℤ) : number? (ofNumber v) = some v := by
  rw [number?, if_pos isNumber_ofNumber, value_ofNumber]

theorem number?_add (a b : Balance) :
    number? (a + b) = Option.map₂ (· + ·) (number? a) (number? b) := by
  by_cases numberA : IsNumber a <;> by_cases numberB : IsNumber b <;>
    simp [number?, isNumber_add, numberA, numberB]

theorem number?_swap (b : Balance) : number? b.swap = (number? b).map (- ·) := by
  by_cases number : IsNumber b <;> simp [number?, isNumber_swap, number]

theorem number?_widen (k : ℤ) (b : Balance) : number? (widen k b) = number? b := by
  rw [number?, number?, IsNumber, monomials_widen, value_widen, IsNumber]

theorem number?_collapse : number? (collapse b) = number? b := by
  rw [number?, number?, IsNumber, monomials_collapse, value_collapse, IsNumber]

theorem number?_sum (bs : List Balance) :
    number? bs.sum = Variadic.sum.fixedValue? (bs.map number?) := by
  induction bs with
  | nil => exact number?_ofNumber 0
  | cons b bs ih =>
    rw [List.sum_cons, number?_add, ih]
    rfl

theorem isNumber_ofMonomial (valid : HasValidFactors m) (nonzero : m.1 ≠ 0) :
    IsNumber (ofMonomial m) ↔ m.2 = 0 := by
  constructor
  · intro number
    rw [← toMonomial_ofMonomial valid nonzero, toMonomial_of_isNumber number]
  · intro number
    rw [ofMonomial_of_isNumber number]
    exact isNumber_ofNumber

theorem multiplied_of_isNumber (h : ∀ b ∈ bs, IsNumber b) :
    multiplied (bs.map toMonomial) = ((bs.map value).prod, 0) := by
  induction bs with
  | nil => rfl
  | cons b bs ih =>
    rw [List.map_cons, multiplied_cons, toMonomial_of_isNumber (h b List.mem_cons_self),
      ih fun c mem => h c (List.mem_cons_of_mem b mem)]
    rfl

/-- A product without factors is one of numbers. -/
theorem isNumber_of_multiplied (h : (multiplied (bs.map toMonomial)).2 = 0)
    (valid : ∀ b ∈ bs, IsValid b) : ∀ b ∈ bs, IsNumber b := by
  intro b mem
  have factors : (toMonomial b).2 = 0 :=
    List.sum_eq_zero_iff.1 h _ (List.mem_map_of_mem (List.mem_map_of_mem mem))
  rcases cases_toMonomial b with number | ⟨m, rfl⟩ | compound
  · exact number
  · rw [toMonomial_single] at factors
    exact absurd factors (isValid_iff.1 (valid _ mem) m (by simp)).1.2.1
  · rw [toMonomial_of_isCompound compound] at factors
    exact absurd factors (Multiset.singleton_ne_zero _)

theorem number?_product (valid : ∀ b ∈ bs, IsValid b) :
    number? (Variadic.product.balanceOf bs) = Variadic.product.fixedValue? (bs.map number?) := by
  rw [Variadic.balanceOf]
  by_cases zero : some 0 ∈ bs.map number?
  · obtain ⟨b, mem, found⟩ := List.mem_map.1 zero
    obtain ⟨number, value⟩ := number?_eq_some_iff.1 found
    have vanishes : (multiplied (bs.map toMonomial)).1 = 0 := by
      refine List.prod_eq_zero (List.mem_map.2 ⟨(0, 0), ?_, rfl⟩)
      exact List.mem_map.2 ⟨b, mem, by rw [toMonomial_of_isNumber number, value]⟩
    rw [ofMonomial_of_zero vanishes, Variadic.fixedValue?_eq_some_iff.2 (.inr ⟨rfl, zero, rfl⟩)]
    exact number?_ofNumber 0
  by_cases numbers : ∀ b ∈ bs, IsNumber b
  · have known : bs.map number? = (bs.map value).map some := by
      rw [List.map_map]
      exact List.map_congr_left fun b mem => if_pos (numbers b mem)
    rw [multiplied_of_isNumber numbers, ofMonomial_of_isNumber rfl, number?_ofNumber,
      Variadic.fixedValue?_eq_some_iff.2 (.inl ⟨_, known, rfl⟩), Variadic.joinAll]
  -- an operand that varies is not made a number by operands that are not zero
  · have nonzero : (multiplied (bs.map toMonomial)).1 ≠ 0 := by
      refine List.prod_ne_zero fun mem => ?_
      rw [List.map_map] at mem
      obtain ⟨b, mem, vanishes⟩ := List.mem_map.1 mem
      exact zero (List.mem_map.2 ⟨b, mem,
        number?_eq_some_iff.2 (toMonomial_fst_eq_zero (valid b mem) vanishes)⟩)
    have factors := hasValidFactors_multiplied
      (List.forall_mem_map.2 fun b mem => (valid b mem).hasValidFactors)
    have varies : number? (ofMonomial (multiplied (bs.map toMonomial))) = none := by
      rw [number?_eq_none_iff, isNumber_ofMonomial factors nonzero]
      exact fun none => numbers (isNumber_of_multiplied none valid)
    rw [varies, eq_comm, Option.eq_none_iff_forall_ne_some]
    intro v known
    rcases Variadic.fixedValue?_eq_some_iff.1 known with ⟨ws, same, -⟩ | ⟨-, found, -⟩
    · refine numbers fun b mem => ?_
      obtain ⟨w, -, value⟩ := List.mem_map.1 (same ▸ List.mem_map_of_mem (f := number?) mem)
      exact (number?_eq_some_iff.1 value.symm).1
    · exact zero found

variable (shift) in
/-- The fixed value is the number that the entry comes to. -/
theorem fixedValue?_eq (h : IsPowerFree t) : t.fixedValue? = number? (entry shift t) := by
  induction h with
  | int i => rw [entry_int, number?_ofNumber, fixedValue?_int]
  | var name =>
    rw [entry_var]
    exact (number?_eq_none_iff.2 not_isNumber_single).symm
  | @variadic op ts _ ih =>
    have operands : ts.map fixedValue? = (ts.map (entry shift)).map number? := by
      rw [List.map_map]
      exact List.map_congr_left ih
    rw [fixedValue?_variadic, operands]
    cases op with
    | sum => rw [entry_sum, number?_sum]
    | product =>
      rw [entry_product, number?_widen, number?_product fun _ => isValid_of_mem_map]
  | difference _ _ ihl ihr =>
    rw [fixedValue?, ihl, ihr, entry_difference, number?_add, number?_swap,
      Option.map₂_map_right]
    simp only [sub_eq_add_neg]
  | power _ impossible => exact impossible.elim

variable (shift) in
theorem isFixed_iff_isNumber (h : IsPowerFree t) :
    t.isFixed ↔ IsNumber (entry shift t) := by
  rw [isFixed, fixedValue?_eq shift h, Option.isSome_iff_ne_none, Ne,
    number?_eq_none_iff, not_not]

/-- By itself a term of fixed value is this number. -/
theorem balance_of_fixedValue?_eq_some {v : ℤ} (h : IsPowerFree t)
    (value : t.fixedValue? = some v) : balance shift t = ofNumber v := by
  rw [fixedValue?_eq shift h] at value
  obtain ⟨number, rfl⟩ := number?_eq_some_iff.1 value
  exact collapse_of_isNumber number

end Numbers

end InequalityChaining

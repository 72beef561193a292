import Mathlib.Algebra.Group.Int.Units
import Mathlib.Data.Option.NAry
import InequalityChaining.Proofs.Polynomial.Basic

/-!
# Fixed values

Some terms have a value although variables occur in them, because these are multiplied by zero. A
difference of fixed value is the place where the order of simplification matters: the arithmetic
rules make it a number, but as an operand of a sum it is taken apart, and then its sides do not meet
again. A sum with such an operand behaves in the same way, and so does a product that loses its
other factors.

## Main definitions

* `Term.fixedValue?` — the value of a term on which its variables have no influence
* `Term.IsOffset` — parts of fixed value that may come to be taken apart

## Main results

* `Term.hasUnitValue_product` — a product is a unit exactly if all its factors are
* `Term.fixedValue?_of_isConstant` — the fixed value of a constant term is its integer value
-/

namespace InequalityChaining

/-- The value of a sum or product of which not all values need to be known. -/
def Variadic.fixedValue? : Variadic → List (Option ℤ) → Option ℤ
  | sum, values => values.foldr (Option.map₂ (· + ·)) (some 0)
  | product, values =>
    if some 0 ∈ values then some 0 else values.foldr (Option.map₂ (· * ·)) (some 1)

section Values

variable {op : Variadic} {values : List (Option ℤ)} {v : ℤ}

theorem foldr_map₂_eq_some_iff {f : ℤ → ℤ → ℤ} {e : ℤ} :
    values.foldr (Option.map₂ f) (some e) = some v ↔
      ∃ ws : List ℤ, values = ws.map some ∧ ws.foldr f e = v := by
  induction values generalizing v with
  | nil => simp
  | cons o values ih =>
    rw [List.foldr_cons, Option.map₂_eq_some_iff]
    constructor
    · rintro ⟨a, b, rfl, rest, rfl⟩
      obtain ⟨ws, rfl, rfl⟩ := ih.1 rest
      exact ⟨a :: ws, rfl, rfl⟩
    · rintro ⟨ws, same, rfl⟩
      obtain ⟨a, ws, rfl, rfl, rfl⟩ := List.map_eq_cons_iff.1 same.symm
      exact ⟨a, ws.foldr f e, rfl, ih.2 ⟨ws, rfl, rfl⟩, rfl⟩

/-- All values need to be known, except if a product has a factor zero. -/
theorem Variadic.fixedValue?_eq_some_iff : op.fixedValue? values = some v ↔
    (∃ ws : List ℤ, values = ws.map some ∧ op.joinAll ws = v) ∨
      op = .product ∧ some 0 ∈ values ∧ v = 0 := by
  cases op with
  | sum => simpa [fixedValue?, joinAll, List.sum_eq_foldr] using foldr_map₂_eq_some_iff
  | product =>
    rw [fixedValue?]
    split
    · next zero =>
      constructor
      · rintro ⟨⟩
        exact .inr ⟨rfl, zero, rfl⟩
      · rintro (⟨ws, rfl, rfl⟩ | ⟨-, -, rfl⟩)
        · rw [joinAll, List.prod_eq_zero (by simpa using zero)]
        · rfl
    · next nonzero =>
      simpa [nonzero, joinAll, List.prod_eq_foldr] using foldr_map₂_eq_some_iff

theorem exists_eq_map_some (h : ∀ o ∈ values, o.isSome) : ∃ ws : List ℤ, values = ws.map some := by
  induction values with
  | nil => exact ⟨[], rfl⟩
  | cons o values ih =>
    obtain ⟨ws, rfl⟩ := ih fun o mem => h o (List.mem_cons_of_mem _ mem)
    obtain ⟨w, rfl⟩ := Option.isSome_iff_exists.1 (h o List.mem_cons_self)
    exact ⟨w :: ws, rfl⟩

end Values

namespace Term

mutual

/-- The value of a term whose variables have no influence on it. -/
def fixedValue? : Term → Option ℤ
  | constant (.int i) => some i.toInt
  | variadic op operands => op.fixedValue? (fixedValues operands)
  | difference left right => Option.map₂ (· - ·) (fixedValue? left) (fixedValue? right)
  | _ => none

/-- The values of a list of terms. -/
def fixedValues : List Term → List (Option ℤ)
  | [] => []
  | t :: ts => fixedValue? t :: fixedValues ts

end

/-- Whether the variables of a term have no influence on its value. -/
def isFixed (t : Term) : Bool := t.fixedValue?.isSome

/-- The term has the fixed value `1` or `-1`. -/
def HasUnitValue (t : Term) : Prop := ∃ v, t.fixedValue? = some v ∧ IsUnit v

/-- A difference of fixed value, a sum of fixed value that has such an operand, or a product in
which all factors but such a one are units.

This is about how a term is written, and it includes terms for which the order of simplification
makes no difference after all. Nothing is left behind when `5 - 0` is taken apart, and the factors
of `(5 - 3) * (-1)` and `(5 - 3) * (1 + 0)` become numbers before the difference stands alone. But
`5 - (3 - 3)`, `((5 - 3) * (-1)) * (-1)` and `((5 - 3) + 0) * (1 + 0)` are taken apart. To tell the
former from the latter the passes over their parts would have to be followed side by side. -/
inductive IsOffset : Term → Prop where
  | difference {l r : Term} (fixed : (difference l r).isFixed) : IsOffset (difference l r)
  | sum {t : Term} {ts : List Term} (fixed : (sum ts).isFixed) (mem : t ∈ ts) (h : IsOffset t) :
      IsOffset (sum ts)
  | product {t : Term} {ts rest : List Term} (factors : ts.Perm (t :: rest)) (h : IsOffset t)
      (units : ∀ u ∈ rest, HasUnitValue u) : IsOffset (product ts)

section Fixed

variable {t l r : Term} {ts : List Term} {op : Variadic} {v : ℤ}

theorem fixedValues_eq_map (ts : List Term) : fixedValues ts = ts.map fixedValue? := by
  induction ts with
  | nil => rfl
  | cons t ts ih => rw [fixedValues, ih, List.map_cons]

theorem fixedValue?_variadic (op : Variadic) (ts : List Term) :
    (variadic op ts).fixedValue? = op.fixedValue? (ts.map fixedValue?) := by
  rw [fixedValue?, fixedValues_eq_map]

theorem fixedValue?_int (i : Int64) : (int i).fixedValue? = some i.toInt := by
  rw [fixedValue?]

theorem isFixed_iff : t.isFixed ↔ ∃ v, t.fixedValue? = some v := by
  rw [isFixed, Option.isSome_iff_exists]

theorem forall_isFixed_iff :
    (∀ t ∈ ts, t.isFixed) ↔ ∃ ws : List ℤ, ts.map fixedValue? = ws.map some := by
  constructor
  · exact fun h => exists_eq_map_some (List.forall_mem_map.2 h)
  · rintro ⟨ws, same⟩ t mem
    obtain ⟨w, -, value⟩ := List.mem_map.1 (same ▸ List.mem_map_of_mem mem)
    exact isFixed_iff.2 ⟨w, value.symm⟩

theorem isFixed_sum : (sum ts).isFixed ↔ ∀ t ∈ ts, t.isFixed := by
  rw [forall_isFixed_iff, isFixed_iff, fixedValue?_variadic]
  simp [Variadic.fixedValue?_eq_some_iff]

theorem isFixed_product :
    (product ts).isFixed ↔ (∀ t ∈ ts, t.isFixed) ∨ ∃ t ∈ ts, t.fixedValue? = some 0 := by
  rw [forall_isFixed_iff, isFixed_iff, fixedValue?_variadic]
  simp [Variadic.fixedValue?_eq_some_iff, exists_or]

theorem isFixed_difference : (difference l r).isFixed ↔ l.isFixed ∧ r.isFixed := by
  rw [isFixed, fixedValue?, isFixed, isFixed]
  cases l.fixedValue? <;> cases r.fixedValue? <;> simp

theorem HasUnitValue.isFixed (h : t.HasUnitValue) : t.isFixed := by
  obtain ⟨v, value, -⟩ := h
  exact isFixed_iff.2 ⟨v, value⟩

/-- A product is a unit exactly if all its factors are. -/
theorem hasUnitValue_product : (product ts).HasUnitValue ↔ ∀ t ∈ ts, t.HasUnitValue := by
  constructor
  · rintro ⟨v, value, unit⟩ t mem
    rw [fixedValue?_variadic, Variadic.fixedValue?_eq_some_iff] at value
    rcases value with ⟨ws, same, rfl⟩ | ⟨-, -, rfl⟩
    · obtain ⟨w, factor, value⟩ := List.mem_map.1 (same ▸ List.mem_map_of_mem mem)
      exact ⟨w, value.symm, List.prod_isUnit_iff.1 unit w factor⟩
    · exact absurd unit not_isUnit_zero
  · intro units
    obtain ⟨ws, same⟩ := forall_isFixed_iff.1 fun t mem => (units t mem).isFixed
    refine ⟨ws.prod, ?_, List.prod_isUnit_iff.2 fun w mem => ?_⟩
    · rw [fixedValue?_variadic, Variadic.fixedValue?_eq_some_iff]
      exact .inl ⟨ws, same, rfl⟩
    · obtain ⟨t, factor, value⟩ := List.mem_map.1 (same ▸ List.mem_map_of_mem (f := some) mem)
      obtain ⟨v, value', unit⟩ := units t factor
      obtain rfl := Option.some.inj (value.symm.trans value')
      exact unit

/-- The fixed value of a constant term without powers is its integer value. -/
theorem fixedValue?_of_isConstant (h : IsPowerFree t) (constant : t.isConstant) :
    t.fixedValue? = some t.integerValue := by
  induction h with
  | int i => rw [fixedValue?_int, integerValue, valueIn, Int.cast_id]
  | var name => simp at constant
  | @variadic op ts _ ih =>
    rw [fixedValue?_variadic, Variadic.fixedValue?_eq_some_iff, integerValue_variadic]
    refine .inl ⟨ts.map integerValue, ?_, rfl⟩
    rw [List.map_map]
    exact List.map_congr_left fun t mem => ih t mem (isConstant_variadic.1 constant t mem)
  | @difference l r _ _ ihl ihr =>
    obtain ⟨left, right⟩ := isConstant_binary.1 constant
    rw [fixedValue?, ihl left, ihr right]
    rfl
  | power _ impossible => exact impossible.elim

end Fixed

/-! ### Offset parts -/

section Offset

variable {t : Term} {ts us : List Term} {i : Int64}

theorem not_isOffset_int : ¬ IsOffset (int i) := by
  rintro ⟨⟩

theorem IsOffset.isFixed (h : IsOffset t) : t.isFixed := by
  induction h with
  | difference fixed => exact fixed
  | sum fixed => exact fixed
  | product factors _ units ih =>
    refine isFixed_product.2 (.inl fun u mem => ?_)
    rcases List.mem_cons.1 (factors.mem_iff.1 mem) with rfl | mem
    · exact ih
    · exact (units u mem).isFixed

/-- In an offset product there is an offset factor between units. -/
theorem exists_append_of_isOffset (h : IsOffset (product ts)) : ∃ before t after,
    ts = before ++ t :: after ∧ IsOffset t ∧ ∀ u ∈ before ++ after, u.HasUnitValue := by
  cases h with
  | @product t _ rest factors h units =>
    obtain ⟨before, after, rfl⟩ := List.append_of_mem (factors.mem_iff.2 List.mem_cons_self)
    have others : rest.Perm (before ++ after) :=
      (factors.symm.trans List.perm_middle).cons_inv
    exact ⟨before, t, after, rfl, h, fun u mem => units u (others.mem_iff.2 mem)⟩

theorem isOffset_product_append {before after : List Term} (h : IsOffset t)
    (units : ∀ u ∈ before ++ after, u.HasUnitValue) :
    IsOffset (product (before ++ t :: after)) :=
  .product List.perm_middle h units

theorem isOffset_product_of_perm (h : IsOffset (product ts)) (perm : us.Perm ts) :
    IsOffset (product us) := by
  cases h with
  | product factors h units => exact .product (perm.trans factors) h units

end Offset

end Term

end InequalityChaining

import Mathlib.Analysis.SpecialFunctions.Pow.Real
import InequalityChaining.Proofs.Number.ExactOrder
import InequalityChaining.Proofs.Number.Finiteness
import InequalityChaining.Proofs.Polynomial.Step
import InequalityChaining.Proofs.Term.Congruence

/-!
# Values over the reals

A number denotes a real number exactly, unless it is infinite or undefined. With values for the
variables a term without placeholders then has a value over the reals, as far as its operations
do: a quotient needs a denominator other than zero, and a power a positive base, or the base zero
with a positive exponent, in which case it is zero. A root is the power with the inverse of its
index. Where an operation has no value, the term has none.

The value is a total function, which is arbitrary where there is no value; that there is one is a
condition of its own.

## Main definitions

* `Number.toReal`, `Term.valueAt` — values
* `IsPower` — bases and exponents of powers that have a value
* `Term.HasValueAt` — the terms that have a value

## Main results

* `IsPower.mul` — a power of a power
* `Term.HasValueAt.isGround` — terms that have a value are without placeholders
* `Term.HasValueAt.of_mem_subterms` — so do the parts of such terms
* `Term.valueAt_of_isNumber` — what equals an integer has its value
* `Term.valueAt_of_equal` — equal terms have the same value
-/

namespace InequalityChaining

/-- The real number that a number denotes. -/
noncomputable def Number.toReal (a : Number) : ℝ :=
  match a.value with
  | .finite x => x.toRat
  | _ => 0

/-- A power has a value if its base is positive, or zero with a positive exponent. -/
def IsPower (base exponent : ℝ) : Prop := 0 < base ∨ base = 0 ∧ 0 < exponent

namespace Term

mutual

/-- The value of a term where the variables have the given values. -/
noncomputable def valueAt (assignment : String → ℝ) : Term → ℝ
  | constant value => value.toReal
  | var name => assignment name
  | placeholder _ _ => 0
  | variadic op operands => op.joinAll (valuesAt assignment operands)
  | difference left right => valueAt assignment left - valueAt assignment right
  | quotient left right => valueAt assignment left / valueAt assignment right
  | power base exponent => valueAt assignment base ^ valueAt assignment exponent
  | root radicand index => valueAt assignment radicand ^ (1 / valueAt assignment index)

/-- The values of a list of terms. -/
noncomputable def valuesAt (assignment : String → ℝ) : List Term → List ℝ
  | [] => []
  | t :: ts => valueAt assignment t :: valuesAt assignment ts

end

/-- The terms that have a value where the variables have the given values. -/
inductive HasValueAt (assignment : String → ℝ) : Term → Prop where
  | constant {value : Number} (finite : value.isFinite) : HasValueAt assignment (constant value)
  | var (name : String) : HasValueAt assignment (var name)
  | variadic (op : Variadic) {ts : List Term} (operands : ∀ t ∈ ts, HasValueAt assignment t) :
      HasValueAt assignment (variadic op ts)
  | difference {l r : Term} (left : HasValueAt assignment l) (right : HasValueAt assignment r) :
      HasValueAt assignment (difference l r)
  | quotient {l r : Term} (left : HasValueAt assignment l) (right : HasValueAt assignment r)
      (nonzero : r.valueAt assignment ≠ 0) : HasValueAt assignment (quotient l r)
  | power {b e : Term} (base : HasValueAt assignment b) (exponent : HasValueAt assignment e)
      (isPower : IsPower (b.valueAt assignment) (e.valueAt assignment)) :
      HasValueAt assignment (power b e)
  | root {r n : Term} (radicand : HasValueAt assignment r) (index : HasValueAt assignment n)
      (nonzero : n.valueAt assignment ≠ 0)
      (isPower : IsPower (r.valueAt assignment) (1 / n.valueAt assignment)) :
      HasValueAt assignment (root r n)

end Term

/-! ### Powers -/

namespace IsPower

variable {x y z : ℝ}

theorem nonneg (h : IsPower x y) : 0 ≤ x := by
  rcases h with positive | ⟨rfl, -⟩
  · exact positive.le
  · exact le_rfl

/-- The power with base zero is zero. -/
theorem zero_rpow (h : IsPower 0 y) : (0 : ℝ) ^ y = 0 := by
  rcases h with positive | ⟨-, positive⟩
  · exact absurd positive (lt_irrefl 0)
  · exact Real.zero_rpow positive.ne'

/-- A power of a power is a power with the product of the exponents. -/
theorem mul (inner : IsPower x y) (outer : IsPower (x ^ y) z) : IsPower x (y * z) := by
  rcases inner with positive | ⟨rfl, positive⟩
  · exact .inl positive
  · rw [zero_rpow (.inr ⟨rfl, positive⟩)] at outer
    rcases outer with impossible | ⟨-, positive'⟩
    · exact absurd impossible (lt_irrefl 0)
    · exact .inr ⟨rfl, mul_pos positive positive'⟩

end IsPower

namespace Number

variable {a b : Number} {x : ScaledInt}

theorem toReal_of_value (h : a.value = .finite x) : a.toReal = x.toRat := by
  rw [toReal, h]

@[simp] theorem toReal_int (i : Int64) : (int i).toReal = i.toInt := by
  rw [toReal_of_value (x := .ofInt i.toInt) rfl, ScaledInt.toRat_ofInt, Rat.cast_intCast]

theorem isFinite_iff : a.isFinite ↔ ∃ x, a.value = .finite x := by
  rw [isFinite]
  cases h : a.value <;> simp

/-- Equal numbers denote the same real number, and both or none of them denote one. -/
theorem toReal_eq_of_beq (finite : b.isFinite) (h : a == b) :
    a.isFinite ∧ a.toReal = b.toReal := by
  obtain ⟨y, hy⟩ := isFinite_iff.1 finite
  have same := (beq_iff.1 h).2
  rw [hy] at same
  cases ha : a.value with
  | finite x =>
    have same : x.toRat = y.toRat := by simpa [ha, Value.point] using same
    exact ⟨isFinite_iff.2 ⟨x, ha⟩, by rw [toReal_of_value ha, toReal_of_value hy, same]⟩
  | undefined negative fraction => cases negative <;> simp [ha, Value.point] at same
  | _ => simp [ha, Value.point, Value.rank] at same

end Number

namespace Term

section Values

variable {assignment : String → ℝ} {op : Variadic} {ts : List Term} {t l r : Term}

theorem valuesAt_eq_map (ts : List Term) :
    valuesAt assignment ts = ts.map (valueAt assignment) := by
  induction ts with
  | nil => rfl
  | cons t ts ih => rw [valuesAt, ih, List.map_cons]

variable (assignment) in
theorem valueAt_variadic (op : Variadic) (ts : List Term) :
    (variadic op ts).valueAt assignment = op.joinAll (ts.map (valueAt assignment)) := by
  rw [valueAt, valuesAt_eq_map]

variable (assignment) in
theorem valueAt_difference (l r : Term) :
    (difference l r).valueAt assignment = l.valueAt assignment - r.valueAt assignment := by
  rw [valueAt]

variable (assignment) in
theorem valueAt_quotient (l r : Term) :
    (quotient l r).valueAt assignment = l.valueAt assignment / r.valueAt assignment := by
  rw [valueAt]

variable (assignment) in
theorem valueAt_power (b e : Term) :
    (power b e).valueAt assignment = b.valueAt assignment ^ e.valueAt assignment := by
  rw [valueAt]

variable (assignment) in
theorem valueAt_root (r n : Term) :
    (root r n).valueAt assignment = r.valueAt assignment ^ (1 / n.valueAt assignment) := by
  rw [valueAt]

@[simp] theorem valueAt_int (i : Int64) : (int i).valueAt assignment = i.toInt := by
  rw [valueAt, Number.toReal_int]

theorem hasValueAt_int (i : Int64) : (int i).HasValueAt assignment := .constant rfl

theorem hasValueAt_variadic_iff :
    (variadic op ts).HasValueAt assignment ↔ ∀ t ∈ ts, t.HasValueAt assignment := by
  constructor
  · intro h
    cases h with
    | variadic op operands => exact operands
  · exact .variadic op

/-- Terms with a value are without placeholders. -/
theorem HasValueAt.isGround (h : t.HasValueAt assignment) : t.isGround := by
  induction h with
  | variadic op operands ih => exact isGround_variadic.2 ih
  | difference _ _ ihl ihr => exact isGround_binary.2 ⟨ihl, ihr⟩
  | quotient _ _ _ ihl ihr => exact isGround_binary.2 ⟨ihl, ihr⟩
  | power _ _ _ ihl ihr => exact isGround_binary.2 ⟨ihl, ihr⟩
  | root _ _ _ _ ihl ihr => exact isGround_binary.2 ⟨ihl, ihr⟩
  | _ => rfl

/-- So are they without undefined constants. -/
theorem HasValueAt.isDefined (h : t.HasValueAt assignment) : t.isDefined := by
  induction h with
  | constant finite => simpa using Number.isDefined_of_isFinite finite
  | var name => rfl
  | variadic op operands ih => exact isDefined_variadic.2 ih
  | difference _ _ ihl ihr => exact isDefined_binary.2 ⟨ihl, ihr⟩
  | quotient _ _ _ ihl ihr => exact isDefined_binary.2 ⟨ihl, ihr⟩
  | power _ _ _ ihl ihr => exact isDefined_binary.2 ⟨ihl, ihr⟩
  | root _ _ _ _ ihl ihr => exact isDefined_binary.2 ⟨ihl, ihr⟩

/-- The parts of an operation that has a value have values. -/
theorem HasValueAt.operands {o : Binary} (h : (binary o l r).HasValueAt assignment) :
    l.HasValueAt assignment ∧ r.HasValueAt assignment := by
  cases h with
  | difference left right => exact ⟨left, right⟩
  | quotient left right => exact ⟨left, right⟩
  | power base exponent => exact ⟨base, exponent⟩
  | root radicand index => exact ⟨radicand, index⟩

theorem HasValueAt.of_mem_subterms {u : Term} (h : t.HasValueAt assignment)
    (mem : u ∈ t.subterms) : u.HasValueAt assignment := by
  induction t using Term.induction with
  | variadic op ts ih =>
    rcases mem_subterms_variadic.1 mem with rfl | ⟨t, operand, mem⟩
    · exact h
    · exact ih t operand (hasValueAt_variadic_iff.1 h t operand) mem
  | binary o l r ihl ihr =>
    rcases mem_subterms_binary.1 mem with rfl | mem | mem
    · exact h
    · exact ihl h.operands.1 mem
    · exact ihr h.operands.2 mem
  | _ =>
    obtain rfl : u = _ := by simpa [subterms] using mem
    exact h

/-- What equals an integer has its value. -/
theorem valueAt_of_isNumber {i : Int64} (h : t.isNumber i) :
    t.HasValueAt assignment ∧ t.valueAt assignment = i.toInt := by
  cases t with
  | constant value =>
    obtain ⟨finite, same⟩ := Number.toReal_eq_of_beq (b := .int i) rfl h
    exact ⟨.constant finite, by rw [valueAt, same, Number.toReal_int]⟩
  | _ => cases h

theorem valueAt_eq_zero (h : t.isNumber 0) : t.valueAt assignment = 0 := by
  simpa using (valueAt_of_isNumber h).2

theorem valueAt_eq_one (h : t.isNumber 1) : t.valueAt assignment = 1 := by
  simpa using (valueAt_of_isNumber h).2

/-- Operands with the same values make an operation with the same value. -/
theorem valueAt_binary_congr {o : Binary} {l' r' : Term} (h : (binary o l r).HasValueAt assignment)
    (left : l'.HasValueAt assignment ∧ l'.valueAt assignment = l.valueAt assignment)
    (right : r'.HasValueAt assignment ∧ r'.valueAt assignment = r.valueAt assignment) :
    (binary o l' r').HasValueAt assignment ∧
      (binary o l' r').valueAt assignment = (binary o l r).valueAt assignment := by
  obtain ⟨hl, sameLeft⟩ := left
  obtain ⟨hr, sameRight⟩ := right
  cases h with
  | difference => exact ⟨.difference hl hr, by rw [valueAt, valueAt, sameLeft, sameRight]⟩
  | quotient _ _ nonzero =>
    exact ⟨.quotient hl hr (sameRight ▸ nonzero), by rw [valueAt, valueAt, sameLeft, sameRight]⟩
  | power _ _ isPower =>
    refine ⟨.power hl hr ?_, by rw [valueAt, valueAt, sameLeft, sameRight]⟩
    rwa [sameLeft, sameRight]
  | root _ _ nonzero isPower =>
    refine ⟨.root hl hr (sameRight ▸ nonzero) ?_, by rw [valueAt, valueAt, sameLeft, sameRight]⟩
    rwa [sameLeft, sameRight]

/-- Equal terms have the same value, if one of them has one. -/
theorem valueAt_of_equal {u : Term} (hasValue : t.HasValueAt assignment) (h : equal t u) :
    u.HasValueAt assignment ∧ u.valueAt assignment = t.valueAt assignment := by
  induction t using Term.induction generalizing u with
  | constant value =>
    cases equalAtRoot_of_equal (equal_symm h) with
    | constant same =>
      cases hasValue with
      | constant finite =>
        obtain ⟨finite', same⟩ := Number.toReal_eq_of_beq finite same
        exact ⟨.constant finite', by rw [valueAt, valueAt, same]⟩
  | var name =>
    obtain rfl := equal_var_iff.1 h
    exact ⟨.var name, rfl⟩
  | placeholder name kind => cases hasValue
  | variadic op ts ih =>
    have operands := hasValueAt_variadic_iff.1 hasValue
    have defined := hasValue.isDefined
    cases equalAtRoot_of_equal h with
    | @variadic _ _ us =>
      have pairs := (equal_variadic_iff_equalOperands (isDefined_variadic.1 defined)
        (isDefined_variadic.1 (isDefined_of_equal defined h))).1 h
      refine ⟨.variadic op fun u mem => ?_, ?_⟩
      · obtain ⟨t, operand, same⟩ := Multiset.exists_mem_of_rel_of_mem (Multiset.rel_flip.2 pairs)
          (Multiset.mem_coe.2 mem)
        exact (ih t (Multiset.mem_coe.1 operand) (operands t operand) same).1
      · rw [valueAt_variadic, valueAt_variadic]
        refine (Variadic.joinAll_perm op (perm_map_of_equalOperands pairs ?_)).symm
        exact fun t mem u _ same => (ih t mem (operands t mem) same).2.symm
  | binary o l r ihl ihr =>
    cases equalAtRoot_of_equal h with
    | binary o left right =>
      exact valueAt_binary_congr hasValue (ihl hasValue.operands.1 left)
        (ihr hasValue.operands.2 right)

end Values

end Term

end InequalityChaining

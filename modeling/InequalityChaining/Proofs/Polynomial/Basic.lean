import Mathlib.Algebra.BigOperators.Group.List.Lemmas
import Mathlib.Algebra.BigOperators.Ring.List
import Mathlib.Algebra.Order.BigOperators.Group.List
import Mathlib.Algebra.Order.BigOperators.GroupWithZero.List
import Mathlib.Algebra.Order.Ring.Int
import Mathlib.Data.Int.Cast.Lemmas
import InequalityChaining.Proofs.Term.EqualityLaws
import InequalityChaining.Proofs.Term.Parts

/-!
# Integer polynomials

The terms of integer constants, variables, sums, products, differences and powers with positive
integers as exponents are polynomials with integer coefficients. They have a value in every
commutative ring. Two numbers bound what computing with such a term can lead to: its magnitude is
the value of the term with all signs positive and all variables one, and no less than one; its
degree is the largest product of exponents that stand in each other.

Simplification leaves this class for a while: a power of a power becomes a power whose exponent is
a product, and only later passes multiply it out. All notions are therefore stated for exponents
that are products of positive integers.

## Main definitions

* `PolynomialOver`, `IsPolynomial`, `IsPowerFree` — polynomials, by what may stand as an exponent
* `IsExponent` — nested products of positive integers
* `Term.valueIn` — the value of a term in a commutative ring
* `Term.integerValue` — the value of a term without variables
* `Term.magnitude`, `Term.degree` — the bounds

## Main results

* `Term.valueIn_of_isConstant` — a term without variables has the same integer value everywhere
* `Term.natAbs_integerValue_le` — it is at most the magnitude
-/

namespace InequalityChaining

namespace Variadic

section Join

variable {R : Type*} [CommSemiring R]

/-- The operation in a commutative semiring. -/
def join : Variadic → R → R → R
  | sum, a, b => a + b
  | product, a, b => a * b

/-- The operation on a list of elements of a commutative semiring. -/
def joinAll : Variadic → List R → R
  | sum, as => as.sum
  | product, as => as.prod

theorem joinAll_cons (op : Variadic) (a : R) (as : List R) :
    op.joinAll (a :: as) = op.join a (op.joinAll as) := by
  cases op with
  | sum => exact List.sum_cons
  | product => exact List.prod_cons

theorem joinAll_append (op : Variadic) (as bs : List R) :
    op.joinAll (as ++ bs) = op.join (op.joinAll as) (op.joinAll bs) := by
  cases op with
  | sum => exact List.sum_append
  | product => exact List.prod_append

theorem join_assoc (op : Variadic) (a b c : R) :
    op.join (op.join a b) c = op.join a (op.join b c) := by
  cases op with
  | sum => exact add_assoc a b c
  | product => exact mul_assoc a b c

theorem join_comm (op : Variadic) (a b : R) : op.join a b = op.join b a := by
  cases op with
  | sum => exact add_comm a b
  | product => exact mul_comm a b

theorem joinAll_perm (op : Variadic) {as bs : List R} (h : as.Perm bs) :
    op.joinAll as = op.joinAll bs := by
  cases op with
  | sum => exact h.sum_eq
  | product => exact h.prod_eq

/-- The elements that satisfy a predicate come before the others. -/
theorem joinAll_partition {α : Type*} (op : Variadic) (p : α → Bool) (f : α → R) (as : List α) :
    op.joinAll (as.map f) =
      op.join (op.joinAll ((as.filter p).map f))
        (op.joinAll ((as.filter fun a => !p a).map f)) := by
  rw [← joinAll_append, ← List.map_append]
  exact joinAll_perm op ((List.filter_append_perm p as).symm.map f)

theorem map_joinAll {S : Type*} [CommSemiring S] (f : R →+* S) (op : Variadic) (as : List R) :
    f (op.joinAll as) = op.joinAll (as.map f) := by
  cases op with
  | sum => exact map_list_sum f as
  | product => exact map_list_prod f as

end Join

/-- Both operations on natural numbers are monotone. -/
theorem join_le_join (op : Variadic) {a b c d : ℕ} (hac : a ≤ c) (hbd : b ≤ d) :
    op.join a b ≤ op.join c d := by
  cases op with
  | sum => exact Nat.add_le_add hac hbd
  | product => exact Nat.mul_le_mul hac hbd

theorem joinAll_le_joinAll {α : Type*} (op : Variadic) {f g : α → ℕ} {as : List α}
    (h : ∀ a ∈ as, f a ≤ g a) : op.joinAll (as.map f) ≤ op.joinAll (as.map g) := by
  induction as with
  | nil => exact le_rfl
  | cons a as ih =>
    rw [List.map_cons, List.map_cons, joinAll_cons, joinAll_cons]
    exact op.join_le_join (h a List.mem_cons_self)
      (ih fun b mem => h b (List.mem_cons_of_mem a mem))

/-- What nothing smaller than one is added to or multiplied with does not become smaller. -/
theorem le_join_joinAll {α : Type*} (op : Variadic) (n : ℕ) {f : α → ℕ} (as : List α)
    (positive : ∀ a, 1 ≤ f a) : n ≤ op.join n (op.joinAll (as.map f)) := by
  cases op with
  | sum => exact Nat.le_add_right _ _
  | product =>
    have one : 1 ≤ (as.map f).prod := List.one_le_prod (by simpa using fun a _ => positive a)
    exact Nat.le_mul_of_pos_right n one

theorem joinAll_filter_le {α : Type*} (op : Variadic) (p : α → Bool) {f : α → ℕ} {as : List α}
    (positive : ∀ a, 1 ≤ f a) :
    op.joinAll ((as.filter p).map f) ≤ op.joinAll (as.map f) := by
  rw [op.joinAll_partition p f as]
  exact op.le_join_joinAll _ _ positive

theorem natAbs_join_le (op : Variadic) (a b : ℤ) :
    (op.join a b).natAbs ≤ op.join a.natAbs b.natAbs := by
  cases op with
  | sum => exact Int.natAbs_add_le a b
  | product => exact (Int.natAbs_mul a b).le

theorem natAbs_joinAll_le (op : Variadic) (as : List ℤ) :
    (op.joinAll as).natAbs ≤ op.joinAll (as.map Int.natAbs) := by
  induction as with
  | nil => cases op <;> exact le_rfl
  | cons a as ih =>
    rw [List.map_cons, joinAll_cons, joinAll_cons]
    exact (op.natAbs_join_le a _).trans (op.join_le_join le_rfl ih)

end Variadic

namespace Term

mutual

/-- The value of an exponent. -/
def exponentValue : Term → ℕ
  | constant (.int i) => i.toInt.toNat
  | variadic op operands => op.joinAll (exponentValues operands)
  | _ => 0

/-- The values of a list of exponents. -/
def exponentValues : List Term → List ℕ
  | [] => []
  | t :: ts => exponentValue t :: exponentValues ts

end

mutual

/-- The value of a polynomial in a commutative ring. -/
def valueIn {R : Type*} [CommRing R] (assignment : String → R) : Term → R
  | constant (.int i) => (i.toInt : R)
  | var name => assignment name
  | variadic op operands => op.joinAll (valuesIn assignment operands)
  | difference left right => valueIn assignment left - valueIn assignment right
  | power base exponent => valueIn assignment base ^ exponentValue exponent
  | _ => 0

/-- The values of a list of polynomials. -/
def valuesIn {R : Type*} [CommRing R] (assignment : String → R) : List Term → List R
  | [] => []
  | t :: ts => valueIn assignment t :: valuesIn assignment ts

end

mutual

/-- The value of a polynomial without signs at one, where nothing counts for less than one. -/
def magnitude : Term → ℕ
  | constant (.int i) => max 1 i.toInt.natAbs
  | variadic op operands => max 1 (op.joinAll (magnitudes operands))
  | difference left right => max 1 (magnitude left + magnitude right)
  | power base exponent => magnitude base ^ exponentValue exponent
  | _ => 1

/-- The magnitudes of a list of polynomials. -/
def magnitudes : List Term → List ℕ
  | [] => []
  | t :: ts => magnitude t :: magnitudes ts

end

mutual

/-- The largest product of exponents of powers that stand in the bases of each other. -/
def degree : Term → ℕ
  | variadic _ operands => maxDegree operands
  | difference left right => max (degree left) (degree right)
  | power base exponent => exponentValue exponent * degree base
  | _ => 1

/-- The largest degree in a list of polynomials, and at least one. -/
def maxDegree : List Term → ℕ
  | [] => 1
  | t :: ts => max (degree t) (maxDegree ts)

end

/-- The value of a polynomial where all variables are zero. Without variables, that is its value. -/
def integerValue (t : Term) : ℤ := t.valueIn fun _ => 0

@[simp] theorem exponentValues_eq_map (ts : List Term) :
    exponentValues ts = ts.map exponentValue := by
  induction ts with
  | nil => rfl
  | cons t ts ih => simp [exponentValues, ih]

@[simp] theorem magnitudes_eq_map (ts : List Term) : magnitudes ts = ts.map magnitude := by
  induction ts with
  | nil => rfl
  | cons t ts ih => simp [magnitudes, ih]

@[simp] theorem valuesIn_eq_map {R : Type*} [CommRing R] (assignment : String → R)
    (ts : List Term) : valuesIn assignment ts = ts.map (valueIn assignment) := by
  induction ts with
  | nil => rfl
  | cons t ts ih => simp [valuesIn, ih]

end Term

open Term

/-! ### Polynomials -/

/-- The polynomials with exponents of a kind. -/
inductive PolynomialOver (Exponent : Term → Prop) : Term → Prop where
  | int (i : Int64) : PolynomialOver Exponent (int i)
  | var (name : String) : PolynomialOver Exponent (var name)
  | variadic (op : Variadic) {ts : List Term} (h : ∀ t ∈ ts, PolynomialOver Exponent t) :
      PolynomialOver Exponent (variadic op ts)
  | difference {l r : Term} (hl : PolynomialOver Exponent l) (hr : PolynomialOver Exponent r) :
      PolynomialOver Exponent (difference l r)
  | power {b e : Term} (hb : PolynomialOver Exponent b) (he : Exponent e) :
      PolynomialOver Exponent (power b e)

/-- Nested products of positive integers. -/
inductive IsExponent : Term → Prop where
  | int {i : Int64} (positive : 1 ≤ i.toInt) : IsExponent (int i)
  | product {ts : List Term} (h : ∀ t ∈ ts, IsExponent t) : IsExponent (product ts)

/-- The polynomials whose exponents are positive integer constants. -/
def IsPolynomial : Term → Prop := PolynomialOver fun e => ∃ n : Int64, 1 ≤ n.toInt ∧ e = int n

/-- The polynomials without powers. -/
abbrev IsPowerFree : Term → Prop := PolynomialOver fun _ => False

section Polynomial

variable {P Q : Term → Prop} {t e : Term}

theorem polynomialOver_variadic {op : Variadic} {ts : List Term} :
    PolynomialOver P (variadic op ts) ↔ ∀ t ∈ ts, PolynomialOver P t := by
  constructor
  · intro h
    cases h with
    | variadic op operands => exact operands
  · intro operands
    exact .variadic op operands

theorem polynomialOver_difference {l r : Term} :
    PolynomialOver P (difference l r) ↔ PolynomialOver P l ∧ PolynomialOver P r := by
  constructor
  · intro h
    cases h with
    | difference hl hr => exact ⟨hl, hr⟩
  · rintro ⟨hl, hr⟩
    exact .difference hl hr

theorem polynomialOver_power {b e : Term} :
    PolynomialOver P (power b e) ↔ PolynomialOver P b ∧ P e := by
  constructor
  · intro h
    cases h with
    | power hb he => exact ⟨hb, he⟩
  · rintro ⟨hb, he⟩
    exact .power hb he

theorem PolynomialOver.mono (h : PolynomialOver P t) (le : ∀ e, P e → Q e) :
    PolynomialOver Q t := by
  induction h with
  | int i => exact .int i
  | var name => exact .var name
  | variadic op _ ih => exact .variadic op ih
  | difference _ _ ihl ihr => exact .difference ihl ihr
  | power _ he ihb => exact .power ihb (le _ he)

theorem IsPolynomial.polynomialOver (h : IsPolynomial t) : PolynomialOver IsExponent t := by
  refine PolynomialOver.mono h ?_
  rintro e ⟨n, positive, rfl⟩
  exact .int positive

theorem IsPowerFree.polynomialOver (h : IsPowerFree t) : PolynomialOver P t :=
  h.mono fun _ => False.elim

theorem IsExponent.polynomialOver (h : IsExponent e) : PolynomialOver IsExponent e := by
  induction h with
  | @int i positive => exact .int i
  | product _ ih => exact .variadic .product ih

theorem IsExponent.isConstant (h : IsExponent e) : e.isConstant := by
  induction h with
  | int positive => rfl
  | product _ ih => exact isConstant_variadic.2 ih

theorem PolynomialOver.isGround (h : PolynomialOver IsExponent t) : t.isGround := by
  induction h with
  | int i => rfl
  | var name => rfl
  | variadic op _ ih => exact isGround_variadic.2 ih
  | difference _ _ ihl ihr => exact isGround_binary.2 ⟨ihl, ihr⟩
  | power _ he ihb => exact isGround_binary.2 ⟨ihb, isGround_of_isConstant he.isConstant⟩

/-- The parts of a polynomial are polynomials, if those of its exponents are. -/
theorem PolynomialOver.of_mem_subterms {u : Term} (h : PolynomialOver P t)
    (exponents : ∀ e, P e → u ∈ e.subterms → PolynomialOver P u) (mem : u ∈ t.subterms) :
    PolynomialOver P u := by
  induction h with
  | int i =>
    obtain rfl : u = Term.int i := by simpa [subterms] using mem
    exact .int i
  | var name =>
    obtain rfl : u = Term.var name := by simpa [subterms] using mem
    exact .var name
  | variadic op operands ih =>
    rcases mem_subterms_variadic.1 mem with rfl | ⟨t, operand, mem⟩
    · exact .variadic op operands
    · exact ih t operand mem
  | difference hl hr ihl ihr =>
    rcases mem_subterms_binary.1 mem with rfl | mem | mem
    · exact .difference hl hr
    · exact ihl mem
    · exact ihr mem
  | power hb he ihb =>
    rcases mem_subterms_binary.1 mem with rfl | mem | mem
    · exact .power hb he
    · exact ihb mem
    · exact exponents _ he mem

theorem IsExponent.of_mem_subterms {u : Term} (h : IsExponent e) (mem : u ∈ e.subterms) :
    IsExponent u := by
  induction h with
  | @int i positive =>
    obtain rfl : u = Term.int i := by simpa [subterms] using mem
    exact .int positive
  | product operands ih =>
    rcases mem_subterms_variadic.1 mem with rfl | ⟨t, operand, mem⟩
    · exact .product operands
    · exact ih t operand mem

/-- All constants of a polynomial are integers. -/
theorem PolynomialOver.exists_int (h : PolynomialOver IsExponent t) {c : Number}
    (mem : constant c ∈ t.subterms) : ∃ i, c = .int i := by
  have part : PolynomialOver IsExponent (constant c) :=
    h.of_mem_subterms (fun _ he mem => (he.of_mem_subterms mem).polynomialOver) mem
  cases part with
  | int i => exact ⟨i, rfl⟩

end Polynomial

/-! ### Bounds -/

namespace Term

section Bounds

variable {t e : Term} {ts us : List Term} {op : Variadic}

theorem one_le_exponentValue (h : IsExponent e) : 1 ≤ e.exponentValue := by
  induction h with
  | @int i positive =>
    simp only [exponentValue]
    omega
  | @product ts _ ih =>
    simp only [exponentValue, exponentValues_eq_map, Variadic.joinAll]
    exact List.one_le_prod (by simpa using ih)

theorem one_le_magnitude (t : Term) : 1 ≤ t.magnitude := by
  induction t using Term.induction with
  | constant value => cases value <;> simp [magnitude]
  | variadic op ts _ => exact le_max_left _ _
  | binary op l r ihl _ =>
    cases op with
    | difference => exact le_max_left _ _
    | power => exact Nat.one_le_pow _ _ ihl
    | _ => simp [magnitude]
  | _ => simp [magnitude]

theorem one_le_maxDegree (ts : List Term) : 1 ≤ maxDegree ts := by
  induction ts with
  | nil => exact le_rfl
  | cons t ts ih => exact ih.trans (le_max_right _ _)

theorem one_le_degree (h : PolynomialOver IsExponent t) : 1 ≤ t.degree := by
  induction h with
  | variadic op _ _ => exact one_le_maxDegree _
  | difference _ _ ihl _ => exact ihl.trans (le_max_left _ _)
  | power _ he ihb => exact Nat.mul_pos (one_le_exponentValue he) ihb
  | _ => simp [degree]

theorem maxDegree_le_iff {n : ℕ} : maxDegree ts ≤ n ↔ 1 ≤ n ∧ ∀ t ∈ ts, t.degree ≤ n := by
  induction ts with
  | nil => simp [maxDegree]
  | cons t ts ih =>
    rw [maxDegree, max_le_iff, ih, List.forall_mem_cons]
    tauto

theorem degree_le_maxDegree (mem : t ∈ ts) : t.degree ≤ maxDegree ts :=
  (maxDegree_le_iff.1 le_rfl).2 t mem

/-- The magnitude of an exponent is its value. -/
theorem magnitude_of_isExponent (h : IsExponent e) : e.magnitude = e.exponentValue := by
  induction h with
  | @int i positive =>
    simp only [magnitude, exponentValue]
    omega
  | @product ts h ih =>
    have value := one_le_exponentValue (.product h)
    rw [exponentValue, exponentValues_eq_map] at value
    rw [magnitude, exponentValue, magnitudes_eq_map, exponentValues_eq_map,
      List.map_congr_left ih, max_eq_right value]

theorem degree_of_isExponent (h : IsExponent e) : e.degree = 1 := by
  induction h with
  | int positive => rfl
  | product _ ih =>
    refine le_antisymm (maxDegree_le_iff.2 ⟨le_rfl, fun t mem => (ih t mem).le⟩) ?_
    exact one_le_maxDegree _

/-! ### Values of terms without variables -/

theorem valueIn_of_isConstant {R : Type*} [CommRing R] (h : t.isConstant)
    (assignment : String → R) : t.valueIn assignment = (t.integerValue : R) := by
  unfold integerValue
  induction t using Term.induction with
  | constant value => cases value <;> simp [valueIn]
  | var name => simp at h
  | placeholder name kind => simp at h
  | variadic op ts ih =>
    -- the integers are mapped to the ring by a homomorphism, which both operations respect
    have operands : ts.map (valueIn assignment) =
        (ts.map (valueIn fun _ => (0 : ℤ))).map (Int.castRingHom R) := by
      rw [List.map_map]
      exact List.map_congr_left fun t mem => ih t mem (isConstant_variadic.1 h t mem)
    rw [valueIn, valueIn, valuesIn_eq_map, valuesIn_eq_map, operands, ← Variadic.map_joinAll]
    rfl
  | binary op l r ihl ihr =>
    obtain ⟨hl, hr⟩ := isConstant_binary.1 h
    cases op <;> simp [valueIn, ihl hl, ihr hr]

theorem integerValue_variadic (op : Variadic) (ts : List Term) :
    (variadic op ts).integerValue = op.joinAll (ts.map integerValue) := by
  rw [integerValue, valueIn, valuesIn_eq_map]
  rfl

/-- The value is no larger than the magnitude. -/
theorem natAbs_integerValue_le (t : Term) : t.integerValue.natAbs ≤ t.magnitude := by
  unfold integerValue
  induction t using Term.induction with
  | constant value => cases value <;> simp [valueIn, magnitude]
  | variadic op ts ih =>
    rw [valueIn, valuesIn_eq_map, magnitude, magnitudes_eq_map]
    calc (op.joinAll (ts.map (valueIn fun _ => (0 : ℤ)))).natAbs
        ≤ op.joinAll ((ts.map (valueIn fun _ => (0 : ℤ))).map Int.natAbs) :=
          op.natAbs_joinAll_le _
      _ = op.joinAll (ts.map (Int.natAbs ∘ valueIn fun _ => (0 : ℤ))) := by rw [List.map_map]
      _ ≤ op.joinAll (ts.map magnitude) := op.joinAll_le_joinAll ih
      _ ≤ max 1 (op.joinAll (ts.map magnitude)) := le_max_right _ _
  | binary op l r ihl ihr =>
    cases op with
    | difference =>
      simp only [valueIn, magnitude]
      omega
    | power =>
      rw [valueIn, magnitude, Int.natAbs_pow]
      exact Nat.pow_le_pow_left ihl _
    | _ => simp [valueIn]
  | _ => simp [valueIn]

theorem integerValue_of_isExponent (h : IsExponent e) : e.integerValue = e.exponentValue := by
  unfold integerValue
  induction h with
  | @int i positive =>
    simp only [valueIn, exponentValue]
    rw [Int.toNat_of_nonneg (by omega)]
    rfl
  | @product ts _ ih =>
    rw [valueIn, valuesIn_eq_map, exponentValue, exponentValues_eq_map, List.map_congr_left ih,
      ← Nat.coe_castRingHom, Variadic.map_joinAll, List.map_map]
    rfl

end Bounds

end Term

end InequalityChaining

import Mathlib.Order.WithBot
import InequalityChaining.Proofs.Number.FloatOrder

/-!
# Numbers are compared exactly

Every number other than those without a value has a position on the rational line extended by its
two ends. Numbers are equal exactly if their positions are, and their order is that of positions.
The comparison in machine arithmetic agrees: rounding hides no difference between an integer and a
real, not where integers are further apart than reals nor where the conversion leaves the range of
integers.

## Main definitions

* `Number.position` — the position of a number on the extended line

## Main results

* `Number.equalByFloats_eq`, `Number.orderByFloats_eq` — machine arithmetic compares exactly
* `Number.comparison_exact` — equality and order are those of positions
-/

namespace InequalityChaining

namespace Number

variable {a b : Number} {i j : Int64} {x y : Real64}

/-! ### Positions -/

/-- The position on the extended line: the exact value, or an end of the line. What has no value
has no position either, and is put at the end on its side. -/
def Value.position : Value → WithBot (WithTop ℚ)
  | negInfinity => ⊥
  | finite v => ((v.toRat : WithTop ℚ) : WithBot (WithTop ℚ))
  | posInfinity => ((⊤ : WithTop ℚ) : WithBot (WithTop ℚ))
  | undefined negative _ => if negative then ⊥ else ((⊤ : WithTop ℚ) : WithBot (WithTop ℚ))

/-- The position of a number on the extended line. -/
def position (a : Number) : WithBot (WithTop ℚ) := a.value.position

theorem position_int (i : Int64) : (int i).position = ((i.toInt : ℚ) : WithTop ℚ) := by
  rw [position, value, Value.position, ScaledInt.toRat_ofInt]

theorem position_real {negative : Bool} {m : ℕ} {e : ℤ}
    (h : Binary64.ofReal x = .finite negative m e) :
    (real x).position =
      ((((if negative then -(m : ℤ) else m : ℤ) : ℚ) * 2 ^ e : ℚ) : WithTop ℚ) := by
  rw [position, value, h]
  rfl

/-- Values are ordered by their positions. -/
theorem Value.order_eq_compare_position {v w : Value} (hv : v.isDefined) (hw : w.isDefined) :
    v.order w = compare v.position w.position := by
  have belowEnd : ∀ q : ℚ, ((q : WithTop ℚ) : WithBot (WithTop ℚ)) < (⊤ : WithTop ℚ) :=
    fun q => WithBot.coe_lt_coe.2 (WithTop.coe_lt_top q)
  cases v with
  | undefined negative fraction => cases hv
  | negInfinity =>
    cases w with
    | undefined negative fraction => cases hw
    | negInfinity => exact (compare_eq_iff_eq.2 rfl).symm
    | finite w => exact (compare_lt_iff_lt.2 (WithBot.bot_lt_coe _)).symm
    | posInfinity => exact (compare_lt_iff_lt.2 (WithBot.bot_lt_coe _)).symm
  | finite v =>
    cases w with
    | undefined negative fraction => cases hw
    | negInfinity => exact (compare_gt_iff_gt.2 (WithBot.bot_lt_coe _)).symm
    | finite w =>
      have coe : StrictMono fun q : ℚ => ((q : WithTop ℚ) : WithBot (WithTop ℚ)) :=
        fun _ _ less => WithBot.coe_lt_coe.2 (WithTop.coe_lt_coe.2 less)
      rw [order, ScaledInt.order_eq_compare, position, position, ← cmp_eq_compare,
        ← cmp_eq_compare]
      exact (coe.cmp_map_eq _ _).symm
    | posInfinity => exact (compare_lt_iff_lt.2 (belowEnd _)).symm
  | posInfinity =>
    cases w with
    | undefined negative fraction => cases hw
    | negInfinity => exact (compare_gt_iff_gt.2 (WithBot.bot_lt_coe _)).symm
    | finite w => exact (compare_gt_iff_gt.2 (belowEnd _)).symm
    | posInfinity => exact (compare_eq_iff_eq.2 rfl).symm

/-! ### Equality -/

/-- Floats are equal if the reals are. -/
theorem beq_toFloat_iff : x.toFloat == y.toFloat ↔ real x == real y := by
  rw [(Real64.isOf_toFloat x).beq_iff (Real64.isOf_toFloat y)]
  constructor
  · rintro ⟨⟨defined, -⟩, same⟩
    exact (beq_iff_order defined).2 same
  · intro same
    have defined := (beq_iff.1 same).1
    exact ⟨⟨defined, (beq_iff.1 (beq_symm same)).1⟩, (beq_iff_order defined).1 same⟩

/-- An integer equals the reals that are found to be this integer. -/
theorem exactInteger?_eq_some_iff_beq : x.exactInteger? = some i ↔ int i == real x := by
  rw [int_beq_real_iff]
  by_cases finite : ∃ v, (real x).value = .finite v
  · obtain ⟨v, found⟩ := finite
    rw [Real64.exactInteger?_of_finite found]
    constructor
    · exact fun same => ⟨v, found, same⟩
    · rintro ⟨w, found', same⟩
      rwa [Value.finite.inj (found.symm.trans found')]
  · rw [Real64.exactInteger?_of_not_finite (not_exists.1 finite)]
    constructor
    · rintro ⟨⟩
    · exact fun ⟨v, found, _⟩ => absurd ⟨v, found⟩ finite

/-- Equality in machine arithmetic is exact. -/
theorem equalByFloats_eq (a b : Number) : a.equalByFloats b = (a == b) := by
  rw [Bool.eq_iff_iff]
  cases a with
  | int i =>
    cases b with
    | int j => exact beq_iff_eq.trans int_beq_int.symm
    | real x => exact beq_iff_eq.trans exactInteger?_eq_some_iff_beq
  | real x =>
    cases b with
    | int j =>
      exact (beq_iff_eq.trans exactInteger?_eq_some_iff_beq).trans ⟨beq_symm, beq_symm⟩
    | real y => exact beq_toFloat_iff

/-! ### Order -/

/-- Reals at the same place have equally much of a value. -/
theorem isDefined_of_place_eq (h : x.place = y.place) :
    (real x).isDefined = (real y).isDefined := by
  have same : (real x).order (real y) = .eq := by
    rw [Real64.order_eq_compare_place, compare_eq_iff_eq]
    exact h
  exact isDefined_congr ((Value.order_eq_iff _ _).1 same)

/-- The zeros are at a place of numbers. -/
theorem isDefined_of_place_eq_zero (h : x.place = 0) : (real x).isDefined := by
  have zero : (⟨0⟩ : Real64).place = 0 := by decide
  rw [isDefined_of_place_eq (h.trans zero.symm)]
  rfl

/-- The value that an integer with sixty-four bits is converted to. -/
theorem exists_converted (i : Int64) :
    ∃ w, (real (Float.ofInt i.toInt)).value = .finite w ∧ nearestReal i.toInt = w.toRat := by
  have range : i.toInt.natAbs ≤ 2 ^ 63 := by
    have := i.le_toInt
    have := i.toInt_lt
    omega
  obtain ⟨m, e, -, -, value⟩ := exists_value_ofInt range
  refine ⟨_, value, ?_⟩
  rw [nearestReal, if_pos range, value]

/-- The comparison of an integer with a real in machine arithmetic is exact. -/
theorem orderConverted_eq (i : Int64) (x : Real64) :
    orderConverted i x = (int i).order (real x) := by
  obtain ⟨w, converted, nearest⟩ := exists_converted i
  have defined := Real64.isDefined_finite converted
  have compared :=
    (Real64.isOf_ofFloat (Float.ofInt i.toInt)).partialOrder_eq (Real64.isOf_toFloat x)
  -- both sides compare the converted integer first, each kind of real has its own result
  rw [order_eq_orderByRounding isRounding_nearestReal, orderConverted, compared]
  cases found : (real x).value with
  | finite v =>
    rw [if_pos ⟨defined, Real64.isDefined_finite found⟩, Real64.order_finite converted found,
      orderByRounding, nearest, Real64.exactInteger?_of_finite found]
    cases compare w.toRat v.toRat with
    | eq =>
      dsimp only
      cases exactInteger? v.toRat with
      | some j => exact Real64.compare_eq_compare_toInt i j
      | none => rfl
    | _ => rfl
  | negInfinity =>
    have definedX : (real x).isDefined := congrArg Value.isDefined found
    have beyond : (real (Float.ofInt i.toInt)).order (real x) = .gt := by
      rw [order, converted, found]
      rfl
    rw [if_pos ⟨defined, definedX⟩, beyond]
    rfl
  | posInfinity =>
    have definedX : (real x).isDefined := congrArg Value.isDefined found
    have beyond : (real (Float.ofInt i.toInt)).order (real x) = .lt := by
      rw [order, converted, found]
      rfl
    rw [if_pos ⟨defined, definedX⟩, beyond]
    rfl
  | undefined negative fraction =>
    have undefined : (real x).isDefined = false := congrArg Value.isDefined found
    -- the order of patterns is used, where no zero is involved
    have elsewhere : Real64.place (Float.ofInt i.toInt) ≠ x.place := by
      intro same
      rw [isDefined_of_place_eq same, undefined] at defined
      exact Bool.false_ne_true defined
    rw [if_neg fun both => Bool.false_ne_true (undefined.symm.trans both.2)]
    dsimp only
    rw [Real64.totalOrder_eq fun same => absurd same elsewhere, order, converted, found]
    cases negative <;> rfl

/-- The order in machine arithmetic is exact. -/
theorem orderByFloats_eq (a b : Number) : a.orderByFloats b = a.order b := by
  rw [orderByFloats.eq_def, equalByFloats_eq]
  -- what is equal is settled first, and the order agrees with equality
  split_ifs with equal
  · exact ((beq_iff_order (beq_iff.1 equal).1).1 equal).symm
  cases a with
  | int i =>
    cases b with
    | int j =>
      rw [order, value, value, Value.order, ScaledInt.order_eq_compare, ScaledInt.toRat_ofInt,
        ScaledInt.toRat_ofInt, ← cmp_eq_compare, Int.cast_strictMono.cmp_map_eq, cmp_eq_compare]
      exact Real64.compare_eq_compare_toInt i j
    | real x => exact orderConverted_eq i x
  | real x =>
    cases b with
    | int j =>
      dsimp only
      rw [orderConverted_eq]
      exact Std.OrientedCmp.eq_swap.symm
    | real y =>
      refine Real64.totalOrder_eq fun same zero => equal ?_
      have defined := isDefined_of_place_eq_zero (same.trans zero)
      rw [beq_iff_order defined, Real64.order_eq_compare_place, compare_eq_iff_eq]
      exact same

/-- Equality and order are those of the exact values, for integers and reals of any size. The
comparisons in machine arithmetic find the same. -/
theorem comparison_exact (ha : a.isDefined) (hb : b.isDefined) :
    (a == b ↔ a.position = b.position) ∧ a.order b = compare a.position b.position ∧
      a.equalByFloats b = (a == b) ∧ a.orderByFloats b = a.order b := by
  have ordered : a.order b = compare a.position b.position :=
    Value.order_eq_compare_position ha hb
  refine ⟨?_, ordered, equalByFloats_eq a b, orderByFloats_eq a b⟩
  rw [beq_iff_order ha, ordered, compare_eq_iff_eq]

/-- The integer after `2 ^ 53` is converted to `2 ^ 53`, and the greatest integer to `2 ^ 63`, which
is no 64-bit integer. Neither passes for the real that it is converted to. -/
theorem comparison_exact_at_ties :
    let next : Number := int 9007199254740993
    let bound : Number := real ⟨0x4340000000000000⟩
    let greatest : Number := int Int64.maxValue
    let beyond : Number := real ⟨0x43E0000000000000⟩
    (next.isDefined ∧ bound.isDefined ∧ greatest.isDefined ∧ beyond.isDefined) ∧
      next.toFloat == bound.toFloat ∧ next.equalByFloats bound = false ∧
      next.orderByFloats bound = .gt ∧ bound.position < next.position ∧
      greatest.toFloat == beyond.toFloat ∧ greatest.equalByFloats beyond = false ∧
      greatest.orderByFloats beyond = .lt ∧ greatest.position < beyond.position := by
  intro next bound greatest beyond
  obtain ⟨-, nextOrder, nextEqual, nextFloats⟩ :=
    comparison_exact (a := next) (b := bound) rfl (by decide +kernel)
  obtain ⟨-, greatestOrder, greatestEqual, greatestFloats⟩ :=
    comparison_exact (a := greatest) (b := beyond) rfl (by decide +kernel)
  have boundReal : Binary64.ofReal ⟨0x4340000000000000⟩ = .finite false (2 ^ 52) 1 := by
    decide +kernel
  have beyondReal : Binary64.ofReal ⟨0x43E0000000000000⟩ = .finite false (2 ^ 52) 11 := by
    decide +kernel
  have nextInt : Int64.toInt 9007199254740993 = 9007199254740993 := rfl
  have greatestInt : Int64.maxValue.toInt = 9223372036854775807 := rfl
  have above : bound.position < next.position := by
    rw [position_real boundReal, position_int, nextInt, WithBot.coe_lt_coe, WithTop.coe_lt_coe]
    norm_num
  have below : greatest.position < beyond.position := by
    rw [position_real beyondReal, position_int, greatestInt, WithBot.coe_lt_coe, WithTop.coe_lt_coe]
    norm_num
  refine ⟨⟨rfl, by decide +kernel, rfl, by decide +kernel⟩, by decide +kernel,
    nextEqual.trans (by decide +kernel), nextFloats.trans (nextOrder.trans ?_), above,
    by decide +kernel, greatestEqual.trans (by decide +kernel),
    greatestFloats.trans (greatestOrder.trans ?_), below⟩
  · exact compare_gt_iff_gt.2 above
  · exact compare_lt_iff_lt.2 below

end Number

end InequalityChaining

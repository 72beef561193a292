import InequalityChaining.Proofs.Polynomial.Entry

/-!
# Rules keep balances

A rule at the root keeps the balance of a term without powers, whatever products may expose later.
At the root of a sum it keeps the entry as well. A difference of fixed value may lose its entry,
because it may be folded; but no rule makes an offset out of what is none.

## Main results

* `balance_of_step` — a rule keeps the balance
* `entry_of_sum_step` — a rule at the root of a sum keeps the entry
* `isOffset_of_step` — a rule leaves an offset only where there was one
-/

namespace InequalityChaining

open Balance Term Standard

variable {shift : Term → ℤ}

/-! ### Lists of operands -/

section Operands

variable {t : Term} {ts us : List Term} {op : Variadic}

theorem entry_neutral (op : Variadic) :
    entry shift (int op.neutral) = op.balanceOf [] := by
  rw [entry_int]
  cases op with
  | sum => rfl
  | product => exact (ofMonomial_of_isNumber (m := (1, 0)) rfl).symm

/-- The operands of an operand of the same kind may as well be operands. -/
theorem balanceOf_variadic_cons (op : Variadic) (ts : List Term) (bs : List Balance) :
    op.balanceOf (entry shift (variadic op ts) :: bs) =
      op.balanceOf (ts.map (entry shift) ++ bs) := by
  rw [← op.balanceOf_nested fun _ => isValid_of_mem_map]
  cases op with
  | sum =>
    rw [entry_sum]
    rfl
  | product =>
    rw [entry_product, Variadic.balanceOf, List.map_cons, toMonomial_widen]
    rfl

theorem balanceOf_cons_congr (op : Variadic) (t : Term)
    (h : op.balanceOf (ts.map (entry shift)) = op.balanceOf (us.map (entry shift))) :
    op.balanceOf ((t :: ts).map (entry shift)) =
      op.balanceOf ((t :: us).map (entry shift)) :=
  op.balanceOf_cons_congr _ (fun _ => isValid_of_mem_map) (fun _ => isValid_of_mem_map) h

/-- Numbers that a sum or product may leave out do not contribute to it. -/
theorem balanceOf_filter_neutral (op : Variadic) (h : ∀ t ∈ ts, IsPowerFree t) :
    op.balanceOf ((ts.filter fun t => !t.isNumber op.neutral).map (entry shift)) =
      op.balanceOf (ts.map (entry shift)) := by
  induction ts with
  | nil => rfl
  | cons t ts ih =>
    have rest := ih fun u mem => h u (List.mem_cons_of_mem t mem)
    by_cases number : t.isNumber op.neutral
    · obtain rfl := eq_int_of_isNumber (h t List.mem_cons_self).polynomialOver number
      rw [List.filter_cons_of_neg (by simp [number]), rest, List.map_cons, entry_neutral,
        op.balanceOf_nested (by simp), List.nil_append]
    · rw [List.filter_cons_of_pos (by simp [number])]
      exact balanceOf_cons_congr op t rest

theorem balanceOf_fold (op : Variadic) {v : Int64} (h : ∀ t ∈ ts, IsPowerFree t)
    (value : v.toInt = (variadic op (ts.filter isConstantNode)).integerValue)
    (perm : us.Perm (int v :: ts.filter fun t => !isConstantNode t)) :
    op.balanceOf (us.map (entry shift)) = op.balanceOf (ts.map (entry shift)) := by
  have numbers : (ts.filter isConstantNode).map (entry shift) =
      ((ts.filter isConstantNode).map integerValue).map ofNumber := by
    rw [List.map_map]
    refine List.map_congr_left fun t mem => ?_
    obtain ⟨mem, constant⟩ := List.mem_filter.1 mem
    obtain ⟨i, rfl⟩ := exists_eq_int_of_isConstantNode (h t mem).polynomialOver constant
    rw [entry_int, Function.comp_apply, integerValue, valueIn, Int.cast_id]
  have folded : entry shift (int v) =
      op.balanceOf ((ts.filter isConstantNode).map (entry shift)) := by
    rw [numbers, op.balanceOf_ofNumber, ← integerValue_variadic, ← value, entry_int]
  have parts : ts.Perm (ts.filter isConstantNode ++ ts.filter fun t => !isConstantNode t) :=
    (List.filter_append_perm isConstantNode ts).symm
  rw [op.balanceOf_perm (perm.map _), op.balanceOf_perm (parts.map _), List.map_cons, folded,
    op.balanceOf_nested fun _ => isValid_of_mem_map, List.map_append]

theorem balanceOf_flatMap_splice (op : Variadic) (ts : List Term) :
    op.balanceOf ((ts.flatMap (splice op)).map (entry shift)) =
      op.balanceOf (ts.map (entry shift)) := by
  induction ts with
  | nil => rfl
  | cons t ts ih =>
    rw [← balanceOf_cons_congr op t ih, List.flatMap_cons, List.map_append, List.map_cons]
    rcases splice_cases op t with ⟨us, rfl, spliced⟩ | ⟨-, spliced⟩
    · rw [spliced, balanceOf_variadic_cons]
    · rw [spliced]
      rfl

/-- Differences that are taken out of a sum contribute to both sides. -/
theorem entry_pullOut (ts : List Term) :
    entry shift (difference (sum (ts.map (leftPart .difference)))
      (sum (ts.filterMap (rightPart? .difference)))) = entry shift (sum ts) := by
  rw [entry_difference, entry_sum, entry_sum, entry_sum]
  induction ts with
  | nil => rfl
  | cons t ts ih =>
    simp only [List.map_cons, List.sum_cons, List.filterMap_cons, ← ih]
    rcases parts_cases .difference t with ⟨l, r, rfl, left, right⟩ | ⟨-, left, right⟩
    · simp only [left, right, List.map_cons, List.sum_cons, swap_add, entry_difference]
      exact add_add_add_comm _ _ _ _
    · simp only [left, right]
      exact add_assoc _ _ _

end Operands

/-! ### The rules -/

section Rules

variable {t u l r x y z : Term} {ts : List Term} {op : Variadic}

theorem entry_nestedLeft (x y z : Term) :
    entry shift (difference x (sum [y, z])) =
      entry shift (difference (difference x y) z) := by
  simp only [entry_difference, entry_sum, List.map_cons, List.map_nil, List.sum_cons,
    List.sum_nil, add_zero, swap_add, add_assoc]

theorem entry_nestedRight (x y z : Term) :
    entry shift (difference (sum [x, z]) y) =
      entry shift (difference x (difference y z)) := by
  simp only [entry_difference, entry_sum, List.map_cons, List.map_nil, List.sum_cons,
    List.sum_nil, add_zero, swap_add, Prod.swap_swap]
  abel

/-- A rule at the root of a sum keeps what it contributes. -/
theorem entry_of_sum_step (h : PolynomialStep (sum ts) u) (powerFree : IsPowerFree (sum ts)) :
    entry shift u = entry shift (sum ts) := by
  have operands := polynomialOver_variadic.1 powerFree
  cases h with
  | empty => exact entry_neutral .sum
  | singleton => rw [entry_sum, List.map_singleton, List.sum_singleton]
  | dropNeutral =>
    rw [entry_sum, entry_sum]
    exact balanceOf_filter_neutral .sum operands
  | fold _ two value perm =>
    rw [entry_sum, entry_sum]
    exact balanceOf_fold .sum operands value perm
  | flatten =>
    rw [entry_sum, entry_sum]
    exact balanceOf_flatMap_splice .sum ts
  | pullOut some => exact entry_pullOut ts

variable (shift) in
/-- A rule keeps the balance of a term without powers. -/
theorem balance_of_step (h : PolynomialStep t u) (powerFree : IsPowerFree t) :
    balance shift u = balance shift t := by
  have operands : ∀ {op : Variadic} {ts : List Term}, IsPowerFree (variadic op ts) →
      ∀ t ∈ ts, IsPowerFree t := fun h => polynomialOver_variadic.1 h
  cases h with
  | empty op => rw [balance_variadic, balance, entry_neutral, List.map_nil]
  | singleton op =>
    rw [balance_variadic, List.map_singleton,
      op.collapse_balanceOf_singleton (isValid_entry u), balance]
  | dropNeutral op ts =>
    rw [balance_variadic, balance_variadic, balanceOf_filter_neutral op (operands powerFree)]
  | subtractZero =>
    rw [balance, balance, entry_difference, entry_int]
    exact congrArg collapse (add_zero (entry shift u)).symm
  | @multiplyZero ts mem =>
    have zero : (product ts).fixedValue? = some 0 := by
      rw [fixedValue?_variadic, Variadic.fixedValue?_eq_some_iff]
      exact .inr ⟨rfl, List.mem_map.2 ⟨int 0, mem, fixedValue?_int 0⟩, rfl⟩
    rw [balance_of_fixedValue?_eq_some powerFree zero]
    exact balance_of_fixedValue?_eq_some (.int 0) (fixedValue?_int 0)
  | zeroBase e => exact (polynomialOver_power.1 powerFree).2.elim
  | oneBase e => exact (polynomialOver_power.1 powerFree).2.elim
  | oneExponent => exact (polynomialOver_power.1 powerFree).2.elim
  | fold op two value perm =>
    rw [balance_variadic, balance_variadic, balanceOf_fold op (operands powerFree) value perm]
  | @foldBinary op l r v constant value =>
    rw [balance_of_fixedValue?_eq_some powerFree (fixedValue?_of_isConstant powerFree constant),
      balance_of_fixedValue?_eq_some (.int v) (fixedValue?_int v), value]
  | flatten op ts => rw [balance_variadic, balance_variadic, balanceOf_flatMap_splice]
  | @pullOut ts some => exact congrArg collapse (entry_pullOut ts)
  | nestedLeft x y z => exact congrArg collapse (entry_nestedLeft x y z)
  | nestedRight x y z => exact congrArg collapse (entry_nestedRight x y z)
  | powerOfPower x y z => exact (polynomialOver_power.1 powerFree).2.elim

theorem PolynomialStep.isPowerFree (h : PolynomialStep t u) (powerFree : IsPowerFree t) :
    IsPowerFree u :=
  h.polynomialOver_of_products powerFree fun impossible _ => impossible.elim

/-- Terms with the same balance have the same fixed value. -/
theorem fixedValue?_eq_of_balance_eq (powerFreeT : IsPowerFree t) (powerFreeU : IsPowerFree u)
    (h : balance shift u = balance shift t) : u.fixedValue? = t.fixedValue? := by
  rw [fixedValue?_eq shift powerFreeT, fixedValue?_eq shift powerFreeU,
    ← number?_collapse, ← number?_collapse (b := entry shift t)]
  exact congrArg number? h

end Rules

/-! ### Offset parts -/

section Offset

variable {t u : Term} {ts us : List Term} {op : Variadic}

/-- Factors that are merged with those of a product were units if what they have become is. -/
theorem hasUnitValue_of_splice (h : ∀ u ∈ splice .product t, u.HasUnitValue) : t.HasUnitValue := by
  rcases splice_cases .product t with ⟨us, rfl, spliced⟩ | ⟨-, spliced⟩
  · exact hasUnitValue_product.2 (spliced ▸ h)
  · exact h t (by simp [spliced])

theorem isOffset_product_of_flatMap_splice
    (h : IsOffset (product (ts.flatMap (splice .product)))) : IsOffset (product ts) := by
  cases h with
  | @product t _ rest factors h units =>
    obtain ⟨s, factor, mem⟩ := List.mem_flatMap.1 (factors.mem_iff.2 List.mem_cons_self)
    obtain ⟨before, after, rfl⟩ := List.append_of_mem factor
    obtain ⟨front, back, split⟩ := List.append_of_mem mem
    have others : rest.Perm (before.flatMap (splice .product) ++ front ++
        (back ++ after.flatMap (splice .product))) := by
      refine (factors.symm.trans ?_).cons_inv
      rw [List.flatMap_append, List.flatMap_cons, split]
      have middle : ((before.flatMap (splice .product) ++ front) ++
          t :: (back ++ after.flatMap (splice .product))).Perm _ := List.perm_middle
      simpa using middle
    have isUnit : ∀ u ∈ before ++ after, u.HasUnitValue := by
      refine fun u mem => hasUnitValue_of_splice fun v part => units v (others.mem_iff.2 ?_)
      rcases List.mem_append.1 mem with mem | mem
      · simp [List.mem_flatMap.2 ⟨u, mem, part⟩]
      · simp [List.mem_flatMap.2 ⟨u, mem, part⟩]
    refine isOffset_product_append ?_ isUnit
    -- the offset factor is an operand itself or stands in one that is a product
    rcases splice_cases .product s with ⟨us, rfl, spliced⟩ | ⟨-, spliced⟩
    · rw [← spliced, split]
      exact isOffset_product_append h fun u mem => units u (others.mem_iff.2 (by
        rcases List.mem_append.1 mem with mem | mem <;> simp [mem]))
    · obtain rfl : t = s := by simpa [spliced] using mem
      exact h

/-- Constants that are multiplied to a unit are units. -/
theorem isOffset_product_of_fold {v : Int64} (powerFree : IsPowerFree (product ts))
    (value : v.toInt = (product (ts.filter isConstantNode)).integerValue)
    (perm : us.Perm (int v :: ts.filter fun t => !isConstantNode t))
    (h : IsOffset (product us)) : IsOffset (product ts) := by
  obtain ⟨before, t, after, split, h, units⟩ :=
    exists_append_of_isOffset (isOffset_product_of_perm h perm.symm)
  -- the folded constant comes first and is no offset, so the offset is one of the others
  cases before with
  | nil =>
    obtain ⟨rfl, -⟩ := List.cons.inj split
    exact absurd h not_isOffset_int
  | cons u before =>
    obtain ⟨rfl, rest⟩ := List.cons.inj split
    have others : (ts.filter fun t => !isConstantNode t) = before ++ t :: after := rest
    have constant : (product (ts.filter isConstantNode)).isConstant :=
      isConstant_variadic.2 fun t mem => isConstant_of_isConstantNode (List.mem_filter.1 mem).2
    have powerFreeFilter : IsPowerFree (product (ts.filter isConstantNode)) :=
      .variadic .product fun t mem =>
        polynomialOver_variadic.1 powerFree t (List.mem_filter.1 mem).1
    have unit : (product (ts.filter isConstantNode)).HasUnitValue := by
      obtain ⟨w, found, unit⟩ := units (int v) (by simp)
      rw [fixedValue?_int, value, ← fixedValue?_of_isConstant powerFreeFilter constant] at found
      exact ⟨w, found, unit⟩
    have parts : ts.Perm (ts.filter isConstantNode ++ before ++ t :: after) := by
      rw [List.append_assoc, ← others]
      exact (List.filter_append_perm isConstantNode ts).symm
    refine isOffset_product_of_perm (isOffset_product_append h fun u mem => ?_) parts
    rw [List.append_assoc, List.mem_append] at mem
    rcases mem with mem | mem
    · exact hasUnitValue_product.1 unit u mem
    · exact units u (List.mem_cons_of_mem _ mem)

/-- Rules leave nothing that may be taken apart where there was no such thing. -/
theorem isOffset_of_step (h : PolynomialStep t u) (powerFree : IsPowerFree t)
    (offset : IsOffset u) : IsOffset t := by
  have fixed : t.isFixed := by
    have same := balance_of_step (fun _ => 0) h powerFree
    rw [Term.isFixed, ← fixedValue?_eq_of_balance_eq powerFree (h.isPowerFree powerFree) same]
    exact offset.isFixed
  cases h with
  | singleton op =>
    cases op with
    | sum => exact .sum fixed List.mem_cons_self offset
    | product => exact .product (List.Perm.refl _) offset (by simp)
  | dropNeutral op ts =>
    cases op with
    | sum =>
      cases offset with
      | sum _ mem offset => exact .sum fixed (List.mem_filter.1 mem).1 offset
    | product =>
      cases offset with
      | @product t _ rest factors offset units =>
        have parts := (List.filter_append_perm (fun t => !t.isNumber 1) ts).symm
        refine .product (parts.trans (factors.append_right _)) offset fun u mem => ?_
        rcases List.mem_append.1 mem with mem | mem
        · exact units u mem
        · obtain ⟨mem, number⟩ := List.mem_filter.1 mem
          have operand : IsPowerFree u := polynomialOver_variadic.1 powerFree u mem
          obtain rfl := eq_int_of_isNumber operand.polynomialOver (i := 1) (by simpa using number)
          exact ⟨1, fixedValue?_int 1, isUnit_one⟩
  | subtractZero => exact .difference fixed
  | oneExponent => exact (polynomialOver_power.1 powerFree).2.elim
  | @fold op ts us v two value perm =>
    cases op with
    | sum =>
      cases offset with
      | sum _ mem offset =>
        rcases List.mem_cons.1 (perm.mem_iff.1 mem) with rfl | mem
        · exact absurd offset not_isOffset_int
        · exact .sum fixed (List.mem_filter.1 mem).1 offset
    | product => exact isOffset_product_of_fold powerFree value perm offset
  | flatten op ts =>
    cases op with
    | sum =>
      cases offset with
      | @sum u _ _ mem offset =>
        obtain ⟨t, operand, mem⟩ := List.mem_flatMap.1 mem
        refine .sum fixed operand ?_
        rcases splice_cases .sum t with ⟨us, rfl, spliced⟩ | ⟨-, spliced⟩
        · exact .sum (isFixed_sum.1 fixed _ operand) (spliced ▸ mem) offset
        · obtain rfl : u = t := by simpa [spliced] using mem
          exact offset
    | product => exact isOffset_product_of_flatMap_splice offset
  | @pullOut ts some =>
    -- a difference that is taken out has a fixed value as well
    obtain ⟨d, mem, some⟩ := some
    obtain ⟨l, r, rfl, -⟩ | ⟨none, -⟩ := parts_cases .difference d
    · exact .sum fixed mem (.difference (isFixed_sum.1 fixed _ mem))
    · simp [none] at some
  | nestedLeft x y z => exact .difference fixed
  | nestedRight x y z => exact .difference fixed
  | powerOfPower x y z => exact (polynomialOver_power.1 powerFree).2.elim
  | _ => exact absurd offset not_isOffset_int

end Offset

end InequalityChaining

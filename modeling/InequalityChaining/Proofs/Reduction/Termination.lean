import Mathlib.Data.List.Permutation
import InequalityChaining.Proofs.Reduction.Occurrence

/-!
# The standard rules come to an end

Every standard rule makes a term lighter at whatever depth it stands, as long as the unit of the
weight exceeds four times the number of the nodes of two operands, and no rule adds such a node. So
a pass makes a term lighter by at least one, and the weight of a term bounds its passes. Nothing is
used of the arithmetic of numbers but that it returns a number or an error.

## Main results

* `Standard.Reduces.weightAt_lt` — a rule makes a term lighter
* `Standard.Reduces.binaryCount_le` — a rule adds no node of two operands
* `Standard.simplify_terminates` — simplification of a ground term comes to an end
-/

open Relation (TransGen ReflTransGen)

namespace InequalityChaining

namespace Term

section Weight

variable {unit depth : Nat} {t : Term} {ts us : List Term} {op : Variadic} {o : Binary}

@[simp] theorem weightOfAll_append (unit depth : Nat) (ts us : List Term) :
    weightOfAll unit depth (ts ++ us) = weightOfAll unit depth ts + weightOfAll unit depth us := by
  induction ts with
  | nil => simp [weightOfAll]
  | cons t ts ih => simp [weightOfAll, ih, Nat.add_assoc]

@[simp] theorem binaryCountOfAll_append (ts us : List Term) :
    binaryCountOfAll (ts ++ us) = binaryCountOfAll ts + binaryCountOfAll us := by
  induction ts with
  | nil => simp [binaryCountOfAll]
  | cons t ts ih => simp [binaryCountOfAll, ih, Nat.add_assoc]

/-- Inside one more sum or product every node of two operands weighs four more. -/
theorem weightAt_succ (unit depth : Nat) (t : Term) :
    t.weightAt unit (depth + 1) = t.weightAt unit depth + 4 * t.binaryCount := by
  induction t using Term.induction generalizing depth with
  | constant value => cases value <;> rfl
  | var name => rfl
  | placeholder name kind => rfl
  | variadic op ts ih =>
    have operands : weightOfAll unit (depth + 1 + 1) ts =
        weightOfAll unit (depth + 1) ts + 4 * binaryCountOfAll ts := by
      induction ts with
      | nil => rfl
      | cons t ts ihts =>
        have first := ih t List.mem_cons_self (depth + 1)
        have rest := ihts fun u mem => ih u (List.mem_cons_of_mem _ mem)
        simp only [weightOfAll, binaryCountOfAll]
        omega
    simp only [weightAt, binaryCount]
    omega
  | binary o l r ihl ihr =>
    have left := ihl depth
    have right := ihr depth
    simp only [weightAt, binaryCount]
    omega

/-- The same for a list of terms. -/
theorem weightOfAll_succ (unit depth : Nat) (ts : List Term) :
    weightOfAll unit (depth + 1) ts = weightOfAll unit depth ts + 4 * binaryCountOfAll ts := by
  induction ts with
  | nil => rfl
  | cons t ts ih =>
    have first := weightAt_succ unit depth t
    simp only [weightOfAll, binaryCountOfAll]
    omega

/-- A larger unit makes a term no lighter, and neither does more depth. -/
theorem weightAt_mono {unit' depth' : Nat} (hu : unit ≤ unit') (hd : depth ≤ depth') (t : Term) :
    t.weightAt unit depth ≤ t.weightAt unit' depth' := by
  induction t using Term.induction generalizing depth depth' with
  | constant value => cases value <;> exact Nat.le_refl _
  | var name => exact Nat.le_refl _
  | placeholder name kind => exact Nat.le_refl _
  | variadic op ts ih =>
    have operands : weightOfAll unit (depth + 1) ts ≤ weightOfAll unit' (depth' + 1) ts := by
      induction ts with
      | nil => exact Nat.le_refl _
      | cons t ts ihts =>
        have first := ih t List.mem_cons_self (Nat.add_le_add_right hd 1)
        have rest := ihts fun u mem => ih u (List.mem_cons_of_mem _ mem)
        simp only [weightOfAll]
        omega
    simp only [weightAt]
    omega
  | binary o l r ihl ihr =>
    have left := ihl hd
    have right := ihr hd
    have node := Nat.mul_le_mul_left o.units hu
    simp only [weightAt]
    omega

theorem binaryCount_le_of_mem (mem : t ∈ ts) : t.binaryCount ≤ binaryCountOfAll ts := by
  obtain ⟨before, after, rfl⟩ := List.append_of_mem mem
  simp only [binaryCountOfAll_append, binaryCountOfAll]
  omega

theorem weightAt_le_of_mem (unit depth : Nat) (mem : t ∈ ts) :
    t.weightAt unit depth ≤ weightOfAll unit depth ts := by
  obtain ⟨before, after, rfl⟩ := List.append_of_mem mem
  simp only [weightOfAll_append, weightOfAll]
  omega

/-- A part of a term is no heavier than the term. -/
theorem weight_le_of_mem_subterms {u : Term} (mem : u ∈ t.subterms) : u.weight ≤ t.weight := by
  induction t using Term.induction with
  | variadic op ts ih =>
    rcases mem_subterms_variadic.1 mem with rfl | ⟨t, operand, mem⟩
    · exact Nat.le_refl _
    have fewer := binaryCount_le_of_mem operand
    calc u.weight ≤ t.weight := ih t operand mem
      _ ≤ t.weightAt (4 * binaryCountOfAll ts + 4) 1 := weightAt_mono (by omega) (by omega) t
      _ ≤ weightOfAll (4 * binaryCountOfAll ts + 4) 1 ts := weightAt_le_of_mem _ 1 operand
      _ ≤ (variadic op ts).weight := Nat.le_add_left _ 3
  | binary o l r ihl ihr =>
    -- both parts are weighed with the unit of the whole, which is no less than their own
    obtain ⟨unit, large, whole⟩ : ∃ unit, 4 * (l.binaryCount + r.binaryCount) + 4 ≤ unit ∧
        l.weightAt unit 0 + r.weightAt unit 0 ≤ (binary o l r).weight := by
      refine ⟨4 * (binary o l r).binaryCount + 4, by rw [binaryCount]; omega, ?_⟩
      rw [weight, weightAt]
      omega
    rcases mem_subterms_binary.1 mem with rfl | mem | mem
    · exact Nat.le_refl _
    · have left : l.weight ≤ l.weightAt unit 0 := weightAt_mono (by omega) (Nat.le_refl 0) l
      exact Nat.le_trans (ihl mem) (by omega)
    · have right : r.weight ≤ r.weightAt unit 0 := weightAt_mono (by omega) (Nat.le_refl 0) r
      exact Nat.le_trans (ihr mem) (by omega)
  | _ =>
    obtain rfl : u = _ := by simpa [subterms] using mem
    exact Nat.le_refl _

theorem two_le_weightAt (unit depth : Nat) (t : Term) : 2 ≤ t.weightAt unit depth := by
  induction t using Term.induction with
  | constant value => cases value <;> simp [weightAt]
  | variadic op ts _ => simp only [weightAt]; omega
  | binary o l r ihl _ => simp only [weightAt]; omega
  | _ => simp [weightAt]

theorem four_le_weightAt_binary (unit depth : Nat) (o : Binary) (l r : Term) :
    4 ≤ (binary o l r).weightAt unit depth := by
  have left := two_le_weightAt unit depth l
  have right := two_le_weightAt unit depth r
  simp only [weightAt]
  omega

/-- An operation weighs more than its left operand alone. -/
theorem weightAt_left_lt (unit depth : Nat) (o : Binary) (l r : Term) :
    l.weightAt unit depth < (binary o l r).weightAt unit depth := by
  have right := two_le_weightAt unit depth r
  simp only [weightAt]
  omega

/-- Two terms that come together in a sum or product are one level deeper than before. -/
theorem weightOfAll_pair_succ (unit depth : Nat) (t u : Term) :
    weightOfAll unit (depth + 1) [t, u] =
      t.weightAt unit depth + u.weightAt unit depth + 4 * (t.binaryCount + u.binaryCount) := by
  have left := weightAt_succ unit depth t
  have right := weightAt_succ unit depth u
  simp only [weightOfAll]
  omega

theorem weightAt_constant_le (unit depth : Nat) (value : Number) :
    (constant value).weightAt unit depth ≤ 3 := by
  cases value <;> simp [weightAt]

/-- Terms that stay and terms that go weigh together what all weigh. -/
theorem weightOfAll_filter (unit depth : Nat) (p : Term → Bool) (ts : List Term) :
    weightOfAll unit depth (ts.filter p) + weightOfAll unit depth (ts.filter fun t => !p t) =
      weightOfAll unit depth ts := by
  induction ts with
  | nil => rfl
  | cons t ts ih =>
    cases h : p t <;> simp only [List.filter_cons, h, weightOfAll] <;> simp [weightOfAll] <;> omega

theorem binaryCountOfAll_filter_le (p : Term → Bool) (ts : List Term) :
    binaryCountOfAll (ts.filter p) ≤ binaryCountOfAll ts := by
  induction ts with
  | nil => exact Nat.le_refl _
  | cons t ts ih =>
    cases h : p t <;> simp only [List.filter_cons, h, binaryCountOfAll] <;>
      simp [binaryCountOfAll] <;> omega

theorem two_mul_length_le_weightOfAll (unit depth : Nat) (ts : List Term) :
    2 * ts.length ≤ weightOfAll unit depth ts := by
  induction ts with
  | nil => exact Nat.le_refl _
  | cons t ts ih =>
    have := two_le_weightAt unit depth t
    simp only [weightOfAll, List.length_cons]
    omega

/-- Two numbers weigh more than the one that takes their place. -/
theorem weightOfAll_fold_lt (unit depth : Nat) (value : Number) {ts : List Term}
    (two : 2 ≤ (ts.filter Standard.isConstantNode).length) :
    weightOfAll unit depth (ts.filter fun t => !Standard.isConstantNode t) +
      (constant value).weightAt unit depth < weightOfAll unit depth ts := by
  have all := weightOfAll_filter unit depth Standard.isConstantNode ts
  have constants := two_mul_length_le_weightOfAll unit depth (ts.filter Standard.isConstantNode)
  have one := weightAt_constant_le unit depth value
  omega

/-- Splicing loses the node of every operand that is spliced. -/
theorem weightOfAll_splice (op : Variadic) (unit depth : Nat) (ts : List Term) :
    weightOfAll unit depth (ts.flatMap (Standard.splice op)) +
        (ts.filter (Standard.isVariadic op)).length ≤ weightOfAll unit depth ts := by
  induction ts with
  | nil => exact Nat.le_refl _
  | cons t ts ih =>
    rw [List.flatMap_cons, weightOfAll_append]
    rcases Standard.splice_cases op t with ⟨us, rfl, spliced⟩ | ⟨other, spliced⟩
    · have deeper := weightOfAll_succ unit depth us
      simp only [spliced, List.filter_cons, Standard.isVariadic, beq_self_eq_true, if_true,
        List.length_cons, weightOfAll, weightAt]
      omega
    · simp only [spliced, List.filter_cons, other, weightOfAll]
      simp only [Bool.false_eq_true, if_false]
      omega

theorem binaryCountOfAll_splice (op : Variadic) (ts : List Term) :
    binaryCountOfAll (ts.flatMap (Standard.splice op)) = binaryCountOfAll ts := by
  induction ts with
  | nil => rfl
  | cons t ts ih =>
    rw [List.flatMap_cons, binaryCountOfAll_append, ih]
    rcases Standard.splice_cases op t with ⟨us, rfl, spliced⟩ | ⟨-, spliced⟩ <;>
      simp [spliced, binaryCountOfAll, binaryCount]

/-- Every inner operation that is taken out was a node among the operands. -/
theorem weightOfAll_parts (inner : Binary) (unit depth : Nat) (ts : List Term) :
    weightOfAll unit depth (ts.map (Standard.leftPart inner)) +
        weightOfAll unit depth (ts.filterMap (Standard.rightPart? inner)) +
        (ts.filterMap (Standard.rightPart? inner)).length * (inner.units * unit + 4 * depth) =
      weightOfAll unit depth ts := by
  induction ts with
  | nil => simp [weightOfAll]
  | cons t ts ih =>
    rw [List.map_cons, List.filterMap_cons]
    rcases Standard.parts_cases inner t with ⟨l, r, rfl, left, right⟩ | ⟨-, left, right⟩
    · simp only [left, right, weightOfAll, weightAt, List.length_cons]
      generalize inner.units * unit + 4 * depth = node at ih ⊢
      rw [Nat.add_one_mul]
      omega
    · simp only [left, right, weightOfAll]
      omega

theorem binaryCountOfAll_parts (inner : Binary) (ts : List Term) :
    binaryCountOfAll (ts.map (Standard.leftPart inner)) +
        binaryCountOfAll (ts.filterMap (Standard.rightPart? inner)) +
        (ts.filterMap (Standard.rightPart? inner)).length = binaryCountOfAll ts := by
  induction ts with
  | nil => rfl
  | cons t ts ih =>
    rw [List.map_cons, List.filterMap_cons]
    rcases Standard.parts_cases inner t with ⟨l, r, rfl, left, right⟩ | ⟨-, left, right⟩
    · simp only [left, right, binaryCountOfAll, binaryCount, List.length_cons]
      omega
    · simp only [left, right, binaryCountOfAll]
      omega

end Weight

end Term

namespace Standard

open Term

variable {t u : Term}

/-- No rule adds a node of two operands. -/
theorem Reduces.binaryCount_le (h : Reduces t u) : u.binaryCount ≤ t.binaryCount := by
  cases h with
  | singleton op t => simp [binaryCount, binaryCountOfAll]
  | dropNeutral op h => exact binaryCountOfAll_filter_le _ _
  | foldSum two h =>
    have := binaryCountOfAll_filter_le (fun t => !isConstantNode t)
    simpa [binaryCount, binaryCountOfAll] using this _
  | foldProduct two h =>
    have := binaryCountOfAll_filter_le (fun t => !isConstantNode t)
    simpa [binaryCount, binaryCountOfAll] using this _
  | flatten op h => exact Nat.le_of_eq (binaryCountOfAll_splice op _)
  | @pullOut op ts h =>
    have parts := binaryCountOfAll_parts op.inverse ts
    have some := length_rightParts_pos h
    simp only [binaryCount]
    omega
  | _ => simp only [binaryCount, binaryCountOfAll]; omega

/-- Every rule makes a term lighter, at whatever depth it stands. -/
theorem Reduces.weightAt_lt {unit : Nat} (h : Reduces t u) (large : 4 * t.binaryCount + 4 ≤ unit)
    (depth : Nat) : u.weightAt unit depth < t.weightAt unit depth := by
  cases h with
  | integralReal h => simp [weightAt]
  | empty op => simp [weightAt, weightOfAll]
  | singleton op =>
    have deeper := weightAt_succ unit depth u
    simp only [weightAt, weightOfAll]
    omega
  | @dropNeutral op ts h =>
    obtain ⟨n, mem, hn⟩ := h
    have all := weightOfAll_filter unit (depth + 1)
      (fun t => !t.isNumber op.neutral) ts
    -- one operand at least is left out, and it weighs something
    have dropped : 0 < (ts.filter fun t => !(!t.isNumber op.neutral)).length :=
      List.length_pos_of_mem (List.mem_filter.2 ⟨mem, by simp [hn]⟩)
    have := two_mul_length_le_weightOfAll unit (depth + 1)
      (ts.filter fun t => !(!t.isNumber op.neutral))
    simp only [weightAt]
    omega
  | multiplyZero h => simp only [weightAt]; omega
  | @foldSum ts v two h =>
    have folded := weightOfAll_fold_lt unit (depth + 1) v two
    rw [weightAt, weightAt, weightOfAll_append, weightOfAll, weightOfAll]
    omega
  | @foldProduct ts v two h =>
    have folded := weightOfAll_fold_lt unit (depth + 1) v two
    rw [weightAt, weightAt, weightOfAll]
    omega
  | @foldBinary op l r v hl hr h =>
    exact Nat.lt_of_le_of_lt (weightAt_constant_le unit depth v)
      (four_le_weightAt_binary unit depth op l r)
  | @flatten op ts h =>
    obtain ⟨t, mem, ht⟩ := h
    have spliced := weightOfAll_splice op unit (depth + 1) ts
    have : 0 < (ts.filter (isVariadic op)).length :=
      List.length_pos_of_mem (List.mem_filter.2 ⟨mem, ht⟩)
    simp only [weightAt]
    omega
  | @pullOut op ts h =>
    have parts := weightOfAll_parts op.inverse unit (depth + 1) ts
    -- as many nodes go as operations are taken out, and only one comes
    have taken := Nat.le_mul_of_pos_left (op.inverse.units * unit + 4 * (depth + 1))
      (length_rightParts_pos h)
    simp only [weightAt]
    omega
  -- one node of two operands becomes a sum or product: what is deeper now weighs less than a unit
  | nestedLeft op x y z =>
    simp only [binaryCount] at large
    simp only [weightAt, weightOfAll_pair_succ]
    cases op <;> simp only [Variadic.inverse, Binary.units] <;> omega
  | nestedRight op x y z =>
    simp only [binaryCount] at large
    simp only [weightAt, weightOfAll_pair_succ]
    cases op <;> simp only [Variadic.inverse, Binary.units] <;> omega
  | powerOfPower x y z =>
    simp only [binaryCount] at large
    simp only [weightAt, weightOfAll_pair_succ, Binary.units]
    omega
  | rootOfRoot x y z =>
    simp only [binaryCount] at large
    simp only [weightAt, weightOfAll_pair_succ, Binary.units]
    omega
  -- a root becomes a quotient, which weighs one unit less
  | powerOfRoot x y z =>
    simp only [weightAt, Binary.units]
    omega
  | rootOfPower x y z =>
    simp only [weightAt, Binary.units]
    omega
  | neutralRight op h => exact weightAt_left_lt unit depth _ _ _
  | oneExponent h => exact weightAt_left_lt unit depth _ _ _
  | firstRoot h => exact weightAt_left_lt unit depth _ _ _
  | _ =>
    -- what is left puts an integer in the place of an operation on two terms
    refine Nat.lt_of_lt_of_le ?_ (four_le_weightAt_binary unit depth _ _ _)
    simp [weightAt]

/-- A single rewriting by the standard rules makes a ground term lighter. -/
theorem lighter_of_rewrites {unit : Nat} (h : Rewrites rules t u) (ground : t.isGround)
    (large : 4 * t.binaryCount + 4 ≤ unit) :
    u.binaryCount ≤ t.binaryCount ∧ ∀ depth, u.weightAt unit depth < t.weightAt unit depth := by
  induction h with
  | root h =>
    have reduces := reduces_of_reduceRoot ground h
    exact ⟨reduces.binaryCount_le, reduces.weightAt_lt large⟩
  | @operand t u op before after _ ih =>
    simp only [binaryCount, binaryCountOfAll_append, binaryCountOfAll] at large ⊢
    obtain ⟨count, lighter⟩ := ih (isGround_variadic.1 ground t (by simp)) (by omega)
    refine ⟨by omega, fun depth => ?_⟩
    -- an operand stands inside one sum or product more
    have := lighter (depth + 1)
    simp only [weightAt, weightOfAll_append, weightOfAll]
    omega
  | @left t u o r _ ih =>
    simp only [binaryCount] at large ⊢
    obtain ⟨count, lighter⟩ := ih (isGround_binary.1 ground).1 (by omega)
    refine ⟨by omega, fun depth => ?_⟩
    have := lighter depth
    simp only [weightAt]
    omega
  | @right t u o l _ ih =>
    simp only [binaryCount] at large ⊢
    obtain ⟨count, lighter⟩ := ih (isGround_binary.1 ground).2 (by omega)
    refine ⟨by omega, fun depth => ?_⟩
    have := lighter depth
    simp only [weightAt]
    omega

/-- So do several rewritings, and with them a pass. -/
theorem lighter_of_rewritings {unit : Nat} (h : TransGen (Rewrites rules) t u)
    (ground : t.isGround) (large : 4 * t.binaryCount + 4 ≤ unit) :
    u.isGround ∧ u.binaryCount ≤ t.binaryCount ∧ u.weightAt unit 0 < t.weightAt unit 0 := by
  induction h with
  | single h =>
    obtain ⟨count, lighter⟩ := lighter_of_rewrites h ground large
    exact ⟨isGround_of_rewrites h ground, count, lighter 0⟩
  | tail _ h ih =>
    -- there are no more nodes than at the beginning, so the unit is still large enough
    obtain ⟨groundSoFar, countSoFar, lighterSoFar⟩ := ih
    obtain ⟨count, lighter⟩ :=
      lighter_of_rewrites h groundSoFar (Nat.le_trans (by omega) large)
    exact ⟨isGround_of_rewrites h groundSoFar, by omega, Nat.lt_trans (lighter 0) lighterSoFar⟩

/-- A pass makes a ground term lighter. -/
theorem weight_lt_of_reducePass (ground : t.isGround) (h : reducePass rules t = .ok (some u)) :
    u.weight < t.weight := by
  obtain ⟨-, count, lighter⟩ :=
    lighter_of_rewritings (transGen_rewrites_of_reducePass h) ground (Nat.le_refl _)
  exact Nat.lt_of_le_of_lt (weightAt_mono (by omega) (Nat.le_refl 0) u) lighter

/-- Passes by the standard rules over a ground term come to an end, after no more than its weight
says. -/
theorem exists_passes (ground : t.isGround) :
    ∃ n ≤ t.weight, ∃ u, Passes rules n t u ∧ u.isGround ∧
      (reducePass rules u = .ok none ∨ ∃ error, reducePass rules u = .error error) := by
  obtain ⟨n, within, u, passes, ⟨groundLast, -⟩, ending⟩ := exists_passes_of_measure rules
    (weightAt (4 * t.binaryCount + 4) 0)
    (fun u => u.isGround ∧ 4 * u.binaryCount + 4 ≤ 4 * t.binaryCount + 4)
    (fun u v ⟨groundNow, large⟩ h => by
      obtain ⟨groundNext, count, lighter⟩ :=
        lighter_of_rewritings (transGen_rewrites_of_reducePass h) groundNow large
      exact ⟨⟨groundNext, by omega⟩, lighter⟩)
    ⟨ground, Nat.le_refl _⟩
  exact ⟨n, within, u, passes, groundLast, ending⟩

/-- What the standard table makes of a term is what its passes lead to. -/
theorem simplify_of_passes {n : Nat} (passes : Passes rules n t u) (within : n ≤ t.weight) :
    ReductionTable.standard.simplify t = reduceWithin rules (t.weight - n) u := by
  have := reduceWithin_of_passes passes (t.weight - n)
  rwa [Nat.add_sub_cancel' within] at this

/-- Where the passes end, simplification gives the term or the error. -/
theorem simplify_of_ending {n : Nat} (passes : Passes rules n t u) (within : n ≤ t.weight)
    (ending : reducePass rules u = .ok none ∨ ∃ error, reducePass rules u = .error error) :
    (reducePass rules u = .ok none ∧ ReductionTable.standard.simplify t = .ok u) ∨
      ∃ error, reducePass rules u = .error error ∧
        ReductionTable.standard.simplify t = .error (.domain error) := by
  rw [simplify_of_passes passes within]
  rcases ending with normal | ⟨error, fails⟩
  · exact .inl ⟨normal, reduceWithin_of_none normal _⟩
  · exact .inr ⟨error, fails, reduceWithin_of_error fails _⟩

/-- Simplification by the standard rules comes to an end on every ground term: so many passes
change the term, at most as many as it weighs, and then one changes nothing or fails. -/
theorem simplify_terminates (t : Term) (ground : t.isGround) :
    ∃ n ≤ t.weight, ∃ u, Passes rules n t u ∧
      ((reducePass rules u = .ok none ∧ ReductionTable.standard.simplify t = .ok u) ∨
        ∃ error, reducePass rules u = .error error ∧
          ReductionTable.standard.simplify t = .error (.domain error)) := by
  obtain ⟨n, within, u, passes, -, ending⟩ := exists_passes ground
  exact ⟨n, within, u, passes, simplify_of_ending passes within ending⟩

/-- A term in which rules that make it grow meet, a difference in a sum in a root in a power, takes
three passes, far fewer than it weighs. -/
theorem simplify_terminates_power_of_root :
    let t := power (root (sum [var "x", difference (var "y") (var "z")]) (var "n")) (var "m")
    let u := power (difference (sum [var "x", var "y"]) (var "z")) (quotient (var "m") (var "n"))
    t.isGround ∧ t.weight = 81 ∧ 3 ≤ t.weight ∧ Passes rules 3 t u ∧
      reducePass rules u = .ok none ∧ ReductionTable.standard.simplify t = .ok u := by
  intro t u
  have ground : t.isGround := by decide
  -- the powers are joined, then the difference is taken out, then a sum of one operand is opened
  have joined : reducePass rules t = .ok (some (power
      (sum [var "x", difference (var "y") (var "z")]) (quotient (var "m") (var "n")))) := by cbv
  have takenOut : reducePass rules (power (sum [var "x", difference (var "y") (var "z")])
      (quotient (var "m") (var "n"))) = .ok (some (power
        (difference (sum [var "x", var "y"]) (sum [var "z"])) (quotient (var "m") (var "n")))) := by
    cbv
  have opened : reducePass rules (power (difference (sum [var "x", var "y"]) (sum [var "z"]))
      (quotient (var "m") (var "n"))) = .ok (some u) := by cbv
  have three : Passes rules 3 t u := .head joined (.head takenOut (.head opened (.refl u)))
  have normal : reducePass rules u = .ok none := by cbv
  obtain ⟨n, within, v, passes, ⟨stays, simplified⟩ | ⟨error, fails, -⟩⟩ :=
    simplify_terminates t ground
  · obtain ⟨rfl, rfl⟩ := three.unique passes (by simp [normal]) (by simp [stays])
    exact ⟨ground, rfl, within, three, stays, simplified⟩
  · obtain ⟨-, rfl⟩ := three.unique passes (by simp [normal]) (by simp [fails])
    cases normal.symm.trans fails

end Standard

end InequalityChaining

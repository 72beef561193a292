import InequalityChaining.Proofs.Matching.Equations
import InequalityChaining.Proofs.Reduction.Rewriting
import InequalityChaining.Reduction.Standard

/-!
# What the standard rules do

Each standard rule is stated once by what it makes of a ground term at whose root it applies. Sums
and differences obey the same laws as products and quotients, so most rules come in pairs; a pair
is stated once for both operations and their inverses.

## Main definitions

* `Variadic.neutral` — the number that a sum or product may leave out
* `Standard.Reduces` — what a standard rule makes of a term at the root
* `Standard.Fails` — where a standard rule reports an error

## Main results

* `Standard.reduces_of_reduceRoot` — the reductions at the root are those stated here
* `Standard.fails_of_reduceRoot` — so are the errors
-/

namespace InequalityChaining

/-- The number that a sum or product may leave out. -/
def Variadic.neutral : Variadic → Int64
  | sum => 0
  | product => 1

namespace Standard

open Term

/-- What an operand contributes to the left side when an inner operation is taken out. -/
def leftPart (inner : Binary) (t : Term) : Term := ((partsOf? inner t).map Prod.fst).getD t

/-- What an operand contributes to the right side when an inner operation is taken out. -/
def rightPart? (inner : Binary) (t : Term) : Option Term := (partsOf? inner t).map Prod.snd

@[simp] theorem operandsOf_variadic (op : Variadic) (ts : List Term) :
    operandsOf op (variadic op ts) = ts := by
  simp [operandsOf]

theorem pullOut_variadic (op : Variadic) (inner : Binary) (ts : List Term) :
    pullOut op inner (variadic op ts) = binary inner (variadic op (ts.map (leftPart inner)))
      (variadic op (ts.filterMap (rightPart? inner))) := by
  rw [pullOut, operandsOf_variadic]
  rfl

/-- An operand either is an inner operation or is left whole. -/
theorem parts_cases (inner : Binary) (t : Term) :
    (∃ l r, t = binary inner l r ∧ leftPart inner t = l ∧ rightPart? inner t = some r) ∨
      (partsOf? inner t = none ∧ leftPart inner t = t ∧ rightPart? inner t = none) := by
  cases t with
  | binary o l r =>
    by_cases h : o = inner
    · subst h
      exact .inl ⟨l, r, rfl, by simp [leftPart, partsOf?], by simp [rightPart?, partsOf?]⟩
    · exact .inr (by simp [leftPart, rightPart?, partsOf?, h])
  | _ => exact .inr ⟨rfl, rfl, rfl⟩

/-- Something is taken out of a sum or product that has an inner operation among its operands. -/
theorem length_rightParts_pos {inner : Binary} {ts : List Term}
    (h : ∃ t ∈ ts, (partsOf? inner t).isSome) : 0 < (ts.filterMap (rightPart? inner)).length := by
  obtain ⟨t, mem, some⟩ := h
  obtain ⟨parts, hparts⟩ := Option.isSome_iff_exists.1 some
  have found : rightPart? inner t = .some parts.2 := by rw [rightPart?, hparts]; rfl
  exact List.length_pos_of_mem (List.mem_filterMap.2 ⟨t, mem, found⟩)

/-- An operand either is an operation of the same kind or is spliced as it is. -/
theorem splice_cases (op : Variadic) (t : Term) :
    (∃ us, t = variadic op us ∧ splice op t = us) ∨
      (isVariadic op t = false ∧ splice op t = [t]) := by
  cases t with
  | variadic o us =>
    by_cases h : o = op
    · subst h
      exact .inl ⟨us, rfl, by simp [splice]⟩
    · exact .inr (by simp [splice, isVariadic, h])
  | _ => exact .inr ⟨rfl, rfl⟩

section Inherited

variable {P : Term → Prop} {op : Variadic} {inner : Binary} {ts : List Term}

/-- What operands have and hand down to their own operands, spliced operands have. -/
theorem forall_mem_flatMap_splice (inherit : ∀ us, P (variadic op us) → ∀ u ∈ us, P u)
    (h : ∀ t ∈ ts, P t) : ∀ u ∈ ts.flatMap (splice op), P u := by
  intro u mem
  obtain ⟨t, operand, mem⟩ := List.mem_flatMap.1 mem
  rcases splice_cases op t with ⟨us, rfl, spliced⟩ | ⟨-, spliced⟩
  · exact inherit us (h _ operand) u (spliced ▸ mem)
  · rw [spliced, List.mem_singleton] at mem
    exact mem ▸ h t operand

theorem forall_mem_leftParts (inherit : ∀ l r, P (binary inner l r) → P l)
    (h : ∀ t ∈ ts, P t) : ∀ u ∈ ts.map (leftPart inner), P u := by
  intro u mem
  obtain ⟨t, operand, rfl⟩ := List.mem_map.1 mem
  rcases parts_cases inner t with ⟨l, r, rfl, left, -⟩ | ⟨-, left, -⟩
  · exact left.symm ▸ inherit l r (h _ operand)
  · exact left.symm ▸ h t operand

theorem forall_mem_rightParts (inherit : ∀ l r, P (binary inner l r) → P r)
    (h : ∀ t ∈ ts, P t) : ∀ u ∈ ts.filterMap (rightPart? inner), P u := by
  intro u mem
  obtain ⟨t, operand, found⟩ := List.mem_filterMap.1 mem
  rcases parts_cases inner t with ⟨l, r, rfl, -, right⟩ | ⟨-, -, right⟩
  · obtain rfl := Option.some.inj (right.symm.trans found)
    exact inherit l r (h _ operand)
  · simp [right] at found

end Inherited

/-- A standard rule applied at the root of a ground term. -/
inductive Reduces : Term → Term → Prop where
  | integralReal {x : Real64} {i : Int64} (h : (Number.real x).integralValue? = some i) :
      Reduces (constant (.real x)) (int i)
  | empty (op : Variadic) : Reduces (variadic op []) (int op.neutral)
  | singleton (op : Variadic) (t : Term) : Reduces (variadic op [t]) t
  | dropNeutral (op : Variadic) {ts : List Term} (h : ∃ t ∈ ts, t.isNumber op.neutral) :
      Reduces (variadic op ts) (variadic op (ts.filter fun t => !t.isNumber op.neutral))
  | neutralRight (op : Variadic) {t n : Term} (h : n.isNumber op.neutral) :
      Reduces (binary op.inverse t n) t
  | multiplyZero {ts : List Term} (h : ∃ t ∈ ts, t.isNumber 0) : Reduces (product ts) (int 0)
  | divideZero {z t : Term} (h : z.isNumber 0) : Reduces (quotient z t) (int 0)
  | zeroBase {b e : Term} (h : b.isNumber 0) : Reduces (power b e) (int 0)
  | oneBase {b e : Term} (h : b.isNumber 1) : Reduces (power b e) (int 1)
  | zeroExponent {b e : Term} (h : e.isNumber 0) : Reduces (power b e) (int 1)
  | oneExponent {b e : Term} (h : e.isNumber 1) : Reduces (power b e) b
  | rootOfZero {r n : Term} (h : r.isNumber 0) : Reduces (root r n) (int 0)
  | rootOfOne {r n : Term} (h : r.isNumber 1) : Reduces (root r n) (int 1)
  | firstRoot {r n : Term} (h : n.isNumber 1) : Reduces (root r n) r
  | foldSum {ts : List Term} {v : Number} (two : 2 ≤ (ts.filter isConstantNode).length)
      (h : (sum (ts.filter isConstantNode)).evaluate = .ok v) :
      Reduces (sum ts) (sum (ts.filter (fun t => !isConstantNode t) ++ [constant v]))
  | foldProduct {ts : List Term} {v : Number} (two : 2 ≤ (ts.filter isConstantNode).length)
      (h : (product (ts.filter isConstantNode)).evaluate = .ok v) :
      Reduces (product ts) (product (constant v :: ts.filter fun t => !isConstantNode t))
  | foldBinary {op : Binary} {l r : Term} {v : Number} (hl : l.isConstant) (hr : r.isConstant)
      (h : (binary op l r).evaluate = .ok v) : Reduces (binary op l r) (constant v)
  | flatten (op : Variadic) {ts : List Term} (h : ∃ t ∈ ts, isVariadic op t) :
      Reduces (variadic op ts) (variadic op (ts.flatMap (splice op)))
  | pullOut (op : Variadic) {ts : List Term} (h : ∃ t ∈ ts, (partsOf? op.inverse t).isSome) :
      Reduces (variadic op ts) (binary op.inverse (variadic op (ts.map (leftPart op.inverse)))
        (variadic op (ts.filterMap (rightPart? op.inverse))))
  | nestedLeft (op : Variadic) (x y z : Term) :
      Reduces (binary op.inverse (binary op.inverse x y) z)
        (binary op.inverse x (variadic op [y, z]))
  | nestedRight (op : Variadic) (x y z : Term) :
      Reduces (binary op.inverse x (binary op.inverse y z))
        (binary op.inverse (variadic op [x, z]) y)
  | powerOfPower (x y z : Term) : Reduces (power (power x y) z) (power x (product [y, z]))
  | powerOfRoot (x y z : Term) : Reduces (power (root x y) z) (power x (quotient z y))
  | rootOfPower (x y z : Term) : Reduces (root (power x y) z) (power x (quotient y z))
  | rootOfRoot (x y z : Term) : Reduces (root (root x y) z) (root x (product [y, z]))

/-- An error that a standard rule reports at the root of a ground term. -/
inductive Fails : Term → DomainError → Prop where
  | divisionByZero {t z : Term} (h : z.isNumber 0) : Fails (quotient t z) .divisionByZero
  | zeroToTheZero {b e : Term} (hb : b.isNumber 0) (he : e.isNumber 0) :
      Fails (power b e) .zeroToTheZero
  | zerothRoot {r n : Term} (h : n.isNumber 0) : Fails (root r n) .zerothRoot
  | foldVariadic {op : Variadic} {ts : List Term} {error : DomainError}
      (two : 2 ≤ (ts.filter isConstantNode).length)
      (h : (variadic op (ts.filter isConstantNode)).evaluate = .error error) :
      Fails (variadic op ts) error
  | foldBinary {op : Binary} {l r : Term} {error : DomainError} (hl : l.isConstant)
      (hr : r.isConstant) (h : (binary op l r).evaluate = .error error) :
      Fails (binary op l r) error

/-- What a rule makes of a term at the root is as stated. -/
def Stated (t : Term) : Except DomainError (Option Term) → Prop
  | .ok none => True
  | .ok (some u) => Reduces t u
  | .error error => Fails t error

/-! ### Kinds of rules -/

section Rules

variable {name : String} {t u p : Term} {error : DomainError}
  {f : Term → Except DomainError Term} {holds : Term → Bool}

/-- A rule does what it does to the terms that its pattern fits. -/
theorem stated_reduce? {rule : ReductionRule} (h : ∀ b, rule.pattern.bind? t .empty = some b →
    Stated t ((rule.action.perform t b).map some)) : Stated t (rule.reduce? t) := by
  rw [ReductionRule.reduce?]
  cases fits : rule.pattern.bind? t .empty with
  | none => trivial
  | some b => exact h b fits

theorem stated_replace {r : Term}
    (h : ∀ b, t.matchPattern? p .empty = some b → Reduces t (r.substitute b)) :
    Stated t ((ReductionRule.replace name p r).reduce? t) := by
  apply stated_reduce?
  intro b found
  exact h b found

theorem stated_fail (h : ∀ b, t.matchPattern? p .empty = some b → Fails t error) :
    Stated t ((ReductionRule.fail name p error).reduce? t) := by
  apply stated_reduce?
  intro b found
  exact h b found

theorem stated_compute
    (h : ∀ b, t.matchPattern? p .empty = some b → Stated t ((f t).map some)) :
    Stated t ((ReductionRule.compute name p f).reduce? t) := by
  apply stated_reduce?
  intro b found
  exact h b found

theorem stated_shape (h : holds t → Stated t ((f t).map some)) :
    Stated t ((ReductionRule.shape name holds f).reduce? t) := by
  apply stated_reduce?
  intro b found
  exact h (Option.ite_none_right_eq_some.1 found).1

end Rules

/-! ### Kinds of patterns -/

section Patterns

variable {s t : Term} {b c : Bindings} {name : String} {i j : Int64} {o o' : Binary}

theorem match_anyTerm (ground : s.isGround) (unbound : b.find? name = none) :
    s.matchPattern? (anyTerm name) b = some (b.insert name s) := by
  rw [anyTerm, matchPattern?_of_unbound ground unbound]
  simp

theorem match_anyConstant (ground : s.isGround) (unbound : b.find? name = none) :
    s.matchPattern? (anyConstant name) b = some c ↔ s.isConstant ∧ b.insert name s = c := by
  rw [anyConstant, matchPattern?_of_unbound ground unbound]
  cases s.isConstant <;> simp

theorem match_int : s.matchPattern? (int i) b = some c ↔ s.isNumber i ∧ b = c := by
  rw [matchPattern?_constant, isNumber_eq_beq]
  split <;> simp_all

theorem match_empty {op : Variadic}
    (h : t.matchPattern? (variadic op []) .empty = some b) : t = variadic op [] := by
  obtain ⟨ts, rfl⟩ := exists_of_matchPattern?_variadic h
  rw [matchPattern?_variadic, if_pos rfl] at h
  split at h
  · next e =>
    simp only [beq_eq_equal, equal, Bool.and_eq_true, beq_iff_eq] at e
    rw [List.length_eq_zero_iff.1 e.1.2]
  · rw [matchBackwards.eq_def] at h
    cases hts : ts.reverse with
    | nil => rw [List.reverse_eq_nil_iff.1 hts]
    | cons u us => simp [hts] at h

theorem match_singleton {op : Variadic} (ground : t.isGround)
    (h : t.matchPattern? (variadic op [anyTerm "X"]) .empty = some b) :
    ∃ u, t = variadic op [u] ∧ b = Bindings.empty.insert "X" u := by
  obtain ⟨ts, rfl⟩ := exists_of_matchPattern?_variadic h
  rw [isGround_variadic] at ground
  -- a ground term is not equal to the placeholder, so the operands are matched
  have distinct : (variadic op ts == variadic op [anyTerm "X"]) = false := by
    refine Bool.eq_false_iff.2 fun equals => ?_
    simp only [beq_eq_equal, equal, Bool.and_eq_true, beq_iff_eq] at equals
    obtain ⟨⟨-, one⟩, pairs⟩ := equals
    obtain ⟨u, rfl⟩ := List.length_eq_one_iff.1 one
    have := not_beq_placeholder (ground u List.mem_cons_self) "X" .any
    simp only [beq_eq_equal] at this
    simp [pairOff, anyTerm, this, isReflexive] at pairs
  rw [matchPattern?_variadic, distinct, if_neg (by simp), if_pos rfl, matchBackwards.eq_def] at h
  cases hts : ts.reverse with
  | nil => simp [hts] at h
  | cons u us =>
    cases us with
    | cons v vs => simp [hts] at h
    | nil =>
      obtain rfl : ts = [u] := by simpa using congrArg List.reverse hts
      have := match_anyTerm (ground u List.mem_cons_self) (Bindings.find?_empty "X")
      simp only [List.reverse_cons, List.reverse_nil, List.nil_append] at h
      exact ⟨u, rfl, Option.some.inj (h.symm.trans this)⟩

theorem match_term_number (ground : t.isGround)
    (h : t.matchPattern? (binary o (anyTerm "X") (int i)) .empty = some b) :
    ∃ l r, t = binary o l r ∧ r.isNumber i ∧ b = Bindings.empty.insert "X" l := by
  obtain ⟨l, r, c, rfl, hl, hr⟩ := matchPattern?_binary_eq_some.1 h
  rw [match_anyTerm (isGround_binary.1 ground).1 rfl, Option.some.injEq] at hl
  obtain ⟨isNumber, rfl⟩ := match_int.1 hr
  exact ⟨l, r, rfl, isNumber, hl.symm⟩

theorem match_number_term (ground : t.isGround)
    (h : t.matchPattern? (binary o (int i) (anyTerm "X")) .empty = some b) :
    ∃ l r, t = binary o l r ∧ l.isNumber i ∧ b = Bindings.empty.insert "X" r := by
  obtain ⟨l, r, c, rfl, hl, hr⟩ := matchPattern?_binary_eq_some.1 h
  obtain ⟨isNumber, rfl⟩ := match_int.1 hl
  rw [match_anyTerm (isGround_binary.1 ground).2 rfl, Option.some.injEq] at hr
  exact ⟨l, r, rfl, isNumber, hr.symm⟩

theorem match_constants (ground : t.isGround)
    (h : t.matchPattern? (binary o (anyConstant "X") (anyConstant "Y")) .empty = some b) :
    ∃ l r, t = binary o l r ∧ l.isConstant ∧ r.isConstant := by
  obtain ⟨l, r, c, rfl, hl, hr⟩ := matchPattern?_binary_eq_some.1 h
  obtain ⟨constantLeft, rfl⟩ := (match_anyConstant (isGround_binary.1 ground).1 rfl).1 hl
  obtain ⟨constantRight, -⟩ := (match_anyConstant (isGround_binary.1 ground).2
    (by simp [Bindings.find?_insert])).1 hr
  exact ⟨l, r, rfl, constantLeft, constantRight⟩

theorem match_left_nested (ground : t.isGround)
    (h : t.matchPattern? (binary o (binary o' (anyTerm "X") (anyTerm "Y")) (anyTerm "Z")) .empty =
      some b) :
    ∃ x y z, t = binary o (binary o' x y) z ∧
      b = ((Bindings.empty.insert "X" x).insert "Y" y).insert "Z" z := by
  obtain ⟨l, z, c, rfl, hl, hz⟩ := matchPattern?_binary_eq_some.1 h
  obtain ⟨x, y, d, rfl, hx, hy⟩ := matchPattern?_binary_eq_some.1 hl
  -- each placeholder is still unbound when its turn comes
  obtain ⟨⟨gx, gy⟩, gz⟩ := by simpa using ground
  rw [match_anyTerm gx rfl, Option.some.injEq] at hx
  subst hx
  rw [match_anyTerm gy (by simp [Bindings.find?_insert]), Option.some.injEq] at hy
  subst hy
  rw [match_anyTerm gz (by simp [Bindings.find?_insert]), Option.some.injEq] at hz
  exact ⟨x, y, z, rfl, hz.symm⟩

theorem match_right_nested (ground : t.isGround)
    (h : t.matchPattern? (binary o (anyTerm "X") (binary o' (anyTerm "Y") (anyTerm "Z"))) .empty =
      some b) :
    ∃ x y z, t = binary o x (binary o' y z) ∧
      b = ((Bindings.empty.insert "X" x).insert "Y" y).insert "Z" z := by
  obtain ⟨x, r, c, rfl, hx, hr⟩ := matchPattern?_binary_eq_some.1 h
  obtain ⟨y, z, d, rfl, hy, hz⟩ := matchPattern?_binary_eq_some.1 hr
  obtain ⟨gx, gy, gz⟩ := by simpa using ground
  rw [match_anyTerm gx rfl, Option.some.injEq] at hx
  subst hx
  rw [match_anyTerm gy (by simp [Bindings.find?_insert]), Option.some.injEq] at hy
  subst hy
  rw [match_anyTerm gz (by simp [Bindings.find?_insert]), Option.some.injEq] at hz
  exact ⟨x, y, z, rfl, hz.symm⟩

end Patterns

/-! ### The three groups of rules -/

section Groups

variable {t : Term}

theorem mem_operandsOf {op : Variadic} {p : Term → Bool} (h : hasOperand op p t) :
    ∃ ts, t = variadic op ts ∧ ∃ u ∈ ts, p u := by
  obtain ⟨u, mem, hu⟩ := List.any_eq_true.1 h
  cases t with
  | variadic o ts =>
    simp only [operandsOf] at mem
    split at mem
    · next e => exact ⟨ts, e ▸ rfl, u, mem, hu⟩
    · simp at mem
  | _ => simp [operandsOf] at mem

theorem exists_of_hasConstants {op : Variadic} (h : hasConstants op t) :
    ∃ ts, t = variadic op ts ∧ 2 ≤ (ts.filter isConstantNode).length := by
  have two := of_decide_eq_true h
  cases t with
  | variadic o ts =>
    simp only [operandsOf] at two
    split at two
    · next e => exact ⟨ts, e ▸ rfl, two⟩
    · simp at two
  | _ => simp [operandsOf] at two

theorem stated_integralReal (h : isIntegralReal t) : Reduces t (toInteger t) := by
  cases t with
  | constant value =>
    cases value with
    | int i => simp [isIntegralReal, constantValue?, Number.integralValue?] at h
    | real x =>
      obtain ⟨i, hi⟩ := Option.isSome_iff_exists.1 h
      simp only [constantValue?, Option.bind_some] at hi
      simp only [toInteger, constantValue?, Option.bind_some, hi]
      exact .integralReal hi
  | _ => simp [isIntegralReal, constantValue?] at h

theorem stated_cleanup (ground : t.isGround) : ∀ rule ∈ cleanup, Stated t (rule.reduce? t) := by
  simp only [cleanup, List.forall_mem_cons, List.not_mem_nil, false_imp_iff, implies_true, and_true]
  refine ⟨stated_shape stated_integralReal, ?_, ?_, ?_, ?_⟩
  -- operations on no operand
  · refine stated_replace fun b h => ?_
    obtain rfl := match_empty h
    exact .empty .sum
  · refine stated_replace fun b h => ?_
    obtain rfl := match_empty h
    exact .empty .product
  -- operations on a single operand
  · refine stated_replace fun b h => ?_
    obtain ⟨u, rfl, rfl⟩ := match_singleton ground h
    exact .singleton .sum u
  · refine stated_replace fun b h => ?_
    obtain ⟨u, rfl, rfl⟩ := match_singleton ground h
    exact .singleton .product u

theorem stated_evaluated {op : Binary} {l r : Term} (hl : l.isConstant) (hr : r.isConstant) :
    Stated (binary op l r) ((evaluated (binary op l r)).map some) := by
  unfold evaluated
  cases h : (binary op l r).evaluate with
  | error e => exact .foldBinary hl hr h
  | ok v => exact .foldBinary hl hr h

theorem stated_foldSum (h : hasConstants .sum t) : Stated t ((foldSum t).map some) := by
  obtain ⟨ts, rfl, two⟩ := exists_of_hasConstants h
  simp only [foldSum, operandsOf_variadic, List.partition_eq_filter_filter]
  cases hv : (sum (ts.filter isConstantNode)).evaluate with
  | error e => exact .foldVariadic two hv
  | ok v => exact .foldSum two hv

theorem stated_foldProduct (h : hasConstants .product t) : Stated t ((foldProduct t).map some) := by
  obtain ⟨ts, rfl, two⟩ := exists_of_hasConstants h
  simp only [foldProduct, operandsOf_variadic, List.partition_eq_filter_filter]
  cases hv : (product (ts.filter isConstantNode)).evaluate with
  | error e => exact .foldVariadic two hv
  | ok v => exact .foldProduct two hv

/-- A rule for a term with a number on the right. -/
theorem stated_term_number (ground : t.isGround) {name : String} {o : Binary} {i : Int64}
    {r : Term} (h : ∀ l n, n.isNumber i → Reduces (binary o l n)
      (r.substitute (Bindings.empty.insert "X" l))) :
    Stated t ((ReductionRule.replace name (binary o (anyTerm "X") (int i)) r).reduce? t) := by
  refine stated_replace fun b hb => ?_
  obtain ⟨l, n, rfl, hn, rfl⟩ := match_term_number ground hb
  exact h l n hn

/-- A rule for a term with a number on the left. -/
theorem stated_number_term (ground : t.isGround) {name : String} {o : Binary} {i : Int64}
    {r : Term} (h : ∀ n l, n.isNumber i → Reduces (binary o n l)
      (r.substitute (Bindings.empty.insert "X" l))) :
    Stated t ((ReductionRule.replace name (binary o (int i) (anyTerm "X")) r).reduce? t) := by
  refine stated_replace fun b hb => ?_
  obtain ⟨n, l, rfl, hn, rfl⟩ := match_number_term ground hb
  exact h n l hn

/-- A rule for a sum or product with an operand of a kind. -/
theorem stated_hasOperand {name : String} {op : Variadic} {p : Term → Bool}
    {f : Term → Except DomainError Term}
    (h : ∀ ts, (∃ u ∈ ts, p u) → Stated (variadic op ts) ((f (variadic op ts)).map some)) :
    Stated t ((ReductionRule.shape name (hasOperand op p) f).reduce? t) := by
  apply stated_shape
  intro found
  obtain ⟨ts, rfl, operand⟩ := mem_operandsOf found
  exact h ts operand

/-- A rule for two constant operands. -/
theorem stated_constants (ground : t.isGround) {name : String} {o : Binary} :
    Stated t ((ReductionRule.compute name (binary o (anyConstant "X") (anyConstant "Y"))
      evaluated).reduce? t) := by
  refine stated_compute fun b hb => ?_
  obtain ⟨l, r, rfl, hl, hr⟩ := match_constants ground hb
  exact stated_evaluated hl hr

theorem stated_arithmetic (ground : t.isGround) :
    ∀ rule ∈ arithmetic, Stated t (rule.reduce? t) := by
  simp only [arithmetic, List.forall_mem_cons, List.not_mem_nil, false_imp_iff, implies_true,
    and_true]
  refine ⟨?_, ?_, ?_, ?_, ?_, ?_, ?_, ?_, ?_, ?_, ?_, ?_, ?_, ?_, ?_, ?_, ?_, ?_, ?_, ?_, ?_, ?_⟩
  -- what has no value, in the order of the rules as everywhere below
  · refine stated_fail fun b h => ?_
    obtain ⟨l, r, rfl, hr, -⟩ := match_term_number ground h
    exact .divisionByZero hr
  · refine stated_fail fun b h => ?_
    obtain ⟨l, r, c, rfl, hl, hr⟩ := matchPattern?_binary_eq_some.1 h
    exact .zeroToTheZero (match_int.1 hl).1 (match_int.1 hr).1
  · refine stated_fail fun b h => ?_
    obtain ⟨l, r, rfl, hr, -⟩ := match_term_number ground h
    exact .zerothRoot hr
  -- zero and one in sums, products and their inverses
  · exact stated_hasOperand fun ts h => Reduces.dropNeutral .sum h
  · exact stated_term_number ground fun l n hn => .neutralRight .sum hn
  · exact stated_hasOperand fun ts h => Reduces.multiplyZero h
  · exact stated_number_term ground fun n l hn => .divideZero hn
  · exact stated_hasOperand fun ts h => Reduces.dropNeutral .product h
  · exact stated_term_number ground fun l n hn => .neutralRight .product hn
  -- zero and one in powers and roots
  · exact stated_number_term ground fun n l hn => .zeroBase hn
  · exact stated_number_term ground fun n l hn => .oneBase hn
  · exact stated_term_number ground fun l n hn => .zeroExponent hn
  · exact stated_term_number ground fun l n hn => .oneExponent hn
  · exact stated_number_term ground fun n l hn => .rootOfZero hn
  · exact stated_number_term ground fun n l hn => .rootOfOne hn
  · exact stated_term_number ground fun l n hn => .firstRoot hn
  -- operations on constants
  · exact stated_shape stated_foldSum
  · exact stated_constants ground
  · exact stated_shape stated_foldProduct
  · exact stated_constants ground
  · exact stated_constants ground
  · exact stated_constants ground

/-- A rule for an operation whose left operand is another. -/
theorem stated_left_nested (ground : t.isGround) {name : String} {o o' : Binary} {r : Term}
    (h : ∀ x y z, Reduces (binary o (binary o' x y) z)
      (r.substitute (((Bindings.empty.insert "X" x).insert "Y" y).insert "Z" z))) :
    Stated t ((ReductionRule.replace name
      (binary o (binary o' (anyTerm "X") (anyTerm "Y")) (anyTerm "Z")) r).reduce? t) := by
  refine stated_replace fun b hb => ?_
  obtain ⟨x, y, z, rfl, rfl⟩ := match_left_nested ground hb
  exact h x y z

/-- A rule for an operation whose right operand is another. -/
theorem stated_right_nested (ground : t.isGround) {name : String} {o o' : Binary} {r : Term}
    (h : ∀ x y z, Reduces (binary o x (binary o' y z))
      (r.substitute (((Bindings.empty.insert "X" x).insert "Y" y).insert "Z" z))) :
    Stated t ((ReductionRule.replace name
      (binary o (anyTerm "X") (binary o' (anyTerm "Y") (anyTerm "Z"))) r).reduce? t) := by
  refine stated_replace fun b hb => ?_
  obtain ⟨x, y, z, rfl, rfl⟩ := match_right_nested ground hb
  exact h x y z

theorem stated_nesting (ground : t.isGround) : ∀ rule ∈ nesting, Stated t (rule.reduce? t) := by
  simp only [nesting, List.forall_mem_cons, List.not_mem_nil, false_imp_iff, implies_true, and_true]
  refine ⟨?_, ?_, ?_, ?_, ?_, ?_, ?_, ?_, ?_, ?_, ?_, ?_⟩
  -- sums and differences
  · exact stated_hasOperand fun ts h => Reduces.flatten .sum h
  · apply stated_hasOperand
    intro ts h
    exact pullOut_variadic .sum .difference ts ▸ Reduces.pullOut .sum h
  · exact stated_left_nested ground fun x y z => .nestedLeft .sum x y z
  · exact stated_right_nested ground fun x y z => .nestedRight .sum x y z
  -- products and quotients, by the same laws
  · exact stated_hasOperand fun ts h => Reduces.flatten .product h
  · apply stated_hasOperand
    intro ts h
    exact pullOut_variadic .product .quotient ts ▸ Reduces.pullOut .product h
  · exact stated_left_nested ground fun x y z => .nestedLeft .product x y z
  · exact stated_right_nested ground fun x y z => .nestedRight .product x y z
  -- powers and roots
  · exact stated_left_nested ground fun x y z => .powerOfPower x y z
  · exact stated_left_nested ground fun x y z => .powerOfRoot x y z
  · exact stated_left_nested ground fun x y z => .rootOfPower x y z
  · exact stated_left_nested ground fun x y z => .rootOfRoot x y z

/-- Every standard rule does at the root of a ground term what is stated. -/
theorem stated_of_mem_rules (ground : t.isGround) {rule : ReductionRule} (mem : rule ∈ rules) :
    Stated t (rule.reduce? t) := by
  rcases List.mem_append.1 mem with mem | mem
  · rcases List.mem_append.1 mem with mem | mem
    · exact stated_cleanup ground rule mem
    · exact stated_arithmetic ground rule mem
  · exact stated_nesting ground rule mem

/-- A reduction of a ground term at the root is one of those stated. -/
theorem reduces_of_reduceRoot {u : Term} (ground : t.isGround)
    (h : reduceRoot rules t = .ok (some u)) : Reduces t u := by
  obtain ⟨rule, mem, hr⟩ := exists_rule_of_reduceRoot h (by simp)
  have := stated_of_mem_rules ground mem
  rwa [hr] at this

/-- An error at the root of a ground term is one of those stated. -/
theorem fails_of_reduceRoot {error : DomainError} (ground : t.isGround)
    (h : reduceRoot rules t = .error error) : Fails t error := by
  obtain ⟨rule, mem, hr⟩ := exists_rule_of_reduceRoot h (by simp)
  have := stated_of_mem_rules ground mem
  rwa [hr] at this

end Groups

end Standard

end InequalityChaining

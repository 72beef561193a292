import InequalityChaining.Proofs.Reduction.StandardStep
import InequalityChaining.Proofs.Reduction.Termination

/-!
# Normal forms

A term on which a pass by the standard rules changes nothing can be told by its shape. Every rule
applies to the terms that its pattern fits, and the patterns are of few kinds; what a pattern of
each kind fits is read off the matcher once. A node to which no rule applies then is what is left
when all these terms are excluded: its operands are flat, none of them is a number that the
operation can do without, and numbers are folded. So constants collapse: a part without variables
has no operation left in it.

## Main definitions

* `Standard.Fits` — a pattern fits a term
* `Standard.IsNormalNode` — the shape of the terms at whose root no rule applies
* `Standard.IsNormal` — terms all parts of which are of that shape

## Main results

* `Standard.reduceRoot_eq_none_iff_isNormalNode` — no rule applies at the root of these terms only
* `Standard.reducePass_eq_none_iff_isNormal` — a pass leaves these terms only as they are
* `Standard.exists_constant_of_isNormal` — constant normal forms are numbers
* `Standard.simplify_normal_form` — what simplification leaves as it is, and what it gives
-/

namespace InequalityChaining

namespace Standard

open Term

/-! ### What patterns fit -/

/-- Whether the pattern fits the term. -/
def Fits (p : Pattern) (t : Term) : Prop := ∃ b, p.bind? t .empty = some b

/-- A term is left as it is at the root if no pattern fits it. -/
theorem reduceRoot_eq_none_iff_fits {rules : List ReductionRule} {t : Term} :
    reduceRoot rules t = .ok none ↔ ∀ rule ∈ rules, ¬ Fits rule.pattern t := by
  rw [reduceRoot_eq_none_iff]
  refine forall₂_congr fun rule _ => ?_
  rw [ReductionRule.reduce?, Fits]
  cases found : rule.pattern.bind? t .empty with
  | none => simp
  | some b =>
    -- whatever the rule does, it does not leave the term as it is
    simp [map_eq_ok]

section Patterns

variable {t : Term} {o o' : Binary} {op : Variadic} {i j : Int64}

theorem exists_of_operator?_eq_binary (h : t.operator? = some (.binary o)) :
    ∃ l r, t = binary o l r := by
  cases t with
  | binary o' l r =>
    obtain rfl : o' = o := by simpa [operator?] using h
    exact ⟨l, r, rfl⟩
  | _ => simp [operator?] at h

theorem fits_shape {holds : Term → Bool} : Fits (.shape holds) t ↔ holds t := by
  simp [Fits, Pattern.bind?]

theorem fits_empty : Fits (.term (variadic op [])) t ↔ t = variadic op [] := by
  constructor
  · rintro ⟨b, found⟩
    exact match_empty found
  · rintro rfl
    have equal : (variadic op [] == variadic op []) = true := by cases op <;> rfl
    exact ⟨.empty, matchPattern?_of_beq equal⟩

theorem fits_singleton (ground : t.isGround) :
    Fits (.term (variadic op [anyTerm "X"])) t ↔ ∃ u, t = variadic op [u] := by
  constructor
  · rintro ⟨b, found⟩
    obtain ⟨u, rfl, -⟩ := match_singleton ground found
    exact ⟨u, rfl⟩
  · rintro ⟨u, rfl⟩
    have ground := isGround_variadic.1 ground u List.mem_cons_self
    change ∃ b, (variadic op [u]).matchPattern? (variadic op [anyTerm "X"]) .empty = some b
    rw [matchPattern?_variadic]
    split
    · exact ⟨.empty, rfl⟩
    · refine ⟨Bindings.empty.insert "X" u, ?_⟩
      rw [if_pos rfl, List.reverse_singleton, List.reverse_singleton, matchBackwards_singleton]
      exact match_anyTerm ground rfl

theorem fits_term_number (ground : t.isGround) :
    Fits (.term (binary o (anyTerm "X") (int i))) t ↔ ∃ l r, t = binary o l r ∧ r.isNumber i := by
  constructor
  · rintro ⟨b, found⟩
    obtain ⟨l, r, rfl, isNumber, -⟩ := match_term_number ground found
    exact ⟨l, r, rfl, isNumber⟩
  · rintro ⟨l, r, rfl, isNumber⟩
    have left := match_anyTerm (isGround_binary.1 ground).1 (Bindings.find?_empty "X")
    exact ⟨_, matchPattern?_binary_eq_some.2 ⟨l, r, _, rfl, left, match_int.2 ⟨isNumber, rfl⟩⟩⟩

theorem fits_number_term (ground : t.isGround) :
    Fits (.term (binary o (int i) (anyTerm "X"))) t ↔ ∃ l r, t = binary o l r ∧ l.isNumber i := by
  constructor
  · rintro ⟨b, found⟩
    obtain ⟨l, r, rfl, isNumber, -⟩ := match_number_term ground found
    exact ⟨l, r, rfl, isNumber⟩
  · rintro ⟨l, r, rfl, isNumber⟩
    have right := match_anyTerm (isGround_binary.1 ground).2 (Bindings.find?_empty "X")
    exact ⟨_, matchPattern?_binary_eq_some.2 ⟨l, r, _, rfl, match_int.2 ⟨isNumber, rfl⟩, right⟩⟩

theorem fits_number_number : Fits (.term (binary o (int i) (int j))) t ↔
    ∃ l r, t = binary o l r ∧ l.isNumber i ∧ r.isNumber j := by
  constructor
  · rintro ⟨b, found⟩
    obtain ⟨l, r, c, rfl, left, right⟩ := matchPattern?_binary_eq_some.1 found
    exact ⟨l, r, rfl, (match_int.1 left).1, (match_int.1 right).1⟩
  · rintro ⟨l, r, rfl, left, right⟩
    exact ⟨.empty, matchPattern?_binary_eq_some.2
      ⟨l, r, .empty, rfl, match_int.2 ⟨left, rfl⟩, match_int.2 ⟨right, rfl⟩⟩⟩

theorem fits_constants (ground : t.isGround) :
    Fits (.term (binary o (anyConstant "X") (anyConstant "Y"))) t ↔
      ∃ l r, t = binary o l r ∧ l.isConstant ∧ r.isConstant := by
  constructor
  · rintro ⟨b, found⟩
    exact match_constants ground found
  · rintro ⟨l, r, rfl, hl, hr⟩
    have unbound : (Bindings.empty.insert "X" l).find? "Y" = none := by
      simp [Bindings.find?_insert]
    have left := (match_anyConstant (isGround_of_isConstant hl) (Bindings.find?_empty "X")).2
      ⟨hl, rfl⟩
    have right := (match_anyConstant (isGround_of_isConstant hr) unbound).2 ⟨hr, rfl⟩
    exact ⟨_, matchPattern?_binary_eq_some.2 ⟨l, r, _, rfl, left, right⟩⟩

/-- Three placeholders take three ground terms one after the other. -/
theorem match_three {x y z : Term} (gx : x.isGround) (gy : y.isGround) (gz : z.isGround) :
    ∃ b c d, x.matchPattern? (anyTerm "X") .empty = some b ∧
      y.matchPattern? (anyTerm "Y") b = some c ∧ z.matchPattern? (anyTerm "Z") c = some d :=
  ⟨_, _, _, match_anyTerm gx (Bindings.find?_empty "X"),
    match_anyTerm gy (by simp [Bindings.find?_insert]),
    match_anyTerm gz (by simp [Bindings.find?_insert])⟩

theorem fits_left_nested (ground : t.isGround) :
    Fits (.term (binary o (binary o' (anyTerm "X") (anyTerm "Y")) (anyTerm "Z"))) t ↔
      ∃ l r, t = binary o l r ∧ l.operator? = some (.binary o') := by
  constructor
  · rintro ⟨b, found⟩
    obtain ⟨x, y, z, rfl, -⟩ := match_left_nested ground found
    exact ⟨binary o' x y, z, rfl, rfl⟩
  · rintro ⟨l, z, rfl, nested⟩
    obtain ⟨x, y, rfl⟩ := exists_of_operator?_eq_binary nested
    obtain ⟨⟨gx, gy⟩, gz⟩ := by simpa using ground
    obtain ⟨b, c, d, hx, hy, hz⟩ := match_three gx gy gz
    have left : (binary o' x y).matchPattern? (binary o' (anyTerm "X") (anyTerm "Y")) .empty =
        some c := matchPattern?_binary_eq_some.2 ⟨x, y, b, rfl, hx, hy⟩
    exact ⟨d, matchPattern?_binary_eq_some.2 ⟨binary o' x y, z, c, rfl, left, hz⟩⟩

theorem fits_right_nested (ground : t.isGround) :
    Fits (.term (binary o (anyTerm "X") (binary o' (anyTerm "Y") (anyTerm "Z")))) t ↔
      ∃ l r, t = binary o l r ∧ r.operator? = some (.binary o') := by
  constructor
  · rintro ⟨b, found⟩
    obtain ⟨x, y, z, rfl, -⟩ := match_right_nested ground found
    exact ⟨x, binary o' y z, rfl, rfl⟩
  · rintro ⟨x, r, rfl, nested⟩
    obtain ⟨y, z, rfl⟩ := exists_of_operator?_eq_binary nested
    obtain ⟨gx, gy, gz⟩ := by simpa using ground
    obtain ⟨b, c, d, hx, hy, hz⟩ := match_three gx gy gz
    have right : (binary o' y z).matchPattern? (binary o' (anyTerm "Y") (anyTerm "Z")) b =
        some d := matchPattern?_binary_eq_some.2 ⟨y, z, c, rfl, hy, hz⟩
    exact ⟨d, matchPattern?_binary_eq_some.2 ⟨x, binary o' y z, b, rfl, hx, right⟩⟩

end Patterns

/-! ### What shapes hold of -/

section Shapes

variable {t : Term} {o : Binary} {op : Variadic}

theorem isIntegralReal_iff :
    isIntegralReal t ↔ ∃ value, t = constant value ∧ value.integralValue? ≠ none := by
  cases t <;> simp [isIntegralReal, constantValue?, Option.isSome_iff_ne_none]

theorem isVariadic_iff : isVariadic op t ↔ t.operator? = some (.variadic op) := by
  cases t <;> simp [isVariadic, operator?]

theorem isSome_partsOf?_iff : (partsOf? o t).isSome ↔ t.operator? = some (.binary o) := by
  cases t with
  | binary o' l r => by_cases h : o' = o <;> simp [partsOf?, operator?, h]
  | _ => simp [partsOf?, operator?]

theorem hasOperand_iff {p : Term → Bool} :
    hasOperand op p t ↔ ∃ ts, t = variadic op ts ∧ ∃ u ∈ ts, p u := by
  constructor
  · exact mem_operandsOf
  · rintro ⟨ts, rfl, u, mem, hu⟩
    rw [hasOperand, operandsOf_variadic]
    exact List.any_eq_true.2 ⟨u, mem, hu⟩

theorem hasConstants_iff :
    hasConstants op t ↔ ∃ ts, t = variadic op ts ∧ 2 ≤ (ts.filter isConstantNode).length := by
  constructor
  · exact exists_of_hasConstants
  · rintro ⟨ts, rfl, two⟩
    rw [hasConstants, operandsOf_variadic]
    exact decide_eq_true two

end Shapes

/-! ### Normal nodes -/

/-- The shape of the terms at whose root no standard rule applies. -/
def IsNormalNode : Term → Prop
  | constant value => value.integralValue? = none
  | var _ => True
  | placeholder _ _ => True
  | sum ts => 2 ≤ ts.length ∧ (ts.filter isConstantNode).length ≤ 1 ∧
      ∀ t ∈ ts, t.operator? ≠ some (.variadic .sum) ∧ t.operator? ≠ some (.binary .difference) ∧
        ¬ t.isNumber 0
  | product ts => 2 ≤ ts.length ∧ (ts.filter isConstantNode).length ≤ 1 ∧
      ∀ t ∈ ts, t.operator? ≠ some (.variadic .product) ∧ t.operator? ≠ some (.binary .quotient) ∧
        ¬ t.isNumber 0 ∧ ¬ t.isNumber 1
  | difference l r => (l.hasVariable ∨ r.hasVariable) ∧ ¬ r.isNumber 0 ∧
      l.operator? ≠ some (.binary .difference) ∧ r.operator? ≠ some (.binary .difference)
  | quotient l r => (l.hasVariable ∨ r.hasVariable) ∧ ¬ l.isNumber 0 ∧ ¬ r.isNumber 0 ∧
      ¬ r.isNumber 1 ∧ l.operator? ≠ some (.binary .quotient) ∧
      r.operator? ≠ some (.binary .quotient)
  | power b e => (b.hasVariable ∨ e.hasVariable) ∧ ¬ b.isNumber 0 ∧ ¬ b.isNumber 1 ∧
      ¬ e.isNumber 0 ∧ ¬ e.isNumber 1 ∧ b.operator? ≠ some (.binary .power) ∧
      b.operator? ≠ some (.binary .root)
  | root r n => (r.hasVariable ∨ n.hasVariable) ∧ ¬ r.isNumber 0 ∧ ¬ r.isNumber 1 ∧
      ¬ n.isNumber 0 ∧ ¬ n.isNumber 1 ∧ r.operator? ≠ some (.binary .power) ∧
      r.operator? ≠ some (.binary .root)

/-- A term all parts of which are of the shape that no standard rule changes. -/
def IsNormal (t : Term) : Prop := ∀ u ∈ t.subterms, IsNormalNode u

instance (t : Term) : Decidable (IsNormalNode t) :=
  match t with
  | constant value => inferInstanceAs (Decidable (value.integralValue? = none))
  | var _ => .isTrue trivial
  | placeholder _ _ => .isTrue trivial
  | sum ts => inferInstanceAs (Decidable (2 ≤ ts.length ∧ _ ∧ _))
  | product ts => inferInstanceAs (Decidable (2 ≤ ts.length ∧ _ ∧ _))
  | difference l r => inferInstanceAs (Decidable ((l.hasVariable ∨ r.hasVariable) ∧ _))
  | quotient l r => inferInstanceAs (Decidable ((l.hasVariable ∨ r.hasVariable) ∧ _))
  | power b e => inferInstanceAs (Decidable ((b.hasVariable ∨ e.hasVariable) ∧ _))
  | root r n => inferInstanceAs (Decidable ((r.hasVariable ∨ n.hasVariable) ∧ _))

instance (t : Term) : Decidable (IsNormal t) :=
  inferInstanceAs (Decidable (∀ u ∈ t.subterms, IsNormalNode u))

section Nodes

variable {t l r : Term} {ts : List Term}

theorem two_le_length_iff (ts : List Term) : 2 ≤ ts.length ↔ ts ≠ [] ∧ ∀ t, ts ≠ [t] := by
  match ts with
  | [] => simp
  | [t] => simp
  | t :: u :: us => simp

theorem exists_binary_eq_iff {o o' : Binary} {p : Term → Term → Prop} :
    (∃ l' r', binary o' l r = binary o l' r' ∧ p l' r') ↔ o' = o ∧ p l r := by
  grind

theorem not_isConstant_and_iff (hl : l.isGround) (hr : r.isGround) :
    ¬ (l.isConstant ∧ r.isConstant) ↔ l.hasVariable ∨ r.hasVariable := by
  have constant : ∀ {t : Term}, t.isGround → (t.isConstant ↔ ¬ t.hasVariable) := fun ground =>
    ⟨not_hasVariable_of_isConstant, isConstant_of_isGround ground⟩
  rw [constant hl, constant hr]
  cases l.hasVariable <;> cases r.hasVariable <;> simp

/-- No standard rule fits a node of the shape, and some rule fits every other one. -/
theorem unfit_iff_isNormalNode (ground : t.isGround) :
    (∀ rule ∈ rules, ¬ Fits rule.pattern t) ↔ IsNormalNode t := by
  simp only [rules, cleanup, arithmetic, nesting, List.forall_mem_append, List.forall_mem_cons,
    ReductionRule.replace, ReductionRule.shape, ReductionRule.fail, ReductionRule.compute,
    fits_shape, fits_empty, fits_singleton ground, fits_term_number ground, fits_number_term ground,
    fits_number_number, fits_constants ground, fits_left_nested ground, fits_right_nested ground,
    isIntegralReal_iff, hasOperand_iff, hasConstants_iff, isVariadic_iff, isSome_partsOf?_iff,
    List.not_mem_nil, false_imp_iff, implies_true, and_true]
  cases t with
  | constant value => simp [IsNormalNode]
  | var name => simp [IsNormalNode]
  | placeholder name kind => simp at ground
  | variadic op ts =>
    have several := two_le_length_iff ts
    -- the rules for products leave sums alone, and the other way round
    cases op
    all_goals
      simp only [IsNormalNode, variadic.injEq, reduceCtorEq, ne_eq, true_and, false_and, and_true,
        and_self, exists_false, exists_eq_left', not_exists, not_and,
        not_false_eq_true, Bool.not_eq_true, Nat.not_le]
      grind
  | binary op l r =>
    obtain ⟨groundLeft, groundRight⟩ := isGround_binary.1 ground
    have constants := not_isConstant_and_iff groundLeft groundRight
    cases op
    all_goals
      simp only [IsNormalNode, exists_binary_eq_iff, reduceCtorEq, ne_eq, true_and, false_and,
        and_true, and_self, exists_false, not_and, not_false_eq_true, Bool.not_eq_true]
      grind

theorem reduceRoot_eq_none_iff_isNormalNode (ground : t.isGround) :
    reduceRoot rules t = .ok none ↔ IsNormalNode t :=
  reduceRoot_eq_none_iff_fits.trans (unfit_iff_isNormalNode ground)

/-- Where only one reduction is possible, it takes place. -/
theorem reduceRoot_of_forall_reduces {v : Term} (ground : t.isGround)
    (unique : ∀ u, Reduces t u → u = v) (defined : ∀ error, ¬ Fails t error)
    (notNormal : ¬ IsNormalNode t) : reduceRoot rules t = .ok (some v) := by
  cases result : reduceRoot rules t with
  | error error => exact absurd (fails_of_reduceRoot ground result) (defined error)
  | ok u? =>
    cases u? with
    | none => exact absurd ((reduceRoot_eq_none_iff_isNormalNode ground).1 result) notNormal
    | some u => rw [unique u (reduces_of_reduceRoot ground result)]

end Nodes

/-! ### Normal terms -/

section Normal

variable {t u : Term}

/-- A pass leaves a ground term as it is if all its parts are of the shape. -/
theorem reducePass_eq_none_iff_isNormal (ground : t.isGround) :
    reducePass rules t = .ok none ↔ IsNormal t := by
  rw [reducePass_eq_none_iff]
  exact forall₂_congr fun u mem =>
    reduceRoot_eq_none_iff_isNormalNode (isGround_of_mem_subterms ground mem)

theorem IsNormal.subterm (h : IsNormal t) (mem : u ∈ t.subterms) : IsNormal u :=
  fun v inner => h v (mem_subterms_trans inner mem)

/-- A normal form without variables is a number. -/
theorem exists_constant_of_isNormal (constant : t.isConstant) (normal : IsNormal t) :
    ∃ value, t = .constant value := by
  have atRoot := normal t t.mem_subterms_self
  induction t using Term.induction with
  | constant value => exact ⟨value, rfl⟩
  | var name => simp at constant
  | placeholder name kind => simp at constant
  | variadic op ts ih =>
    -- the operands are numbers, of which there are two, so that one too many is left
    have numbers : ∀ t ∈ ts, isConstantNode t := by
      intro t mem
      have operand := normal.subterm (mem_subterms_operand mem)
      obtain ⟨value, rfl⟩ := ih t mem (isConstant_variadic.1 constant t mem) operand
        (operand t t.mem_subterms_self)
      rfl
    have all := List.filter_eq_self.2 numbers
    cases op with
    | sum =>
      obtain ⟨two, one, -⟩ := atRoot
      rw [all] at one
      omega
    | product =>
      obtain ⟨two, one, -⟩ := atRoot
      rw [all] at one
      omega
  | binary op l r _ _ =>
    obtain ⟨hl, hr⟩ := isConstant_binary.1 constant
    have either : l.hasVariable ∨ r.hasVariable := by cases op <;> exact atRoot.1
    rcases either with left | right
    · exact absurd left (not_hasVariable_of_isConstant hl)
    · exact absurd right (not_hasVariable_of_isConstant hr)

/-- A constant term on which a pass changes nothing is a number. -/
theorem exists_constant_of_normal (constant : t.isConstant)
    (normal : reducePass rules t = .ok none) : ∃ value, t = .constant value :=
  exists_constant_of_isNormal constant
    ((reducePass_eq_none_iff_isNormal (isGround_of_isConstant constant)).1 normal)

end Normal

/-! ### Simplification -/

/-- Simplification leaves exactly the terms in normal form as they are, and they are the ones on
which a pass changes nothing. What it gives is in normal form, so that the parts without variables
are numbers; a term without variables becomes a number unless it has no value. -/
theorem simplify_normal_form (t : Term) (ground : t.isGround) :
    (reducePass rules t = .ok none ↔ IsNormal t) ∧
    (ReductionTable.standard.simplify t = .ok t ↔ IsNormal t) ∧
    (∀ u, ReductionTable.standard.simplify t = .ok u → u.isGround ∧ IsNormal u ∧
      ∀ v ∈ u.subterms, ¬ v.hasVariable → ∃ value, v = constant value) ∧
    (¬ t.hasVariable → (∃ value, ReductionTable.standard.simplify t = .ok (constant value)) ∨
      ∃ error, ReductionTable.standard.simplify t = .error (.domain error)) := by
  have untouched := reducePass_eq_none_iff_isNormal ground
  have results : ∀ u, ReductionTable.standard.simplify t = .ok u → u.isGround ∧ IsNormal u := by
    intro u result
    obtain ⟨n, within, v, passes, groundLast, ending⟩ := exists_passes ground
    obtain ⟨normal, gives⟩ | ⟨error, -, fails⟩ := simplify_of_ending passes within ending
    · obtain rfl := Except.ok.inj (result.symm.trans gives)
      exact ⟨groundLast, (reducePass_eq_none_iff_isNormal groundLast).1 normal⟩
    · cases result.symm.trans fails
  refine ⟨untouched, ⟨fun same => (results t same).2, fun normal => ?_⟩, fun u result => ?_,
    fun noVariable => ?_⟩
  · exact reduceWithin_of_none (untouched.2 normal) t.weight
  · obtain ⟨groundLast, normal⟩ := results u result
    refine ⟨groundLast, normal, fun v mem noVariable => ?_⟩
    have constant := isConstant_of_isGround (isGround_of_mem_subterms groundLast mem) noVariable
    exact exists_constant_of_isNormal constant (normal.subterm mem)
  · have constant := isConstant_of_isGround ground noVariable
    obtain ⟨n, within, u, passes, -, ending⟩ := exists_passes ground
    obtain ⟨normal, gives⟩ | ⟨error, -, fails⟩ := simplify_of_ending passes within ending
    · obtain ⟨value, rfl⟩ := exists_constant_of_normal (isConstant_of_passes passes constant) normal
      exact .inl ⟨value, gives⟩
    · exact .inr ⟨error, fails⟩

/-- A sum with a real that is no integer is left as it is, one in which two numbers meet is not,
and a power of numbers becomes a number. -/
theorem simplify_normal_form_sum :
    let half := constant (.real (0.5 : Float))
    let t := sum [product [half, var "x"], power (var "y") (int 2), int 3]
    let u := sum [int 3, var "x", half]
    let v := power (int 2) (int 10)
    t.isGround ∧ ReductionTable.standard.simplify t = .ok t ∧
      u.isGround ∧ ReductionTable.standard.simplify u ≠ .ok u ∧
      v.isGround ∧ ¬ v.hasVariable ∧
        ((∃ value, ReductionTable.standard.simplify v = .ok (constant value)) ∨
          ∃ error, ReductionTable.standard.simplify v = .error (.domain error)) := by
  intro half t u v
  have groundFirst : t.isGround := by decide +kernel
  have groundSecond : u.isGround := by decide +kernel
  have groundThird : v.isGround := by decide +kernel
  have noVariable : ¬ v.hasVariable := by decide +kernel
  have normal : IsNormal t := by decide +kernel
  have twoNumbers : ¬ IsNormal u := by decide +kernel
  refine ⟨groundFirst, ?_, groundSecond, ?_, groundThird, noVariable, ?_⟩
  · exact (simplify_normal_form t groundFirst).2.1.2 normal
  · exact fun same => twoNumbers ((simplify_normal_form u groundSecond).2.1.1 same)
  · exact (simplify_normal_form v groundThird).2.2.2 noVariable

end Standard

end InequalityChaining

import InequalityChaining.Proofs.Deduction.EqualBindings
import InequalityChaining.Proofs.Deduction.Goals
import InequalityChaining.Proofs.Deduction.StepLimit
import InequalityChaining.Proofs.Reduction.NormalForm

/-!
# Deduction from squares only

If the only inference rule is that squares are not negative, deduction comes to an end. The fact
that comes of a square may put a new square under consideration, but that one is in normal form
already, so that nothing comes of it but the very fact that it comes from. So every step uses up one
of the squares from the beginning, and there are at most as many steps as there were squares.

In the end the fact is known for every square from the beginning. The search leaves out bindings
that equal earlier ones; no square is left out with them, because terms under consideration are
never equal.

## Main definitions

* `Calculus.squares` — the standard reductions with the rule for squares
* `Term.isSquare` — powers with an exponent equal to two
* `KnowledgeBase.isPending` — squares from which a new fact can be concluded
* `KnowledgeBase.FollowsFrom` — what is known after steps by that calculus

## Main results

* `exists_of_deduce?_squares` — what a step by that calculus concludes
* `KnowledgeBase.FollowsFrom.length_pending_lt` — a step uses up a square
* `KnowledgeBase.deduce_squares_saturates` — the run ends, within so many steps, and with all facts
-/

namespace InequalityChaining

open Term Standard

/-- The calculus with the standard reductions in which the only inference rule is that squares are
not negative. -/
def Calculus.squares : Calculus :=
  ⟨.standard, Standard.inference.filter fun rule => rule.name == "square_is_positive"⟩

theorem Calculus.inference_squares : squares.inference =
    [⟨"square_is_positive", .atMost (int 0) (power (anyTerm "X") (int 2)), []⟩] := rfl

/-- Whether the term is a power with an exponent equal to two. -/
def Term.isSquare : Term → Bool
  | power _ exponent => exponent.isNumber 2
  | _ => false

/-- The term is not negative. -/
def Proposition.notNegative (t : Term) : Proposition := .atMost (int 0) t

section Squares

variable {l r t u : Term} {k : KnowledgeBase} {d : Deduced}

theorem Proposition.notNegative_beq_iff : notNegative t == notNegative u ↔ t == u := by
  rw [beq_iff_sides]
  have zero : (int 0 == int 0) = true := rfl
  simp [notNegative, atMost, zero]

/-- A square equals the power of its base with the integer two. -/
theorem Term.power_beq_power_two (defined : l.isDefined) (two : r.isNumber 2) :
    power l r == power l (int 2) := by
  cases r with
  | constant value => exact equal_binary_iff.2 ⟨l, int 2, rfl, equal_refl defined, two⟩
  | _ => cases two

/-- A square in normal form stays one when its exponent becomes the integer two. -/
theorem Standard.isNormal_power_two (normal : IsNormal (power l r)) (two : r.isNumber 2) :
    IsNormal (power l (int 2)) := by
  intro u mem
  rcases mem_subterms_binary.1 mem with rfl | inner | inner
  · obtain ⟨either, notZero, notOne, -, -, shape⟩ := normal (power l r) (mem_subterms_self _)
    have var : l.hasVariable := by
      refine either.resolve_right fun var => ?_
      cases r with
      | constant value => cases var
      | _ => cases two
    exact ⟨.inl var, notZero, notOne, by decide, by decide, shape⟩
  · exact normal u (mem_subterms_binary.2 (.inr (.inl inner)))
  · obtain rfl : u = int 2 := by simpa [subterms] using inner
    rfl

theorem Standard.simplify_of_isNormal (ground : t.isGround) (normal : IsNormal t) :
    ReductionTable.standard.simplify t = .ok t :=
  reduceWithin_of_none ((reducePass_eq_none_iff_isNormal ground).2 normal) t.weight

/-! ### Steps -/

/-- A step concludes that a square under consideration is not negative. -/
theorem exists_of_deduce?_squares (ground : ∀ t ∈ k.terms, t.isGround)
    (h : k.deduce? .squares = some d) :
    ∃ l r u, power l r ∈ k.terms ∧ r.isNumber 2 ∧
      ReductionTable.standard.simplify (power l (int 2)) = .ok u ∧ d.fact = .notNegative u := by
  obtain ⟨rule, mem, -, b, memBindings, c, memRest, simplified, -⟩ := exists_of_deduce? h
  rw [Calculus.inference_squares] at mem
  obtain rfl := List.mem_singleton.1 mem
  obtain rfl : b = .empty := List.mem_singleton.1 memBindings
  obtain ⟨l, r, memTerms, two, rfl⟩ := exists_square_of_mem_termBindings ground memRest
  obtain ⟨left, right, relation⟩ := mapSides_eq_ok simplified
  refine ⟨l, r, d.fact.rhs, memTerms, two, right, ?_⟩
  have zero := simplify_of_isNormal (t := int 0) rfl (by decide)
  have same : int 0 = d.fact.lhs := Except.ok.inj (zero.symm.trans left)
  rw [Proposition.notNegative, Proposition.atMost, same]
  exact congrArg (Proposition.mk · d.fact.lhs d.fact.rhs) relation

end Squares

/-! ### Squares that are left -/

namespace KnowledgeBase

/-- Whether the term is a square from which a new fact can be concluded. -/
def isPending (k : KnowledgeBase) : Term → Bool
  | power base exponent =>
    exponent.isNumber 2 &&
      match ReductionTable.standard.simplify (power base (int 2)) with
      | .ok u => !k.containsFact (.notNegative u)
      | .error _ => false
  | _ => false

/-- What may be known after steps by the calculus for squares. Of each new term the fact is known,
and it is the one that would be concluded, because the term is in normal form. -/
structure FollowsFrom (start k : KnowledgeBase) : Prop where
  growth : start.GrowsTo k
  ground : ∀ t ∈ k.terms, t.isGround
  defined : ∀ t ∈ k.terms, t.isDefined
  origin : ∀ t ∈ k.terms, t ∈ start.terms ∨ (IsNormal t ∧ k.containsFact (.notNegative t))

variable {start k k' : KnowledgeBase} {t u l r : Term} {d : Deduced} {calculus : Calculus}

theorem isPending_iff : k.isPending t ↔ ∃ l r u, t = power l r ∧ r.isNumber 2 ∧
    ReductionTable.standard.simplify (power l (int 2)) = .ok u ∧
    ¬ k.containsFact (.notNegative u) := by
  constructor
  · intro pending
    match t with
    | power l r =>
      rw [isPending, Bool.and_eq_true] at pending
      obtain ⟨two, pending⟩ := pending
      split at pending
      · next u simplified => exact ⟨l, r, u, rfl, two, simplified, by simpa using pending⟩
      · cases pending
  · rintro ⟨l, r, u, rfl, two, simplified, new⟩
    simp [isPending, two, simplified, new]

theorem isSquare_of_isPending (h : k.isPending t) : t.isSquare := by
  obtain ⟨l, r, u, rfl, two, -⟩ := isPending_iff.1 h
  exact two

theorem isPending_mono (growth : k.GrowsTo k') (h : k'.isPending t) : k.isPending t := by
  obtain ⟨l, r, u, same, two, simplified, new⟩ := isPending_iff.1 h
  exact isPending_iff.2
    ⟨l, r, u, same, two, simplified, fun known => new (containsFact_mono growth known)⟩

theorem growsTo_of_deduce? (h : k.deduce? calculus = some d) : k.GrowsTo d.knowledge := by
  obtain ⟨-, -, -, frame⟩ := frame_of_deduce? h
  rw [frame]
  exact ⟨List.prefix_append _ _, List.prefix_append _ _, List.prefix_append _ _⟩

theorem containsFact_congr (same : t == u) (h : k.containsFact (.notNegative t)) :
    k.containsFact (.notNegative u) := by
  obtain ⟨fact, mem, equal⟩ := List.any_eq_true.1 h
  refine List.any_eq_true.2 ⟨fact, mem, ?_⟩
  exact Proposition.beq_trans equal (Proposition.notNegative_beq_iff.2 same)

namespace FollowsFrom

theorem refl (ground : ∀ t ∈ k.terms, t.isGround) (defined : ∀ t ∈ k.terms, t.isDefined) :
    k.FollowsFrom k :=
  ⟨.refl k, ground, defined, fun _ mem => .inl mem⟩

/-- What the base of a square under consideration is simplified to in a square. -/
theorem of_simplify (h : start.FollowsFrom k) (mem : power l r ∈ k.terms)
    (simplified : ReductionTable.standard.simplify (power l (int 2)) = .ok u) :
    u.isGround ∧ u.isDefined ∧ IsNormal u := by
  have ground : (power l (int 2)).isGround :=
    isGround_binary.2 ⟨(isGround_binary.1 (h.ground _ mem)).1, rfl⟩
  have defined : (power l (int 2)).isDefined :=
    isDefined_binary.2 ⟨(isDefined_binary.1 (h.defined _ mem)).1, rfl⟩
  obtain ⟨n, passes⟩ := exists_passes_of_reduceWithin simplified
  have groundLast := isGround_of_passes passes ground
  exact ⟨groundLast,
    isDefined_of_simplify Calculus.keepsDefined_standard.reduction defined simplified,
    (reducePass_eq_none_iff_isNormal groundLast).1 (reducePass_of_reduceWithin simplified)⟩

/-- The fact of a step is known after it. -/
theorem containsFact_of_deduce? (h : start.FollowsFrom k) (deduced : k.deduce? .squares = some d)
    (mem : power l r ∈ k.terms)
    (simplified : ReductionTable.standard.simplify (power l (int 2)) = .ok u)
    (fact : d.fact = .notNegative u) : d.knowledge.containsFact (.notNegative u) := by
  obtain ⟨-, defined, -⟩ := h.of_simplify mem simplified
  obtain ⟨-, -, -, frame⟩ := frame_of_deduce? deduced
  have reflexive : Proposition.notNegative u == Proposition.notNegative u :=
    Proposition.notNegative_beq_iff.2 (equal_refl defined)
  refine List.any_eq_true.2 ⟨.notNegative u, ?_, reflexive⟩
  rw [frame, ← fact]
  exact List.mem_append_right _ (List.mem_singleton_self _)

/-- The square from which a new fact is concluded was there at the beginning. -/
theorem exists_pending (h : start.FollowsFrom k) (deduced : k.deduce? .squares = some d) :
    ∃ t ∈ start.terms, k.isPending t ∧ ¬ d.knowledge.isPending t := by
  obtain ⟨l, r, u, mem, two, simplified, fact⟩ := exists_of_deduce?_squares h.ground deduced
  have notKnown : ¬ k.containsFact (.notNegative u) := by
    obtain ⟨-, new, -, -⟩ := frame_of_deduce? deduced
    simpa [containsFact, ← fact] using new
  have old : power l r ∈ start.terms := by
    refine (h.origin _ mem).resolve_right ?_
    rintro ⟨normal, known⟩
    -- a square in normal form simplifies to itself, and its fact is known
    have groundLeft := (isGround_binary.1 (h.ground _ mem)).1
    have definedLeft := (isDefined_binary.1 (h.defined _ mem)).1
    obtain rfl : power l (int 2) = u := by
      have ground : (power l (int 2)).isGround := isGround_binary.2 ⟨groundLeft, rfl⟩
      have unchanged := simplify_of_isNormal ground (isNormal_power_two normal two)
      exact Except.ok.inj (unchanged.symm.trans simplified)
    exact notKnown (containsFact_congr (power_beq_power_two definedLeft two) known)
  refine ⟨power l r, old, isPending_iff.2 ⟨l, r, u, rfl, two, simplified, notKnown⟩, ?_⟩
  intro pending
  obtain ⟨l', r', u', same, -, simplified', notKnown'⟩ := isPending_iff.1 pending
  obtain ⟨rfl, rfl⟩ : l = l' ∧ r = r' := by simpa using same
  obtain rfl := Except.ok.inj (simplified.symm.trans simplified')
  exact notKnown' (h.containsFact_of_deduce? deduced mem simplified fact)

/-- Fewer squares are left after a step. -/
theorem length_pending_lt (h : start.FollowsFrom k) (deduced : k.deduce? .squares = some d) :
    (start.terms.filter d.knowledge.isPending).length <
      (start.terms.filter k.isPending).length := by
  obtain ⟨t, mem, before, after⟩ := h.exists_pending deduced
  have both : start.terms.filter d.knowledge.isPending =
      (start.terms.filter k.isPending).filter d.knowledge.isPending := by
    rw [List.filter_filter]
    refine List.filter_congr fun u _ => ?_
    have earlier := isPending_mono (growsTo_of_deduce? deduced) (t := u)
    grind
  rw [both]
  exact List.length_filter_lt_length_iff_exists.2 ⟨t, List.mem_filter.2 ⟨mem, before⟩, after⟩

/-- The term that a step adds is in normal form, and its fact is the one that the step admits. -/
theorem step (h : start.FollowsFrom k) (deduced : k.deduce? .squares = some d) :
    start.FollowsFrom d.knowledge := by
  obtain ⟨l, r, u, mem, two, simplified, fact⟩ := exists_of_deduce?_squares h.ground deduced
  obtain ⟨groundNew, definedNew, normalNew⟩ := h.of_simplify mem simplified
  have growth := growsTo_of_deduce? deduced
  have cases_terms : ∀ t ∈ d.knowledge.terms, t ∈ k.terms ∨ t = u := by
    intro t mem
    obtain ⟨-, -, -, frame⟩ := frame_of_deduce? deduced
    rw [frame, fact] at mem
    refine (List.mem_append.1 mem).imp_right fun unknown => ?_
    -- zero is not put under consideration
    have side := Term.mem_of_mem_unknown unknown
    have var := Term.hasVariable_of_mem_unknown unknown
    rcases List.mem_pair.1 side with rfl | rfl
    · cases var
    · rfl
  refine ⟨h.growth.trans growth, fun t mem => ?_, fun t mem => ?_, fun t mem => ?_⟩
  · rcases cases_terms t mem with old | rfl
    · exact h.ground t old
    · exact groundNew
  · rcases cases_terms t mem with old | rfl
    · exact h.defined t old
    · exact definedNew
  · rcases cases_terms t mem with old | rfl
    · exact (h.origin t old).imp_right fun ⟨normal, known⟩ =>
        ⟨normal, containsFact_mono growth known⟩
    · exact .inr ⟨normalNew, h.containsFact_of_deduce? deduced ‹_› simplified fact⟩

/-- Steps are possible only as long as squares are left. -/
theorem exists_last (h : start.FollowsFrom k) :
    ∃ n last, n ≤ (start.terms.filter k.isPending).length ∧
      after? .squares n k = some last ∧ last.deduce? .squares = none ∧
      start.FollowsFrom last := by
  induction left : (start.terms.filter k.isPending).length using Nat.strongRecOn
    generalizing k with
  | ind left' ih =>
    subst left
    cases deduced : k.deduce? .squares with
    | none => exact ⟨0, k, Nat.zero_le _, rfl, deduced, h⟩
    | some d =>
      have fewer := h.length_pending_lt deduced
      obtain ⟨n, last, within, reached, stuck, follows⟩ := ih _ fewer (h.step deduced) rfl
      refine ⟨n + 1, last, Nat.lt_of_le_of_lt within fewer, ?_, stuck, follows⟩
      rw [after?, deduced]
      exact reached

end FollowsFrom

/-! ### Squares that are left out -/

theorem eq_of_mem_of_beq {ts : List Term} (distinct : ts.Pairwise fun t u => ¬ t == u)
    (memLeft : t ∈ ts) (memRight : u ∈ ts) (same : t == u) : t = u := by
  have symmetric : Std.Symm fun t u : Term => ¬ t == u :=
    ⟨fun _ _ other equal => other (equal_symm equal)⟩
  by_contra different
  exact distinct.forall memLeft memRight different same

theorem mem_termBindings_square_iff {c : Bindings} {ts : List Term} :
    c ∈ termBindings ts (.atMost (int 0) (power (anyTerm "X") (int 2))) ↔
      c ∈ distinctBindings
        (ts.filterMap fun t => t.matchPattern? (power (anyTerm "X") (int 2)) .empty) := by
  have left : (int 0).hasPlaceholder = false := rfl
  have right : (power (anyTerm "X") (int 2)).hasPlaceholder = true := rfl
  simp [termBindings, Proposition.sides, Proposition.atMost, left, right]

/-- A square whose exponent is the integer two is a candidate. The search drops bindings that equal
earlier ones, which those for two different terms never do. -/
theorem mem_termBindings_square (ground : ∀ t ∈ k.terms, t.isGround)
    (distinct : k.terms.Pairwise fun t u => ¬ t == u) (mem : power l (int 2) ∈ k.terms) :
    Bindings.empty.insert "X" l ∈
      termBindings k.terms (.atMost (int 0) (power (anyTerm "X") (int 2))) := by
  have matched : (power l (int 2)).matchPattern? (power (anyTerm "X") (int 2)) .empty =
      some (Bindings.empty.insert "X" l) := by
    have base := match_anyTerm (isGround_binary.1 (ground _ mem)).1 (Bindings.find?_empty "X")
    exact matchPattern?_binary_eq_some.2 ⟨l, int 2, _, rfl, base, match_int.2 ⟨rfl, rfl⟩⟩
  have candidate := List.mem_filterMap
    (f := fun t : Term => t.matchPattern? (power (anyTerm "X") (int 2)) .empty) |>.2
      ⟨_, mem, matched⟩
  rcases mem_distinctBindings_or_exists_beq candidate with kept | ⟨c, kept, same⟩
  · exact mem_termBindings_square_iff.2 kept
  · -- the earlier bindings come from an equal square, hence from the same one
    have kept' := mem_termBindings_square_iff.2 kept
    obtain ⟨l', r, mem', two, rfl⟩ := exists_square_of_mem_termBindings ground kept'
    have base : l'.equal l := by
      have related := Bindings.alike_of_beq same "X"
      simpa [Bindings.find?_insert] using related
    have squares : power l' r == power l (int 2) := by
      cases r with
      | constant value => exact equal_binary_iff.2 ⟨l, int 2, rfl, base, two⟩
      | _ => cases two
    obtain ⟨rfl, rfl⟩ : l' = l ∧ r = int 2 := by
      simpa using eq_of_mem_of_beq distinct mem' mem squares
    exact kept'

/-- Where no step is possible, the fact of every such square is known. -/
theorem containsFact_of_deduce?_eq_none (ground : ∀ t ∈ k.terms, t.isGround)
    (distinct : k.terms.Pairwise fun t u => ¬ t == u) (stuck : k.deduce? .squares = none)
    (mem : power l (int 2) ∈ k.terms)
    (simplified : ReductionTable.standard.simplify (power l (int 2)) = .ok u)
    (var : u.hasVariable) : k.containsFact (.notNegative u) := by
  by_contra new
  have candidate := mem_termBindings_square ground distinct mem
  rw [deduce?, Calculus.inference_squares, List.findSome?_singleton, InferenceRule.fire?] at stuck
  have nothing := List.findSome?_eq_none_iff.1 stuck .empty (List.mem_singleton_self _)
  have refused := InferenceRule.admit?_eq_none_iff.1
    (List.findSome?_eq_none_iff.1 nothing _ candidate) (.notNegative u)
  have groundLeft := (isGround_binary.1 (ground _ mem)).1
  change ¬ k.Admissible .standard (.notNegative (power l (int 2))) (.notNegative u) at refused
  -- nothing but a known fact can have refused this candidate
  refine refused ⟨?_, ?_, ?_, ?_⟩
  · have left : (int 0).isGround := rfl
    have right : (power l (int 2)).isGround := isGround_binary.2 ⟨groundLeft, rfl⟩
    simp only [isGround, Bool.not_eq_true'] at left right
    simp [Proposition.hasPlaceholder, Proposition.notNegative, Proposition.atMost, left, right]
  · have left : ReductionTable.standard.simplify (int 0) = .ok (int 0) :=
      simplify_of_isNormal rfl (by decide)
    rw [Proposition.mapSides, Proposition.notNegative, Proposition.atMost, left, simplified]
    rfl
  · simp [Proposition.hasVariable, Proposition.notNegative, Proposition.atMost, var]
  · exact fun known mem same => new (List.any_eq_true.2 ⟨known, mem, same⟩)

/-! ### Runs -/

/-- A run without limits ends where no step is possible. -/
theorem deduceWithin_of_after? {last : KnowledgeBase} {clock : Nat → Float} {n rounds steps : Nat}
    (reached : after? calculus n k = some last) (stuck : last.deduce? calculus = none)
    (enough : n < rounds) :
    k.deduceWithin calculus .unlimited clock (fun _ => false) rounds steps =
      ⟨.saturated, steps + n, last⟩ := by
  induction n generalizing k rounds steps with
  | zero =>
    obtain ⟨rounds, rfl⟩ := Nat.exists_eq_add_of_lt enough
    obtain rfl := Option.some.inj reached
    simp [deduceWithin, Budget.isExhausted, Budget.unlimited, stuck]
  | succ n ih =>
    obtain ⟨rounds, rfl⟩ := Nat.exists_eq_succ_of_ne_zero (Nat.ne_zero_of_lt enough)
    obtain ⟨d, deduced, reached⟩ := Option.bind_eq_some_iff.1 reached
    rw [Nat.add_comm n, ← Nat.add_assoc, ← ih reached (Nat.lt_of_succ_lt_succ enough)]
    simp [deduceWithin, Budget.isExhausted, Budget.unlimited, deduced]

theorem isIrredundant_of_after? {last : KnowledgeBase} {n : Nat} (h : k.IsIrredundant)
    (reached : after? calculus n k = some last) : last.IsIrredundant := by
  induction n generalizing k with
  | zero => exact Option.some.inj reached ▸ h
  | succ n ih =>
    obtain ⟨d, deduced, reached⟩ := Option.bind_eq_some_iff.1 reached
    exact ih (h.admits (admits_of_deduce? deduced)) reached

/-- Without limits, deduction by the rule for squares comes to an end by itself, whatever is known
at the beginning, as long as no term under consideration has a placeholder or an undefined constant.
It takes at most as many steps as there are squares among these terms, and any number of rounds that
exceeds its steps gives the same run; those of an unlimited budget do unless there are more than
`2 ^ 64` squares. If what is known at the beginning has come about by operations, then in the end of
every square with the integer two as its exponent, when its simplified form has a variable, it is
known that this is not negative. -/
theorem deduce_squares_saturates (k : KnowledgeBase) (ground : ∀ t ∈ k.terms, t.isGround)
    (defined : ∀ t ∈ k.terms, t.isDefined) (clock : Nat → Float) :
    ∃ n last, n ≤ (k.terms.filter isSquare).length ∧
      (∀ rounds, n < rounds → k.deduceWithin .squares .unlimited clock (fun _ => false) rounds 0 =
        ⟨.saturated, n, last⟩) ∧
      ((k.terms.filter isSquare).length ≤ Nat.pow 2 64 →
        k.deduce .squares .unlimited clock = ⟨.saturated, n, last⟩) ∧
      ∀ operations, k = Operation.performAll operations → ∀ base u,
        power base (int 2) ∈ k.terms →
        ReductionTable.standard.simplify (power base (int 2)) = .ok u → u.hasVariable →
        last.containsFact (.atMost (int 0) u) := by
  obtain ⟨n, last, within, reached, stuck, follows⟩ := (FollowsFrom.refl ground defined).exists_last
  have few : n ≤ (k.terms.filter isSquare).length := by
    refine within.trans (List.Sublist.length_le ?_)
    exact List.monotone_filter_right k.terms fun t => isSquare_of_isPending
  have run : ∀ rounds, n < rounds →
      k.deduceWithin .squares .unlimited clock (fun _ => false) rounds 0 =
        ⟨.saturated, n, last⟩ := by
    intro rounds enough
    rw [deduceWithin_of_after? reached stuck enough, Nat.zero_add]
  refine ⟨n, last, few, run, fun bounded => run _ ?_, ?_⟩
  · exact Nat.lt_succ_of_le (few.trans bounded)
  · intro operations built base u mem simplified var
    have irredundant : last.IsIrredundant :=
      isIrredundant_of_after? (built ▸ Operation.isIrredundant_performAll operations) reached
    exact containsFact_of_deduce?_eq_none follows.ground irredundant.terms stuck
      (follows.growth.terms.subset mem) simplified var

/-- The square of a difference to zero leads to a square that is put under consideration, and from
which nothing new is concluded. -/
theorem deduce_squares_saturates_difference :
    let t := power (difference (var "x") (int 0)) (int 2)
    let k := Operation.performAll [.addTerm t ""]
    k.terms = [t] ∧ (∀ t ∈ k.terms, t.isGround) ∧ (∀ t ∈ k.terms, t.isDefined) ∧
      ReductionTable.standard.simplify t = .ok (power (var "x") (int 2)) ∧
      ∃ n last, n ≤ 1 ∧ k.deduce .squares .unlimited stillClock = ⟨.saturated, n, last⟩ ∧
        last.containsFact (.atMost (int 0) (power (var "x") (int 2))) := by
  intro t k
  have ground : ∀ t ∈ k.terms, t.isGround := by decide
  have defined : ∀ t ∈ k.terms, t.isDefined := by decide
  have taken : reduceRoot rules (difference (var "x") (int 0)) = .ok (some (var "x")) := by
    refine reduceRoot_of_forall_reduces rfl (fun u reduces => ?_) (fun error fails => ?_)
      (by decide)
    · generalize same : difference (var "x") (int 0) = v at reduces
      cases reduces with
      | @neutralRight op l r h => exact (binary.inj same).2.1.symm
      | foldBinary hl hr h =>
        obtain ⟨-, rfl, -⟩ := binary.inj same
        cases hl
      | @nestedLeft op l r z => cases (binary.inj same).2.1
      | @nestedRight op l r z => cases (binary.inj same).2.2
      | _ => cases same
    · cases fails with
      | foldBinary hl hr h => cases hl
  have pass : reducePass rules t = .ok (some (power (var "x") (int 2))) := by
    have root : reduceRoot rules t = .ok none :=
      (reduceRoot_eq_none_iff_isNormalNode rfl).2 (by decide)
    have two : reducePass rules (int 2) = .ok none :=
      (reducePass_eq_none_iff_isNormal rfl).2 (by decide)
    rw [reducePass_binary root, reducePass_of_root_some taken, two]
    rfl
  have simplified : ReductionTable.standard.simplify t = .ok (power (var "x") (int 2)) := by
    have normal : IsNormal (power (var "x") (int 2)) := by decide
    rw [simplify_of_passes (.head pass (.refl _)) (by decide),
      reduceWithin_of_none ((reducePass_eq_none_iff_isNormal rfl).2 normal)]
  obtain ⟨n, last, few, -, run, known⟩ := deduce_squares_saturates k ground defined stillClock
  exact ⟨rfl, ground, defined, simplified, n, last, few, run (by decide),
    known _ rfl _ _ List.mem_cons_self simplified rfl⟩

end KnowledgeBase

end InequalityChaining

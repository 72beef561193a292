import Mathlib
import InequalityChaining.Proofs.Deduction.Candidates
import InequalityChaining.Proofs.Deduction.Knowledge
import InequalityChaining.Proofs.Polynomial.Rearrangement

/-!
# Soundness of deduction with polynomials

Where goal and assumptions are about polynomials, every fact that is deduced by the standard rules
is true of all real numbers that the assumptions are true of. A square is not negative and true
inequalities add up to a true one, so what is concluded is true; simplifying it keeps the value of
its sides as long as they are bounded. The sides of a conclusion are at most twice as large as what
is known, so it is enough that before each step all is known in half of the bounds. A goal counts as
proved when it equals a fact, and equal polynomials have equal values.

## Main definitions

* `Proposition.holdsIn` — truth under an assignment of real numbers
* `KnowledgeBase.IsSmall`, `KnowledgeBase.SmallUntil` — half of the bounds of polynomials
* `KnowledgeBase.IsSound` — all that is known are polynomials and true facts

## Main results

* `KnowledgeBase.IsSound.deduces` — a step keeps what is known sound
* `deduction_sound` — so does a run, and a goal that is proved is true
-/

open Relation (ReflTransGen TransGen)

namespace InequalityChaining

open Term Standard

/-! ### Parts of polynomials -/

section Parts

variable {t u : Term}

theorem IsPolynomial.of_mem_subterms (h : IsPolynomial t) (mem : u ∈ t.subterms) :
    IsPolynomial u := by
  refine PolynomialOver.of_mem_subterms h ?_ mem
  rintro _ ⟨n, -, rfl⟩ part
  obtain rfl : u = int n := by simpa [subterms] using part
  exact .int n

end Parts

/-! ### Truth -/

/-- The proposition is true under an assignment of real numbers. -/
def Proposition.holdsIn (assignment : String → ℝ) (p : Proposition) : Prop :=
  match p.relation with
  | .equals => p.lhs.valueIn assignment = p.rhs.valueIn assignment
  | .atMost => p.lhs.valueIn assignment ≤ p.rhs.valueIn assignment

/-- Both sides of the proposition are polynomials. -/
def Proposition.IsOfPolynomials (p : Proposition) : Prop := ∀ side ∈ p.sides, IsPolynomial side

section Truth

variable {assignment : String → ℝ} {p q : Proposition}

theorem holdsIn_of_atMost (relation : p.relation = .atMost) :
    p.holdsIn assignment ↔ p.lhs.valueIn assignment ≤ p.rhs.valueIn assignment := by
  rw [Proposition.holdsIn, relation]

theorem Proposition.IsOfPolynomials.lhs (h : p.IsOfPolynomials) : IsPolynomial p.lhs :=
  h p.lhs (by simp [Proposition.sides])

theorem Proposition.IsOfPolynomials.rhs (h : p.IsOfPolynomials) : IsPolynomial p.rhs :=
  h p.rhs (by simp [Proposition.sides])

/-- An inequality is true if one that equals it is. -/
theorem holdsIn_of_beq (hp : p.IsOfPolynomials) (hq : q.IsOfPolynomials)
    (relation : q.relation = .atMost) (h : (p == q) = true) (holds : p.holdsIn assignment) :
    q.holdsIn assignment := by
  change p.equal q = true at h
  rw [Proposition.equal, relation] at h
  split at h
  · next other => cases other
  · next same _ =>
    rw [Bool.and_eq_true] at h
    have value := dependsOnOperands_valueIn assignment
    rw [holdsIn_of_atMost same] at holds
    rw [holdsIn_of_atMost relation,
      ← value.eq_of_equal hp.lhs.polynomialOver hq.lhs.polynomialOver h.1,
      ← value.eq_of_equal hp.rhs.polynomialOver hq.rhs.polynomialOver h.2]
    exact holds
  · simp at h

end Truth

/-! ### Steps -/

/-- A term is within half of the bounds of polynomials. -/
structure Term.IsSmall (t : Term) : Prop where
  magnitude : t.magnitude ≤ 2 ^ 62 - 1
  degree : t.degree ≤ 2 ^ 32 - 1

namespace KnowledgeBase

/-- All that is known is within half of the bounds of polynomials. -/
structure IsSmall (k : KnowledgeBase) : Prop where
  terms : ∀ t ∈ k.terms, t.IsSmall
  facts : ∀ fact ∈ k.facts, ∀ side ∈ fact.sides, side.IsSmall

/-- All that is known is about polynomials, and the facts are true. -/
structure IsSound (assignment : String → ℝ) (k : KnowledgeBase) : Prop where
  terms : ∀ t ∈ k.terms, IsPolynomial t
  facts : ∀ fact ∈ k.facts, fact.IsOfPolynomials
  holds : ∀ fact ∈ k.facts, fact.holdsIn assignment

end KnowledgeBase

section Steps

variable {assignment : String → ℝ} {k k' : KnowledgeBase} {p fact : Proposition}

/-- Two polynomials within half of the bounds can be added. -/
theorem isBounded_sum_pair {t u : Term} (ht : IsPolynomial t) (hu : IsPolynomial u)
    (smallLeft : t.IsSmall) (smallRight : u.IsSmall) : (sum [t, u]).IsBounded where
  polynomial := by
    refine .variadic .sum (List.forall_mem_cons.2 ⟨ht.polynomialOver, ?_⟩)
    exact List.forall_mem_singleton.2 hu.polynomialOver
  magnitude := by
    have left := smallLeft.magnitude
    have right := smallRight.magnitude
    simp only [magnitude_variadic, Variadic.joinAll, List.map_cons, List.map_nil, List.sum_cons,
      List.sum_nil]
    omega
  degree := by
    have left := smallLeft.degree
    have right := smallRight.degree
    refine maxDegree_le_iff.2 ⟨by omega, ?_⟩
    exact List.forall_mem_cons.2 ⟨left, List.forall_mem_singleton.2 right⟩

/-- What is concluded from small things is bounded. -/
theorem Concludes.isBounded (sound : k.IsSound assignment) (small : k.IsSmall)
    (h : Concludes k p) : p.lhs.IsBounded ∧ p.rhs.IsBounded := by
  cases h with
  | @squareNotNegative b e mem two =>
    have polynomial := (sound.terms _ mem).polynomialOver
    obtain ⟨magnitude, degree⟩ := small.terms _ mem
    -- the exponent is the number two, so the square is under consideration itself
    obtain rfl : e = int 2 := by
      have exponent := (polynomialOver_power.1 polynomial).2
      exact eq_int_of_isNumber exponent.polynomialOver two
    have zero : (int 0).IsBounded := ⟨.int 0, by decide, by decide⟩
    have square : (power b (int 2)).IsBounded := ⟨polynomial, by omega, degree⟩
    exact ⟨zero, square⟩
  | addInequalities memLeft memRight left right =>
    have polynomialLeft := sound.facts _ memLeft
    have polynomialRight := sound.facts _ memRight
    have smallLeft := small.facts _ memLeft
    have smallRight := small.facts _ memRight
    simp only [Proposition.sides, List.forall_mem_cons] at smallLeft smallRight
    exact ⟨isBounded_sum_pair polynomialLeft.lhs polynomialRight.lhs smallLeft.1 smallRight.1,
      isBounded_sum_pair polynomialLeft.rhs polynomialRight.rhs smallLeft.2.1 smallRight.2.1⟩

/-- What is concluded from true facts is true. -/
theorem Concludes.holdsIn (sound : k.IsSound assignment) (h : Concludes k p) :
    p.holdsIn assignment := by
  cases h with
  | @squareNotNegative b e mem two =>
    change ((int 0).valueIn assignment : ℝ) ≤ (power b (int 2)).valueIn assignment
    have zero : (int 0).valueIn assignment = (0 : ℝ) := Int.cast_zero
    rw [zero, valueIn]
    exact sq_nonneg _
  | @addInequalities p q memLeft memRight left right =>
    have first := (holdsIn_of_atMost left).1 (sound.holds p memLeft)
    have second := (holdsIn_of_atMost right).1 (sound.holds q memRight)
    refine (holdsIn_of_atMost rfl).2 ?_
    simpa [Proposition.atMost, valueIn_variadic, Variadic.joinAll] using add_le_add first second

/-- Simplifying bounded sides keeps a proposition true. -/
theorem holdsIn_of_mapSides (left : p.lhs.IsBounded) (right : p.rhs.IsBounded)
    (h : p.mapSides ReductionTable.standard.simplify = .ok fact) :
    fact.holdsIn assignment ↔ p.holdsIn assignment := by
  obtain ⟨lhs, rhs, relation⟩ := mapSides_eq_ok h
  have lhs : Refines assignment _ _ := refines_of_simplify left lhs
  have rhs : Refines assignment _ _ := refines_of_simplify right rhs
  rw [Proposition.holdsIn, Proposition.holdsIn, relation, lhs.value, rhs.value]

/-- A step from what is small and sound leads to what is sound. -/
theorem KnowledgeBase.IsSound.deduces (sound : k.IsSound assignment) (small : k.IsSmall)
    (h : k.Deduces k') : k'.IsSound assignment := by
  obtain ⟨d, deduced, rfl⟩ := h
  obtain ⟨candidate, concludes, simplified, message, added⟩ := concludes_of_deduce?
    (fun t mem => (sound.terms t mem).polynomialOver.isGround)
    (fun p mem t side => (sound.facts p mem t side).polynomialOver.isGround) deduced
  obtain ⟨left, right⟩ := concludes.isBounded sound small
  obtain ⟨lhs, rhs, -⟩ := mapSides_eq_ok simplified
  have polynomials : d.fact.IsOfPolynomials := by
    refine List.forall_mem_cons.2 ⟨isPolynomial_of_simplify left lhs, ?_⟩
    exact List.forall_mem_singleton.2 (isPolynomial_of_simplify right rhs)
  -- the conclusion is true, and what it is simplified to says the same
  have holds : d.fact.holdsIn assignment :=
    (holdsIn_of_mapSides left right simplified).2 (concludes.holdsIn sound)
  have facts := facts_of_addFact? added
  refine ⟨fun t mem => ?_, fun fact mem => ?_, fun fact mem => ?_⟩
  · rcases mem_terms_of_addFact? added mem with mem | ⟨side, -⟩
    · exact sound.terms t mem
    · exact polynomials t side
  · rw [facts, List.mem_append, List.mem_singleton] at mem
    rcases mem with mem | rfl
    · exact sound.facts fact mem
    · exact polynomials
  · rw [facts, List.mem_append, List.mem_singleton] at mem
    rcases mem with mem | rfl
    · exact sound.holds fact mem
    · exact holds

end Steps

/-! ### A square -/

theorem isBounded_square (name : String) : (power (var name) (int 2)).IsBounded where
  polynomial := .power (.var name) (.int (by decide))
  magnitude := by
    have magnitude : (power (var name) (int 2)).magnitude = 1 := rfl
    omega
  degree := by
    have degree : (power (var name) (int 2)).degree = 2 := rfl
    omega

theorem simplify_square (name : String) :
    ReductionTable.standard.simplify (power (var name) (int 2)) =
      .ok (power (var name) (int 2)) := by
  refine simplify_eq_self (isBounded_square name) fun u mem v step => ?_
  rcases mem_subterms_binary.1 mem with rfl | mem | mem
  · cases step with
    | foldBinary constant => simp at constant
  · obtain rfl : u = var name := by simpa [subterms] using mem
    cases step
  · obtain rfl : u = int 2 := by simpa [subterms] using mem
    cases step

/-- Of a variable and its square only the square is matched. -/
theorem termBindings_square (name : String) :
    termBindings [var name, power (var name) (int 2)]
      (.atMost (int 0) (power (anyTerm "X") (int 2))) =
        [Bindings.empty.insert "X" (var name)] := by
  have left : (int 0).hasPlaceholder = false := rfl
  have right : (power (anyTerm "X") (int 2)).hasPlaceholder := rfl
  have noSquare : (var name).matchPattern? (power (anyTerm "X") (int 2)) .empty = none := by
    rw [Option.eq_none_iff_forall_not_mem]
    intro b found
    obtain ⟨_, _, _, other, -⟩ := matchPattern?_binary_eq_some.1 found
    cases other
  have square : (power (var name) (int 2)).matchPattern? (power (anyTerm "X") (int 2)) .empty =
      some (Bindings.empty.insert "X" (var name)) := by
    rw [matchPattern?_binary, if_pos rfl, match_anyTerm rfl rfl, Option.bind_some,
      matchPattern?_constant]
    rfl
  simp [termBindings, Proposition.sides, Proposition.atMost, left, right, noSquare, square,
    distinctBindings]

/-- Where nothing is known about a variable, the first step finds its square not to be negative. -/
theorem exists_deduce?_square {k : KnowledgeBase} (name : String) (facts : k.facts = [])
    (terms : k.terms = [var name, power (var name) (int 2)]) :
    ∃ d, k.deduce? .standard = some d ∧
      d.knowledge.facts = [.atMost (int 0) (power (var name) (int 2))] := by
  let rule := inference.head (by decide)
  let square : Proposition := .atMost (int 0) (power (var name) (int 2))
  have normal : square.mapSides ReductionTable.standard.simplify = .ok square := by
    have zero : ReductionTable.standard.simplify (int 0) = .ok (int 0) := by
      refine simplify_eq_self ⟨.int 0, by decide, by decide⟩ fun u mem v step => ?_
      obtain rfl : u = int 0 := by simpa [subterms] using mem
      cases step
    rw [Proposition.mapSides]
    simp only [square, Proposition.atMost, zero, simplify_square]
    rfl
  have admissible : k.Admissible .standard square square :=
    ⟨Bool.false_ne_true, normal, rfl, by simp [facts]⟩
  have all : assumptionBindings k.facts rule.assumptions = [.empty] := rfl
  have bindings : termBindings k.terms (rule.conclusion.substitute .empty) =
      [Bindings.empty.insert "X" (var name)] := terms ▸ termBindings_square name
  have fired := InferenceRule.fire?_of_single all bindings admissible
  refine ⟨_, (List.findSome?_cons_of_isSome (fired ▸ rfl)).trans fired, ?_⟩
  change k.facts ++ [square] = [square]
  rw [facts, List.nil_append]

/-! ### A bound added to itself -/

section Doubling

variable {c v g : Number}

theorem simplify_twice :
    ReductionTable.standard.simplify (sum [var "x", var "x"]) = .ok (sum [var "x", var "x"]) := by
  cbv

/-- From a bound of a variable the first step concludes the bound of twice the variable. -/
theorem exists_deduce?_double {k : KnowledgeBase}
    (facts : k.facts = [.atMost (var "x") (constant c)])
    (terms : k.terms = [var "x", sum [var "x", var "x"]])
    (simplified : ReductionTable.standard.simplify (sum [constant c, constant c]) =
      .ok (constant v)) :
    ∃ d, k.deduce? .standard = some d ∧
      d.fact = .atMost (sum [var "x", var "x"]) (constant v) ∧
      d.knowledge.facts = k.facts ++ [d.fact] := by
  let addition := inference.getLast (by decide)
  let b := (((Bindings.empty.insert "X1" (var "x")).insert "Y1" (constant c)).insert "X2"
    (var "x")).insert "Y2" (constant c)
  let candidate : Proposition :=
    .atMost (sum [var "x", var "x"]) (sum [constant c, constant c])
  let fact : Proposition := .atMost (sum [var "x", var "x"]) (constant v)
  -- without a square among the terms the first rule yields nothing
  have noSquare : (inference.head (by decide)).fire? .standard k = none := by
    have none : termBindings k.terms (.atMost (int 0) (power (anyTerm "X") (int 2))) = [] := by
      rw [terms]
      cbv
    have all : assumptionBindings k.facts [] = [.empty] := rfl
    rw [InferenceRule.fire?]
    change (assumptionBindings k.facts []).findSome? _ = _
    rw [all, List.findSome?_singleton]
    change (termBindings k.terms (.atMost (int 0) (power (anyTerm "X") (int 2)))).findSome? _ = _
    rw [none, List.findSome?_nil]
  have bindings : assumptionBindings k.facts addition.assumptions = [b] := by
    rw [facts]
    cbv
  have normal : candidate.mapSides ReductionTable.standard.simplify = .ok fact := by
    rw [Proposition.mapSides]
    simp only [candidate, Proposition.atMost, simplify_twice, simplified]
    rfl
  have admissible : k.Admissible .standard candidate fact := by
    refine ⟨Bool.false_ne_true, normal, rfl, fun known mem => ?_⟩
    obtain rfl := List.mem_singleton.1 (facts ▸ mem)
    exact Bool.false_ne_true
  have nothingLeft : termBindings k.terms candidate = [.empty] := rfl
  have fired := addition.fire?_of_single bindings nothingLeft admissible
  refine ⟨⟨addition.name, fact, k.admit addition.name fact⟩, ?_, rfl, rfl⟩
  change [inference.head (by decide), addition].findSome? (·.fire? .standard k) = _
  rw [List.findSome?_cons, noSquare, List.findSome?_singleton]
  exact fired

/-- A fact that is new is assumed. -/
theorem KnowledgeBase.assume_of_isNew {k : KnowledgeBase} {p : Proposition}
    (new : (!p.hasVariable || k.containsFact p) = false) :
    (k.assume p).facts = k.facts ++ [p] ∧
      (k.assume p).terms = k.terms ++ Term.unknown k.terms p.sides := by
  rw [KnowledgeBase.assume_eq, addFact?_eq_ite, new]
  simp [terms_addTerms]

/-- To prove a bound of twice a variable from one of the variable. -/
def doubling (c g : Number) : Problem :=
  ⟨.atMost (sum [var "x", var "x"]) (constant g), [.atMost (var "x") (constant c)], ["x"]⟩

theorem ofPropositions_doubling (c g : Number) :
    Problem.ofPropositions (doubling c g).goal (doubling c g).assumptions =
      .ok (doubling c g) := by
  rfl

open KnowledgeBase in
/-- At the beginning the bound of the variable is the only fact. -/
theorem start_doubling (c g : Number) :
    (Attempt.start (doubling c g)).knowledge.facts = [.atMost (var "x") (constant c)] ∧
      (Attempt.start (doubling c g)).knowledge.terms =
        [var "x", sum [var "x", var "x"]] := by
  let bound : Proposition := .atMost (var "x") (constant c)
  -- the lines of the transcript do not matter
  obtain ⟨opening, terms, facts, knowledge⟩ : ∃ k : KnowledgeBase, k.terms = [] ∧ k.facts = [] ∧
      (Attempt.start (doubling c g)).knowledge =
        ((((k.addTerms [var "x"]).addSubterms bound).addSubterms (doubling c g).goal).assume
          bound).addHistory "here we go!" := by
    refine ⟨(KnowledgeBase.empty.addHistory ?_).addHistory ?_, ?_, ?_, ?unfolded⟩
    case unfolded =>
      simp only [Attempt.start, doubling, List.cons_append, List.nil_append, List.foldl_cons,
        List.foldl_nil, List.map_cons, List.map_nil]
      rfl
    all_goals simp [KnowledgeBase.empty]
  let seeded := ((opening.addTerms [var "x"]).addSubterms bound).addSubterms (doubling c g).goal
  have termsSeeded : seeded.terms = [var "x", sum [var "x", var "x"]] := by
    simp only [seeded, addSubterms, Proposition.sides, List.foldl_cons, List.foldl_nil,
      terms_addTerms, terms]
    rfl
  have factsSeeded : seeded.facts = [] := by
    simp [seeded, facts_addSubterms, facts]
  have new : (!bound.hasVariable || seeded.containsFact bound) = false := by
    rw [containsFact, factsSeeded]
    rfl
  obtain ⟨facts, terms⟩ := assume_of_isNew new
  rw [knowledge, facts_addHistory, terms_addHistory, facts, terms, factsSeeded, termsSeeded]
  exact ⟨rfl, rfl⟩

/-- The goal is proved in one step if twice the bound is simplified to what it asks for. -/
theorem exists_prove_doubling (simplified : ReductionTable.standard.simplify
      (sum [constant c, constant c]) = .ok (constant v)) (reached : v == g) :
    ∃ d, (Attempt.start (doubling c g)).knowledge.deduce? .standard = some d ∧
      d.fact = .atMost (sum [var "x", var "x"]) (constant v) ∧
      (Attempt.start (doubling c g)).prove .standard ⟨some 1, none⟩ stillClock =
        (.proved, { Attempt.start (doubling c g) with knowledge := d.knowledge }) := by
  obtain ⟨facts, terms⟩ := start_doubling c g
  obtain ⟨d, deduced, same, known⟩ := exists_deduce?_double facts terms simplified
  have before : (Attempt.start (doubling c g)).isProvedBy
      (Attempt.start (doubling c g)).knowledge = false := by
    refine Bool.eq_false_iff.2 fun proved => ?_
    obtain ⟨fact, mem, equals⟩ := Attempt.isProvedBy_start.1 proved
    rw [facts, List.mem_singleton] at mem
    subst mem
    cases equals
  have after : (Attempt.start (doubling c g)).isProvedBy d.knowledge := by
    refine Attempt.isProvedBy_start.2 ⟨d.fact, by simp [known], ?_⟩
    have twice : sum [var "x", var "x"] == sum [var "x", var "x"] := by decide
    rw [same]
    exact Proposition.beq_iff_sides.2 ⟨rfl, .inl ⟨twice, reached⟩⟩
  refine ⟨d, deduced, same, ?_⟩
  simp [Attempt.prove, KnowledgeBase.deduceUntil, KnowledgeBase.deduceWithin, Budget.rounds,
    Budget.isExhausted, before, deduced, after, Outcome.ofEnding]

end Doubling

/-! ### Runs -/

/-- The beginning of an attempt is sound where the assumptions are true. -/
theorem Attempt.isSound_start {assignment : String → ℝ} {p : Problem}
    (polynomials : ∀ q ∈ p.goal :: p.assumptions, q.IsOfPolynomials)
    (holds : ∀ q ∈ p.assumptions, q.holdsIn assignment) :
    (start p).knowledge.IsSound assignment where
  terms t mem := by
    rcases mem_terms_start mem with ⟨name, -, rfl⟩ | ⟨⟨q, memProblem, side, memSides, part⟩, -⟩
    · exact .var name
    · exact (polynomials q memProblem side memSides).of_mem_subterms part
  facts fact mem := polynomials fact (List.mem_cons_of_mem _ (mem_facts_start mem))
  holds fact mem := holds fact (mem_facts_start mem)

namespace KnowledgeBase

/-- All that is known is small before each step on the way from one state to another. -/
def SmallUntil (k k' : KnowledgeBase) : Prop :=
  ∀ between, ReflTransGen Deduces k between → TransGen Deduces between k' → between.IsSmall

theorem Deduces.smallUntil {k k' : KnowledgeBase} (h : k.Deduces k') (small : k.IsSmall) :
    k.SmallUntil k' := by
  intro between reached rest
  rcases reached.cases_head with rfl | ⟨next, step, reached⟩
  · exact small
  -- what comes after the step does not lead to its end once more
  · obtain rfl := h.unique step
    exact absurd (rest.trans_right reached) not_transGen_self

/-- A run through small states from what is sound leads to what is sound. -/
theorem IsSound.reflTransGen {assignment : String → ℝ} {k k' : KnowledgeBase}
    (sound : k.IsSound assignment) (run : ReflTransGen Deduces k k') (small : k.SmallUntil k') :
    k'.IsSound assignment := by
  induction run with
  | refl => exact sound
  | tail before step ih =>
    have soundBefore := ih fun between reached rest => small between reached (rest.tail step)
    exact soundBefore.deduces (small _ before (.single step)) step

end KnowledgeBase

/-- Deduction from assumptions about polynomials is sound: as long as all that is known is small
before each step, all facts are true of the real numbers that the assumptions are true of, and so is
the goal if the attempt ends with a proof. -/
theorem deduction_sound (goal : Proposition) (assumptions : List Proposition) (p : Problem)
    (accepted : Problem.ofPropositions goal assumptions = .ok p)
    (polynomials : ∀ q ∈ goal :: assumptions, q.IsOfPolynomials)
    (assignment : String → ℝ) (holds : ∀ q ∈ assumptions, q.holdsIn assignment) :
    (∀ k, ReflTransGen KnowledgeBase.Deduces (Attempt.start p).knowledge k →
      (Attempt.start p).knowledge.SmallUntil k → ∀ fact ∈ k.facts, fact.holdsIn assignment) ∧
    (∀ budget clock a, (Attempt.start p).prove .standard budget clock = (.proved, a) →
      (Attempt.start p).knowledge.SmallUntil a.knowledge → goal.holdsIn assignment) := by
  obtain ⟨rfl, rfl, relation⟩ := Problem.eq_of_ofPropositions accepted
  have sound := Attempt.isSound_start polynomials holds
  refine ⟨fun k run small => (sound.reflTransGen run small).holds, ?_⟩
  intro budget clock a proved small
  have known := sound.reflTransGen (Attempt.deduces_of_prove proved) small
  obtain ⟨fact, mem, same⟩ := Attempt.exists_fact_of_prove proved
  refine holdsIn_of_beq (known.facts fact mem) ?_ relation same (known.holds fact mem)
  exact polynomials p.goal List.mem_cons_self

/-- From a bound of a variable the bound of twice the variable follows. It is proved in one step,
which adds the bound to itself and folds what it is then, and nothing on the way is large. -/
theorem deduction_sound_doubling :
    let bound : Proposition := .atMost (var "x") (int 2)
    let goal : Proposition := .atMost (sum [var "x", var "x"]) (int 4)
    let assignment : String → ℝ := fun _ => 1
    ∃ p a, Problem.ofPropositions goal [bound] = .ok p ∧ bound.holdsIn assignment ∧
      (Attempt.start p).prove .standard ⟨some 1, none⟩ stillClock = (.proved, a) ∧
      a.knowledge.facts = [bound, goal] ∧
      (Attempt.start p).knowledge.SmallUntil a.knowledge ∧
      (∀ fact ∈ a.knowledge.facts, fact.holdsIn assignment) ∧ goal.holdsIn assignment := by
  intro bound goal assignment
  let p := doubling (.int 2) (.int 4)
  have accepted : Problem.ofPropositions goal [bound] = .ok p := ofPropositions_doubling _ _
  have twice : IsPolynomial (sum [var "x", var "x"]) :=
    .variadic .sum (List.forall_mem_cons.2 ⟨.var "x", List.forall_mem_singleton.2 (.var "x")⟩)
  have polynomials : ∀ q ∈ [goal, bound], q.IsOfPolynomials := by
    simp only [List.forall_mem_cons, Proposition.IsOfPolynomials, Proposition.sides]
    exact ⟨⟨twice, .int 4, List.forall_mem_nil _⟩, ⟨.var "x", .int 2, List.forall_mem_nil _⟩,
      List.forall_mem_nil _⟩
  have holds : ∀ q ∈ [bound], q.holdsIn assignment := by
    refine List.forall_mem_singleton.2 ((holdsIn_of_atMost rfl).2 ?_)
    have two : (2 : Int64).toInt = 2 := by decide
    change (1 : ℝ) ≤ ((2 : Int64).toInt : ℝ)
    rw [two]
    exact one_le_two
  obtain ⟨facts, terms⟩ := start_doubling (.int 2) (.int 4)
  have small : (Attempt.start p).knowledge.IsSmall := by
    have smallX : (var "x").IsSmall := ⟨by decide, by decide⟩
    have smallTwice : (sum [var "x", var "x"]).IsSmall := ⟨by decide, by decide⟩
    have smallBound : (int 2).IsSmall := ⟨by decide, by decide⟩
    refine ⟨terms ▸ ?_, facts ▸ ?_⟩
    · exact List.forall_mem_cons.2 ⟨smallX, List.forall_mem_singleton.2 smallTwice⟩
    · refine List.forall_mem_singleton.2 (List.forall_mem_cons.2 ⟨smallX, ?_⟩)
      exact List.forall_mem_singleton.2 smallBound
  have folded : ReductionTable.standard.simplify (sum [int 2, int 2]) = .ok (int 4) := by cbv
  obtain ⟨d, deduced, same, proved⟩ := exists_prove_doubling (g := .int 4) folded (by decide)
  have step : (Attempt.start p).knowledge.Deduces d.knowledge := ⟨d, deduced, rfl⟩
  obtain ⟨known, goals⟩ := deduction_sound goal [bound] p accepted polynomials assignment holds
  have after : d.knowledge.facts = [bound, goal] := by
    obtain ⟨-, -, -, -, -, -, -, -, added⟩ := exists_of_deduce? deduced
    rw [KnowledgeBase.facts_of_addFact? added, facts, same]
    rfl
  exact ⟨p, _, accepted, holds bound List.mem_cons_self, proved, after, step.smallUntil small,
    known _ (.single step) (step.smallUntil small), goals _ _ _ proved (step.smallUntil small)⟩

end InequalityChaining

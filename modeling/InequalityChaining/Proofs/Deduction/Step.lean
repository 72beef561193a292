import Mathlib.Data.List.Induction
import InequalityChaining.Proofs.Deduction.Knowledge
import InequalityChaining.Proofs.Outcome
import InequalityChaining.Proofs.Reduction.StandardStep
import InequalityChaining.Proofs.Term.Substitution

/-!
# What a step concludes

A step of any calculus adds the simplified conclusion of one of its rules. By the standard rules
that is, before it is simplified, either that the square of something is not negative, for a square
under consideration, or the sum of two known inequalities. Runs are sequences of steps.

## Main definitions

* `InferenceRule.IsSchematic` — a rule that speaks of no variable
* `Concludes` — what the standard inference rules conclude
* `KnowledgeBase.DeducesBy`, `KnowledgeBase.Deduces` — a step by a calculus, and by the standard
  rules

## Main results

* `exists_of_deduce?` — where the fact of a step comes from, for any calculus
* `concludes_of_deduce?` — and for the standard rules
* `KnowledgeBase.not_transGen_self` — steps add facts, so no run comes back
* `deducesBy_of_deduceWithin`, `deduceWithin_cases` — a run consists of steps, and why it ends
* `Attempt.exists_fact_of_prove` — after a proof a fact equals the goal
-/

open Relation (ReflTransGen TransGen)

namespace InequalityChaining

/-- A rule that speaks of no variable, neither in its conclusion nor in an assumption. -/
def InferenceRule.IsSchematic (rule : InferenceRule) : Prop :=
  ¬ rule.conclusion.hasVariable ∧ ∀ p ∈ rule.assumptions, ¬ p.hasVariable

instance (rule : InferenceRule) : Decidable rule.IsSchematic :=
  inferInstanceAs (Decidable (_ ∧ _))

theorem Standard.isSchematic_of_mem_inference : ∀ rule ∈ inference, rule.IsSchematic := by decide

/-! ### Steps of any calculus -/

section AnyCalculus

variable {k : KnowledgeBase} {calculus : Calculus} {d : Deduced}

/-- A step adds the simplified conclusion of a rule under some bindings. -/
theorem exists_of_deduce? (h : k.deduce? calculus = some d) :
    ∃ rule ∈ calculus.inference, rule.name = d.rule ∧
      ∃ b ∈ assumptionBindings k.facts rule.assumptions,
        ∃ c ∈ termBindings k.terms (rule.conclusion.substitute b),
          ((rule.conclusion.substitute b).substitute c).mapSides calculus.reduction.simplify =
            .ok d.fact ∧
          k.addFact? d.fact ("deduced by " ++ d.rule ++ ": " ++ d.fact.text) =
            some d.knowledge := by
  obtain ⟨rule, mem, fired⟩ := List.exists_of_findSome?_eq_some h
  obtain ⟨b, memBindings, fired⟩ := List.exists_of_findSome?_eq_some fired
  obtain ⟨c, memRest, admitted⟩ := List.exists_of_findSome?_eq_some fired
  rw [InferenceRule.admit?] at admitted
  split at admitted
  · simp at admitted
  split at admitted
  · simp at admitted
  · next fact simplified =>
    obtain ⟨k', added, rfl⟩ := Option.map_eq_some_iff.1 admitted
    exact ⟨rule, mem, rfl, b, memBindings, c, memRest, simplified, added⟩

theorem mapSides_eq_ok {f : Term → Except ReductionError Term} {p q : Proposition}
    (h : p.mapSides f = .ok q) :
    f p.lhs = .ok q.lhs ∧ f p.rhs = .ok q.rhs ∧ q.relation = p.relation := by
  obtain ⟨lhs, left, h⟩ := bind_eq_ok.1 h
  obtain ⟨rhs, right, h⟩ := bind_eq_ok.1 h
  rw [pure_eq_ok] at h
  exact h ▸ ⟨left, right, rfl⟩

theorem mem_of_mem_distinctBindings {candidates : List Bindings} {b : Bindings}
    (h : b ∈ distinctBindings candidates) : b ∈ candidates := by
  have step : ∀ (kept : List Bindings) (c d : Bindings),
      d ∈ (if kept.any (· == c) then kept else kept ++ [c]) → d ∈ kept ∨ d = c := by
    intro kept c d mem
    split at mem
    · exact .inl mem
    · simpa using mem
  rcases mem_or_exists_of_mem_foldl id h step with kept | ⟨c, mem, rfl⟩
  · simp at kept
  · exact mem

/-- What holds of no bindings and is kept by every match of a fact holds of all bindings under which
assumptions match facts. -/
theorem forall_mem_assumptionBindings {P : Bindings → Prop} {facts assumptions : List Proposition}
    (start : P .empty)
    (step : ∀ fact ∈ facts, ∀ q ∈ fact.directions, ∀ assumption b c, P b →
      q.matchPattern? assumption b = some c → P c) :
    ∀ b ∈ assumptionBindings facts assumptions, P b := by
  induction assumptions using List.reverseRecOn with
  | nil => exact List.forall_mem_singleton.2 start
  | append_singleton earlier assumption ih =>
    intro c mem
    rw [assumptionBindings, List.foldl_concat] at mem
    obtain ⟨b, memSeed, mem⟩ := List.mem_flatMap.1 mem
    obtain ⟨fact, memFact, mem⟩ := List.mem_flatMap.1 mem
    obtain ⟨q, direction, found⟩ := List.mem_filterMap.1 mem
    exact step fact memFact q direction assumption b c (ih b memSeed) found

/-- What holds of no bindings and is kept by every match of a term holds of all bindings under which
sides match terms. -/
theorem forall_mem_termBindings {P : Bindings → Prop} {terms : List Term} {statement : Proposition}
    (start : P .empty)
    (step : ∀ t ∈ terms, ∀ side b c, P b → t.matchPattern? side b = some c → P c) :
    ∀ c ∈ termBindings terms statement, P c := by
  -- the fold over the sides keeps all candidates so
  have fold : ∀ (candidates : List Bindings) (side : Term), (∀ b ∈ candidates, P b) →
      ∀ c ∈ (if side.hasPlaceholder then
        distinctBindings (candidates.flatMap fun b => terms.filterMap (·.matchPattern? side b))
      else candidates), P c := by
    intro candidates side soFar c mem
    split at mem
    · obtain ⟨b, memSeed, mem⟩ := List.mem_flatMap.1 (mem_of_mem_distinctBindings mem)
      obtain ⟨t, memTerm, found⟩ := List.mem_filterMap.1 mem
      exact step t memTerm side b c (soFar b memSeed) found
    · exact soFar c mem
  exact fold _ statement.rhs (fold _ statement.lhs (List.forall_mem_singleton.2 start))

end AnyCalculus

/-! ### The standard rules -/

open Term Standard

/-- What the standard rules conclude from what is known. -/
inductive Concludes (k : KnowledgeBase) : Proposition → Prop where
  | squareNotNegative {b e : Term} (mem : power b e ∈ k.terms) (two : e.isNumber 2) :
      Concludes k (.atMost (int 0) (power b (int 2)))
  | addInequalities {p q : Proposition} (memLeft : p ∈ k.facts) (memRight : q ∈ k.facts)
      (left : p.relation = .atMost) (right : q.relation = .atMost) :
      Concludes k (.atMost (sum [p.lhs, q.lhs]) (sum [p.rhs, q.rhs]))

section StandardRules

variable {k : KnowledgeBase} {b c : Bindings} {facts : List Proposition} {terms : List Term}

/-- An inequality between two unbound placeholders is matched by known inequalities only. -/
theorem exists_of_match_inequality {fact q : Proposition} {x y : String}
    (ground : ∀ t ∈ fact.sides, t.isGround) (distinct : y ≠ x) (hx : b.find? x = none)
    (hy : b.find? y = none) (direction : q ∈ fact.directions)
    (h : q.matchPattern? (.atMost (anyTerm x) (anyTerm y)) b = some c) :
    fact.relation = .atMost ∧ c = (b.insert x fact.lhs).insert y fact.rhs := by
  rw [Proposition.matchPattern?] at h
  split at h
  · next relation =>
    -- the other direction of an equation is an equation too
    have same : q = fact := by
      rcases List.mem_cons.1 direction with same | reversed
      · exact same
      · rw [Proposition.reversed?] at reversed
        split at reversed
        · rw [List.mem_singleton.1 reversed] at relation
          cases relation
        · simp at reversed
    subst same
    obtain ⟨d, left, right⟩ := Option.bind_eq_some_iff.1 h
    have unbound : (b.insert x q.lhs).find? y = none := by
      rw [Bindings.find?_insert, if_neg distinct, hy]
    change q.lhs.matchPattern? (anyTerm x) b = some d at left
    rw [match_anyTerm (ground q.lhs (by simp [Proposition.sides])) hx, Option.some.injEq] at left
    subst left
    change q.rhs.matchPattern? (anyTerm y) _ = some c at right
    rw [match_anyTerm (ground q.rhs (by simp [Proposition.sides])) unbound,
      Option.some.injEq] at right
    exact ⟨relation, right.symm⟩
  · simp at h

theorem substitute_proposition_of_isGround {statement : Proposition}
    (ground : ∀ t ∈ statement.sides, t.isGround) : statement.substitute b = statement := by
  simp only [Proposition.sides, List.forall_mem_cons] at ground
  simp [Proposition.substitute, substitute_of_isGround ground.1,
    substitute_of_isGround ground.2.1]

/-- What is left to bind of a square matches the bases of the squares under consideration. -/
theorem exists_square_of_mem_termBindings (ground : ∀ t ∈ terms, t.isGround)
    (h : c ∈ termBindings terms (.atMost (int 0) (power (anyTerm "X") (int 2)))) :
    ∃ l r, power l r ∈ terms ∧ r.isNumber 2 ∧ c = Bindings.empty.insert "X" l := by
  have found : c ∈ terms.filterMap (·.matchPattern? (power (anyTerm "X") (int 2)) .empty) := by
    have left : (int 0).hasPlaceholder = false := rfl
    have := mem_of_mem_distinctBindings h
    simpa [Proposition.atMost, left] using this
  obtain ⟨t, mem, found⟩ := List.mem_filterMap.1 found
  obtain ⟨l, r, rfl, two, rfl⟩ := match_term_number (ground t mem) found
  exact ⟨l, r, mem, two, rfl⟩

theorem concludes_square (ground : ∀ t ∈ k.terms, t.isGround) {statement : Proposition}
    (same : statement = .atMost (int 0) (power (anyTerm "X") (int 2)))
    (h : c ∈ termBindings k.terms statement) : Concludes k (statement.substitute c) := by
  subst same
  obtain ⟨l, r, mem, two, rfl⟩ := exists_square_of_mem_termBindings ground h
  exact .squareNotNegative mem two

theorem concludes_addition (ground : ∀ p ∈ k.facts, ∀ t ∈ p.sides, t.isGround)
    (hb : b ∈ assumptionBindings k.facts [.atMost (anyTerm "X1") (anyTerm "Y1"),
      .atMost (anyTerm "X2") (anyTerm "Y2")]) {statement : Proposition}
    (same : statement = Proposition.substitute b (.atMost (sum [anyTerm "X1", anyTerm "X2"])
      (sum [anyTerm "Y1", anyTerm "Y2"]))) : Concludes k (statement.substitute c) := by
  simp only [assumptionBindings, List.foldl_cons, List.foldl_nil, List.mem_flatMap,
    List.mem_filterMap, List.mem_singleton, exists_eq_left] at hb
  obtain ⟨d, ⟨p, memLeft, p', directionLeft, left⟩, q, memRight, q', directionRight, right⟩ := hb
  -- the second assumption is matched with the placeholders of the first bound already
  obtain ⟨relationLeft, rfl⟩ := exists_of_match_inequality (ground p memLeft) (by decide) rfl rfl
    directionLeft left
  obtain ⟨relationRight, rfl⟩ := exists_of_match_inequality (ground q memRight) (by decide)
    (by simp [Bindings.find?_insert]) (by simp [Bindings.find?_insert]) directionRight right
  have instantiated : statement = .atMost (sum [p.lhs, q.lhs]) (sum [p.rhs, q.rhs]) := by
    rw [same]
    simp [Proposition.substitute, Proposition.atMost, substitute, anyTerm, Bindings.find?_insert]
  have groundLeft := ground p memLeft
  have groundRight := ground q memRight
  simp only [Proposition.sides, List.forall_mem_cons] at groundLeft groundRight
  have groundStatement : ∀ t ∈ statement.sides, t.isGround := by
    rw [instantiated]
    simp [Proposition.sides, Proposition.atMost, groundLeft.1, groundLeft.2.1, groundRight.1,
      groundRight.2.1]
  -- so the terms under consideration do not matter
  rw [substitute_proposition_of_isGround groundStatement, instantiated]
  exact .addInequalities memLeft memRight relationLeft relationRight

/-- A step by the standard rules adds one of their conclusions, simplified. -/
theorem concludes_of_deduce? {d : Deduced} (groundTerms : ∀ t ∈ k.terms, t.isGround)
    (groundFacts : ∀ p ∈ k.facts, ∀ t ∈ p.sides, t.isGround)
    (h : k.deduce? .standard = some d) :
    ∃ candidate, Concludes k candidate ∧
      candidate.mapSides ReductionTable.standard.simplify = .ok d.fact ∧
        ∃ message, k.addFact? d.fact message = some d.knowledge := by
  obtain ⟨rule, mem, -, b, hb, c, hc, simplified, added⟩ := exists_of_deduce? h
  refine ⟨_, ?_, simplified, _, added⟩
  rcases List.mem_cons.1 mem with rfl | mem
  · obtain rfl := List.mem_singleton.1 hb
    exact concludes_square groundTerms rfl hc
  · obtain rfl := List.mem_singleton.1 mem
    exact concludes_addition groundFacts hb rfl

end StandardRules

/-! ### Runs -/

/-- A step by the rules of a calculus. -/
def KnowledgeBase.DeducesBy (calculus : Calculus) (k k' : KnowledgeBase) : Prop :=
  ∃ d, k.deduce? calculus = some d ∧ d.knowledge = k'

/-- A step by the standard rules. -/
def KnowledgeBase.Deduces (k k' : KnowledgeBase) : Prop :=
  ∃ d, k.deduce? .standard = some d ∧ d.knowledge = k'

section Steps

namespace KnowledgeBase

variable {k k' k'' : KnowledgeBase}

theorem Deduces.unique (h : k.Deduces k') (h' : k.Deduces k'') : k' = k'' := by
  obtain ⟨d, deduced, rfl⟩ := h
  obtain ⟨d', deduced', rfl⟩ := h'
  rw [Option.some.inj (deduced.symm.trans deduced')]

/-- Each step adds one fact. -/
theorem Deduces.length_facts (h : k.Deduces k') : k'.facts.length = k.facts.length + 1 := by
  obtain ⟨d, deduced, rfl⟩ := h
  obtain ⟨-, -, -, -, -, -, -, -, added⟩ := exists_of_deduce? deduced
  rw [facts_of_addFact? added, List.length_append, List.length_singleton]

theorem length_facts_lt_of_transGen (h : TransGen Deduces k k') :
    k.facts.length < k'.facts.length := by
  induction h with
  | single step => exact step.length_facts ▸ Nat.lt_succ_self _
  | tail _ step ih => exact ih.trans (step.length_facts ▸ Nat.lt_succ_self _)

/-- No run comes back to where it was. -/
theorem not_transGen_self : ¬ TransGen Deduces k k := by
  intro h
  exact Nat.lt_irrefl _ (length_facts_lt_of_transGen h)

end KnowledgeBase

end Steps

section Runs

variable {budget : Budget} {clock : Nat → Float} {stop : KnowledgeBase → Bool}

/-- What is known after a run has been reached by steps. -/
theorem deducesBy_of_deduceWithin (calculus : Calculus) (rounds steps : Nat) (k : KnowledgeBase) :
    ReflTransGen (KnowledgeBase.DeducesBy calculus) k
      (k.deduceWithin calculus budget clock stop rounds steps).knowledge := by
  induction rounds generalizing steps k with
  | zero => exact .refl
  | succ rounds ih =>
    rw [KnowledgeBase.deduceWithin]
    split
    · exact .refl
    split
    · exact .refl
    split
    · exact .refl
    · next d deduced => exact (ih (steps + 1) d.knowledge).head ⟨d, deduced, rfl⟩

theorem deduces_of_deduceWithin (rounds steps : Nat) (k : KnowledgeBase) :
    ReflTransGen KnowledgeBase.Deduces k
      (k.deduceWithin .standard budget clock stop rounds steps).knowledge :=
  deducesBy_of_deduceWithin .standard rounds steps k

/-- Why a run has ended. -/
theorem deduceWithin_cases (budget : Budget) (clock : Nat → Float) (calculus : Calculus)
    (stop : KnowledgeBase → Bool) (rounds steps : Nat) (k : KnowledgeBase) :
    let run := k.deduceWithin calculus budget clock stop rounds steps
    run.ending = .interrupted ∨ (run.ending = .stopped ∧ stop run.knowledge) ∨
      (run.ending = .budgetExhausted ∧ budget.isExhausted run.steps (clock run.steps)) ∨
      (run.ending = .saturated ∧ run.knowledge.deduce? calculus = none) := by
  induction rounds generalizing steps k with
  | zero => exact .inl rfl
  | succ rounds ih =>
    rw [KnowledgeBase.deduceWithin]
    split
    · next holds => exact .inr (.inl ⟨rfl, holds⟩)
    split
    · next exhausted => exact .inr (.inr (.inl ⟨rfl, exhausted⟩))
    split
    · next nothing => exact .inr (.inr (.inr ⟨rfl, nothing⟩))
    · next d deduced => exact ih (steps + 1) d.knowledge

/-- A run that has stopped has done so because its condition held. -/
theorem stop_of_deduceWithin {calculus : Calculus} {rounds steps : Nat} {k : KnowledgeBase}
    (h : (k.deduceWithin calculus budget clock stop rounds steps).ending = .stopped) :
    stop (k.deduceWithin calculus budget clock stop rounds steps).knowledge := by
  have cases := deduceWithin_cases budget clock calculus stop rounds steps k
  simpa [h] using cases

/-- A run that is saturated has ended where no step is possible. -/
theorem deduce?_of_saturated {calculus : Calculus} {rounds steps : Nat} {k : KnowledgeBase}
    (h : (k.deduceWithin calculus budget clock stop rounds steps).ending = .saturated) :
    (k.deduceWithin calculus budget clock stop rounds steps).knowledge.deduce? calculus =
      none := by
  have cases := deduceWithin_cases budget clock calculus stop rounds steps k
  simpa [h] using cases

theorem Outcome.ofEnding_eq_proved {ending : Ending} :
    ofEnding ending = .proved ↔ ending = .stopped := by
  cases ending <;> simp [ofEnding]

namespace Attempt

variable {p : Problem} {a a' : Attempt} {outcome : Outcome}

/-- Proving deduces by steps. -/
theorem deduces_of_prove (h : a.prove .standard budget clock = (outcome, a')) :
    ReflTransGen KnowledgeBase.Deduces a.knowledge a'.knowledge := by
  obtain ⟨-, rfl⟩ := Prod.mk.inj h
  exact deduces_of_deduceWithin budget.rounds 0 a.knowledge

/-- There is only one goal at the beginning. -/
theorem isProvedBy_start {k : KnowledgeBase} :
    (start p).isProvedBy k ↔ ∃ fact ∈ k.facts, (fact == p.goal) = true := by
  have goals : (start p).goals = [p.goal] := rfl
  simp [isProvedBy, goals, KnowledgeBase.containsFact]

/-- Where an attempt at a problem has ended with a proof, a fact equals the goal. -/
theorem exists_fact_of_prove {calculus : Calculus}
    (h : (start p).prove calculus budget clock = (.proved, a)) :
    ∃ fact ∈ a.knowledge.facts, (fact == p.goal) = true := by
  obtain ⟨outcome, rfl⟩ := Prod.mk.inj h
  exact isProvedBy_start.1 (stop_of_deduceWithin (Outcome.ofEnding_eq_proved.1 outcome))

end Attempt

end Runs

end InequalityChaining

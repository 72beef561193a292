import InequalityChaining.Proofs.Deduction.Provenance

/-!
# Runs with a limit on the steps

How a run ends is determined by the steps that are possible where it begins: it ends at the first
state in which its condition holds, or else after as many steps as the limit allows, or else where
no step is possible. Only one ending fits this description, so a run with a limit can be taken
apart. One that has used up its steps and goes on with further ones ends as a single run with the
sum of the limits does, since the state is all that is passed on.

## Main definitions

* `KnowledgeBase.after?` — what is known after a number of steps
* `EndsAfter` — how a run with a limit on the steps ends, in terms of the steps that are possible

## Main results

* `KnowledgeBase.exists_append_of_after?` — every step adds one fact and one line
* `EndsAfter.unique` — there is only one such ending
* `EndsAfter.trans` — a run that goes on after its last step
* `endsAfter_deduceWithin` — a run with a limit ends so
* `Attempt.prove_within_steps` — the outcomes of a proof with a limit, and proving on
-/

namespace InequalityChaining

/-! ### Steps in a row -/

namespace KnowledgeBase

/-- What is known after so many steps in a row, if they are possible. -/
def after? (calculus : Calculus) : Nat → KnowledgeBase → Option KnowledgeBase
  | 0, k => some k
  | n + 1, k => (k.deduce? calculus).bind fun d => after? calculus n d.knowledge

variable {calculus : Calculus} {k k' : KnowledgeBase} {m n : Nat}

theorem after?_add (calculus : Calculus) (m n : Nat) (k : KnowledgeBase) :
    after? calculus (m + n) k = (after? calculus m k).bind (after? calculus n) := by
  induction m generalizing k with
  | zero => simp [after?]
  | succ m ih =>
    rw [Nat.add_right_comm, after?, after?, Option.bind_assoc]
    congr 1
    funext d
    exact ih d.knowledge

/-- The last of several steps. -/
theorem after?_succ (calculus : Calculus) (n : Nat) (k : KnowledgeBase) :
    after? calculus (n + 1) k =
      (after? calculus n k).bind fun k' => (k'.deduce? calculus).map Deduced.knowledge := by
  rw [after?_add]
  congr 1
  funext k'
  cases deduced : k'.deduce? calculus <;> simp [after?, deduced]

/-- Where several steps are possible, so are fewer, and the next one. -/
theorem exists_step_of_after? (h : after? calculus n k = some k') (less : m < n) :
    ∃ k₁ d, after? calculus m k = some k₁ ∧ k₁.deduce? calculus = some d ∧
      after? calculus (m + 1) k = some d.knowledge := by
  obtain ⟨rest, rfl⟩ := Nat.exists_eq_add_of_lt less
  rw [Nat.add_assoc, Nat.add_comm rest, ← Nat.add_assoc, after?_add] at h
  obtain ⟨k₂, next, -⟩ := Option.bind_eq_some_iff.1 h
  have last := next
  rw [after?_succ] at last
  obtain ⟨k₁, reached, last⟩ := Option.bind_eq_some_iff.1 last
  obtain ⟨d, deduced, rfl⟩ := Option.map_eq_some_iff.1 last
  exact ⟨k₁, d, reached, deduced, next⟩

/-- Every step adds one fact and one line of the transcript at the end. -/
theorem exists_append_of_deduce? {d : Deduced} (h : k.deduce? calculus = some d) :
    ∃ fact line, d.knowledge.facts = k.facts ++ [fact] ∧
      d.knowledge.history = k.history ++ [line] := by
  obtain ⟨-, -, -, frame⟩ := frame_of_deduce? h
  rw [frame]
  exact ⟨_, _, rfl, rfl⟩

/-- Several steps add as many facts, and as many lines of the transcript. -/
theorem exists_append_of_after? (h : after? calculus n k = some k') :
    ∃ facts lines, facts.length = n ∧ lines.length = n ∧ k'.facts = k.facts ++ facts ∧
      k'.history = k.history ++ lines := by
  induction n generalizing k' with
  | zero =>
    obtain rfl := Option.some.inj h
    exact ⟨[], [], rfl, rfl, by simp, by simp⟩
  | succ n ih =>
    rw [after?_succ] at h
    obtain ⟨k₁, before, last⟩ := Option.bind_eq_some_iff.1 h
    obtain ⟨d, deduced, rfl⟩ := Option.map_eq_some_iff.1 last
    obtain ⟨facts, lines, lengthFacts, lengthLines, sameFacts, sameLines⟩ := ih before
    obtain ⟨fact, line, lastFact, lastLine⟩ := exists_append_of_deduce? deduced
    refine ⟨facts ++ [fact], lines ++ [line], by simp [lengthFacts], by simp [lengthLines], ?_, ?_⟩
    · rw [lastFact, sameFacts, List.append_assoc]
    · rw [lastLine, sameLines, List.append_assoc]

end KnowledgeBase

/-! ### The ending of a run -/

open KnowledgeBase (after?)

/-- A run from `k` with so many steps allowed ends after those taken. No earlier state has the
condition; the last state has it, or all steps are taken, or no step is possible there. -/
structure EndsAfter (calculus : Calculus) (stop : KnowledgeBase → Bool) (allowed : Nat)
    (k : KnowledgeBase) (taken : Nat) (ending : Ending) (last : KnowledgeBase) : Prop where
  within : taken ≤ allowed
  reached : after? calculus taken k = some last
  searching : ∀ i < taken, ∀ k', after? calculus i k = some k' → ¬ stop k'
  ends : (ending = .stopped ∧ stop last) ∨
    (ending = .budgetExhausted ∧ ¬ stop last ∧ taken = allowed) ∨
    (ending = .saturated ∧ ¬ stop last ∧ taken < allowed ∧ last.deduce? calculus = none)

namespace EndsAfter

variable {calculus : Calculus} {stop : KnowledgeBase → Bool} {allowed more taken taken' : Nat}
  {k last last' : KnowledgeBase} {ending ending' : Ending}

/-- A run whose condition does not hold at the beginning takes the step that is possible there. -/
theorem head {d : Deduced} (notYet : ¬ stop k) (deduced : k.deduce? calculus = some d)
    (rest : EndsAfter calculus stop allowed d.knowledge taken ending last) :
    EndsAfter calculus stop (allowed + 1) k (taken + 1) ending last where
  within := Nat.succ_le_succ rest.within
  reached := by rw [after?, deduced, Option.bind_some, rest.reached]
  searching i less k' reached := by
    cases i with
    | zero =>
      obtain rfl := Option.some.inj reached
      exact notYet
    | succ i =>
      rw [after?, deduced, Option.bind_some] at reached
      exact rest.searching i (Nat.lt_of_succ_lt_succ less) k' reached
  ends := by
    rcases rest.ends with
      stopped | ⟨exhausted, notStopped, all⟩ | ⟨saturated, notStopped, left, none⟩
    · exact .inl stopped
    · exact .inr (.inl ⟨exhausted, notStopped, by rw [all]⟩)
    · exact .inr (.inr ⟨saturated, notStopped, Nat.succ_lt_succ left, none⟩)

/-- A run does not end where another one from the same beginning goes on. -/
theorem taken_le (h : EndsAfter calculus stop allowed k taken ending last)
    (h' : EndsAfter calculus stop allowed k taken' ending' last') : taken' ≤ taken := by
  by_contra less
  rw [Nat.not_le] at less
  have notStopped := h'.searching taken less last h.reached
  rcases h.ends with ⟨-, stopped⟩ | ⟨-, -, all⟩ | ⟨-, -, -, none⟩
  · exact notStopped stopped
  · exact absurd h'.within (by omega)
  · obtain ⟨k₁, d, reached, deduced, -⟩ := KnowledgeBase.exists_step_of_after? h'.reached less
    obtain rfl := Option.some.inj (h.reached.symm.trans reached)
    rw [none] at deduced
    cases deduced

/-- The beginning, the condition and the limit determine how a run ends. -/
theorem unique (h : EndsAfter calculus stop allowed k taken ending last)
    (h' : EndsAfter calculus stop allowed k taken' ending' last') :
    taken = taken' ∧ ending = ending' ∧ last = last' := by
  obtain rfl := Nat.le_antisymm (h'.taken_le h) (h.taken_le h')
  obtain rfl := Option.some.inj (h.reached.symm.trans h'.reached)
  refine ⟨rfl, ?_, rfl⟩
  rcases h.ends with ⟨rfl, holds⟩ | ⟨rfl, fails, all⟩ | ⟨rfl, fails, left, -⟩ <;>
    rcases h'.ends with ⟨rfl, holds'⟩ | ⟨rfl, fails', all'⟩ | ⟨rfl, fails', left', -⟩
  · rfl
  · exact absurd holds fails'
  · exact absurd holds fails'
  · exact absurd holds' fails
  · rfl
  · exact absurd all (Nat.ne_of_lt left')
  · exact absurd holds' fails
  · exact absurd all' (Nat.ne_of_lt left)
  · rfl

/-- A run that has taken all its steps may go on with more. -/
theorem trans (h : EndsAfter calculus stop allowed k allowed .budgetExhausted last)
    (rest : EndsAfter calculus stop more last taken ending last') :
    EndsAfter calculus stop (allowed + more) k (allowed + taken) ending last' where
  within := Nat.add_le_add_left rest.within allowed
  reached := by rw [KnowledgeBase.after?_add, h.reached, Option.bind_some, rest.reached]
  searching i less k' reached := by
    rcases Nat.lt_or_ge i allowed with earlier | later
    · exact h.searching i earlier k' reached
    · obtain ⟨j, rfl⟩ := Nat.exists_eq_add_of_le later
      rw [KnowledgeBase.after?_add, h.reached, Option.bind_some] at reached
      exact rest.searching j (by omega) k' reached
  ends := by
    rcases rest.ends with
      stopped | ⟨exhausted, notStopped, all⟩ | ⟨saturated, notStopped, left, none⟩
    · exact .inl stopped
    · exact .inr (.inl ⟨exhausted, notStopped, by rw [all]⟩)
    · exact .inr (.inr ⟨saturated, notStopped, Nat.add_lt_add_left left allowed, none⟩)

end EndsAfter

section Runs

variable (calculus : Calculus) (stop : KnowledgeBase → Bool) (clock : Nat → Float)

/-- A run with a limit on the steps, and with one round more than there are steps left. -/
theorem endsAfter_deduceWithin (left rounds steps : Nat) (k : KnowledgeBase)
    (enough : left < rounds) :
    let run := k.deduceWithin calculus ⟨some (steps + left), none⟩ clock stop rounds steps
    ∃ taken, run.steps = steps + taken ∧
      EndsAfter calculus stop left k taken run.ending run.knowledge := by
  induction rounds generalizing left steps k with
  | zero => exact absurd enough (Nat.not_lt_zero _)
  | succ rounds ih =>
    -- a run that takes no steps has no earlier state in which it could have stopped
    have start : ∀ i < 0, ∀ k', after? calculus i k = some k' → ¬ stop k' := by simp
    rw [KnowledgeBase.deduceWithin]
    split
    · next holds => exact ⟨0, rfl, Nat.zero_le _, rfl, start, .inl ⟨rfl, holds⟩⟩
    · next notYet =>
      cases left with
      | zero =>
        have exhausted :
            (⟨some (steps + 0), none⟩ : Budget).isExhausted steps (clock steps) := by
          simp [Budget.isExhausted]
        rw [if_pos exhausted]
        exact ⟨0, rfl, Nat.le_refl _, rfl, start, .inr (.inl ⟨rfl, notYet, rfl⟩)⟩
      | succ left =>
        have notExhausted :
            ¬ (⟨some (steps + (left + 1)), none⟩ : Budget).isExhausted steps (clock steps) := by
          simp [Budget.isExhausted]
        rw [if_neg notExhausted]
        split
        · next none =>
          exact ⟨0, rfl, Nat.zero_le _, rfl, start,
            .inr (.inr ⟨rfl, notYet, Nat.zero_lt_succ _, none⟩)⟩
        · next d deduced =>
          rw [← Nat.succ_add_eq_add_succ]
          obtain ⟨taken, steps, rest⟩ :=
            ih left (steps + 1) d.knowledge (Nat.lt_of_succ_lt_succ enough)
          exact ⟨taken + 1, steps.trans (by omega), rest.head notYet deduced⟩

/-- A run with a limit on the steps from its beginning. -/
theorem endsAfter_deduceUntil (k : KnowledgeBase) (n : Nat) :
    let run := k.deduceUntil calculus ⟨some n, none⟩ stop clock
    EndsAfter calculus stop n k run.steps run.ending run.knowledge := by
  obtain ⟨taken, steps, ends⟩ :=
    endsAfter_deduceWithin calculus stop clock n (n + 1) 0 k (Nat.lt_succ_self n)
  simp only [Nat.zero_add] at steps ends
  rwa [← steps] at ends

end Runs

/-! ### Proofs -/

namespace EndsAfter

variable {calculus : Calculus} {stop : KnowledgeBase → Bool} {allowed taken : Nat}
  {k last : KnowledgeBase} {ending : Ending}

theorem outcome_eq_proved_iff (h : EndsAfter calculus stop allowed k taken ending last) :
    Outcome.ofEnding ending = .proved ↔ stop last := by
  rw [Outcome.ofEnding_eq_proved]
  rcases h.ends with ⟨rfl, holds⟩ | ⟨rfl, fails, -⟩ | ⟨rfl, fails, -, -⟩
  · exact iff_of_true rfl holds
  · exact iff_of_false (by simp) fails
  · exact iff_of_false (by simp) fails

/-- The rounds of a run suffice, so that nothing but the limit exhausts its budget. -/
theorem of_budgetExhausted (h : EndsAfter calculus stop allowed k taken ending last)
    (exhausted : Outcome.ofEnding ending = .budgetExhausted) :
    ending = .budgetExhausted ∧ taken = allowed := by
  rcases h.ends with ⟨rfl, -⟩ | ⟨rfl, -, all⟩ | ⟨rfl, -, -, -⟩
  · cases exhausted
  · exact ⟨rfl, all⟩
  · cases exhausted

theorem of_goalNotReached (h : EndsAfter calculus stop allowed k taken ending last)
    (notReached : Outcome.ofEnding ending = .goalNotReached) :
    last.deduce? calculus = none ∧ ¬ stop last := by
  rcases h.ends with ⟨rfl, -⟩ | ⟨rfl, -, -⟩ | ⟨rfl, fails, -, none⟩
  · cases notReached
  · cases notReached
  · exact ⟨none, fails⟩

end EndsAfter

namespace Attempt

variable {calculus : Calculus} {n : Nat} {clock : Nat → Float}

/-- Proving on after the budget is exhausted is proving with the sum of the limits. -/
theorem prove_prove (a : Attempt) (m : Nat) (clock' clock'' : Nat → Float)
    (exhausted : (a.prove calculus ⟨some n, none⟩ clock).1 = .budgetExhausted) :
    (a.prove calculus ⟨some n, none⟩ clock).2.prove calculus ⟨some m, none⟩ clock' =
      a.prove calculus ⟨some (n + m), none⟩ clock'' := by
  let first := a.knowledge.deduceUntil calculus ⟨some n, none⟩ a.isProvedBy clock
  have before : EndsAfter calculus a.isProvedBy n a.knowledge first.steps first.ending
    first.knowledge := endsAfter_deduceUntil calculus _ clock a.knowledge n
  obtain ⟨ending, all⟩ := before.of_budgetExhausted exhausted
  rw [ending, all] at before
  -- the second run begins where the first one ends, and looks for the same goals
  have both := before.trans (endsAfter_deduceUntil calculus _ clock' first.knowledge m)
  obtain ⟨-, sameEnding, sameKnowledge⟩ :=
    both.unique (endsAfter_deduceUntil calculus _ clock'' a.knowledge (n + m))
  refine Prod.ext (congrArg Outcome.ofEnding sameEnding) ?_
  exact congrArg (fun k => { a with knowledge := k }) sameKnowledge

/-- A proof with a limit on the steps takes at most so many. Its last state is the first in which a
goal is a fact, and the outcome is a proof exactly if it is one; otherwise the budget is exhausted
if all steps are taken, and no goal is reached if no rule yields a new fact. Every step adds one
fact and one line of the transcript. After the budget is exhausted, proving with a further limit
leads to what proving with the sum of the limits leads to. -/
theorem prove_within_steps (a : Attempt) (calculus : Calculus) (n : Nat) (clock : Nat → Float) :
    let outcome := (a.prove calculus ⟨some n, none⟩ clock).1
    let last := (a.prove calculus ⟨some n, none⟩ clock).2
    (∃ taken ≤ n,
      (a.knowledge.deduceUntil calculus ⟨some n, none⟩ a.isProvedBy clock).steps = taken ∧
      after? calculus taken a.knowledge = some last.knowledge ∧ last.goals = a.goals ∧
      (∀ i < taken, ∃ k k' fact line, after? calculus i a.knowledge = some k ∧
        after? calculus (i + 1) a.knowledge = some k' ∧ ¬ a.isProvedBy k ∧
        k'.facts = k.facts ++ [fact] ∧ k'.history = k.history ++ [line]) ∧
      last.knowledge.facts.length = a.knowledge.facts.length + taken ∧
      last.knowledge.history.length = a.knowledge.history.length + taken ∧
      (outcome = .budgetExhausted → taken = n)) ∧
    (outcome = .proved ↔ last.isProved) ∧
    (outcome = .goalNotReached → last.knowledge.deduce? calculus = none ∧ ¬ last.isProved) ∧
    (outcome = .budgetExhausted → ∀ (m : Nat) (clock' clock'' : Nat → Float),
      last.prove calculus ⟨some m, none⟩ clock' =
        a.prove calculus ⟨some (n + m), none⟩ clock'') := by
  intro outcome last
  have ends : EndsAfter calculus a.isProvedBy n a.knowledge _ _ last.knowledge :=
    endsAfter_deduceUntil calculus _ clock a.knowledge n
  refine ⟨⟨_, ends.within, rfl, ends.reached, rfl, fun i less => ?_, ?_, ?_,
    fun exhausted => (ends.of_budgetExhausted exhausted).2⟩, ends.outcome_eq_proved_iff,
    ends.of_goalNotReached, fun exhausted m clock' clock'' => prove_prove a m _ _ exhausted⟩
  · obtain ⟨k, d, reached, deduced, next⟩ := KnowledgeBase.exists_step_of_after? ends.reached less
    obtain ⟨fact, line, facts, history⟩ := KnowledgeBase.exists_append_of_deduce? deduced
    exact ⟨k, d.knowledge, fact, line, reached, next, ends.searching i less k reached, facts,
      history⟩
  · obtain ⟨facts, -, lengthFacts, -, same, -⟩ :=
      KnowledgeBase.exists_append_of_after? ends.reached
    rw [same, List.length_append, lengthFacts]
  · obtain ⟨-, lines, -, lengthLines, -, same⟩ :=
      KnowledgeBase.exists_append_of_after? ends.reached
    rw [same, List.length_append, lengthLines]

open Term in
/-- A first step subtracts a term from both sides of an inequality. Where the goal is another
inequality, a budget of one step is exhausted then, and proving on is as proving with two steps;
where the goal is what the step yields, it is proved with the last step that is allowed. -/
theorem prove_within_steps_subtraction :
    let known : Proposition := .atMost (var "x") (var "y")
    let new : Proposition :=
      .atMost (difference (var "x") (var "z")) (difference (var "y") (var "z"))
    let calculus : Calculus := ⟨.ofRules [], [subtraction]⟩
    let k : KnowledgeBase := ⟨[known], new.sides, []⟩
    let a : Attempt := ⟨["x", "y", "z"], .atMost (var "x") (var "z"), [], k⟩
    let b : Attempt := { a with mainGoal := new }
    let afterOne := a.prove calculus ⟨some 1, none⟩ stillClock
    afterOne.1 = .budgetExhausted ∧ afterOne.2.knowledge.facts.length = 2 ∧
      afterOne.2.prove calculus ⟨some 1, none⟩ stillClock =
        a.prove calculus ⟨some 2, none⟩ stillClock ∧
      (b.prove calculus ⟨some 1, none⟩ stillClock).1 = .proved ∧
      (b.prove calculus ⟨some 1, none⟩ stillClock).2.isProved := by
  intro known new calculus k a b afterOne
  -- neither goal is a fact at the beginning, and only the second one is after the step
  have first : a.isProvedBy a.knowledge = false ∧ b.isProvedBy b.knowledge = false := ⟨rfl, rfl⟩
  have stepA : a.knowledge.deduce? calculus = some _ := deduce?_subtraction
  have stepB : b.knowledge.deduce? calculus = some _ := deduce?_subtraction
  have exhausted : afterOne.1 = .budgetExhausted := by
    simp only [afterOne, prove, KnowledgeBase.deduceUntil, Budget.rounds,
      KnowledgeBase.deduceWithin, Budget.isExhausted, first, stepA]
    rfl
  have proved : (b.prove calculus ⟨some 1, none⟩ stillClock).1 = .proved := by
    simp only [prove, KnowledgeBase.deduceUntil, Budget.rounds, KnowledgeBase.deduceWithin,
      Budget.isExhausted, first, stepB]
    rfl
  obtain ⟨⟨taken, -, -, -, -, -, facts, -, all⟩, -, -, again⟩ :=
    prove_within_steps a calculus 1 stillClock
  obtain ⟨-, isProved, -, -⟩ := prove_within_steps b calculus 1 stillClock
  refine ⟨exhausted, ?_, again exhausted 1 stillClock stillClock, proved, isProved.1 proved⟩
  rw [facts, all exhausted]
  rfl

end Attempt

end InequalityChaining

import InequalityChaining.Proofs.Deduction.StepLimit
import InequalityChaining.Proofs.Polynomial.Deduction
import InequalityChaining.Proofs.Reduction.Renaming

/-!
# Deduction from renamed knowledge

Inference rules without variables fit renamed facts and terms exactly as they fit the facts and
terms themselves, and in the same order. So a step from renamed knowledge is the step from the
knowledge, renamed: the same rule fires, and what it admits is the renamed fact. Runs correspond
step by step. Only the texts in the transcript may differ.

## Main definitions

* `KnowledgeBase.RenamesTo`, `Deduced.RenamesTo` — knowledge and steps that are the renamed ones

## Main results

* `assumptionBindings_rename`, `termBindings_rename` — the candidates, in the same order
* `KnowledgeBase.deduce?_rename` — a step from renamed knowledge
* `KnowledgeBase.deduceWithin_rename` — a run from renamed knowledge
* `deduction_rename` — simplification, steps and runs do not depend on the names of variables
-/

namespace InequalityChaining

variable {ρ : String → String}

/-! ### Candidates -/

theorem Proposition.directions_rename (p : Proposition) :
    (p.rename ρ).directions = p.directions.map (rename ρ) := by
  obtain ⟨relation, lhs, rhs⟩ := p
  cases relation <;> rfl

section Candidates

variable (injective : ρ.Injective)

include injective

/-- The bindings under which the assumptions match renamed facts, in the same order. -/
theorem assumptionBindings_rename (facts : List Proposition) {assumptions : List Proposition}
    (schematic : ∀ p ∈ assumptions, ¬ p.hasVariable) :
    assumptionBindings (facts.map (Proposition.rename ρ)) assumptions =
      (assumptionBindings facts assumptions).map (Bindings.rename ρ) := by
  induction assumptions using List.reverseRecOn with
  | nil => rfl
  | append_singleton earlier assumption ih =>
    rw [List.forall_mem_append, List.forall_mem_singleton] at schematic
    have matched : ∀ (q : Proposition) (b : Bindings),
        (q.rename ρ).matchPattern? assumption (b.rename ρ) =
          (q.matchPattern? assumption b).map (Bindings.rename ρ) := by
      intro q b
      have matched := Proposition.matchPattern?_rename injective q assumption b
      rwa [Proposition.rename_of_not_hasVariable schematic.2] at matched
    rw [assumptionBindings, assumptionBindings, List.foldl_concat, List.foldl_concat]
    change (assumptionBindings _ earlier).flatMap _ =
      ((assumptionBindings _ earlier).flatMap _).map _
    simp only [ih schematic.1, List.flatMap_map, List.map_flatMap, Proposition.directions_rename,
      List.filterMap_map, List.map_filterMap, Function.comp_def, matched]

theorem distinctBindings_rename (candidates : List Bindings) :
    distinctBindings (candidates.map (Bindings.rename ρ)) =
      (distinctBindings candidates).map (Bindings.rename ρ) := by
  rw [distinctBindings, distinctBindings, List.foldl_map]
  change List.foldl _ (List.map (Bindings.rename ρ) []) candidates = _
  refine List.foldl_hom (List.map (Bindings.rename ρ)) fun kept b => ?_
  have known : (kept.map (Bindings.rename ρ)).any (· == b.rename ρ) = kept.any (· == b) := by
    rw [List.any_map]
    exact congrArg _ (funext fun c => Bindings.beq_rename injective c b)
  rw [known]
  split
  · rfl
  · rw [List.map_append, List.map_singleton]

/-- The bindings for what is left in a renamed conclusion, in the same order. -/
theorem termBindings_rename (terms : List Term) (statement : Proposition) :
    termBindings (terms.map (Term.rename ρ)) (statement.rename ρ) =
      (termBindings terms statement).map (Bindings.rename ρ) := by
  rw [termBindings, termBindings, Proposition.sides_rename, List.foldl_map]
  change List.foldl _ (List.map (Bindings.rename ρ) [.empty]) statement.sides = _
  refine List.foldl_hom (List.map (Bindings.rename ρ)) fun candidates side => ?_
  rw [Term.hasPlaceholder_rename]
  split
  · rw [← distinctBindings_rename injective]
    simp only [List.flatMap_map, List.map_flatMap, List.filterMap_map, List.map_filterMap,
      Function.comp_def, Term.matchPattern?_rename injective]
  · rfl

end Candidates

/-! ### Knowledge -/

/-- The facts and the terms of other knowledge are the renamed ones, in the same order. -/
structure KnowledgeBase.RenamesTo (ρ : String → String) (k k' : KnowledgeBase) : Prop where
  facts : k'.facts = k.facts.map (Proposition.rename ρ)
  terms : k'.terms = k.terms.map (Term.rename ρ)

/-- Another step is due to the same rule, and what it admits and leads to are the renamed ones. -/
structure Deduced.RenamesTo (ρ : String → String) (d d' : Deduced) : Prop where
  rule : d'.rule = d.rule
  fact : d'.fact = d.fact.rename ρ
  knowledge : d.knowledge.RenamesTo ρ d'.knowledge

namespace KnowledgeBase

variable {k k' : KnowledgeBase}

theorem RenamesTo.addHistory (h : k.RenamesTo ρ k') (message message' : String) :
    (k.addHistory message).RenamesTo ρ (k'.addHistory message') :=
  ⟨by simpa using h.facts, by simpa using h.terms⟩

variable (injective : ρ.Injective)

include injective

theorem RenamesTo.addTerm (h : k.RenamesTo ρ k') (t : Term) :
    (k.addTerm t).RenamesTo ρ (k'.addTerm (t.rename ρ)) := by
  have known : k'.terms.any (· == t.rename ρ) = k.terms.any (· == t) := by
    rw [h.terms, List.any_map]
    exact congrArg _ (funext fun u => Term.beq_rename injective u t)
  rw [addTerm_eq_ite, addTerm_eq_ite, Term.hasVariable_rename, known]
  split
  · exact ⟨h.facts, by simp [h.terms]⟩
  · exact h

theorem RenamesTo.addTerms (h : k.RenamesTo ρ k') (ts : List Term) :
    (k.addTerms ts).RenamesTo ρ (k'.addTerms (ts.map (Term.rename ρ))) := by
  induction ts generalizing k k' with
  | nil => exact h
  | cons t ts ih => exact ih (h.addTerm injective t)

/-- The renamed fact is new to renamed knowledge exactly if the fact is new. -/
theorem RenamesTo.addFact? (h : k.RenamesTo ρ k') (fact : Proposition)
    (message message' : String) :
    Option.Rel (RenamesTo ρ) (k.addFact? fact message)
      (k'.addFact? (fact.rename ρ) message') := by
  have known : k'.containsFact (fact.rename ρ) = k.containsFact fact := by
    rw [containsFact, containsFact, h.facts, List.any_map]
    exact congrArg _ (funext fun p => Proposition.beq_rename injective p fact)
  rw [addFact?_eq_ite, addFact?_eq_ite, Proposition.hasVariable_rename, known]
  split
  · exact .none
  · have sides := h.addTerms injective fact.sides
    refine .some (RenamesTo.addHistory ⟨?_, ?_⟩ message message')
    · simp [h.facts]
    · exact sides.terms

end KnowledgeBase

/-! ### Steps -/

theorem exists_of_rel_some {α β : Type} {R : α → β → Prop} {a : α} {b? : Option β}
    (h : Option.Rel R (some a) b?) : ∃ b, b? = some b ∧ R a b := by
  cases h with
  | some related => exact ⟨_, rfl, related⟩

/-- Searches through corresponding candidates find corresponding results. -/
theorem rel_findSome? {α β γ δ : Type} {R : γ → δ → Prop} {f : α → Option γ} {f' : β → Option δ}
    {g : α → β} {as : List α} (h : ∀ a ∈ as, Option.Rel R (f a) (f' (g a))) :
    Option.Rel R (as.findSome? f) ((as.map g).findSome? f') := by
  induction as with
  | nil => exact .none
  | cons a as ih =>
    rw [List.forall_mem_cons] at h
    rw [List.map_cons, List.findSome?_cons, List.findSome?_cons]
    obtain ⟨first, rest⟩ := h
    generalize f a = c?, f' (g a) = d? at first
    cases first with
    | none => exact ih rest
    | some related => exact .some related

section Steps

variable {calculus : Calculus} {k k' : KnowledgeBase} (injective : ρ.Injective)

include injective

theorem mapSides_simplify_rename (p : Proposition) :
    (p.rename ρ).mapSides ReductionTable.standard.simplify =
      (p.mapSides ReductionTable.standard.simplify).map (Proposition.rename ρ) := by
  rw [Proposition.mapSides, Proposition.mapSides, Proposition.rename,
    ReductionTable.simplify_rename injective, ReductionTable.simplify_rename injective]
  cases ReductionTable.standard.simplify p.lhs with
  | error e => rfl
  | ok lhs => cases ReductionTable.standard.simplify p.rhs <;> rfl

theorem InferenceRule.admit?_rename (rule : InferenceRule) (h : k.RenamesTo ρ k')
    (candidate : Proposition) :
    Option.Rel (Deduced.RenamesTo ρ) (rule.admit? .standard k candidate)
      (rule.admit? .standard k' (candidate.rename ρ)) := by
  rw [InferenceRule.admit?, InferenceRule.admit?, Proposition.hasPlaceholder_rename,
    mapSides_simplify_rename injective]
  split
  · exact .none
  cases candidate.mapSides ReductionTable.standard.simplify with
  | error e => exact .none
  | ok fact =>
    have added := h.addFact? injective fact ("deduced by " ++ rule.name ++ ": " ++ fact.text)
      ("deduced by " ++ rule.name ++ ": " ++ (fact.rename ρ).text)
    dsimp only [Except.map]
    generalize k.addFact? fact _ = next?, k'.addFact? (fact.rename ρ) _ = next?' at added
    cases added with
    | none => exact .none
    | some knowledge => exact .some ⟨rfl, rfl, knowledge⟩

theorem InferenceRule.fire?_rename {rule : InferenceRule} (schematic : rule.IsSchematic)
    (h : k.RenamesTo ρ k') :
    Option.Rel (Deduced.RenamesTo ρ) (rule.fire? .standard k) (rule.fire? .standard k') := by
  rw [InferenceRule.fire?, InferenceRule.fire?, h.facts,
    assumptionBindings_rename injective _ schematic.2]
  refine rel_findSome? fun b _ => ?_
  -- the conclusion holds no variable, so that only what is substituted is renamed
  have statement : rule.conclusion.substitute (b.rename ρ) =
      (rule.conclusion.substitute b).rename ρ := by
    rw [Proposition.rename_substitute, Proposition.rename_of_not_hasVariable schematic.1]
  dsimp only
  rw [statement, h.terms, termBindings_rename injective]
  refine rel_findSome? fun c _ => ?_
  rw [← Proposition.rename_substitute]
  exact rule.admit?_rename injective h _

/-- A step from renamed knowledge is the step from the knowledge, renamed. -/
theorem KnowledgeBase.deduce?_rename (standard : calculus.reduction = .standard)
    (schematic : ∀ rule ∈ calculus.inference, rule.IsSchematic) (h : k.RenamesTo ρ k') :
    Option.Rel (Deduced.RenamesTo ρ) (k.deduce? calculus) (k'.deduce? calculus) := by
  rw [KnowledgeBase.deduce?, KnowledgeBase.deduce?, standard]
  have fired : Option.Rel (Deduced.RenamesTo ρ) _
      ((calculus.inference.map id).findSome? fun rule => rule.fire? .standard k') :=
    rel_findSome? fun rule mem => InferenceRule.fire?_rename injective (schematic rule mem) h
  rwa [List.map_id] at fired

end Steps

/-! ### Runs -/

/-- Another run ends for the same reason and after as many steps, with the renamed knowledge. -/
structure Run.RenamesTo (ρ : String → String) (run run' : Run) : Prop where
  ending : run'.ending = run.ending
  steps : run'.steps = run.steps
  knowledge : run.knowledge.RenamesTo ρ run'.knowledge

namespace KnowledgeBase

/-- A run is made of as many steps in a row as it counts. -/
theorem after?_of_deduceWithin (calculus : Calculus) (budget : Budget) (clock : Nat → Float)
    (stop : KnowledgeBase → Bool) (rounds steps : Nat) (k : KnowledgeBase) :
    let run := k.deduceWithin calculus budget clock stop rounds steps
    ∃ taken, run.steps = steps + taken ∧ after? calculus taken k = some run.knowledge := by
  induction rounds generalizing steps k with
  | zero => exact ⟨0, rfl, rfl⟩
  | succ rounds ih =>
    rw [deduceWithin]
    split
    · exact ⟨0, rfl, rfl⟩
    split
    · exact ⟨0, rfl, rfl⟩
    split
    · exact ⟨0, rfl, rfl⟩
    · next d deduced =>
      obtain ⟨taken, counted, reached⟩ := ih (steps + 1) d.knowledge
      refine ⟨taken + 1, counted.trans (Nat.add_right_comm steps 1 taken), ?_⟩
      rw [after?, deduced]
      exact reached

variable {calculus : Calculus} {k k' : KnowledgeBase} (injective : ρ.Injective)
  (standard : calculus.reduction = .standard)
  (schematic : ∀ rule ∈ calculus.inference, rule.IsSchematic)

include injective standard schematic

/-- The same number of steps leads from renamed knowledge to renamed knowledge. -/
theorem after?_rename (n : Nat) (h : k.RenamesTo ρ k') :
    Option.Rel (RenamesTo ρ) (after? calculus n k) (after? calculus n k') := by
  induction n generalizing k k' with
  | zero => exact .some h
  | succ n ih =>
    have step := deduce?_rename injective standard schematic h
    rw [after?, after?]
    generalize k.deduce? calculus = d?, k'.deduce? calculus = d?' at step
    cases step with
    | none => exact .none
    | some both => exact ih both.knowledge

/-- Runs with conditions that agree and budgets that are exhausted after the same steps
correspond. -/
theorem deduceWithin_rename {budget budget' : Budget} {clock clock' : Nat → Float}
    {stop stop' : KnowledgeBase → Bool} (stops : ∀ k k', RenamesTo ρ k k' → stop' k' = stop k)
    (exhausted : ∀ steps, budget'.isExhausted steps (clock' steps) =
      budget.isExhausted steps (clock steps))
    (rounds steps : Nat) (h : k.RenamesTo ρ k') :
    (k.deduceWithin calculus budget clock stop rounds steps).RenamesTo ρ
      (k'.deduceWithin calculus budget' clock' stop' rounds steps) := by
  induction rounds generalizing steps k k' with
  | zero => exact ⟨rfl, rfl, h⟩
  | succ rounds ih =>
    rw [deduceWithin, deduceWithin, stops k k' h, exhausted]
    split
    · exact ⟨rfl, rfl, h⟩
    split
    · exact ⟨rfl, rfl, h⟩
    have step := deduce?_rename injective standard schematic h
    generalize k.deduce? calculus = d?, k'.deduce? calculus = d?' at step
    cases step with
    | none => exact ⟨rfl, rfl, h⟩
    | some both => exact ih (steps + 1) both.knowledge

/-- The steps of runs that correspond do so one by one. -/
theorem exists_step_rename {i n : Nat} {last : KnowledgeBase} (h : k.RenamesTo ρ k')
    (reached : after? calculus n k = some last) (less : i < n) :
    ∃ s d s' d', after? calculus i k = some s ∧ s.deduce? calculus = some d ∧
      after? calculus i k' = some s' ∧ s'.deduce? calculus = some d' ∧
      s.RenamesTo ρ s' ∧ d.RenamesTo ρ d' := by
  obtain ⟨s, d, before, deduced, -⟩ := exists_step_of_after? reached less
  have states := after?_rename injective standard schematic i h
  rw [before] at states
  obtain ⟨s', before', state⟩ := exists_of_rel_some states
  have steps := deduce?_rename injective standard schematic state
  rw [deduced] at steps
  obtain ⟨d', deduced', step⟩ := exists_of_rel_some steps
  exact ⟨s, d, s', d', before, deduced, before', deduced', state, step⟩

end KnowledgeBase

open KnowledgeBase (after?)

/-- Deduction does not depend on the names of variables. The standard rules make of a renamed term
what they make of the term, renamed, or fail with the same error. By them and by inference rules
without variables, a step from renamed knowledge is due to the same rule and admits the renamed
fact, or there is no step from either; and runs with the same limit on the steps end for the same
reason after as many steps, which correspond one by one. -/
theorem deduction_rename {ρ : String → String} (injective : ρ.Injective) (calculus : Calculus)
    (standard : calculus.reduction = .standard)
    (schematic : ∀ rule ∈ calculus.inference, rule.IsSchematic) :
    (∀ t, ReductionTable.standard.simplify (t.rename ρ) =
      (ReductionTable.standard.simplify t).map (Term.rename ρ)) ∧
    ∀ k k', KnowledgeBase.RenamesTo ρ k k' →
      Option.Rel (Deduced.RenamesTo ρ) (k.deduce? calculus) (k'.deduce? calculus) ∧
      ∀ maxSteps clock clock',
        let run := k.deduce calculus ⟨maxSteps, none⟩ clock
        let run' := k'.deduce calculus ⟨maxSteps, none⟩ clock'
        run.RenamesTo ρ run' ∧
        ∀ i < run.steps, ∃ s d s' d', after? calculus i k = some s ∧ s.deduce? calculus = some d ∧
          after? calculus i k' = some s' ∧ s'.deduce? calculus = some d' ∧
          s.RenamesTo ρ s' ∧ d.RenamesTo ρ d' := by
  refine ⟨ReductionTable.simplify_rename injective, fun k k' h => ⟨?_, ?_⟩⟩
  · exact KnowledgeBase.deduce?_rename injective standard schematic h
  intro maxSteps clock clock' run run'
  refine ⟨?_, fun i less => ?_⟩
  · -- without a limit on the time no clock matters
    have exhausted : ∀ steps, (⟨maxSteps, none⟩ : Budget).isExhausted steps (clock' steps) =
        (⟨maxSteps, none⟩ : Budget).isExhausted steps (clock steps) := fun _ => rfl
    exact KnowledgeBase.deduceWithin_rename injective standard schematic (fun _ _ _ => rfl)
      exhausted _ 0 h
  · obtain ⟨taken, counted, reached⟩ := KnowledgeBase.after?_of_deduceWithin calculus
      ⟨maxSteps, none⟩ clock (fun _ => false) (Budget.rounds ⟨maxSteps, none⟩) 0 k
    rw [Nat.zero_add] at counted
    exact KnowledgeBase.exists_step_rename injective standard schematic h reached (counted ▸ less)

open Term in
/-- From a variable and its square the standard rules conclude that the square is not negative, and
if the variable has another name, that the square of that one is not. -/
theorem deduction_rename_square :
    let swap : String → String := Equiv.swap "x" "y"
    let known (name : String) : KnowledgeBase :=
      ⟨[], [var name, power (var name) (int 2)], []⟩
    ∃ d d', (known "x").deduce? .standard = some d ∧ (known "y").deduce? .standard = some d' ∧
      d.RenamesTo swap d' ∧
      d.knowledge.facts = [.atMost (int 0) (power (var "x") (int 2))] ∧
      d'.knowledge.facts = [.atMost (int 0) (power (var "y") (int 2))] := by
  intro swap known
  have renamed : (known "x").RenamesTo swap (known "y") := ⟨rfl, rfl⟩
  obtain ⟨-, both⟩ := deduction_rename (Equiv.swap "x" "y").injective .standard rfl
    Standard.isSchematic_of_mem_inference
  obtain ⟨step, -⟩ := both _ _ renamed
  obtain ⟨d, deduced, facts⟩ := exists_deduce?_square (k := known "x") "x" rfl rfl
  rw [deduced] at step
  obtain ⟨d', deduced', same⟩ := exists_of_rel_some step
  refine ⟨d, d', deduced, deduced', same, facts, ?_⟩
  rw [same.knowledge.facts, facts]
  rfl

end InequalityChaining

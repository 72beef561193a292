import InequalityChaining.Proofs.Deduction.Provenance
import InequalityChaining.Proofs.Reduction.Definedness
import InequalityChaining.Proofs.Term.Rearrangement

/-!
# Invariants of the knowledge

Whatever is done to a knowledge base is a sequence of admissions, each of which adds at most one
fact that is new, those of some terms that are unknown, and lines for the transcript. So in every
state that is reached from the empty one no two facts and no two terms are equal, and all of them
have variables. If nothing undefined is ever put in, each side of a fact that has a variable is
among the terms: it was offered together with the fact, and it equals itself.

## Main definitions

* `KnowledgeBase.Operation`, `Operation.perform`, `Operation.performAll` — what can be done
* `KnowledgeBase.Admits` — what is admitted at once
* `KnowledgeBase.IsIrredundant` — no fact or term is there twice or without a variable
* `KnowledgeBase.Covers` — the terms include the sides of the facts

## Main results

* `KnowledgeBase.Operation.reflTransGen_perform` — operations are sequences of admissions
* `KnowledgeBase.IsIrredundant.admits`, `KnowledgeBase.Covers.admits` — what admissions keep
* `KnowledgeBase.operations_keep_invariants` — what holds in every state and of every operation
-/

open Relation (ReflTransGen)

namespace InequalityChaining

/-! ### Equality of propositions -/

namespace Proposition

variable {p q r : Proposition}

/-- Equality of propositions is symmetric, also where there are undefined constants. -/
theorem beq_symm (h : p == q) : q == p := by
  obtain ⟨relation, ⟨left, right⟩ | ⟨equation, left, right⟩⟩ := beq_iff_sides.1 h
  · exact beq_iff_sides.2 ⟨relation.symm, .inl ⟨Term.equal_symm left, Term.equal_symm right⟩⟩
  · exact beq_iff_sides.2 ⟨relation.symm,
      .inr ⟨relation ▸ equation, Term.equal_symm right, Term.equal_symm left⟩⟩

/-- Equality of propositions is transitive, also where there are undefined constants. -/
theorem beq_trans (hpq : p == q) (hqr : q == r) : p == r := by
  obtain ⟨relation, sides⟩ := beq_iff_sides.1 hpq
  obtain ⟨relation', sides'⟩ := beq_iff_sides.1 hqr
  refine beq_iff_sides.2 ⟨relation.trans relation', ?_⟩
  -- two changes of direction cancel out
  rcases sides with ⟨left, right⟩ | ⟨equation, left, right⟩
  · rcases sides' with ⟨left', right'⟩ | ⟨equation', left', right'⟩
    · exact .inl ⟨Term.equal_trans left left', Term.equal_trans right right'⟩
    · exact .inr ⟨relation.trans equation', Term.equal_trans left left',
        Term.equal_trans right right'⟩
  · rcases sides' with ⟨left', right'⟩ | ⟨equation', left', right'⟩
    · exact .inr ⟨equation, Term.equal_trans left right', Term.equal_trans right left'⟩
    · exact .inl ⟨Term.equal_trans left right', Term.equal_trans right left'⟩

/-- What equals a direction of a proposition equals the proposition. -/
theorem beq_of_mem_directions (mem : r ∈ p.directions) (h : r == q) : p == q := by
  rcases List.mem_cons.1 mem with rfl | reversed
  · exact h
  · rw [Option.mem_toList, reversed?] at reversed
    split at reversed
    · next equation =>
      obtain rfl := Option.some.inj reversed
      obtain ⟨relation, ⟨left, right⟩ | ⟨-, left, right⟩⟩ := beq_iff_sides.1 h
      · exact beq_iff_sides.2 ⟨equation.trans relation, .inr ⟨equation, right, left⟩⟩
      · exact beq_iff_sides.2 ⟨equation.trans relation, .inl ⟨right, left⟩⟩
    · cases reversed

theorem isDefined_of_mem_directions (defined : p.isDefined) (mem : r ∈ p.directions) :
    r.isDefined := by
  rcases List.mem_cons.1 mem with rfl | reversed
  · exact defined
  · rw [Option.mem_toList, reversed?] at reversed
    split at reversed
    · rw [← Option.some.inj reversed, isDefined, Bool.and_comm]
      exact defined
    · cases reversed

/-- What a match of a proposition binds are parts of its sides. -/
theorem isDefined_of_matchPattern? {b c : Bindings} (defined : p.isDefined) (seed : b.IsDefined)
    (h : p.matchPattern? q b = some c) : c.IsDefined := by
  rw [isDefined, Bool.and_eq_true] at defined
  rw [matchPattern?] at h
  split at h
  · obtain ⟨d, left, right⟩ := Option.bind_eq_some_iff.1 h
    have boundLeft := (matches_of_matchPattern? left).isDefined_bindings defined.1 seed
    exact (matches_of_matchPattern? right).isDefined_bindings defined.2 boundLeft
  · cases h

end Proposition

/-! ### Unknown terms -/

section Unknown

variable {known ts : List Term} {t : Term}

theorem Term.hasVariable_of_mem_unknown (mem : t ∈ unknown known ts) : t.hasVariable := by
  induction ts generalizing known with
  | nil => simp [unknown] at mem
  | cons u ts ih =>
    rw [unknown] at mem
    split at mem
    · next added =>
      rcases List.mem_cons.1 mem with rfl | mem
      · exact (Bool.and_eq_true_iff.1 added).1
      · exact ih mem
    · exact ih mem

theorem Term.mem_of_mem_unknown (mem : t ∈ unknown known ts) : t ∈ ts := by
  induction ts generalizing known with
  | nil => simp [unknown] at mem
  | cons u ts ih =>
    rw [unknown] at mem
    split at mem
    · rcases List.mem_cons.1 mem with rfl | mem
      · exact List.mem_cons_self
      · exact List.mem_cons_of_mem u (ih mem)
    · exact List.mem_cons_of_mem u (ih mem)

theorem Term.length_unknown_le : (unknown known ts).length ≤ ts.length := by
  induction ts generalizing known with
  | nil => simp [unknown]
  | cons t ts ih =>
    rw [unknown]
    split
    · simpa using ih
    · exact ih.trans (Nat.le_succ _)

/-- What is unknown equals neither what is known nor each other. -/
theorem Term.pairwise_append_unknown (h : known.Pairwise fun t u => ¬ t == u) :
    (known ++ unknown known ts).Pairwise fun t u => ¬ t == u := by
  induction ts generalizing known with
  | nil => simpa [unknown] using h
  | cons t ts ih =>
    rw [unknown]
    split
    · next added =>
      have new : ∀ u ∈ known, ¬ u == t := by
        simpa using (Bool.and_eq_true_iff.1 added).2
      -- the rest of the list meets one known term more
      have more : (known ++ [t]).Pairwise fun t u => ¬ t == u := by
        refine List.pairwise_append.2 ⟨h, List.pairwise_singleton _ t, fun u mem v memNew => ?_⟩
        rw [List.mem_singleton.1 memNew]
        exact new u mem
      simpa using ih more
    · exact ih h

/-- A term that has a variable and equals itself is known afterwards. -/
theorem Term.exists_equal_of_mem (known : List Term) (mem : t ∈ ts) (var : t.hasVariable)
    (reflexive : t == t) : ∃ u ∈ known ++ unknown known ts, u == t := by
  induction ts generalizing known with
  | nil => simp at mem
  | cons v ts ih =>
    rcases List.mem_cons.1 mem with rfl | mem
    · rw [unknown]
      split
      · exact ⟨t, by simp, reflexive⟩
      · next known? =>
        simp only [var, Bool.true_and, Bool.not_eq_true', Bool.not_eq_false,
          List.any_eq_true] at known?
        obtain ⟨u, memKnown, same⟩ := known?
        exact ⟨u, List.mem_append_left _ memKnown, same⟩
    · rw [unknown]
      split
      · simpa using ih (known ++ [v]) mem
      · exact ih known mem

end Unknown

namespace KnowledgeBase

/-! ### Operations -/

/-- What can be done to a knowledge base. -/
inductive Operation where
  | addTerm (t : Term) (message : String)
  | addFact (fact : Proposition) (message : String)
  | addHistory (message : String)
  | deduceOnce (calculus : Calculus)
  | deduce (calculus : Calculus) (budget : Budget) (clock : Nat → Float)
  | deduceUntil (calculus : Calculus) (budget : Budget) (stop : KnowledgeBase → Bool)
      (clock : Nat → Float)

namespace Operation

/-- The knowledge after an operation. -/
def perform (k : KnowledgeBase) : Operation → KnowledgeBase
  | addTerm t message => (k.offerTerm t message).2
  | addFact fact message => (k.offerFact fact message).2
  | addHistory message => k.addHistory message
  | deduceOnce calculus => ((k.deduce? calculus).map Deduced.knowledge).getD k
  | deduce calculus budget clock => (k.deduce calculus budget clock).knowledge
  | deduceUntil calculus budget stop clock => (k.deduceUntil calculus budget stop clock).knowledge

/-- The knowledge after one operation after the other, nothing being known at the beginning. -/
def performAll (operations : List Operation) : KnowledgeBase := operations.foldl perform empty

theorem performAll_concat (operations : List Operation) (op : Operation) :
    performAll (operations ++ [op]) = op.perform (performAll operations) :=
  List.foldl_concat ..

/-- The arguments of the operation neither hold nor yield undefined constants. -/
def IsDefined : Operation → Prop
  | addTerm t _ => t.isDefined
  | addFact fact _ => fact.isDefined
  | addHistory _ => True
  | deduceOnce calculus | deduce calculus _ _ | deduceUntil calculus _ _ _ => calculus.KeepsDefined

end Operation

/-! ### Admissions -/

/-- At most one fact is admitted, with those of some terms that are unknown, among them its sides,
and with lines for the transcript. -/
structure Admits (k : KnowledgeBase) (fact? : Option Proposition) (offered : List Term)
    (k' : KnowledgeBase) : Prop where
  facts : k'.facts = k.facts ++ fact?.toList
  terms : k'.terms = k.terms ++ Term.unknown k.terms offered
  history : k.history <+: k'.history
  isNew : ∀ fact ∈ fact?, fact.hasVariable ∧ ∀ known ∈ k.facts, ¬ known == fact
  sides : ∀ fact ∈ fact?, ∀ side ∈ fact.sides, side ∈ offered

section Admissions

variable {k k' : KnowledgeBase} {t : Term} {fact : Proposition} {message : String}
  {calculus : Calculus} {d : Deduced}

theorem prefix_history_addHistory (k : KnowledgeBase) (message : String) :
    k.history <+: (k.addHistory message).history := by
  rw [addHistory]
  split
  · exact List.prefix_rfl
  · exact List.prefix_append _ _

theorem admits_addHistory (k : KnowledgeBase) (message : String) :
    k.Admits none [] (k.addHistory message) where
  facts := by simp
  terms := by simp [Term.unknown]
  history := prefix_history_addHistory k message
  isNew := by simp
  sides := by simp

/-- A term that is added has a variable and is new. -/
theorem isNew_of_addTerm? (h : k.addTerm? t message = some k') :
    (t.hasVariable ∧ ∀ u ∈ k.terms, ¬ u == t) ∧
      k' = { k with terms := k.terms ++ [t] }.addHistory message := by
  rw [addTerm?_eq_ite] at h
  split at h
  · cases h
  · next kept =>
    refine ⟨?_, (Option.some.inj h).symm⟩
    simpa [containsTerm] using kept

theorem admits_of_addTerm? (h : k.addTerm? t message = some k') : k.Admits none [t] k' := by
  obtain ⟨⟨var, new⟩, rfl⟩ := isNew_of_addTerm? h
  have unknown : (t.hasVariable && !k.terms.any (· == t)) = true := by simpa [var] using new
  refine ⟨by simp, ?_, ?_, by simp, by simp⟩
  · rw [terms_addHistory, Term.unknown, if_pos unknown, Term.unknown]
  · exact prefix_history_addHistory { k with terms := k.terms ++ [t] } message

theorem admits_of_addFact? (h : k.addFact? fact message = some k') :
    k.Admits (some fact) fact.sides k' := by
  obtain ⟨var, new⟩ := isNew_of_addFact? h
  refine ⟨facts_of_addFact? h, ?_, ?_, ?_, ?_⟩
  · rw [eq_of_addFact? h, terms_addHistory, terms_addTerms]
  · rw [eq_of_addFact? h, ← history_addTerms k fact.sides]
    exact prefix_history_addHistory { k.addTerms fact.sides with
      facts := (k.addTerms fact.sides).facts ++ [fact] } message
  · intro p same
    obtain rfl := Option.some.inj same
    exact ⟨var, fun known mem equal => new (List.any_eq_true.2 ⟨known, mem, equal⟩)⟩
  · intro p same
    obtain rfl := Option.some.inj same
    exact fun side mem => mem

theorem admits_of_deduce? (h : k.deduce? calculus = some d) :
    k.Admits (some d.fact) d.fact.sides d.knowledge := by
  obtain ⟨-, -, -, -, -, -, -, -, added⟩ := exists_of_deduce? h
  exact admits_of_addFact? added

end Admissions

/-! ### What admissions keep -/

/-- No two facts and no two terms are equal, and all of them have variables. -/
structure IsIrredundant (k : KnowledgeBase) : Prop where
  facts : k.facts.Pairwise fun p q => ¬ p == q
  terms : k.terms.Pairwise fun t u => ¬ t == u
  hasVariable_fact : ∀ fact ∈ k.facts, fact.hasVariable
  hasVariable_term : ∀ t ∈ k.terms, t.hasVariable

/-- Facts and terms are without undefined constants, and the sides of the facts that have variables
equal terms. -/
structure Covers (k : KnowledgeBase) : Prop where
  facts : ∀ fact ∈ k.facts, fact.isDefined
  terms : ∀ t ∈ k.terms, t.isDefined
  sides : ∀ fact ∈ k.facts, ∀ side ∈ fact.sides, side.hasVariable → ∃ t ∈ k.terms, side == t

section Keeping

variable {k k' : KnowledgeBase} {fact? : Option Proposition} {offered : List Term}

theorem isIrredundant_empty : empty.IsIrredundant := by
  constructor <;> simp [empty]

theorem covers_empty : empty.Covers := by
  constructor <;> simp [empty]

theorem IsIrredundant.admits (h : k.IsIrredundant) (step : k.Admits fact? offered k') :
    k'.IsIrredundant := by
  refine ⟨?_, ?_, ?_, ?_⟩
  · rw [step.facts]
    refine List.pairwise_append.2 ⟨h.facts, ?_, fun p mem q memNew => ?_⟩
    · cases fact? <;> simp
    · exact (step.isNew q (Option.mem_toList.1 memNew)).2 p mem
  · exact step.terms ▸ Term.pairwise_append_unknown h.terms
  · rw [step.facts, List.forall_mem_append]
    exact ⟨h.hasVariable_fact, fun fact mem => (step.isNew fact (Option.mem_toList.1 mem)).1⟩
  · rw [step.terms, List.forall_mem_append]
    exact ⟨h.hasVariable_term, fun t => Term.hasVariable_of_mem_unknown⟩

theorem Covers.admits (h : k.Covers) (step : k.Admits fact? offered k')
    (defined : ∀ t ∈ offered, t.isDefined) : k'.Covers := by
  have definedFact : ∀ fact ∈ fact?.toList, fact.isDefined := by
    intro fact mem
    have sides := step.sides fact (Option.mem_toList.1 mem)
    rw [Proposition.isDefined, defined fact.lhs (sides _ (by simp [Proposition.sides])),
      defined fact.rhs (sides _ (by simp [Proposition.sides]))]
    rfl
  refine ⟨?_, ?_, ?_⟩
  · rw [step.facts, List.forall_mem_append]
    exact ⟨h.facts, definedFact⟩
  · rw [step.terms, List.forall_mem_append]
    exact ⟨h.terms, fun t mem => defined t (Term.mem_of_mem_unknown mem)⟩
  · rw [step.facts, step.terms, List.forall_mem_append]
    constructor
    · intro fact mem side memSide var
      obtain ⟨t, memTerm, same⟩ := h.sides fact mem side memSide var
      exact ⟨t, List.mem_append_left _ memTerm, same⟩
    · intro fact mem side memSide var
      -- the sides of the new fact are among what is offered, and what is offered is known or added
      have memOffered := step.sides fact (Option.mem_toList.1 mem) side memSide
      obtain ⟨t, memTerm, same⟩ := Term.exists_equal_of_mem k.terms memOffered var
        (Term.equal_refl (defined side memOffered))
      exact ⟨t, memTerm, Term.equal_symm same⟩

/-- What is deduced from what has no undefined constants has none either. -/
theorem Covers.isDefined_deduced {calculus : Calculus} {d : Deduced} (h : k.Covers)
    (keeps : calculus.KeepsDefined) (deduced : k.deduce? calculus = some d) :
    ∀ side ∈ d.fact.sides, side.isDefined := by
  obtain ⟨rule, mem, -, b, memBindings, c, memRest, simplified, -⟩ := exists_of_deduce? deduced
  have definedBindings : b.IsDefined := by
    refine forall_mem_assumptionBindings Bindings.isDefined_empty ?_ b memBindings
    intro fact memFact q direction assumption b c seed found
    exact Proposition.isDefined_of_matchPattern?
      (Proposition.isDefined_of_mem_directions (h.facts fact memFact) direction) seed found
  have definedRest : c.IsDefined := by
    refine forall_mem_termBindings Bindings.isDefined_empty ?_ c memRest
    intro t memTerm side b c seed found
    exact (matches_of_matchPattern? found).isDefined_bindings (h.terms t memTerm) seed
  have instantiated : ∀ side ∈ rule.conclusion.sides,
      ((side.substitute b).substitute c).isDefined := fun side memSide =>
    Term.isDefined_substitute
      (Term.isDefined_substitute (keeps.inference rule mem side memSide) definedBindings)
      definedRest
  obtain ⟨left, right, -⟩ := mapSides_eq_ok simplified
  simp only [Proposition.sides, List.forall_mem_cons] at instantiated ⊢
  exact ⟨isDefined_of_simplify keeps.reduction instantiated.1 left,
    isDefined_of_simplify keeps.reduction instantiated.2.1 right, by simp⟩

end Keeping

/-! ### Operations as sequences of admissions -/

namespace Operation

variable {k k' : KnowledgeBase} {op : Operation}

/-- A single admission of an operation. If its arguments and what is known are without undefined
constants, so is what is offered. -/
def Changes (op : Operation) (k k' : KnowledgeBase) : Prop :=
  ∃ fact? offered, k.Admits fact? offered k' ∧
    (op.IsDefined → k.Covers → ∀ t ∈ offered, t.isDefined)

theorem changes_of_deducesBy {calculus : Calculus} (keeps : op.IsDefined → calculus.KeepsDefined)
    (h : k.DeducesBy calculus k') : op.Changes k k' := by
  obtain ⟨d, deduced, rfl⟩ := h
  exact ⟨_, _, admits_of_deduce? deduced, fun defined covers =>
    covers.isDefined_deduced (keeps defined) deduced⟩

/-- Every operation is a sequence of admissions, an empty one if nothing is admitted. -/
theorem reflTransGen_perform (op : Operation) (k : KnowledgeBase) :
    ReflTransGen op.Changes k (op.perform k) := by
  cases op with
  | addTerm t message =>
    rw [perform, offerTerm_eq]
    cases added : k.addTerm? t message with
    | none => exact .refl
    | some k' =>
      refine .single ⟨_, _, admits_of_addTerm? added, fun defined _ => ?_⟩
      exact List.forall_mem_singleton.2 defined
  | addFact fact message =>
    rw [perform, offerFact_eq]
    cases added : k.addFact? fact message with
    | none => exact .refl
    | some k' =>
      refine .single ⟨_, _, admits_of_addFact? added, fun defined _ => ?_⟩
      have sides := (Bool.and_eq_true _ _).mp defined
      exact List.forall_mem_cons.2 ⟨sides.1, List.forall_mem_singleton.2 sides.2⟩
  | addHistory message => exact .single ⟨_, _, admits_addHistory k message, by simp⟩
  | deduceOnce calculus =>
    rw [perform]
    cases deduced : k.deduce? calculus with
    | none => exact .refl
    | some d => exact .single (changes_of_deducesBy id ⟨d, deduced, rfl⟩)
  | deduce calculus budget clock =>
    exact ReflTransGen.mono (fun _ _ => changes_of_deducesBy id) _ _
      (deducesBy_of_deduceWithin calculus budget.rounds 0 k)
  | deduceUntil calculus budget stop clock =>
    exact ReflTransGen.mono (fun _ _ => changes_of_deducesBy id) _ _
      (deducesBy_of_deduceWithin calculus budget.rounds 0 k)

/-- An operation keeps what its admissions keep. -/
theorem perform_of_changes (P : KnowledgeBase → Prop) (h : P k)
    (step : ∀ k k', P k → op.Changes k k' → P k') : P (op.perform k) := by
  have steps := reflTransGen_perform op k
  generalize op.perform k = k' at steps ⊢
  induction steps with
  | refl => exact h
  | tail _ change ih => exact step _ _ ih change

/-- Nothing is ever removed, and what is added is added at the end. -/
theorem prefix_perform (op : Operation) (k : KnowledgeBase) :
    k.facts <+: (op.perform k).facts ∧ k.terms <+: (op.perform k).terms ∧
      k.history <+: (op.perform k).history := by
  refine perform_of_changes (fun k' => k.facts <+: k'.facts ∧ k.terms <+: k'.terms ∧
    k.history <+: k'.history) ⟨List.prefix_rfl, List.prefix_rfl, List.prefix_rfl⟩ ?_
  rintro k₁ k₂ ⟨facts, terms, history⟩ ⟨fact?, offered, admits, -⟩
  refine ⟨?_, ?_, history.trans admits.history⟩
  · exact admits.facts ▸ facts.trans (List.prefix_append _ _)
  · exact admits.terms ▸ terms.trans (List.prefix_append _ _)

theorem isIrredundant_perform (op : Operation) (h : k.IsIrredundant) :
    (op.perform k).IsIrredundant := by
  refine perform_of_changes IsIrredundant h ?_
  rintro k k' irredundant ⟨fact?, offered, admits, -⟩
  exact irredundant.admits admits

theorem covers_perform (defined : op.IsDefined) (h : k.Covers) : (op.perform k).Covers := by
  refine perform_of_changes Covers h ?_
  rintro k k' covers ⟨fact?, offered, admits, keeps⟩
  exact covers.admits admits (keeps defined covers)

theorem isIrredundant_performAll (operations : List Operation) :
    (performAll operations).IsIrredundant := by
  induction operations using List.reverseRecOn with
  | nil => exact isIrredundant_empty
  | append_singleton earlier op ih =>
    rw [performAll_concat]
    exact isIrredundant_perform op ih

theorem covers_performAll {operations : List Operation}
    (defined : ∀ op ∈ operations, op.IsDefined) : (performAll operations).Covers := by
  induction operations using List.reverseRecOn with
  | nil => exact covers_empty
  | append_singleton earlier op ih =>
    rw [List.forall_mem_append, List.forall_mem_singleton] at defined
    rw [performAll_concat]
    exact covers_perform defined.2 (ih defined.1)

end Operation

/-! ### The theorem -/

section Growth

variable {k : KnowledgeBase} {t : Term} {fact : Proposition} {message : String}

/-- A term that is offered is added as one term, or nothing changes. -/
theorem offerTerm_cases (k : KnowledgeBase) (t : Term) (message : String) :
    (∃ k', k.offerTerm t message = (true, k') ∧ k'.facts = k.facts ∧ k'.terms = k.terms ++ [t]) ∨
      k.offerTerm t message = (false, k) := by
  rw [offerTerm_eq]
  cases added : k.addTerm? t message with
  | none => exact .inr rfl
  | some k' =>
    obtain ⟨-, rfl⟩ := isNew_of_addTerm? added
    exact .inl ⟨_, rfl, by simp, by simp⟩

/-- A fact that is offered is added as one fact with at most its two sides, or nothing changes. -/
theorem offerFact_cases (k : KnowledgeBase) (fact : Proposition) (message : String) :
    (∃ k', k.offerFact fact message = (true, k') ∧ k'.facts = k.facts ++ [fact] ∧
        k'.terms.length ≤ k.terms.length + 2) ∨
      k.offerFact fact message = (false, k) := by
  rw [offerFact_eq]
  cases added : k.addFact? fact message with
  | none => exact .inr rfl
  | some k' =>
    refine .inl ⟨k', rfl, facts_of_addFact? added, ?_⟩
    rw [(admits_of_addFact? added).terms, List.length_append]
    exact Nat.add_le_add_left Term.length_unknown_le _

end Growth

/-- Entries at different positions are related in the order in which they stand, and so in every
order if the relation is symmetric. -/
theorem not_of_pairwise {α : Type} {r : α → α → Prop} (symm : ∀ a b, r a b → r b a) {as : List α}
    (h : as.Pairwise fun a b => ¬ r a b) {i j : Nat} {a b : α} (ne : i ≠ j)
    (ha : as[i]? = some a) (hb : as[j]? = some b) : ¬ r a b := by
  obtain ⟨hi, rfl⟩ := List.getElem?_eq_some_iff.1 ha
  obtain ⟨hj, rfl⟩ := List.getElem?_eq_some_iff.1 hb
  rw [List.pairwise_iff_getElem] at h
  rcases Nat.lt_or_gt_of_ne ne with lt | gt
  · exact h i j hi hj lt
  · exact fun related => h j i hj hi gt (symm _ _ related)

/-- In every state that operations lead to from the empty one, no two facts at different positions
are equal, equations not even in different directions, no two terms are equal, and all facts and
terms have variables. If what the operations are given neither holds nor yields undefined
constants, each side of a fact that has a variable equals a term. Operations only add, and they add
at the end: adding a term or a fact succeeds exactly if there are more of them afterwards, one that
is, and in the case of a fact at most two terms besides; otherwise it changes nothing. -/
theorem operations_keep_invariants :
    (∀ operations : List Operation,
      let k := Operation.performAll operations
      (∀ (i j : Nat) (p q r : Proposition), i ≠ j → k.facts[i]? = some p → k.facts[j]? = some q →
        r ∈ p.directions → ¬ r == q) ∧
      (∀ (i j : Nat) (t u : Term), i ≠ j → k.terms[i]? = some t → k.terms[j]? = some u →
        ¬ t == u) ∧
      (∀ fact ∈ k.facts, fact.hasVariable) ∧ (∀ t ∈ k.terms, t.hasVariable) ∧
      ((∀ op ∈ operations, op.IsDefined) →
        ∀ fact ∈ k.facts, ∀ side ∈ fact.sides, side.hasVariable → ∃ t ∈ k.terms, side == t)) ∧
    (∀ (k : KnowledgeBase) (op : Operation),
      let k' := op.perform k
      k.facts <+: k'.facts ∧ k.terms <+: k'.terms ∧ k.history <+: k'.history) ∧
    (∀ (k : KnowledgeBase) (t : Term) (message : String),
      let (added, k') := k.offerTerm t message
      (added ↔ k.terms.length < k'.terms.length) ∧
      (added → k'.facts = k.facts ∧ k'.terms = k.terms ++ [t]) ∧
      (¬ added → k' = k)) ∧
    (∀ (k : KnowledgeBase) (fact : Proposition) (message : String),
      let (added, k') := k.offerFact fact message
      (added ↔ k.facts.length < k'.facts.length) ∧
      (added → k'.facts = k.facts ++ [fact] ∧ k'.terms.length ≤ k.terms.length + 2) ∧
      (¬ added → k' = k)) := by
  refine ⟨?_, ?_, ?_, ?_⟩
  · intro operations k
    have irredundant := Operation.isIrredundant_performAll operations
    refine ⟨?_, ?_, irredundant.hasVariable_fact, irredundant.hasVariable_term, fun defined =>
      (Operation.covers_performAll defined).sides⟩
    · intro i j p q r ne hp hq direction same
      exact not_of_pairwise (fun _ _ => Proposition.beq_symm) irredundant.facts ne hp hq
        (Proposition.beq_of_mem_directions direction same)
    · intro i j t u ne ht hu
      exact not_of_pairwise (fun _ _ => Term.equal_symm) irredundant.terms ne ht hu
  · intro k op k'
    exact Operation.prefix_perform op k
  · intro k t message
    rcases k.offerTerm_cases t message with ⟨k', added, facts, terms⟩ | refused
    · simp [added, facts, terms]
    · simp [refused]
  · intro k fact message
    rcases k.offerFact_cases fact message with ⟨k', added, facts, terms⟩ | refused
    · simp [added, facts, terms]
    · simp [refused]

open Term in
/-- An equation is not admitted again in its other direction, and after a run by the standard rules
the sides of the facts are still among the terms. -/
theorem operations_keep_invariants_standard :
    let p : Proposition := .atMost (var "x") (power (var "y") (int 2))
    let q : Proposition := .equals (var "y") (var "z")
    let swapped : Proposition := .equals (var "z") (var "y")
    let before := Operation.performAll [.addFact p "given", .addFact q ""]
    let known := [Operation.addFact p "given", .addFact q "", .addFact swapped "given"]
    let run := Operation.deduce .standard ⟨some 3, none⟩ stillClock
    let k := Operation.performAll (known ++ [run])
    (Operation.performAll known).facts = [p, q] ∧ (∀ op ∈ known ++ [run], op.IsDefined) ∧
      before.offerFact swapped "given" = (false, before) ∧
      [p, q] <+: k.facts ∧ k.facts[0]? = some p ∧ k.facts[1]? = some q ∧ ¬ swapped == p ∧
      ∃ t ∈ k.terms, power (var "y") (int 2) == t := by
  intro p q swapped before known run
  have facts : (Operation.performAll known).facts = [p, q] := rfl
  have defined : ∀ op ∈ known ++ [run], op.IsDefined := by
    rw [List.forall_mem_append, List.forall_mem_singleton]
    refine ⟨?_, Calculus.keepsDefined_standard⟩
    simp only [known, List.forall_mem_cons, List.not_mem_nil, false_imp_iff, implies_true, and_true]
    exact ⟨rfl, rfl, rfl⟩
  obtain ⟨states, grows, -, offers⟩ := operations_keep_invariants
  have state := states (known ++ [run])
  have refused : before.offerFact swapped "given" = (false, before) :=
    Prod.ext rfl ((offers before swapped "given").2.2 (by decide))
  have kept := (grows (Operation.performAll known) run).1
  rw [← Operation.performAll_concat, facts] at kept
  -- what the run has found need not be looked at
  generalize Operation.performAll (known ++ [run]) = k at state kept ⊢
  obtain ⟨distinct, -, -, -, covers⟩ := state
  obtain ⟨rest, split⟩ := kept
  have first : k.facts[0]? = some p := by rw [← split]; rfl
  have second : k.facts[1]? = some q := by rw [← split]; rfl
  refine ⟨facts, defined, refused, ⟨rest, split⟩, first, second, ?_, ?_⟩
  · exact distinct 1 0 q p swapped (by decide) second first (.tail q (.head []))
  · exact covers defined p (List.mem_of_getElem? first) p.rhs (.tail p.lhs (.head [])) rfl

end KnowledgeBase

end InequalityChaining

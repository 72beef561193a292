import InequalityChaining.Proofs.Deduction.Provenance
import InequalityChaining.Proofs.Reduction.Definedness
import InequalityChaining.Proofs.Reduction.Occurrence
import InequalityChaining.Proofs.Term.Rearrangement

/-!
# Proofs stay with the variables of their problem

An accepted problem has no placeholders, and no variables but those of its goal. Matching binds
parts of what is known, and it binds all placeholders of what it matches: first those of the
assumptions of a rule, then, side by side, those that are left in its conclusion. So no candidate
for a fact has a placeholder, and if the rule speaks of no variable, the candidate has only
variables that are known. The standard reduction rules bring in neither placeholders nor variables.

## Main definitions

* `Term.IsOver` — no placeholders, no undefined constants, and no variables but those listed
* `KnowledgeBase.IsOver` — the same of all that is known
* `ProofCall`, `Attempt.proveAll` — one call of `Attempt.prove` after the other

## Main results

* `isOver_of_mem_termBindings` — the bindings for what is left of a conclusion, and what they bind
* `isOver_candidate` — candidates for facts
* `KnowledgeBase.IsOver.deducesBy` — a step keeps all that is known within the variables
* `Attempt.stays_within_problem` — so does every sequence of proofs
-/

open Relation (ReflTransGen)

namespace InequalityChaining

open Term

/-! ### Terms over variables -/

namespace Term

variable {names : List String} {t : Term} {op : Variadic} {o : Binary} {ts : List Term} {l r : Term}

/-- The term has no placeholders, no undefined constants and no variables but those listed. -/
structure IsOver (names : List String) (t : Term) : Prop where
  ground : t.isGround
  defined : t.isDefined
  known : t.any (isForeign names) = false

theorem isOver_variadic : (variadic op ts).IsOver names ↔ ∀ t ∈ ts, t.IsOver names := by
  constructor
  · rintro ⟨ground, defined, known⟩ t mem
    exact ⟨isGround_variadic.1 ground t mem, isDefined_variadic.1 defined t mem,
      (isLeafProperty_isForeign names).any_variadic.1 known t mem⟩
  · intro operands
    exact ⟨isGround_variadic.2 fun t mem => (operands t mem).ground,
      isDefined_variadic.2 fun t mem => (operands t mem).defined,
      (isLeafProperty_isForeign names).any_variadic.2 fun t mem => (operands t mem).known⟩

theorem isOver_binary : (binary o l r).IsOver names ↔ l.IsOver names ∧ r.IsOver names := by
  constructor
  · rintro ⟨ground, defined, known⟩
    obtain ⟨groundLeft, groundRight⟩ := isGround_binary.1 ground
    obtain ⟨definedLeft, definedRight⟩ := isDefined_binary.1 defined
    obtain ⟨knownLeft, knownRight⟩ := (isLeafProperty_isForeign names).any_binary.1 known
    exact ⟨⟨groundLeft, definedLeft, knownLeft⟩, ⟨groundRight, definedRight, knownRight⟩⟩
  · rintro ⟨left, right⟩
    exact ⟨isGround_binary.2 ⟨left.ground, right.ground⟩,
      isDefined_binary.2 ⟨left.defined, right.defined⟩,
      (isLeafProperty_isForeign names).any_binary.2 ⟨left.known, right.known⟩⟩

theorem IsOver.of_mem_subterms {u : Term} (h : t.IsOver names) (mem : u ∈ t.subterms) :
    u.IsOver names := by
  induction t using Term.induction with
  | variadic op ts ih =>
    rcases mem_subterms_variadic.1 mem with rfl | ⟨v, memOperands, part⟩
    · exact h
    · exact ih v memOperands (isOver_variadic.1 h v memOperands) part
  | binary op l r ihl ihr =>
    obtain ⟨left, right⟩ := isOver_binary.1 h
    rcases mem_subterms_binary.1 mem with rfl | part | part
    · exact h
    · exact ihl left part
    · exact ihr right part
  | _ =>
    obtain rfl := List.mem_singleton.1 mem
    exact h

/-- A standard simplification brings in nothing foreign. -/
theorem IsOver.of_simplify {u : Term} (h : t.IsOver names)
    (simplified : ReductionTable.standard.simplify t = .ok u) : u.IsOver names := by
  obtain ⟨n, passes⟩ := exists_passes_of_reduceWithin simplified
  refine ⟨Standard.isGround_of_passes passes h.ground,
    isDefined_of_simplify Calculus.keepsDefined_standard.reduction h.defined simplified, ?_⟩
  exact Standard.any_eq_false_of_simplify simplified (isLeafProperty_isForeign names).isUncomputed
    h.ground h.known

end Term

/-! ### Bindings -/

section Bindings

variable {names : List String} {b c r : Bindings} {s p t : Term}

/-- All bound terms are over the listed variables. -/
def Bindings.IsOver (names : List String) (b : Bindings) : Prop :=
  ∀ name t, b.find? name = some t → t.IsOver names

theorem Bindings.isOver_empty : Bindings.empty.IsOver names := by
  intro name t bound
  simp at bound

theorem Bindings.IsOver.closed (h : b.IsOver names) : b.Closed := fun name t bound =>
  ⟨(h name t bound).ground, (h name t bound).defined⟩

theorem Splits.isOver_iff {op : Variadic} {ts : List Term} {u : Term} (h : Splits op ts u t) :
    (variadic op ts).IsOver names ↔ u.IsOver names ∧ t.IsOver names := by
  cases h <;> simp [isOver_variadic, or_imp, forall_and]

theorem passesToParts_isOver (names : List String) : PassesToParts (IsOver names) where
  splits split := split.isOver_iff.1
  single h := isOver_variadic.1 h _ List.mem_cons_self
  binary := isOver_binary.1

/-- What a match binds are parts of the subject, so they are over its variables. -/
theorem Matches.isOver_bindings (h : Matches s p b r) (within : s.IsOver names)
    (seed : b.IsOver names) : r.IsOver names :=
  h.forall_bound (passesToParts_isOver names) within seed

/-- A match binds all placeholders of the pattern and keeps what is bound. -/
theorem Matches.extendedBy (h : Matches s p b r) (within : s.IsOver names) (seed : b.IsOver names) :
    b.ExtendedBy r p.placeholderNames :=
  (h.instantiates within.ground within.defined (h.isDefined within.defined) seed.closed).extended

theorem Term.mem_placeholderNames_substitute {n : String} (mem : n ∈ t.placeholderNames)
    (unbound : b.find? n = none) : n ∈ (t.substitute b).placeholderNames := by
  induction t using Term.induction with
  | placeholder name kind =>
    obtain rfl := List.mem_singleton.1 mem
    rwa [substitute, unbound]
  | variadic op ts ih =>
    obtain ⟨u, memOperands, mem⟩ := mem_placeholderNames_variadic.1 mem
    rw [substitute, substituteAll_eq_map, mem_placeholderNames_variadic]
    exact ⟨_, List.mem_map_of_mem memOperands, ih u memOperands mem⟩
  | binary op l r ihl ihr =>
    rw [substitute, mem_placeholderNames_binary]
    exact (mem_placeholderNames_binary.1 mem).imp ihl ihr
  | _ => simp at mem

/-- A term without variables becomes one over the listed variables if all its placeholders are bound
to such. -/
theorem Term.isOver_substitute (schematic : ¬ t.hasVariable) (defined : t.isDefined)
    (within : b.IsOver names) (bound : ∀ n ∈ t.placeholderNames, (b.find? n).isSome) :
    (t.substitute b).IsOver names := by
  induction t using Term.induction with
  | constant value => exact ⟨rfl, defined, (isLeafProperty_isForeign names).any_constant value⟩
  | var name => exact absurd rfl schematic
  | placeholder name kind =>
    obtain ⟨u, found⟩ := Option.isSome_iff_exists.1 (bound name (by simp))
    rw [substitute, found]
    exact within name u found
  | variadic op ts ih =>
    rw [substitute, substituteAll_eq_map, isOver_variadic, List.forall_mem_map]
    intro u mem
    refine ih u mem (fun var => schematic (hasVariable_variadic.2 ⟨u, mem, var⟩))
      (isDefined_variadic.1 defined u mem) fun n memNames => ?_
    exact bound n (mem_placeholderNames_variadic.2 ⟨u, mem, memNames⟩)
  | binary op l r ihl ihr =>
    rw [hasVariable_binary, not_or] at schematic
    rw [isDefined_binary] at defined
    rw [substitute, isOver_binary]
    refine ⟨ihl schematic.1 defined.1 fun n memNames => ?_,
      ihr schematic.2 defined.2 fun n memNames => ?_⟩
    · exact bound n (mem_placeholderNames_binary.2 (.inl memNames))
    · exact bound n (mem_placeholderNames_binary.2 (.inr memNames))

end Bindings

/-! ### Candidates -/

/-- All that is known is over the listed variables. -/
structure KnowledgeBase.IsOver (names : List String) (k : KnowledgeBase) : Prop where
  facts : ∀ fact ∈ k.facts, ∀ side ∈ fact.sides, side.IsOver names
  terms : ∀ t ∈ k.terms, t.IsOver names

section Candidates

variable {names : List String} {k : KnowledgeBase} {rule : InferenceRule} {b c : Bindings}

theorem Proposition.isOver_of_mem_directions {p q : Proposition}
    (within : ∀ side ∈ p.sides, side.IsOver names) (mem : q ∈ p.directions) :
    ∀ side ∈ q.sides, side.IsOver names := by
  rcases List.mem_cons.1 mem with rfl | reversed
  · exact within
  · rw [Option.mem_toList, reversed?] at reversed
    split at reversed
    · obtain rfl := Option.some.inj reversed
      simpa [sides, equals, and_comm] using within
    · cases reversed

/-- The bindings under which assumptions match facts. -/
theorem isOver_of_mem_assumptionBindings {facts assumptions : List Proposition}
    (within : ∀ fact ∈ facts, ∀ side ∈ fact.sides, side.IsOver names)
    (h : b ∈ assumptionBindings facts assumptions) : b.IsOver names := by
  refine forall_mem_assumptionBindings Bindings.isOver_empty ?_ b h
  intro fact memFact q direction assumption seed last overSeed found
  have sides := Proposition.isOver_of_mem_directions (within fact memFact) direction
  rw [Proposition.matchPattern?] at found
  split at found
  · obtain ⟨d, left, right⟩ := Option.bind_eq_some_iff.1 found
    have overLeft := (matches_of_matchPattern? left).isOver_bindings
      (sides q.lhs (by simp [Proposition.sides])) overSeed
    exact (matches_of_matchPattern? right).isOver_bindings
      (sides q.rhs (by simp [Proposition.sides])) overLeft
  · cases found

/-- The bindings for what is left of a statement bind all placeholders that are left. -/
theorem isOver_of_mem_termBindings {terms : List Term} {statement : Proposition}
    (within : ∀ t ∈ terms, t.IsOver names) (h : c ∈ termBindings terms statement) :
    c.IsOver names ∧ ∀ side ∈ statement.sides, ∀ n ∈ side.placeholderNames,
      (c.find? n).isSome := by
  rw [termBindings] at h
  generalize statement.sides = sides at h ⊢
  induction sides using List.reverseRecOn generalizing c with
  | nil =>
    obtain rfl := List.mem_singleton.1 h
    exact ⟨Bindings.isOver_empty, by simp⟩
  | append_singleton earlier side ih =>
    rw [List.foldl_concat] at h
    rw [List.forall_mem_append, List.forall_mem_singleton]
    split at h
    · obtain ⟨seed, memSeed, h⟩ := List.mem_flatMap.1 (mem_of_mem_distinctBindings h)
      obtain ⟨t, memTerms, found⟩ := List.mem_filterMap.1 h
      obtain ⟨overSeed, bound⟩ := ih memSeed
      have derivation := matches_of_matchPattern? found
      have extended := derivation.extendedBy (within t memTerms) overSeed
      refine ⟨derivation.isOver_bindings (within t memTerms) overSeed, ?_, fun n mem => ?_⟩
      · -- what the earlier sides have bound stays bound
        exact fun u mem n memNames => (extended.bound n).2 (.inl (bound u mem n memNames))
      · exact (extended.bound n).2 (.inr mem)
    · next ground =>
      obtain ⟨overSeed, bound⟩ := ih h
      refine ⟨overSeed, bound, fun n mem => ?_⟩
      rw [placeholderNames_of_isGround (by simpa [isGround] using ground)] at mem
      cases mem

/-- The candidates for facts have no placeholders and no variables but those of what is known. -/
theorem isOver_candidate (within : k.IsOver names) (schematic : rule.IsSchematic)
    (defined : rule.conclusion.isDefined)
    (hb : b ∈ assumptionBindings k.facts rule.assumptions)
    (hc : c ∈ termBindings k.terms (rule.conclusion.substitute b)) :
    ∀ side ∈ ((rule.conclusion.substitute b).substitute c).sides, side.IsOver names := by
  have overSeed := isOver_of_mem_assumptionBindings within.facts hb
  obtain ⟨overRest, rest⟩ := isOver_of_mem_termBindings within.terms hc
  have together : (b.orElse c).IsOver names := by
    intro n t found
    rw [Bindings.find?_orElse, Option.or_eq_some_iff] at found
    rcases found with found | ⟨-, found⟩
    · exact overSeed n t found
    · exact overRest n t found
  have side : ∀ t : Term, ¬ t.hasVariable → t.isDefined →
      t.substitute b ∈ (rule.conclusion.substitute b).sides →
        (t.substitute (b.orElse c)).IsOver names := by
    intro t schematic defined mem
    refine isOver_substitute schematic defined together fun n memNames => ?_
    rw [Bindings.find?_orElse, Option.isSome_or, Bool.or_eq_true, or_iff_not_imp_left]
    -- a placeholder that no assumption binds is left for the terms
    intro unbound
    rw [Bool.not_eq_true, Option.isSome_eq_false_iff, Option.isNone_iff_eq_none] at unbound
    exact rest _ mem n (mem_placeholderNames_substitute memNames unbound)
  rw [Proposition.substitute_substitute overSeed.closed]
  obtain ⟨schematic, -⟩ := schematic
  rw [Proposition.hasVariable, Bool.or_eq_true, not_or] at schematic
  rw [Proposition.isDefined, Bool.and_eq_true] at defined
  refine List.forall_mem_cons.2 ⟨?_, List.forall_mem_singleton.2 ?_⟩
  · exact side _ schematic.1 defined.1 (by simp [Proposition.sides, Proposition.substitute])
  · exact side _ schematic.2 defined.2 (by simp [Proposition.sides, Proposition.substitute])

end Candidates

/-! ### Steps and proofs -/

/-- The standard reduction rules with inference rules that speak of no variable and conclude nothing
with an undefined constant. -/
structure Calculus.IsSchematic (calculus : Calculus) : Prop where
  reduction : calculus.reduction = .standard
  schematic : ∀ rule ∈ calculus.inference, rule.IsSchematic
  defined : ∀ rule ∈ calculus.inference, rule.conclusion.isDefined

section Steps

variable {names : List String} {k k' : KnowledgeBase} {calculus : Calculus}

/-- A step admits a fact over the variables of what is known. -/
theorem KnowledgeBase.IsOver.deducesBy (within : k.IsOver names) (schematic : calculus.IsSchematic)
    (step : k.DeducesBy calculus k') : k'.IsOver names := by
  obtain ⟨d, deduced, rfl⟩ := step
  obtain ⟨rule, mem, -, b, hb, c, hc, simplified, added⟩ := exists_of_deduce? deduced
  have candidate :=
    isOver_candidate within (schematic.schematic rule mem) (schematic.defined rule mem) hb hc
  -- the fact is a candidate that has been simplified, and simplification brings in no variables
  have fact : ∀ side ∈ d.fact.sides, side.IsOver names := by
    rw [schematic.reduction] at simplified
    obtain ⟨left, right, -⟩ := mapSides_eq_ok simplified
    refine List.forall_mem_cons.2 ⟨?_, List.forall_mem_singleton.2 ?_⟩
    · exact (candidate _ (by simp [Proposition.sides])).of_simplify left
    · exact (candidate _ (by simp [Proposition.sides])).of_simplify right
  constructor
  · rw [KnowledgeBase.facts_of_addFact? added, List.forall_mem_append, List.forall_mem_singleton]
    exact ⟨within.facts, fact⟩
  · intro t mem
    rcases KnowledgeBase.mem_terms_of_addFact? added mem with mem | ⟨mem, -⟩
    · exact within.terms t mem
    · exact fact t mem

theorem KnowledgeBase.IsOver.reflTransGen (within : k.IsOver names)
    (schematic : calculus.IsSchematic) (run : ReflTransGen (DeducesBy calculus) k k') :
    k'.IsOver names := by
  induction run with
  | refl => exact within
  | tail _ step ih => exact ih.deducesBy schematic step

end Steps

/-! ### The beginning of a proof -/

section Start

variable {goal : Proposition} {assumptions : List Proposition} {p : Problem}

theorem Proposition.isOver_sides {q : Proposition} {names : List String}
    (ground : ¬ q.hasPlaceholder) (defined : q.isDefined)
    (known : ∀ name ∈ q.varNames, name ∈ names) : ∀ side ∈ q.sides, side.IsOver names := by
  rw [hasPlaceholder, Bool.or_eq_true, not_or] at ground
  rw [isDefined, Bool.and_eq_true] at defined
  simp only [varNames, Text.mem_ascending, List.forall_mem_append] at known
  refine List.forall_mem_cons.2 ⟨?_, List.forall_mem_singleton.2 ?_⟩
  · exact ⟨by simpa [isGround] using ground.1, defined.1, any_isForeign_eq_false_iff.2 known.1⟩
  · exact ⟨by simpa [isGround] using ground.2, defined.2, any_isForeign_eq_false_iff.2 known.2⟩

theorem Proposition.not_hasPlaceholder_of_isOver {q : Proposition} {names : List String}
    (within : ∀ side ∈ q.sides, side.IsOver names) : ¬ q.hasPlaceholder := by
  have left := (within q.lhs (by simp [sides])).ground
  have right := (within q.rhs (by simp [sides])).ground
  simp_all [hasPlaceholder, isGround]

theorem Proposition.not_hasPlaceholder_of_checkGoal (checked : goal.checkGoal = .ok ()) :
    ¬ goal.hasPlaceholder := by
  rw [checkGoal] at checked
  split at checked
  · cases checked
  split at checked
  · cases checked
  · next ground => exact ground

theorem Proposition.of_checkAssumption {q : Proposition} {names : List String}
    (checked : q.checkAssumption names = .ok ()) :
    ¬ q.hasPlaceholder ∧ ∀ name ∈ q.varNames, name ∈ names := by
  rw [checkAssumption] at checked
  split at checked
  · cases checked
  · next ground =>
    split at checked
    · cases checked
    split at checked
    · cases checked
    · next none =>
      rw [List.find?_eq_none] at none
      exact ⟨ground, fun name mem => by simpa using none name mem⟩

/-- The sides of an accepted problem have no placeholders and no variables but those of the goal. -/
theorem Problem.isOver_of_ofPropositions (accepted : ofPropositions goal assumptions = .ok p)
    (defined : ∀ q ∈ goal :: assumptions, q.isDefined) :
    ∀ q ∈ p.goal :: p.assumptions, ∀ side ∈ q.sides, side.IsOver p.varNames := by
  obtain ⟨goalChecked, -, checked, rfl⟩ := parts_of_ofPropositions accepted
  rw [List.forall_mem_cons] at defined ⊢
  constructor
  · exact Proposition.isOver_sides (Proposition.not_hasPlaceholder_of_checkGoal goalChecked)
      defined.1 fun _ mem => mem
  · intro q mem
    obtain ⟨ground, known⟩ := Proposition.of_checkAssumption (checked q mem)
    exact Proposition.isOver_sides ground (defined.2 q mem) known

theorem Attempt.isOver_start
    (within : ∀ q ∈ p.goal :: p.assumptions, ∀ side ∈ q.sides, side.IsOver p.varNames) :
    (start p).knowledge.IsOver p.varNames where
  facts fact mem := within fact (List.mem_cons_of_mem _ (mem_facts_start mem))
  terms t mem := by
    rcases mem_terms_start mem with
      ⟨name, memNames, rfl⟩ | ⟨⟨q, memProblem, side, memSides, part⟩, -⟩
    · exact ⟨rfl, rfl, by simpa [any, subterms, isForeign] using memNames⟩
    · exact (within q memProblem side memSides).of_mem_subterms part

end Start

/-! ### Sequences of proofs -/

/-- What `Attempt.prove` is called with. -/
structure ProofCall where
  calculus : Calculus
  budget : Budget
  clock : Nat → Float

/-- The attempt after one proof after the other, however each of them ends. -/
def Attempt.proveAll (a : Attempt) (calls : List ProofCall) : Attempt :=
  calls.foldl (fun a call => (a.prove call.calculus call.budget call.clock).2) a

theorem Attempt.isOver_proveAll {names : List String} {a : Attempt} {calls : List ProofCall}
    (within : a.knowledge.IsOver names) (schematic : ∀ call ∈ calls, call.calculus.IsSchematic) :
    (a.proveAll calls).knowledge.IsOver names := by
  induction calls generalizing a with
  | nil => exact within
  | cons call calls ih =>
    rw [List.forall_mem_cons] at schematic
    refine ih ?_ schematic.2
    exact within.reflTransGen schematic.1 (deducesBy_of_deduceWithin call.calculus _ 0 a.knowledge)

/-- Proofs stay with the variables of their problem. By the standard reduction rules and inference
rules that speak of no variable, in whatever number of proofs one after the other, and in every
state on the way of a further one, no fact and no term under consideration has a placeholder or a
variable that is not one of the problem's. So no candidate for a fact has a placeholder either, also
where no assumption binds one of those in the conclusion of its rule. -/
theorem Attempt.stays_within_problem {goal : Proposition} {assumptions : List Proposition}
    {p : Problem} (accepted : Problem.ofPropositions goal assumptions = .ok p)
    (defined : ∀ q ∈ goal :: assumptions, q.isDefined) (calls : List ProofCall)
    (schematic : ∀ call ∈ calls, call.calculus.IsSchematic) (calculus : Calculus)
    (further : calculus.IsSchematic) (k : KnowledgeBase)
    (reached : ReflTransGen (KnowledgeBase.DeducesBy calculus)
      ((start p).proveAll calls).knowledge k) :
    (∀ fact ∈ k.facts, ∀ side ∈ fact.sides,
      side.isGround ∧ ∀ name ∈ side.varNames, name ∈ p.varNames) ∧
    (∀ t ∈ k.terms, t.isGround ∧ ∀ name ∈ t.varNames, name ∈ p.varNames) ∧
    ∀ rule ∈ calculus.inference, ∀ b ∈ assumptionBindings k.facts rule.assumptions,
      ∀ c ∈ termBindings k.terms (rule.conclusion.substitute b),
        ¬ ((rule.conclusion.substitute b).substitute c).hasPlaceholder := by
  have start := Attempt.isOver_start (Problem.isOver_of_ofPropositions accepted defined)
  have within := (Attempt.isOver_proveAll start schematic).reflTransGen further reached
  have known : ∀ t : Term, t.IsOver p.varNames →
      t.isGround ∧ ∀ name ∈ t.varNames, name ∈ p.varNames := fun t within =>
    ⟨within.ground, any_isForeign_eq_false_iff.1 within.known⟩
  refine ⟨fun fact mem side memSides => known side (within.facts fact mem side memSides),
    fun t mem => known t (within.terms t mem), fun rule mem b hb c hc => ?_⟩
  exact Proposition.not_hasPlaceholder_of_isOver
    (isOver_candidate within (further.schematic rule mem) (further.defined rule mem) hb hc)

section Subtraction

open Standard

theorem matchPattern?_var_binary (name : String) (o : Binary) (l r : Term) (b : Bindings) :
    (var name).matchPattern? (binary o l r) b = none := by
  rw [Option.eq_none_iff_forall_not_mem]
  intro c found
  obtain ⟨_, _, _, other, -⟩ := matchPattern?_binary_eq_some.1 found
  cases other

/-- Variables match no difference, so they add nothing to the bindings for what is left. -/
theorem termBindings_subtraction_of_vars :
    termBindings [var "x", var "y", var "z", difference (var "x") (var "z"),
        difference (var "y") (var "z")]
      (.atMost (difference (var "x") (anyTerm "Z")) (difference (var "y") (anyTerm "Z"))) =
        [Bindings.empty.insert "Z" (var "z")] := by
  rw [← termBindings_subtraction]
  simp only [termBindings, Proposition.sides, Proposition.atMost, List.foldl_cons, List.foldl_nil,
    List.filterMap_cons, matchPattern?_var_binary]

/-- A single assumption is the only fact at the beginning. -/
theorem Attempt.facts_start_singleton {goal assumption : Proposition} {names : List String}
    (var : assumption.hasVariable) :
    (start ⟨goal, [assumption], names⟩).knowledge.facts = [assumption] := by
  simp only [start, KnowledgeBase.facts_addHistory, List.foldl_cons, List.foldl_nil]
  rw [KnowledgeBase.assume_eq, KnowledgeBase.addFact?_eq_ite, if_neg]
  · simp [KnowledgeBase.facts_addSubterms, KnowledgeBase.empty]
  · simp [KnowledgeBase.containsFact, KnowledgeBase.facts_addSubterms, KnowledgeBase.empty, var]

theorem Attempt.terms_start_subtraction :
    (start ⟨.atMost (difference (var "x") (var "z")) (difference (var "y") (var "z")),
      [.atMost (var "x") (var "y")], ["x", "y", "z"]⟩).knowledge.terms =
        [var "x", var "y", var "z", difference (var "x") (var "z"),
          difference (var "y") (var "z")] := by
  rfl

/-- To subtract a term from both sides of an inequality needs a third placeholder. No assumption
binds it, so it is left in the conclusion, but not in a candidate, neither at the beginning nor
after a first proof. -/
theorem Attempt.stays_within_problem_subtraction :
    let known : Proposition := .atMost (var "x") (var "y")
    let goal : Proposition :=
      .atMost (difference (var "x") (var "z")) (difference (var "y") (var "z"))
    let p : Problem := ⟨goal, [known], ["x", "y", "z"]⟩
    let calculus : Calculus := ⟨.standard, [subtraction]⟩
    let b := (Bindings.empty.insert "X" (var "x")).insert "Y" (var "y")
    let c := Bindings.empty.insert "Z" (var "z")
    let k := (start p).knowledge
    let last := ((start p).proveAll [⟨calculus, ⟨some 2, none⟩, stillClock⟩]).knowledge
    Problem.ofPropositions goal [known] = .ok p ∧ calculus.IsSchematic ∧
      b ∈ assumptionBindings k.facts subtraction.assumptions ∧
      (subtraction.conclusion.substitute b).hasPlaceholder ∧
      c ∈ termBindings k.terms (subtraction.conclusion.substitute b) ∧
      ¬ ((subtraction.conclusion.substitute b).substitute c).hasPlaceholder ∧
      ∀ t ∈ last.terms, t.isGround ∧ ∀ name ∈ t.varNames, name ∈ ["x", "y", "z"] := by
  intro known goal p calculus b c k last
  have accepted : Problem.ofPropositions goal [known] = .ok p := rfl
  have defined : ∀ q ∈ [goal, known], q.isDefined := by decide
  have schematic : calculus.IsSchematic := ⟨rfl, by decide, by decide⟩
  have memAssumptions : b ∈ assumptionBindings k.facts subtraction.assumptions := by
    have facts : k.facts = [known] := facts_start_singleton rfl
    rw [facts, assumptionBindings_subtraction]
    exact List.mem_singleton_self b
  have memTerms : c ∈ termBindings k.terms (subtraction.conclusion.substitute b) := by
    have terms : k.terms = _ := terms_start_subtraction
    have left : subtraction.conclusion.substitute b =
      .atMost (difference (var "x") (anyTerm "Z")) (difference (var "y") (anyTerm "Z")) := rfl
    rw [terms, left, termBindings_subtraction_of_vars]
    exact List.mem_singleton_self c
  obtain ⟨-, -, candidates⟩ := stays_within_problem accepted defined [] (by simp) calculus schematic
    k .refl
  obtain ⟨-, terms, -⟩ := stays_within_problem accepted defined
    [⟨calculus, ⟨some 2, none⟩, stillClock⟩] (List.forall_mem_singleton.2 schematic) calculus
    schematic last .refl
  exact ⟨accepted, schematic, memAssumptions, rfl, memTerms,
    candidates subtraction (List.mem_singleton_self _) b memAssumptions c memTerms, terms⟩

end Subtraction

end InequalityChaining

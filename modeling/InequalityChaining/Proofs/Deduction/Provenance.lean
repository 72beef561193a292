import InequalityChaining.Proofs.Deduction.Step
import InequalityChaining.Proofs.Matching.Soundness

/-!
# Where facts come from

Every fact that a step admits is the simplified conclusion of a rule, and one set of bindings
accounts for it: under these bindings the assumptions of the rule are facts known before, and the
conclusion is what has been simplified. The bindings are found in two stages. Those of the
assumptions are passed on from one assumption to the next and only ever extended, so that what has
matched stays matched; those for what is left of the conclusion are taken from the terms under
consideration, and the two put together leave the assumptions as they are. Nothing is removed in a
run, so all facts that are found in it come from facts before them.

## Main definitions

* `IsKnownIn` — up to associativity, a proposition is a fact in one of its directions
* `Derives` — a fact is the simplified conclusion of a rule whose assumptions are known
* `KnowledgeBase.IsClosed` — nothing known has placeholders or undefined constants
* `Accounts` — bindings under which assumptions are known

## Main results

* `accounts_of_mem_assumptionBindings` — the assumptions are known under all bindings found
* `derives_of_deduce?` — a step derives the fact that it admits
* `KnowledgeBase.derives_of_reflTransGen` — so does every step of a run
* `deduction_provenance` — where facts come from, and what else changes
-/

open Relation (ReflTransGen)

namespace InequalityChaining

/-- The sides have neither placeholders nor undefined constants. -/
def Proposition.IsClosed (p : Proposition) : Prop := ∀ t ∈ p.sides, t.isGround ∧ t.isDefined

instance (p : Proposition) : Decidable p.IsClosed :=
  inferInstanceAs (Decidable (∀ t ∈ p.sides, t.isGround ∧ t.isDefined))

/-- Up to associativity the proposition is one of the facts, in one of its directions. -/
def IsKnownIn (facts : List Proposition) (p : Proposition) : Prop :=
  ∃ fact ∈ facts, ∃ q ∈ fact.directions, p.relation = q.relation ∧
    p.lhs.flattened == q.lhs.flattened ∧ p.rhs.flattened == q.rhs.flattened

/-- The fact is what a rule of the given name concludes, simplified, under bindings of terms without
placeholders under which all assumptions of the rule are known. -/
def Derives (calculus : Calculus) (known : List Proposition) (name : String)
    (fact : Proposition) : Prop :=
  ∃ rule ∈ calculus.inference, rule.name = name ∧ ∃ b : Bindings, b.Closed ∧
    (∀ assumption ∈ rule.assumptions, IsKnownIn known (assumption.substitute b)) ∧
    (rule.conclusion.substitute b).mapSides calculus.reduction.simplify = .ok fact

/-- Nothing that is known has placeholders or undefined constants. -/
structure KnowledgeBase.IsClosed (k : KnowledgeBase) : Prop where
  facts : ∀ fact ∈ k.facts, fact.IsClosed
  terms : ∀ t ∈ k.terms, t.isGround ∧ t.isDefined

/-! ### Matching a fact -/

section Matching

variable {p q : Proposition} {b c : Bindings}

/-- The names of the placeholders on both sides. -/
def Proposition.placeholderNames (p : Proposition) : List String :=
  p.lhs.placeholderNames ++ p.rhs.placeholderNames

theorem Proposition.IsClosed.directions (closed : p.IsClosed) (mem : q ∈ p.directions) :
    q.IsClosed := by
  rcases List.mem_cons.1 mem with rfl | reversed
  · exact closed
  · rw [Option.mem_toList, reversed?] at reversed
    split at reversed
    · obtain rfl := Option.some.inj reversed
      simpa [IsClosed, sides, equals, and_comm] using closed
    · cases reversed

theorem Proposition.substitute_substitute (closed : b.Closed) :
    (p.substitute b).substitute c = p.substitute (b.orElse c) := by
  have ground : ∀ n u, b.find? n = some u → u.isGround := fun n u found => (closed n u found).1
  simp only [substitute, Term.substitute_substitute ground]

/-- Bindings that agree on the placeholders do the same to a proposition. -/
theorem Proposition.substitute_congr (h : ∀ n ∈ p.placeholderNames, b.find? n = c.find? n) :
    p.substitute b = p.substitute c := by
  rw [placeholderNames, List.forall_mem_append] at h
  rw [substitute, substitute, Term.substitute_congr h.1, Term.substitute_congr h.2]

/-- A match of both sides extends the bindings, and makes the pattern the proposition. -/
theorem Proposition.instantiates_of_matchPattern? (closed : q.IsClosed) (closedSeed : b.Closed)
    (h : q.matchPattern? p b = some c) :
    b.ExtendedBy c p.placeholderNames ∧ (p.substitute c).relation = q.relation ∧
      (p.substitute c).lhs.flattened == q.lhs.flattened ∧
      (p.substitute c).rhs.flattened == q.rhs.flattened := by
  rw [matchPattern?] at h
  split at h
  · next relation =>
    obtain ⟨d, foundLeft, foundRight⟩ := Option.bind_eq_some_iff.1 h
    obtain ⟨groundLeft, definedLeft⟩ := closed q.lhs (by simp [sides])
    obtain ⟨groundRight, definedRight⟩ := closed q.rhs (by simp [sides])
    have matchLeft := matches_of_matchPattern? foundLeft
    have matchRight := matches_of_matchPattern? foundRight
    have left := matchLeft.instantiates groundLeft definedLeft (matchLeft.isDefined definedLeft)
      closedSeed
    -- the right side is matched under what the left side has bound, which it only extends
    have right := matchRight.instantiates groundRight definedRight
      (matchRight.isDefined definedRight) left.extended.closed
    refine ⟨left.extended.trans right.extended fun name => List.mem_append, relation.symm, ?_,
      right.equal⟩
    have same := left.equal
    rwa [← left.substitute_eq right] at same
  · simp at h

end Matching

/-! ### The two stages -/

section Stages

variable {facts : List Proposition} {b c : Bindings}

/-- All assumptions are known under the bindings, and all their placeholders are bound. -/
structure Accounts (facts assumptions : List Proposition) (b : Bindings) : Prop where
  closed : b.Closed
  bound : ∀ p ∈ assumptions, ∀ n ∈ p.placeholderNames, (b.find? n).isSome
  known : ∀ p ∈ assumptions, IsKnownIn facts (p.substitute b)

/-- Bindings that keep what is bound account for the same assumptions. -/
theorem Accounts.mono {assumptions : List Proposition} (h : Accounts facts assumptions b)
    (closed : c.Closed) (keeps : ∀ n t, b.find? n = some t → c.find? n = some t) :
    Accounts facts assumptions c := by
  have found : ∀ p ∈ assumptions, ∀ n ∈ p.placeholderNames, b.find? n = c.find? n := by
    intro p mem n placeholder
    obtain ⟨t, bound⟩ := Option.isSome_iff_exists.1 (h.bound p mem n placeholder)
    rw [bound, keeps n t bound]
  refine ⟨closed, fun p mem n placeholder => ?_, fun p mem => ?_⟩
  · rw [← found p mem n placeholder]
    exact h.bound p mem n placeholder
  · rw [← Proposition.substitute_congr (found p mem)]
    exact h.known p mem

/-- Under all bindings found for them, the assumptions are known. -/
theorem accounts_of_mem_assumptionBindings {assumptions : List Proposition}
    (closed : ∀ fact ∈ facts, fact.IsClosed) (h : b ∈ assumptionBindings facts assumptions) :
    Accounts facts assumptions b := by
  induction assumptions using List.reverseRecOn generalizing b with
  | nil =>
    obtain rfl := List.mem_singleton.1 h
    exact ⟨Bindings.closed_empty, by simp, by simp⟩
  | append_singleton earlier assumption ih =>
    rw [assumptionBindings, List.foldl_concat] at h
    obtain ⟨seed, memSeed, h⟩ := List.mem_flatMap.1 h
    obtain ⟨fact, memFact, h⟩ := List.mem_flatMap.1 h
    obtain ⟨q, direction, found⟩ := List.mem_filterMap.1 h
    have before := ih memSeed
    obtain ⟨extended, relation, left, right⟩ := Proposition.instantiates_of_matchPattern?
      ((closed fact memFact).directions direction) before.closed found
    -- the assumptions before this one stay known, because their placeholders stay bound
    have kept := before.mono extended.closed extended.keeps
    refine ⟨extended.closed, ?_, ?_⟩
    · rw [List.forall_mem_append, List.forall_mem_singleton]
      exact ⟨kept.bound, fun n placeholder => (extended.bound n).2 (.inr placeholder)⟩
    · rw [List.forall_mem_append, List.forall_mem_singleton]
      exact ⟨kept.known, fact, memFact, q, direction, relation, left, right⟩

/-- What is left of a conclusion is bound to parts of terms under consideration. -/
theorem closed_of_mem_termBindings {terms : List Term} {statement : Proposition}
    (closed : ∀ t ∈ terms, t.isGround ∧ t.isDefined) (h : c ∈ termBindings terms statement) :
    c.Closed := by
  refine forall_mem_termBindings Bindings.closed_empty ?_ c h
  intro t mem side b c closedSeed found
  have derivation := matches_of_matchPattern? found
  obtain ⟨ground, defined⟩ := closed t mem
  exact (derivation.instantiates ground defined (derivation.isDefined defined)
    closedSeed).extended.closed

theorem Bindings.Closed.orElse (hb : b.Closed) (hc : c.Closed) : (b.orElse c).Closed := by
  intro n t found
  rw [find?_orElse, Option.or_eq_some_iff] at found
  rcases found with found | ⟨-, found⟩
  · exact hb n t found
  · exact hc n t found

end Stages

/-! ### Steps -/

section Steps

variable {calculus : Calculus} {k k' : KnowledgeBase} {d : Deduced}

/-- A step derives the fact that it admits from those known before. -/
theorem derives_of_deduce? (closed : k.IsClosed) (h : k.deduce? calculus = some d) :
    Derives calculus k.facts d.rule d.fact := by
  obtain ⟨rule, mem, name, b, memBindings, c, memRest, simplified, -⟩ := exists_of_deduce? h
  have accounts := accounts_of_mem_assumptionBindings closed.facts memBindings
  have closedRest := closed_of_mem_termBindings closed.terms memRest
  -- both stages together bind no placeholder of an assumption anew
  have together := accounts.mono (accounts.closed.orElse closedRest) fun n t found => by
    rw [Bindings.find?_orElse, found, Option.some_or]
  rw [Proposition.substitute_substitute accounts.closed] at simplified
  exact ⟨rule, mem, name, b.orElse c, together.closed, together.known, simplified⟩

theorem isEmpty_line (name text : String) :
    ("deduced by " ++ name ++ ": " ++ text).isEmpty = false := by
  simp [String.isEmpty_eq_false_iff]

/-- The fact that a step admits is new, and all that the step changes is to add it, with its
unknown sides and a line for the transcript. -/
theorem frame_of_deduce? (h : k.deduce? calculus = some d) :
    d.fact.hasVariable ∧ (∀ fact ∈ k.facts, ¬ fact == d.fact) ∧
      (∀ side ∈ d.fact.sides, reducePass calculus.reduction.rules side = .ok none) ∧
      d.knowledge = ⟨k.facts ++ [d.fact], k.terms ++ Term.unknown k.terms d.fact.sides,
        k.history ++ ["deduced by " ++ d.rule ++ ": " ++ d.fact.text]⟩ := by
  obtain ⟨rule, -, -, b, -, c, -, simplified, added⟩ := exists_of_deduce? h
  obtain ⟨left, right, -⟩ := mapSides_eq_ok simplified
  obtain ⟨hasVariable, new⟩ := KnowledgeBase.isNew_of_addFact? added
  refine ⟨hasVariable, fun fact mem same => new ?_, ?_,
    KnowledgeBase.eq_mk_of_addFact? added (isEmpty_line _ _)⟩
  · exact List.any_eq_true.2 ⟨fact, mem, same⟩
  · refine List.forall_mem_cons.2 ⟨reducePass_of_reduceWithin left, ?_⟩
    exact List.forall_mem_singleton.2 (reducePass_of_reduceWithin right)

end Steps

/-! ### Runs -/

section Runs

namespace KnowledgeBase

variable {calculus : Calculus} {k k' : KnowledgeBase}

/-- What is closed after a step was closed before, because nothing is removed. -/
theorem IsClosed.before (closed : k'.IsClosed) (step : k.DeducesBy calculus k') : k.IsClosed := by
  obtain ⟨d, deduced, rfl⟩ := step
  obtain ⟨-, -, -, frame⟩ := frame_of_deduce? deduced
  rw [frame] at closed
  constructor
  · exact fun fact mem => closed.facts fact (List.mem_append_left _ mem)
  · exact fun t mem => closed.terms t (List.mem_append_left _ mem)

/-- In a run the facts at the beginning stay, and every other one is derived from those before it.
-/
theorem derives_of_reflTransGen (run : ReflTransGen (DeducesBy calculus) k k')
    (closed : k'.IsClosed) :
    k.facts <+: k'.facts ∧ ∀ i fact, k.facts.length ≤ i → k'.facts[i]? = some fact →
      ∃ name, Derives calculus (k'.facts.take i) name fact ∧
        "deduced by " ++ name ++ ": " ++ fact.text ∈ k'.history := by
  induction run with
  | refl =>
    refine ⟨List.prefix_rfl, fun i fact later found => ?_⟩
    rw [List.getElem?_eq_none later] at found
    cases found
  | @tail between after _ step ih =>
    have closedBefore := closed.before step
    obtain ⟨stays, derived⟩ := ih closedBefore
    obtain ⟨d, deduced, rfl⟩ := step
    obtain ⟨-, -, -, frame⟩ := frame_of_deduce? deduced
    rw [frame]
    refine ⟨stays.trans (List.prefix_append _ _), fun i fact later found => ?_⟩
    -- the fact is one of those before the step, or the one that the step admits
    rcases Nat.lt_or_ge i between.facts.length with earlier | last
    · rw [List.getElem?_append_left earlier] at found
      obtain ⟨name, derives, line⟩ := derived i fact later found
      rw [List.take_append_of_le_length earlier.le]
      exact ⟨name, derives, List.mem_append_left _ line⟩
    · rw [List.getElem?_append_right last, List.getElem?_singleton] at found
      split at found
      · next here =>
        obtain rfl := Option.some.inj found
        have front : (between.facts ++ [d.fact]).take i = between.facts :=
          List.take_left' (by omega)
        rw [front]
        exact ⟨d.rule, derives_of_deduce? closedBefore deduced, by simp⟩
      · cases found

end KnowledgeBase

end Runs

/-- Where facts come from. A step from what is known without placeholders admits the simplified
conclusion of a rule whose assumptions are known under the same bindings; it is a new fact with
normal forms as its sides, and nothing but this fact, its unknown sides and one line is added. So
in a run that stays without placeholders every fact that was not there at the beginning is derived
from facts before it. -/
theorem deduction_provenance (calculus : Calculus) :
    (∀ (k : KnowledgeBase) (d : Deduced), k.IsClosed → k.deduce? calculus = some d →
      Derives calculus k.facts d.rule d.fact ∧ d.fact.hasVariable ∧
      (∀ fact ∈ k.facts, ¬ fact == d.fact) ∧
      (∀ side ∈ d.fact.sides, reducePass calculus.reduction.rules side = .ok none) ∧
      d.knowledge = ⟨k.facts ++ [d.fact], k.terms ++ Term.unknown k.terms d.fact.sides,
        k.history ++ ["deduced by " ++ d.rule ++ ": " ++ d.fact.text]⟩) ∧
    (∀ (k k' : KnowledgeBase) (budget : Budget) (stop : KnowledgeBase → Bool)
      (clock : Nat → Float), k' = (k.deduceUntil calculus budget stop clock).knowledge →
      k'.IsClosed → k.facts <+: k'.facts ∧
        ∀ i fact, k.facts.length ≤ i → k'.facts[i]? = some fact →
          ∃ name, Derives calculus (k'.facts.take i) name fact ∧
            "deduced by " ++ name ++ ": " ++ fact.text ∈ k'.history) := by
  constructor
  · intro k d closed deduced
    exact ⟨derives_of_deduce? closed deduced, frame_of_deduce? deduced⟩
  · rintro k _ budget stop clock rfl closed
    exact KnowledgeBase.derives_of_reflTransGen
      (deducesBy_of_deduceWithin calculus budget.rounds 0 k) closed

/-! ### Subtracting on both sides -/

section Subtraction

open Term Standard

theorem simplify_ofRules_nil (t : Term) : (ReductionTable.ofRules []).simplify t = .ok t :=
  reduceWithin_of_none (reducePass_eq_none_iff.2 fun _ _ => rfl) _

/-- From an inequality follows the one between the differences from the same term. -/
def subtraction : InferenceRule :=
  ⟨"subtract",
    .atMost (difference (anyTerm "X") (anyTerm "Z")) (difference (anyTerm "Y") (anyTerm "Z")),
    [.atMost (anyTerm "X") (anyTerm "Y")]⟩

/-- Of the two differences each is matched by one side, with the same term taken away. -/
theorem termBindings_subtraction :
    termBindings [difference (var "x") (var "z"), difference (var "y") (var "z")]
      (.atMost (difference (var "x") (anyTerm "Z")) (difference (var "y") (anyTerm "Z"))) =
        [Bindings.empty.insert "Z" (var "z")] := by
  have left : (difference (var "x") (anyTerm "Z")).hasPlaceholder := rfl
  have right : (difference (var "y") (anyTerm "Z")).hasPlaceholder := rfl
  have unlike : ("x" == "y") = false ∧ ("y" == "x") = false := by decide
  have free : (var "z").matchPattern? (anyTerm "Z") .empty =
      some (Bindings.empty.insert "Z" (var "z")) := match_anyTerm rfl rfl
  have bound : (var "z").matchPattern? (anyTerm "Z") (Bindings.empty.insert "Z" (var "z")) =
      some (Bindings.empty.insert "Z" (var "z")) :=
    (matchPattern?_of_bound rfl rfl rfl).trans (matchPattern?_of_beq rfl)
  simp [termBindings, Proposition.sides, Proposition.atMost, left, right, matchPattern?_binary,
    matchPattern?_var, beq_eq_equal, equal, unlike, free, bound, distinctBindings]

/-- The bindings of the assumption leave the third placeholder to the terms. -/
theorem assumptionBindings_subtraction :
    assumptionBindings [.atMost (var "x") (var "y")] subtraction.assumptions =
      [(Bindings.empty.insert "X" (var "x")).insert "Y" (var "y")] := by
  have left : (var "x").matchPattern? (anyTerm "X") .empty =
      some (Bindings.empty.insert "X" (var "x")) := match_anyTerm rfl rfl
  have right : (var "y").matchPattern? (anyTerm "Y") (Bindings.empty.insert "X" (var "x")) =
      some ((Bindings.empty.insert "X" (var "x")).insert "Y" (var "y")) :=
    match_anyTerm rfl (by simp [Bindings.find?_insert])
  simp [assumptionBindings, subtraction, Proposition.directions, Proposition.reversed?,
    Proposition.matchPattern?, Proposition.atMost, left, right]

/-- A term is subtracted from both sides of a known inequality. -/
theorem deduce?_subtraction :
    let known : Proposition := .atMost (var "x") (var "y")
    let terms := [difference (var "x") (var "z"), difference (var "y") (var "z")]
    let new : Proposition :=
      .atMost (difference (var "x") (var "z")) (difference (var "y") (var "z"))
    KnowledgeBase.deduce? ⟨[known], terms, []⟩ ⟨.ofRules [], [subtraction]⟩ =
      some ⟨"subtract", new,
        ⟨[known, new], terms, ["deduced by " ++ "subtract" ++ ": " ++ new.text]⟩⟩ := by
  intro known terms new
  let k : KnowledgeBase := ⟨[known], terms, []⟩
  have admitted : subtraction.admit? (.ofRules []) k new = some ⟨"subtract", new,
      ⟨[known, new], terms, ["deduced by " ++ "subtract" ++ ": " ++ new.text]⟩⟩ := by
    have ground : new.hasPlaceholder = false := rfl
    have normal : new.mapSides (ReductionTable.ofRules []).simplify = .ok new := by
      rw [Proposition.mapSides, simplify_ofRules_nil, simplify_ofRules_nil]
      rfl
    have unknown : (!new.hasVariable || k.containsFact new) = false := rfl
    obtain ⟨k', added⟩ : ∃ k', k.addFact? new
        ("deduced by " ++ subtraction.name ++ ": " ++ new.text) = some k' := by
      rw [KnowledgeBase.addFact?_eq_ite, unknown]
      exact ⟨_, rfl⟩
    rw [InferenceRule.admit?, if_neg (Bool.eq_false_iff.1 ground), normal]
    dsimp only
    rw [added, KnowledgeBase.eq_mk_of_addFact? added (isEmpty_line _ _)]
    rfl
  have conclusion : subtraction.conclusion.substitute
      ((Bindings.empty.insert "X" (var "x")).insert "Y" (var "y")) =
        .atMost (difference (var "x") (anyTerm "Z")) (difference (var "y") (anyTerm "Z")) := rfl
  rw [KnowledgeBase.deduce?, List.findSome?_singleton, InferenceRule.fire?,
    assumptionBindings_subtraction, List.findSome?_singleton]
  dsimp only
  rw [conclusion, termBindings_subtraction, List.findSome?_singleton]
  exact admitted

/-- The difference is derived from the inequality, in a step and in a run. -/
theorem deduction_provenance_subtraction :
    let known : Proposition := .atMost (var "x") (var "y")
    let new : Proposition :=
      .atMost (difference (var "x") (var "z")) (difference (var "y") (var "z"))
    let calculus : Calculus := ⟨.ofRules [], [subtraction]⟩
    let k : KnowledgeBase := ⟨[known], new.sides, []⟩
    let k' := (k.deduceUntil calculus ⟨some 1, none⟩ (fun _ => false) stillClock).knowledge
    k.IsClosed ∧ (∃ d, k.deduce? calculus = some d ∧ Derives calculus k.facts d.rule d.fact) ∧
      k'.IsClosed ∧ k'.facts = [known, new] ∧ ∃ name, Derives calculus [known] name new := by
  intro known new calculus k k'
  have deduced := deduce?_subtraction
  have closed : k.IsClosed := by
    constructor <;> decide
  have last : k' = ⟨[known, new], new.sides,
      ["deduced by " ++ "subtract" ++ ": " ++ new.text]⟩ := by
    have before : k.deduce? calculus = some _ := deduced
    simp [k', KnowledgeBase.deduceUntil, KnowledgeBase.deduceWithin, Budget.rounds,
      Budget.isExhausted, before, new, known, Proposition.sides, Proposition.atMost]
  have closedLast : k'.IsClosed := by
    rw [last]
    constructor <;> decide
  obtain ⟨step, run⟩ := deduction_provenance calculus
  obtain ⟨derives, -⟩ := step k _ closed deduced
  obtain ⟨-, derived⟩ := run k k' ⟨some 1, none⟩ (fun _ => false) stillClock rfl closedLast
  obtain ⟨name, derivesLast, -⟩ := derived 1 new (by decide) (by rw [last]; rfl)
  refine ⟨closed, ⟨_, deduced, derives⟩, closedLast, last ▸ rfl, name, ?_⟩
  rwa [last] at derivesLast

end Subtraction

end InequalityChaining

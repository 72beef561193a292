import InequalityChaining.Proofs.Deduction.Groundness
import InequalityChaining.Proofs.Deduction.Invariant

/-!
# Goals of an attempt

An attempt has goals, and knowledge that both the goals and the deductions add to. Nothing ever
leaves the knowledge, so what has been put there stays: the assumptions of the problem, which are
facts from the beginning, and the parts of each goal, which are put under consideration when the
goal is accepted. A goal is accepted if it is an inequality without placeholders that equals no goal
already there; otherwise the attempt stays as it is. Hence goals and knowledge fit together after
any sequence of operations, and what is proved stays proved.

## Main definitions

* `Attempt.Operation`, `Operation.perform`, `Operation.performAll` — what can be done to an attempt
* `Proposition.IsGoal` — what is accepted as a goal
* `Attempt.Pursues` — goals and knowledge fit together and belong to a problem

## Main results

* `Attempt.offerGoal_cases` — what becomes of a further goal
* `Attempt.pursues_start`, `Attempt.Pursues.perform` — the beginning and one operation
* `Attempt.isProved_perform` — no operation makes a goal unproved
* `Attempt.operations_pursue_goals` — what holds in every state and of every operation
-/

namespace InequalityChaining

section Fold

variable {α β : Type*} {P : β → Prop} {f : β → α → β} {as : List α} {a : α} {b : β}

theorem foldl_keeps (h : P b) (keeps : ∀ b a, P b → P (f b a)) : P (as.foldl f b) := by
  induction as generalizing b with
  | nil => exact h
  | cons a as ih => exact ih (keeps b a h)

/-- What one item of a list brings about and all of them keep holds after the whole list. -/
theorem foldl_attains (mem : a ∈ as) (attains : ∀ b, P (f b a)) (keeps : ∀ b a, P b → P (f b a)) :
    P (as.foldl f b) := by
  induction as generalizing b with
  | nil => cases mem
  | cons a' as ih =>
    rw [List.foldl_cons]
    rcases List.mem_cons.1 mem with rfl | mem
    · exact foldl_keeps (attains b) keeps
    · exact ih mem

end Fold

/-! ### Growing knowledge -/

namespace KnowledgeBase

/-- The second knowledge has what the first has, and what is new comes later. -/
structure GrowsTo (k k' : KnowledgeBase) : Prop where
  facts : k.facts <+: k'.facts
  terms : k.terms <+: k'.terms
  history : k.history <+: k'.history

/-- A term under consideration equals this one. -/
def Considers (k : KnowledgeBase) (t : Term) : Prop := ∃ u ∈ k.terms, t == u

/-- A fact equals this one. -/
def Knows (k : KnowledgeBase) (p : Proposition) : Prop := ∃ fact ∈ k.facts, p == fact

section Growth

variable {k k' k'' : KnowledgeBase} {t : Term} {p : Proposition}

theorem GrowsTo.refl (k : KnowledgeBase) : k.GrowsTo k :=
  ⟨List.prefix_rfl, List.prefix_rfl, List.prefix_rfl⟩

theorem GrowsTo.trans (first : k.GrowsTo k') (second : k'.GrowsTo k'') : k.GrowsTo k'' :=
  ⟨first.facts.trans second.facts, first.terms.trans second.terms,
    first.history.trans second.history⟩

theorem Considers.mono (h : k.Considers t) (growth : k.GrowsTo k') : k'.Considers t := by
  obtain ⟨u, mem, same⟩ := h
  exact ⟨u, growth.terms.subset mem, same⟩

theorem Knows.mono (h : k.Knows p) (growth : k.GrowsTo k') : k'.Knows p := by
  obtain ⟨fact, mem, same⟩ := h
  exact ⟨fact, growth.facts.subset mem, same⟩

theorem containsFact_mono (growth : k.GrowsTo k') (h : k.containsFact p) : k'.containsFact p := by
  obtain ⟨fact, mem, same⟩ := List.any_eq_true.1 h
  exact List.any_eq_true.2 ⟨fact, growth.facts.subset mem, same⟩

theorem growsTo_perform (op : Operation) (k : KnowledgeBase) : k.GrowsTo (op.perform k) := by
  obtain ⟨facts, terms, history⟩ := Operation.prefix_perform op k
  exact ⟨facts, terms, history⟩

theorem growsTo_addHistory (k : KnowledgeBase) (message : String) :
    k.GrowsTo (k.addHistory message) :=
  growsTo_perform (.addHistory message) k

theorem growsTo_addTerms (k : KnowledgeBase) (ts : List Term) : k.GrowsTo (k.addTerms ts) :=
  foldl_keeps (.refl k) fun k' t growth => growth.trans (growsTo_perform (.addTerm t "") k')

theorem growsTo_addSubterms (k : KnowledgeBase) (p : Proposition) :
    k.GrowsTo (k.addSubterms p) :=
  foldl_keeps (.refl k) fun k' side growth => growth.trans (k'.growsTo_addTerms side.subterms)

theorem growsTo_assume (k : KnowledgeBase) (p : Proposition) : k.GrowsTo (k.assume p) := by
  have growth := growsTo_perform (.addFact p "") k
  rw [Operation.perform, offerFact_eq] at growth
  rw [assume_eq]
  cases added : k.addFact? p "" with
  | none => exact .refl k
  | some k' =>
    rw [added] at growth
    exact growth.trans (k'.growsTo_addHistory _)

/-- A term with a variable is under consideration once it has been added. -/
theorem considers_addTerms {ts : List Term} (mem : t ∈ ts) (var : t.hasVariable)
    (defined : t.isDefined) : (k.addTerms ts).Considers t := by
  obtain ⟨u, memTerms, same⟩ :=
    Term.exists_equal_of_mem k.terms mem var (Term.equal_refl defined)
  exact ⟨u, terms_addTerms k ts ▸ memTerms, Term.equal_symm same⟩

/-- All parts of a proposition that have variables are put under consideration. -/
theorem considers_addSubterms {side : Term} (memSide : side ∈ p.sides)
    (mem : t ∈ side.subterms) (var : t.hasVariable) (defined : t.isDefined) :
    (k.addSubterms p).Considers t :=
  foldl_attains (P := (Considers · t)) memSide (fun _ => considers_addTerms mem var defined)
    fun k' side considers => considers.mono (k'.growsTo_addTerms side.subterms)

theorem history_addSubterms (k : KnowledgeBase) (p : Proposition) :
    (k.addSubterms p).history = k.history := by
  simp [addSubterms, Proposition.sides, history_addTerms]

/-- A proposition with a variable is known once it has been assumed. -/
theorem knows_assume (var : p.hasVariable) (defined : p.isDefined) : (k.assume p).Knows p := by
  have reflexive : p == p := Proposition.isEquivalenceOn_beq.refl defined
  rw [assume_eq]
  cases added : k.addFact? p "" with
  | some k' =>
    refine ⟨p, ?_, reflexive⟩
    simp [facts_of_addFact? added]
  | none =>
    -- a proposition with a variable is not added only if it is known
    have known : k.containsFact p := by simpa [addFact?_eq_ite, var] using added
    obtain ⟨fact, mem, same⟩ := List.any_eq_true.1 known
    exact ⟨fact, mem, Proposition.beq_symm same⟩

end Growth

end KnowledgeBase

/-! ### Goals -/

/-- What is accepted as a goal: an inequality without placeholders. -/
structure Proposition.IsGoal (p : Proposition) : Prop where
  relation : p.relation = .atMost
  ground : ¬ p.hasPlaceholder

namespace Proposition

variable {p : Proposition}

theorem checkGoal_eq_ok_iff : p.checkGoal = .ok () ↔ p.IsGoal := by
  rw [checkGoal]
  constructor
  · intro checked
    split at checked
    · cases checked
    split at checked
    · cases checked
    · next inequality ground => exact ⟨Decidable.not_not.1 inequality, ground⟩
  · rintro ⟨relation, ground⟩
    rw [if_neg (not_not.2 relation), if_neg ground]

theorem hasVariable_of_checkAssumption {names : List String}
    (checked : p.checkAssumption names = .ok ()) : p.hasVariable := by
  rw [checkAssumption] at checked
  split at checked
  · cases checked
  split at checked
  · cases checked
  · next var => simpa using var

theorem isDefined_of_mem_subterms (defined : p.isDefined) {side t : Term}
    (memSide : side ∈ p.sides) (mem : t ∈ side.subterms) : t.isDefined := by
  rw [isDefined, Bool.and_eq_true] at defined
  rcases List.mem_pair.1 memSide with rfl | rfl
  · exact Term.isDefined_of_mem_subterms defined.1 mem
  · exact Term.isDefined_of_mem_subterms defined.2 mem

end Proposition

/-- The goal of an accepted problem is one, and its assumptions have variables. -/
theorem Problem.of_ofPropositions {goal : Proposition} {assumptions : List Proposition}
    {p : Problem} (accepted : ofPropositions goal assumptions = .ok p) :
    goal.IsGoal ∧ ∀ q ∈ assumptions, q.hasVariable := by
  obtain ⟨goalChecked, -, checked, -⟩ := parts_of_ofPropositions accepted
  exact ⟨Proposition.checkGoal_eq_ok_iff.1 goalChecked, fun q mem =>
    Proposition.hasVariable_of_checkAssumption (checked q mem)⟩

namespace Attempt

open KnowledgeBase

/-- What can be done to an attempt. -/
inductive Operation where
  | addGoal (goal : Proposition) (message : String)
  | prove (calculus : Calculus) (budget : Budget) (clock : Nat → Float)
  | onKnowledge (op : KnowledgeBase.Operation)

namespace Operation

/-- The attempt after an operation. -/
def perform (a : Attempt) : Operation → Attempt
  | addGoal goal message => (a.offerGoal goal message).2
  | prove calculus budget clock => (a.prove calculus budget clock).2
  | onKnowledge op => { a with knowledge := op.perform a.knowledge }

/-- An attempt at a problem after one operation after the other. -/
def performAll (p : Problem) (operations : List Operation) : Attempt :=
  operations.foldl perform (start p)

theorem performAll_concat (p : Problem) (operations : List Operation) (op : Operation) :
    performAll p (operations ++ [op]) = op.perform (performAll p operations) :=
  List.foldl_concat ..

/-- The goals that the operation adds have no undefined constants. -/
def IsDefined : Operation → Prop
  | addGoal goal _ => goal.isDefined
  | prove .. | onKnowledge _ => True

end Operation

section Goals

variable {a : Attempt} {goal : Proposition} {message : String}

/-- The attempt with a further goal. -/
def withGoal (a : Attempt) (goal : Proposition) (message : String) : Attempt :=
  { a with
    alternatives := a.alternatives ++ [goal]
    knowledge := (a.knowledge.addSubterms goal).addHistory message }

theorem goals_withGoal : (a.withGoal goal message).goals = a.goals ++ [goal] := rfl

theorem facts_withGoal : (a.withGoal goal message).knowledge.facts = a.knowledge.facts := by
  rw [withGoal, facts_addHistory, facts_addSubterms]

theorem history_withGoal : (a.withGoal goal message).knowledge.history =
    (a.knowledge.addHistory message).history := by
  rw [withGoal, addHistory, addHistory]
  split
  · exact history_addSubterms _ _
  · exact congrArg (· ++ [message]) (history_addSubterms _ _)

theorem growsTo_withGoal (a : Attempt) (goal : Proposition) (message : String) :
    a.knowledge.GrowsTo (a.withGoal goal message).knowledge :=
  (a.knowledge.growsTo_addSubterms goal).trans (growsTo_addHistory _ message)

/-- What can be a goal is added, unless it is one already; what cannot is refused. Nothing changes
unless the goal is added. -/
theorem offerGoal_cases (a : Attempt) (goal : Proposition) (message : String) :
    (goal.IsGoal ∧ (¬ ∃ g ∈ a.goals, g == goal) ∧
      a.offerGoal goal message = (.ok true, a.withGoal goal message)) ∨
    (goal.IsGoal ∧ (∃ g ∈ a.goals, g == goal) ∧ a.offerGoal goal message = (.ok false, a)) ∨
    (¬ goal.IsGoal ∧ ∃ e, a.offerGoal goal message = (.error e, a)) := by
  rw [offerGoal]
  cases checked : goal.checkGoal with
  | error e =>
    refine .inr (.inr ⟨fun isGoal => ?_, e, rfl⟩)
    rw [Proposition.checkGoal_eq_ok_iff.2 isGoal] at checked
    cases checked
  | ok =>
    have isGoal := Proposition.checkGoal_eq_ok_iff.1 checked
    by_cases known : a.goals.any (· == goal)
    · exact .inr (.inl ⟨isGoal, List.any_eq_true.1 known, if_pos known⟩)
    · exact .inl ⟨isGoal, fun equal => known (List.any_eq_true.2 equal), if_neg known⟩

/-- Proving changes nothing but the knowledge. -/
theorem perform_prove (a : Attempt) (calculus : Calculus) (budget : Budget) (clock : Nat → Float) :
    (Operation.prove calculus budget clock).perform a =
      (Operation.onKnowledge (.deduceUntil calculus budget a.isProvedBy clock)).perform a := rfl

/-- No operation removes a goal or anything known. -/
theorem grows_perform (op : Operation) (a : Attempt) :
    a.goals <+: (op.perform a).goals ∧ a.knowledge.GrowsTo (op.perform a).knowledge := by
  have onKnowledge : ∀ op, a.goals <+: ((Operation.onKnowledge op).perform a).goals ∧
      a.knowledge.GrowsTo ((Operation.onKnowledge op).perform a).knowledge := fun op =>
    ⟨List.prefix_rfl, KnowledgeBase.growsTo_perform op a.knowledge⟩
  cases op with
  | addGoal goal message =>
    rw [Operation.perform]
    rcases a.offerGoal_cases goal message with ⟨-, -, added⟩ | ⟨-, -, known⟩ | ⟨-, e, refused⟩
    · rw [added]
      exact ⟨List.prefix_append _ _, a.growsTo_withGoal goal message⟩
    · rw [known]
      exact ⟨List.prefix_rfl, .refl _⟩
    · rw [refused]
      exact ⟨List.prefix_rfl, .refl _⟩
  | prove calculus budget clock =>
    rw [perform_prove]
    exact onKnowledge _
  | onKnowledge op => exact onKnowledge op

/-- What is proved stays proved. -/
theorem isProved_perform (op : Operation) (h : a.isProved) : (op.perform a).isProved := by
  obtain ⟨goals, growth⟩ := grows_perform op a
  obtain ⟨goal, mem, known⟩ := List.any_eq_true.1 h
  exact List.any_eq_true.2 ⟨goal, goals.subset mem, containsFact_mono growth known⟩

end Goals

/-! ### Goals and knowledge -/

/-- The goals are suitable and different, the problem's goal being the first, all parts of goals and
assumptions that have variables are under consideration, and the assumptions are known. -/
structure Pursues (p : Problem) (a : Attempt) : Prop where
  mainGoal : a.mainGoal = p.goal
  isGoal : ∀ goal ∈ a.goals, goal.IsGoal
  distinct : a.goals.Pairwise fun g h => ¬ g == h
  considered : ∀ q ∈ a.goals ++ p.assumptions, ∀ side ∈ q.sides, ∀ t ∈ side.subterms,
    t.hasVariable → a.knowledge.Considers t
  assumed : ∀ assumption ∈ p.assumptions, a.knowledge.Knows assumption

section Pursuing

variable {p : Problem} {a : Attempt} {op : Operation}

/-- The knowledge of an attempt may grow. -/
theorem Pursues.growsTo (h : a.Pursues p) {k : KnowledgeBase} (growth : a.knowledge.GrowsTo k) :
    Pursues p { a with knowledge := k } where
  mainGoal := h.mainGoal
  isGoal := h.isGoal
  distinct := h.distinct
  considered q mem side memSide t part var :=
    (h.considered q mem side memSide t part var).mono growth
  assumed assumption mem := (h.assumed assumption mem).mono growth

theorem exists_knowledge_start (p : Problem) : ∃ opening, (start p).knowledge =
    (p.assumptions.foldl assume
      ((p.assumptions ++ [p.goal]).foldl addSubterms opening)).addHistory "here we go!" :=
  ⟨_, by rw [start]⟩

theorem pursues_start (isGoal : p.goal.IsGoal) (var : ∀ q ∈ p.assumptions, q.hasVariable)
    (defined : ∀ q ∈ p.goal :: p.assumptions, q.isDefined) : (start p).Pursues p := by
  obtain ⟨opening, knowledge⟩ := exists_knowledge_start p
  refine ⟨rfl, by simpa [goals, start] using isGoal, by simp [goals, start], ?_, ?_⟩
  · intro q mem side memSide t part var
    have memProblem : q ∈ p.assumptions ++ [p.goal] := by
      simpa [goals, start, or_comm] using mem
    have definedPart : t.isDefined :=
      Proposition.isDefined_of_mem_subterms (defined q (by simpa [or_comm] using memProblem))
        memSide part
    rw [knowledge]
    -- the parts are there before the assumptions are made
    refine Considers.mono ?_ (growsTo_addHistory _ _)
    refine foldl_keeps (P := (Considers · t)) ?_ fun k' q' considers =>
      considers.mono (k'.growsTo_assume q')
    exact foldl_attains (P := (Considers · t)) memProblem
      (fun _ => considers_addSubterms memSide part var definedPart)
      fun k' q' considers => considers.mono (k'.growsTo_addSubterms q')
  · intro assumption mem
    have definedAssumption := defined assumption (List.mem_cons_of_mem _ mem)
    rw [knowledge]
    refine Knows.mono ?_ (growsTo_addHistory _ _)
    exact foldl_attains (P := (Knows · assumption)) mem
      (fun _ => knows_assume (var assumption mem) definedAssumption)
      fun k' q' knows => knows.mono (k'.growsTo_assume q')

/-- A further goal brings its parts with it. -/
theorem Pursues.withGoal {goal : Proposition} {message : String} (h : a.Pursues p)
    (isGoal : goal.IsGoal) (new : ¬ ∃ g ∈ a.goals, g == goal) (defined : goal.isDefined) :
    (a.withGoal goal message).Pursues p := by
  have growth := a.growsTo_withGoal goal message
  refine ⟨h.mainGoal, ?_, ?_, ?_, fun assumption mem => (h.assumed assumption mem).mono growth⟩
  · rw [goals_withGoal, List.forall_mem_append]
    exact ⟨h.isGoal, List.forall_mem_singleton.2 isGoal⟩
  · rw [goals_withGoal]
    refine List.pairwise_append.2 ⟨h.distinct, List.pairwise_singleton _ goal, ?_⟩
    intro g mem g' memNew same
    exact new ⟨g, mem, List.mem_singleton.1 memNew ▸ same⟩
  · -- what was considered before stays so, and adding a goal considers its parts
    intro q mem side memSide t part var
    rw [goals_withGoal, List.append_assoc, List.mem_append] at mem
    have mem : q ∈ a.goals ++ p.assumptions ∨ q = goal := by
      simpa [or_comm, or_left_comm, or_assoc] using mem
    rcases mem with earlier | rfl
    · exact (h.considered q earlier side memSide t part var).mono growth
    · exact (considers_addSubterms memSide part var
        (Proposition.isDefined_of_mem_subterms defined memSide part)).mono
          (growsTo_addHistory _ message)

/-- An operation keeps goals and knowledge together. -/
theorem Pursues.perform (h : a.Pursues p) (defined : op.IsDefined) : (op.perform a).Pursues p := by
  cases op with
  | prove calculus budget clock =>
    rw [perform_prove]
    exact h.growsTo (KnowledgeBase.growsTo_perform _ a.knowledge)
  | onKnowledge op => exact h.growsTo (KnowledgeBase.growsTo_perform op a.knowledge)
  | addGoal goal message =>
    rw [Operation.perform]
    rcases a.offerGoal_cases goal message with ⟨isGoal, new, added⟩ | ⟨-, -, known⟩ |
      ⟨-, e, refused⟩
    · rw [added]
      exact h.withGoal isGoal new defined
    · rwa [known]
    · rwa [refused]

/-- Goals and knowledge fit together after any operations. -/
theorem pursues_performAll (start : (start p).Pursues p) {operations : List Operation}
    (defined : ∀ op ∈ operations, op.IsDefined) :
    (Operation.performAll p operations).Pursues p := by
  induction operations using List.reverseRecOn with
  | nil => exact start
  | append_singleton earlier op ih =>
    rw [List.forall_mem_append, List.forall_mem_singleton] at defined
    rw [Operation.performAll_concat]
    exact (ih defined.1).perform defined.2

end Pursuing

/-- In every state that operations lead to from the beginning of an attempt at an accepted problem
without undefined constants, the first goal is that of the problem, all goals are inequalities
without placeholders, no two at different positions are equal, each part of a goal or an assumption
that has a variable equals a term under consideration, and each assumption equals a fact. A further
goal is accepted exactly if it is an inequality without placeholders that equals no goal yet; then
it is the last goal and nothing else is lost, and otherwise the attempt stays as it is. What is
proved stays proved. -/
theorem operations_pursue_goals :
    (∀ (goal : Proposition) (assumptions : List Proposition) (p : Problem)
        (operations : List Operation),
      Problem.ofPropositions goal assumptions = .ok p →
      (∀ q ∈ goal :: assumptions, q.isDefined) → (∀ op ∈ operations, op.IsDefined) →
      let a := Operation.performAll p operations
      a.goals[0]? = some goal ∧
      (∀ g ∈ a.goals, g.relation = .atMost ∧ ¬ g.hasPlaceholder) ∧
      (∀ (i j : Nat) (g h : Proposition), i ≠ j → a.goals[i]? = some g → a.goals[j]? = some h →
        ¬ g == h) ∧
      (∀ q ∈ a.goals ++ assumptions, ∀ side ∈ q.sides, ∀ t ∈ side.subterms, t.hasVariable →
        ∃ u ∈ a.knowledge.terms, t == u) ∧
      (∀ assumption ∈ assumptions, ∃ fact ∈ a.knowledge.facts, assumption == fact)) ∧
    (∀ (a : Attempt) (goal : Proposition) (message : String),
      let (answer, a') := a.offerGoal goal message
      (answer = .ok true ↔
        goal.relation = .atMost ∧ ¬ goal.hasPlaceholder ∧ ¬ ∃ g ∈ a.goals, g == goal) ∧
      (answer = .ok true → a'.goals = a.goals ++ [goal] ∧
        a'.knowledge.facts = a.knowledge.facts ∧ a.knowledge.terms <+: a'.knowledge.terms ∧
        a'.knowledge.history = (a.knowledge.addHistory message).history) ∧
      (answer ≠ .ok true → a' = a)) ∧
    (∀ (a : Attempt) (operations : List Operation), a.isProved →
      (operations.foldl (fun a op => op.perform a) a).isProved) := by
  refine ⟨?_, ?_, ?_⟩
  · intro goal assumptions p operations acceptedProblem defined definedGoals a
    obtain ⟨isGoal, var⟩ := Problem.of_ofPropositions acceptedProblem
    obtain ⟨rfl, rfl, -⟩ := Problem.eq_of_ofPropositions acceptedProblem
    have pursues := pursues_performAll (pursues_start isGoal var defined) definedGoals
    refine ⟨congrArg some pursues.mainGoal, fun g mem => ?_, fun i j g h ne hg hh => ?_,
      pursues.considered, pursues.assumed⟩
    · obtain ⟨relation, ground⟩ := pursues.isGoal g mem
      exact ⟨relation, ground⟩
    · exact not_of_pairwise (fun _ _ => Proposition.beq_symm) pursues.distinct ne hg hh
  · intro a goal message
    rcases a.offerGoal_cases goal message with ⟨isGoal, new, added⟩ | ⟨-, known, kept⟩ |
      ⟨noGoal, e, refused⟩
    · rw [added]
      exact ⟨iff_of_true rfl ⟨isGoal.relation, isGoal.ground, new⟩, fun _ => ⟨goals_withGoal,
        facts_withGoal, (growsTo_withGoal a goal message).terms, history_withGoal⟩, absurd rfl⟩
    · rw [kept]
      have notAdded : (.ok false : Except ProblemError Bool) ≠ .ok true := by simp
      exact ⟨iff_of_false notAdded fun h => h.2.2 known, fun h => absurd h notAdded, fun _ => rfl⟩
    · rw [refused]
      have notAdded : (.error e : Except ProblemError Bool) ≠ .ok true := by simp
      exact ⟨iff_of_false notAdded fun h => noGoal ⟨h.1, h.2.1⟩, fun h => absurd h notAdded,
        fun _ => rfl⟩
  · intro a operations proved
    exact foldl_keeps (P := fun a : Attempt => a.isProved) proved fun a op => isProved_perform op

open Term in
/-- An assumption states the goal in another order of operands, and a further goal is given in two
orders. -/
theorem operations_pursue_goals_order :
    let goal : Proposition := .atMost (var "x") (sum [var "y", int 1])
    let assumption : Proposition := .atMost (var "x") (sum [int 1, var "y"])
    let further : Proposition := .atMost (product [var "x", var "y"]) (int 2)
    let swapped : Proposition := .atMost (product [var "y", var "x"]) (int 2)
    let p : Problem := ⟨goal, [assumption], ["x", "y"]⟩
    let run := Operation.prove .standard ⟨some 1, none⟩ stillClock
    let operations := [Operation.addGoal further "", .addGoal swapped "", run]
    let a := Operation.performAll p operations
    Problem.ofPropositions goal [assumption] = .ok p ∧ (∀ q ∈ [goal, assumption], q.isDefined) ∧
      (∀ op ∈ operations, op.IsDefined) ∧ a.goals[0]? = some goal ∧
      (∃ u ∈ a.knowledge.terms, sum [var "y", int 1] == u) ∧
      (∃ fact ∈ a.knowledge.facts, assumption == fact) ∧
      ((start p).offerGoal further "").1 = .ok true ∧
      ((start p).withGoal further "").offerGoal swapped "" =
        (.ok false, (start p).withGoal further "") ∧
      (start p).isProved ∧ a.isProved := by
  intro goal assumption further swapped p run operations a
  have accepted : Problem.ofPropositions goal [assumption] = .ok p := rfl
  have defined : ∀ q ∈ [goal, assumption], q.isDefined := by decide
  have definedGoals : ∀ op ∈ operations, op.IsDefined := by
    simp only [operations, List.forall_mem_cons]
    exact ⟨rfl, rfl, trivial, by simp⟩
  have proved : (start p).isProved := by decide
  obtain ⟨states, accepts, stays⟩ := operations_pursue_goals
  obtain ⟨first, -, -, considered, assumed⟩ :=
    states goal [assumption] p operations accepted defined definedGoals
  refine ⟨accepted, defined, definedGoals, first, ?_, ?_, ?_, ?_, proved, ?_⟩
  · have memGoal := List.mem_append_left [assumption] (List.mem_of_getElem? first)
    exact considered goal memGoal goal.rhs (.tail _ (.head _)) _ (.head _) rfl
  · exact assumed assumption (.head _)
  · exact (accepts (start p) further "").1.2 ⟨rfl, by decide, by decide⟩
  · have offered := accepts ((start p).withGoal further "") swapped ""
    exact Prod.ext rfl (offered.2.2 fun h => (offered.1.1 h).2.2 (by decide))
  · exact stays (start p) operations proved

end Attempt

end InequalityChaining

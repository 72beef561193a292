import InequalityChaining.Attempt
import InequalityChaining.Proofs.Outcome
import InequalityChaining.Proofs.Term.Parts

/-!
# What is known

Adding terms leaves the facts alone, and adding a fact adds nothing but that fact and its sides. A
term is only ever added if it has a variable. What is known at the beginning of an attempt is
therefore made up of the parts of its problem.

## Main definitions

* `Term.unknown` — those of some terms that are added to known ones

## Main results

* `KnowledgeBase.terms_addTerms` — the terms after adding some
* `KnowledgeBase.mem_terms_addTerms` — where they come from
* `KnowledgeBase.facts_of_addFact?`, `KnowledgeBase.mem_terms_of_addFact?` — a new fact
* `Attempt.mem_facts_start`, `Attempt.mem_terms_start` — the beginning of an attempt
-/

namespace InequalityChaining

/-- The terms with variables that equal neither a known term nor one before them. -/
def Term.unknown (known : List Term) : List Term → List Term
  | [] => []
  | t :: ts =>
    if t.hasVariable && !known.any (· == t) then t :: unknown (known ++ [t]) ts
    else unknown known ts

/-- What a fold has collected was there at the beginning or comes from an item of the list. -/
theorem mem_or_exists_of_mem_foldl {α β γ : Type} (contents : β → List γ) {f : β → α → β}
    {comesFrom : γ → α → Prop} {as : List α} {b : β} {c : γ} (h : c ∈ contents (as.foldl f b))
    (step : ∀ b a c, c ∈ contents (f b a) → c ∈ contents b ∨ comesFrom c a) :
    c ∈ contents b ∨ ∃ a ∈ as, comesFrom c a := by
  induction as generalizing b with
  | nil => exact .inl h
  | cons a as ih =>
    rcases ih h with h | ⟨a', mem, hc⟩
    · rcases step b a c h with h | hc
      · exact .inl h
      · exact .inr ⟨a, List.mem_cons_self, hc⟩
    · exact .inr ⟨a', List.mem_cons_of_mem a mem, hc⟩

namespace KnowledgeBase

variable {k k' : KnowledgeBase} {t : Term} {ts : List Term} {fact p : Proposition}
  {message : String}

theorem addTerm_eq_ite (k : KnowledgeBase) (t : Term) :
    k.addTerm t =
      if t.hasVariable && !k.terms.any (· == t) then { k with terms := k.terms ++ [t] } else k := by
  rw [addTerm, offerTerm, containsTerm]
  cases t.hasVariable <;> cases k.terms.any (· == t) <;> rfl

theorem addTerm_cases (k : KnowledgeBase) (t : Term) :
    k.addTerm t = k ∨ (t.hasVariable ∧
      (k.addTerm t).facts = k.facts ∧ (k.addTerm t).terms = k.terms ++ [t]) := by
  rw [addTerm_eq_ite]
  split
  · next unknown => exact .inr ⟨(Bool.and_eq_true_iff.1 unknown).1, rfl, rfl⟩
  · exact .inl rfl

@[simp] theorem facts_addTerm (k : KnowledgeBase) (t : Term) : (k.addTerm t).facts = k.facts := by
  rcases k.addTerm_cases t with same | ⟨-, facts, -⟩
  · rw [same]
  · exact facts

theorem mem_terms_addTerm {u : Term} (h : u ∈ (k.addTerm t).terms) :
    u ∈ k.terms ∨ (u = t ∧ u.hasVariable) := by
  rcases k.addTerm_cases t with same | ⟨var, -, terms⟩
  · exact .inl (same ▸ h)
  · rw [terms, List.mem_append, List.mem_singleton] at h
    rcases h with h | rfl
    · exact .inl h
    · exact .inr ⟨rfl, var⟩

@[simp] theorem facts_addTerms (k : KnowledgeBase) (ts : List Term) :
    (k.addTerms ts).facts = k.facts := by
  induction ts generalizing k with
  | nil => rfl
  | cons t ts ih => exact (ih (k.addTerm t)).trans (k.facts_addTerm t)

/-- A term that is there after adding some was there before or is one of them, with a variable. -/
theorem mem_terms_addTerms (h : t ∈ (k.addTerms ts).terms) :
    t ∈ k.terms ∨ (t ∈ ts ∧ t.hasVariable) := by
  rcases mem_or_exists_of_mem_foldl terms h fun _ _ _ => mem_terms_addTerm with
    h | ⟨u, mem, rfl, var⟩
  · exact .inl h
  · exact .inr ⟨mem, var⟩

/-- The terms that are unknown are added. -/
theorem terms_addTerms (k : KnowledgeBase) (ts : List Term) :
    (k.addTerms ts).terms = k.terms ++ Term.unknown k.terms ts := by
  induction ts generalizing k with
  | nil => simp [addTerms, Term.unknown]
  | cons t ts ih =>
    refine (ih (k.addTerm t)).trans ?_
    rw [addTerm_eq_ite, Term.unknown]
    split <;> simp

/-- Terms are added without a line for the transcript. -/
theorem history_addTerms (k : KnowledgeBase) (ts : List Term) :
    (k.addTerms ts).history = k.history := by
  induction ts generalizing k with
  | nil => rfl
  | cons t ts ih =>
    refine (ih (k.addTerm t)).trans ?_
    rw [addTerm_eq_ite]
    split <;> rfl

/-- A term is added if it has a variable and is new. -/
theorem addTerm?_eq_ite (k : KnowledgeBase) (t : Term) (message : String) :
    k.addTerm? t message =
      if !t.hasVariable || k.containsTerm t then none
      else some ({ k with terms := k.terms ++ [t] }.addHistory message) := by
  rw [addTerm?, offerTerm]
  cases t.hasVariable <;> cases k.containsTerm t <;> rfl

/-- A term that is refused changes nothing. -/
theorem offerTerm_eq (k : KnowledgeBase) (t : Term) (message : String) :
    k.offerTerm t message =
      match k.addTerm? t message with
      | some k' => (true, k')
      | none => (false, k) := by
  rw [addTerm?, offerTerm]
  cases t.hasVariable <;> cases k.containsTerm t <;> rfl

/-- A fact is added, after its sides, if it has a variable and is new. -/
theorem addFact?_eq_ite (k : KnowledgeBase) (fact : Proposition) (message : String) :
    k.addFact? fact message =
      if !fact.hasVariable || k.containsFact fact then none
      else some ({ k.addTerms fact.sides with
        facts := (k.addTerms fact.sides).facts ++ [fact] }.addHistory message) := by
  rw [addFact?, offerFact]
  cases fact.hasVariable <;> cases k.containsFact fact <;> rfl

/-- A fact that is refused changes nothing. -/
theorem offerFact_eq (k : KnowledgeBase) (fact : Proposition) (message : String) :
    k.offerFact fact message =
      match k.addFact? fact message with
      | some k' => (true, k')
      | none => (false, k) := by
  rw [addFact?, offerFact]
  cases fact.hasVariable <;> cases k.containsFact fact <;> rfl

theorem eq_of_addFact? (h : k.addFact? fact message = some k') :
    k' = { k.addTerms fact.sides with
      facts := (k.addTerms fact.sides).facts ++ [fact] }.addHistory message := by
  rw [addFact?_eq_ite] at h
  split at h
  · simp at h
  · exact (Option.some.inj h).symm

/-- Adding a fact adds that fact only. -/
theorem facts_of_addFact? (h : k.addFact? fact message = some k') :
    k'.facts = k.facts ++ [fact] := by
  rw [eq_of_addFact? h]
  simp

/-- A fact that is added is new and has a variable. -/
theorem isNew_of_addFact? (h : k.addFact? fact message = some k') :
    fact.hasVariable ∧ ¬ k.containsFact fact := by
  rw [addFact?_eq_ite] at h
  split at h
  · simp at h
  · next kept => simpa using kept

/-- The fact is added to the facts, those of its sides that are unknown to the terms, and the line
to the transcript. -/
theorem eq_mk_of_addFact? (h : k.addFact? fact message = some k')
    (line : message.isEmpty = false) :
    k' = ⟨k.facts ++ [fact], k.terms ++ Term.unknown k.terms fact.sides,
      k.history ++ [message]⟩ := by
  rw [eq_of_addFact? h, addHistory, line, terms_addTerms, history_addTerms, facts_addTerms]
  rfl

/-- Besides the fact its sides are added to the terms. -/
theorem mem_terms_of_addFact? (h : k.addFact? fact message = some k') (mem : t ∈ k'.terms) :
    t ∈ k.terms ∨ (t ∈ fact.sides ∧ t.hasVariable) := by
  rw [eq_of_addFact? h, terms_addHistory] at mem
  exact mem_terms_addTerms mem

theorem facts_addSubterms (k : KnowledgeBase) (p : Proposition) :
    (k.addSubterms p).facts = k.facts := by
  simp [addSubterms, Proposition.sides]

theorem mem_terms_addSubterms (h : t ∈ (k.addSubterms p).terms) :
    t ∈ k.terms ∨ ((∃ side ∈ p.sides, t ∈ side.subterms) ∧ t.hasVariable) := by
  rcases mem_or_exists_of_mem_foldl terms h fun _ _ _ => mem_terms_addTerms with
    h | ⟨side, mem, part, var⟩
  · exact .inl h
  · exact .inr ⟨⟨side, mem, part⟩, var⟩

theorem assume_eq (k : KnowledgeBase) (p : Proposition) : k.assume p =
    match k.addFact? p "" with
    | some k' => k'.addHistory ("assuming: " ++ p.text)
    | none => k := by
  rw [assume, offerFact_eq]
  cases k.addFact? p "" <;> rfl

theorem mem_facts_assume (h : fact ∈ (k.assume p).facts) : fact ∈ k.facts ∨ fact = p := by
  rw [assume_eq] at h
  split at h
  · next k' added =>
    rw [facts_addHistory, facts_of_addFact? added] at h
    simpa using h
  · exact .inl h

theorem mem_terms_assume (h : t ∈ (k.assume p).terms) :
    t ∈ k.terms ∨ (t ∈ p.sides ∧ t.hasVariable) := by
  rw [assume_eq] at h
  split at h
  · next k' added =>
    rw [terms_addHistory] at h
    exact mem_terms_of_addFact? added h
  · exact .inl h

end KnowledgeBase

/-! ### The beginning of an attempt -/

/-- A problem that is accepted has the given parts, which have passed their checks. -/
theorem Problem.parts_of_ofPropositions {goal : Proposition} {assumptions : List Proposition}
    {p : Problem} (h : ofPropositions goal assumptions = .ok p) :
    goal.checkGoal = .ok () ∧ goal.hasVariable ∧
      (∀ q ∈ assumptions, q.checkAssumption goal.varNames = .ok ()) ∧
      p = ⟨goal, assumptions, goal.varNames⟩ := by
  obtain ⟨⟨⟩, goalChecked, h⟩ := bind_eq_ok.1 h
  dsimp only at h
  split at h
  · obtain ⟨_, thrown, -⟩ := bind_eq_ok.1 h
    cases thrown
  · next var =>
    obtain ⟨⟨⟩, checked, h⟩ := bind_eq_ok.1 h
    rw [pure_eq_ok] at h
    exact ⟨goalChecked, by simpa using var, forM_eq_ok checked, h.symm⟩

/-- The goal of an accepted problem is an inequality. -/
theorem Problem.eq_of_ofPropositions {goal : Proposition} {assumptions : List Proposition}
    {p : Problem} (h : ofPropositions goal assumptions = .ok p) :
    p.goal = goal ∧ p.assumptions = assumptions ∧ goal.relation = .atMost := by
  obtain ⟨checked, -, -, rfl⟩ := parts_of_ofPropositions h
  refine ⟨rfl, rfl, ?_⟩
  rw [Proposition.checkGoal] at checked
  split at checked
  · cases checked
  · next inequality => exact Decidable.not_not.1 inequality

namespace Attempt

open KnowledgeBase

variable {p : Problem} {fact : Proposition} {t : Term}

theorem facts_foldl_addSubterms (k : KnowledgeBase) (ps : List Proposition) :
    (ps.foldl addSubterms k).facts = k.facts := by
  induction ps generalizing k with
  | nil => rfl
  | cons q ps ih => exact (ih (k.addSubterms q)).trans (k.facts_addSubterms q)

/-- The facts at the beginning are assumptions. -/
theorem mem_facts_start (h : fact ∈ (start p).knowledge.facts) : fact ∈ p.assumptions := by
  simp only [start, facts_addHistory] at h
  rcases mem_or_exists_of_mem_foldl facts h fun _ _ _ => mem_facts_assume with h | ⟨q, mem, rfl⟩
  · rw [facts_foldl_addSubterms] at h
    simp [KnowledgeBase.empty] at h
  · exact mem

/-- The terms at the beginning are the variables and subterms of the problem, with variables. -/
theorem mem_terms_start (h : t ∈ (start p).knowledge.terms) :
    (∃ name ∈ p.varNames, t = .var name) ∨
      (∃ q ∈ p.goal :: p.assumptions, ∃ side ∈ q.sides, t ∈ side.subterms) ∧ t.hasVariable := by
  simp only [start, terms_addHistory] at h
  -- in the reverse order: sides of assumptions, subterms of the problem and its variables
  rcases mem_or_exists_of_mem_foldl terms h fun _ _ _ => mem_terms_assume with
    h | ⟨q, mem, side, var⟩
  · rcases mem_or_exists_of_mem_foldl terms h fun _ _ _ => mem_terms_addSubterms with
      h | ⟨q, mem, side, var⟩
    · rcases mem_terms_addTerms h with h | ⟨mem, -⟩
      · simp [KnowledgeBase.empty] at h
      · obtain ⟨name, memNames, rfl⟩ := List.mem_map.1 mem
        exact .inl ⟨name, memNames, rfl⟩
    · refine .inr ⟨⟨q, ?_, side⟩, var⟩
      rw [List.mem_append, List.mem_singleton] at mem
      exact List.mem_cons.2 mem.symm
  · exact .inr ⟨⟨q, List.mem_cons_of_mem _ mem, t, side, t.mem_subterms_self⟩, var⟩

end Attempt

end InequalityChaining

import InequalityChaining.Proofs.Deduction.Goals

/-!
# How an attempt begins

An attempt begins with the variables of its problem and with the parts of its propositions under
consideration, in the order in which a walk over the propositions comes to them. The walk needs no
recursion: it takes terms from a stack and puts their operands there instead, the last of them
first, so that the operands are taken from left to right and each with all its parts before the
next.

Whatever is collected, terms or facts, an item is left out if it equals one that is there already.
As equality is symmetric and transitive, this is the same as leaving out what equals any item before
it. The sides of the assumptions are under consideration when the assumptions become facts, so that
no term comes with them; this takes that every side equals itself.

## Main definitions

* `Term.walk` — the terms that a walk with a stack comes to

## Main results

* `Term.walk_eq_flatMap_subterms` — the walk comes to the parts of a term in recursive order
* `contents_foldl_eq_eraseDups` — what is collected if equal items are left out
* `Attempt.start_seeding` — all that is known at the beginning of an attempt
-/

namespace InequalityChaining

/-! ### Collecting without repetition -/

section Collecting

variable {α β : Type*} [BEq α] [PartialEquivBEq α]

/-- Dropping an item that equals one before it makes no difference. -/
theorem eraseDups_append_cons {as bs : List α} {a : α} (known : ∃ b ∈ as, b == a) :
    (as ++ a :: bs).eraseDups = (as ++ bs).eraseDups := by
  match as with
  | [] => simp at known
  | c :: as =>
    simp only [List.cons_append, List.eraseDups_cons, List.filter_append, List.filter_cons]
    by_cases first : a == c
    · simp [first]
    · -- the item that it equals comes after the first one and is not dropped on account of it
      have later : ∃ b ∈ as.filter fun b => !b == c, b == a := by
        obtain ⟨b, mem, same⟩ := known
        have other : ¬ b == c := fun h => first (PartialEquivBEq.trans (BEq.symm same) h)
        rcases List.mem_cons.1 mem with rfl | mem
        · exact absurd (BEq.symm same) first
        · exact ⟨b, List.mem_filter.2 ⟨mem, by simpa using other⟩, same⟩
      simp [first, eraseDups_append_cons later]
termination_by as.length
decreasing_by exact Nat.lt_succ_of_le (List.length_filter_le ..)

/-- An item that equals none before it is kept. -/
theorem eraseDups_concat {as : List α} {a : α} (new : ∀ b ∈ as, ¬ b == a) :
    (as ++ [a]).eraseDups = as.eraseDups ++ [a] := by
  match as with
  | [] => rfl
  | c :: as =>
    have other : ¬ a == c := fun h => new c List.mem_cons_self (BEq.symm h)
    have rest : ∀ b ∈ as.filter fun b => !b == c, ¬ b == a := fun b mem =>
      new b (List.mem_cons_of_mem c (List.mem_filter.1 mem).1)
    simp [List.eraseDups_cons, other, eraseDups_concat rest]
termination_by as.length
decreasing_by exact Nat.lt_succ_of_le (List.length_filter_le ..)

/-- A fold that appends the wanted items, but none that equals one already there, collects the
wanted items without repetition. -/
theorem contents_foldl_eq_eraseDups {contents : β → List α} {f : β → α → β} {wanted : α → Bool}
    (step : ∀ b a, contents (f b a) =
      if wanted a && !(contents b).any (· == a) then contents b ++ [a] else contents b)
    {as : List α} {b : β} (distinct : (contents b).eraseDups = contents b) :
    contents (as.foldl f b) = (contents b ++ as.filter wanted).eraseDups := by
  induction as generalizing b with
  | nil => simpa using distinct.symm
  | cons a as ih =>
    rw [List.foldl_cons, List.filter_cons]
    -- an item is passed over because it is not wanted or because one like it is there
    by_cases want : wanted a
    · by_cases known : (contents b).any (· == a)
      · have same : contents (f b a) = contents b := by rw [step, known]; simp
        rw [ih (same.symm ▸ distinct), same, if_pos want, eraseDups_append_cons]
        simpa using known
      · have more : contents (f b a) = contents b ++ [a] := by simp [step, want, known]
        have new : ∀ c ∈ contents b, ¬ c == a := by simpa using known
        rw [ih (by rw [more, eraseDups_concat new, distinct]), more, if_pos want,
          List.append_assoc, List.singleton_append]
    · have same : contents (f b a) = contents b := by simp [step, want]
      rw [ih (same.symm ▸ distinct), same, if_neg want]

end Collecting

instance : PartialEquivBEq Term where
  symm := Term.equal_symm
  trans := Term.equal_trans

instance : PartialEquivBEq Proposition where
  symm := Proposition.beq_symm
  trans := Proposition.beq_trans

/-! ### The walk over a term -/

namespace Term

/-- The terms that are taken from a stack, when the operands of each are put there instead, the last
operand first. -/
def walk (stack : List Term) : List Term :=
  match stack with
  | [] => []
  | t :: stack => t :: walk (t.operands.reverse.reverseAux stack)
termination_by sizeOfAll stack
decreasing_by
  cases t <;> simp only [operands, List.reverseAux_eq, List.reverse_reverse, List.nil_append,
    List.cons_append, sizeOfAll, size, sizeOfAll_append] <;> omega

theorem subterms_eq_cons (t : Term) : t.subterms = t :: t.operands.flatMap subterms := by
  cases t <;> simp [subterms, operands]

/-- The walk comes to each term and its parts before the terms below it on the stack. -/
theorem walk_eq_flatMap_subterms (stack : List Term) : walk stack = stack.flatMap subterms := by
  fun_induction walk stack with
  | case1 => rfl
  | case2 t stack ih =>
    rw [ih, List.reverseAux_eq, List.reverse_reverse, List.flatMap_append, List.flatMap_cons,
      subterms_eq_cons t, List.cons_append]

end Term

/-! ### The knowledge at the beginning -/

namespace Proposition

theorem isEmpty_text (q : Proposition) : q.text.isEmpty = false := by
  have sign : (Token.relation q.relation.sign).text ≠ "" := by cases q.relation <;> decide
  simp only [text, tokens, Token.textOfAll, List.map_append, List.map_cons]
  simp [sign]

theorem mem_varNames {q : Proposition} {name : String} :
    name ∈ q.varNames ↔ ∃ side ∈ q.sides, Term.var name ∈ side.subterms := by
  have named : ∀ t : Term, name ∈ t.varNames ↔ Term.var name ∈ t.subterms := by
    intro t
    simp only [Term.varNames, Text.mem_ascending, List.mem_filterMap]
    constructor
    · rintro ⟨u, mem, found⟩
      cases u with
      | var n => exact Option.some.inj found ▸ mem
      | _ => cases found
    · exact fun mem => ⟨_, mem, rfl⟩
  simp [varNames, sides, named]

end Proposition

namespace KnowledgeBase

variable {k : KnowledgeBase} {p : Proposition} {message : String}

theorem history_addHistory (nonempty : message.isEmpty = false) :
    (k.addHistory message).history = k.history ++ [message] := by
  rw [addHistory, nonempty]
  rfl

theorem terms_addTerm (k : KnowledgeBase) (t : Term) : (k.addTerm t).terms =
    if t.hasVariable && !k.terms.any (· == t) then k.terms ++ [t] else k.terms := by
  rw [addTerm_eq_ite]
  split <;> rfl

theorem terms_addTerms_empty {ts : List Term} (h : k.terms = []) :
    (k.addTerms ts).terms = (ts.filter Term.hasVariable).eraseDups := by
  have distinct : k.terms.eraseDups = k.terms := by rw [h]; rfl
  have collected : (k.addTerms ts).terms = _ := contents_foldl_eq_eraseDups terms_addTerm distinct
  rwa [h, List.nil_append] at collected

/-- The parts of the sides of propositions are added one after the other. -/
theorem foldl_addSubterms (k : KnowledgeBase) (ps : List Proposition) :
    ps.foldl addSubterms k = k.addTerms (ps.flatMap fun q => q.sides.flatMap Term.subterms) := by
  simp only [addTerms, List.foldl_flatMap]
  rfl

theorem facts_assume (k : KnowledgeBase) (p : Proposition) : (k.assume p).facts =
    if p.hasVariable && !k.facts.any (· == p) then k.facts ++ [p] else k.facts := by
  rw [assume_eq]
  cases added : k.addFact? p "" with
  | some k' =>
    obtain ⟨var, new⟩ := isNew_of_addFact? added
    rw [containsFact] at new
    simp [facts_of_addFact? added, var, new]
  | none =>
    have known : p.hasVariable → k.facts.any (· == p) := by
      simpa [addFact?_eq_ite, containsFact] using added
    by_cases var : p.hasVariable
    · simp [known var]
    · simp [var]

/-- The line of an assumption that has become a fact. -/
def assumptionLine (p : Proposition) : String := "assuming: " ++ p.text

theorem isEmpty_assumptionLine (p : Proposition) : (assumptionLine p).isEmpty = false := by
  simp [assumptionLine]

/-- An assumption is noted in the transcript if it becomes a fact. -/
theorem history_assume {lines : List String} (h : k.history = lines ++ k.facts.map assumptionLine) :
    (k.assume p).history = lines ++ (k.assume p).facts.map assumptionLine := by
  rw [assume_eq]
  cases added : k.addFact? p "" with
  | none => exact h
  | some k' =>
    have line : k'.history = k.history := by
      rw [eq_of_addFact? added]
      exact history_addTerms k p.sides
    rw [facts_addHistory, facts_of_addFact? added, List.map_append, ← List.append_assoc, ← h,
      ← line]
    exact history_addHistory (isEmpty_assumptionLine p)

theorem unknown_eq_nil {ts : List Term} (h : ∀ t ∈ ts, t.hasVariable → k.Considers t) :
    Term.unknown k.terms ts = [] := by
  induction ts with
  | nil => rfl
  | cons t ts ih =>
    rw [List.forall_mem_cons] at h
    have known : (t.hasVariable && !k.terms.any (· == t)) = false := by
      by_cases var : t.hasVariable
      · obtain ⟨u, mem, same⟩ := h.1 var
        simp only [var, Bool.true_and, Bool.not_eq_false', List.any_eq_true]
        exact ⟨u, mem, BEq.symm same⟩
      · simp [var]
    rw [Term.unknown, known, if_neg Bool.false_ne_true]
    exact ih h.2

/-- An assumption brings in no term if its sides are under consideration. -/
theorem terms_assume (known : ∀ side ∈ p.sides, side.hasVariable → k.Considers side) :
    (k.assume p).terms = k.terms := by
  rw [assume_eq]
  cases added : k.addFact? p "" with
  | none => rfl
  | some k' =>
    rw [terms_addHistory, eq_of_addFact? added, terms_addHistory]
    exact (terms_addTerms k p.sides).trans (by rw [unknown_eq_nil known, List.append_nil])

/-- Assumptions bring in no terms if their sides are under consideration. -/
theorem terms_foldl_assume {ps : List Proposition}
    (known : ∀ q ∈ ps, ∀ side ∈ q.sides, side.hasVariable → k.Considers side) :
    (ps.foldl assume k).terms = k.terms := by
  induction ps generalizing k with
  | nil => rfl
  | cons q ps ih =>
    rw [List.forall_mem_cons] at known
    have same := terms_assume known.1
    refine (ih fun q' mem side memSide var => ?_).trans same
    exact (known.2 q' mem side memSide var).mono (k.growsTo_assume q)

end KnowledgeBase

namespace Attempt

open KnowledgeBase

/-- The knowledge at the beginning before the assumptions have become facts. -/
def seeded (p : Problem) : KnowledgeBase :=
  (p.assumptions ++ [p.goal]).foldl addSubterms
    (((KnowledgeBase.empty.addHistory
      ("we will prove for all " ++ Text.commaSeparated p.varNames ++ ":")).addHistory
        p.goal.text).addTerms (p.varNames.map Term.var))

theorem knowledge_start (p : Problem) : (start p).knowledge =
    (p.assumptions.foldl assume (seeded p)).addHistory "here we go!" := rfl

/-- The parts with variables of a proposition, each before its own parts, from left to right. -/
def nodes (q : Proposition) : List Term :=
  q.sides.flatMap fun side => side.subterms.filter Term.hasVariable

theorem terms_seeded (p : Problem) : (seeded p).terms =
    (p.varNames.map Term.var ++ (p.assumptions ++ [p.goal]).flatMap nodes).eraseDups := by
  have vars : (p.varNames.map Term.var).filter Term.hasVariable = p.varNames.map Term.var := by
    simp [List.filter_eq_self]
  rw [seeded, foldl_addSubterms, addTerms, addTerms, ← List.foldl_append]
  refine (terms_addTerms_empty (by simp [KnowledgeBase.empty])).trans ?_
  rw [List.filter_append, vars]
  simp only [List.filter_flatMap]
  rfl

theorem facts_seeded (p : Problem) : (seeded p).facts = [] := by
  rw [seeded, facts_foldl_addSubterms]
  simp [KnowledgeBase.empty]

theorem history_seeded (p : Problem) : (seeded p).history =
    ["we will prove for all " ++ Text.commaSeparated p.varNames ++ ":", p.goal.text] := by
  rw [seeded, foldl_addSubterms, history_addTerms, history_addTerms, history_addHistory,
    history_addHistory]
  · rfl
  · simp
  · exact p.goal.isEmpty_text

/-- Every side of an assumption that has a variable is under consideration from the beginning. -/
theorem considers_seeded {p : Problem} {q : Proposition} (mem : q ∈ p.assumptions)
    (defined : q.isDefined) : ∀ side ∈ q.sides, side.hasVariable → (seeded p).Considers side := by
  intro side memSide var
  refine foldl_attains (P := (Considers · side)) (List.mem_append_left _ mem) (fun k => ?_)
    fun k q' considers => considers.mono (k.growsTo_addSubterms q')
  exact considers_addSubterms memSide side.mem_subterms_self var
    (Proposition.isDefined_of_mem_subterms defined memSide side.mem_subterms_self)

/-- The knowledge at the beginning of an attempt at a problem without undefined constants. Under
consideration are the variables of the goal in ascending order and then, for each assumption and
for the goal, the parts of both sides that have variables, in the recursive order, which is also
that of the walk; what equals an earlier term is left out. The facts are the assumptions except
those that equal an earlier one, and they bring in no terms. The transcript has an opening line, the
goal, a line for each fact and a closing line. -/
theorem start_seeding {goal : Proposition} {assumptions : List Proposition} {p : Problem}
    (accepted : Problem.ofPropositions goal assumptions = .ok p)
    (defined : ∀ q ∈ goal :: assumptions, q.isDefined) :
    let k := (start p).knowledge
    (p.varNames.Pairwise (fun m n => compare m n = .lt) ∧
      ∀ name, name ∈ p.varNames ↔ ∃ side ∈ goal.sides, Term.var name ∈ side.subterms) ∧
    (∀ t : Term, Term.walk [t] = t.subterms) ∧
    k.terms = (p.varNames.map Term.var ++ (assumptions ++ [goal]).flatMap nodes).eraseDups ∧
    (p.assumptions.foldl assume (seeded p)).terms = (seeded p).terms ∧
    k.facts = assumptions.eraseDups ∧
    k.history = ["we will prove for all " ++ Text.commaSeparated p.varNames ++ ":", goal.text] ++
      k.facts.map assumptionLine ++ ["here we go!"] := by
  obtain ⟨-, -, checked, rfl⟩ := Problem.parts_of_ofPropositions accepted
  have noTerms : (assumptions.foldl assume (seeded ⟨goal, assumptions, goal.varNames⟩)).terms =
      (seeded ⟨goal, assumptions, goal.varNames⟩).terms :=
    terms_foldl_assume fun q mem => considers_seeded mem (defined q (List.mem_cons_of_mem _ mem))
  refine ⟨⟨?_, fun name => goal.mem_varNames⟩, fun t => ?_, ?_, noTerms, ?_, ?_⟩
  · exact Text.pairwise_ascending _
  · simp [Term.walk_eq_flatMap_subterms]
  · rw [knowledge_start, terms_addHistory, noTerms, terms_seeded]
  · have var : assumptions.filter Proposition.hasVariable = assumptions :=
      List.filter_eq_self.2 fun q mem => Proposition.hasVariable_of_checkAssumption (checked q mem)
    rw [knowledge_start, facts_addHistory,
      contents_foldl_eq_eraseDups facts_assume (by rw [facts_seeded]; rfl), facts_seeded, var,
      List.nil_append]
  · rw [knowledge_start, facts_addHistory, history_addHistory (by decide)]
    congr 1
    refine foldl_keeps
      (P := fun k : KnowledgeBase => k.history = _ ++ k.facts.map assumptionLine) ?_
      fun k q => history_assume
    rw [history_seeded, facts_seeded]
    rfl

/-- The second assumption is the first one with the operands the other way round, and so are the
sums in the goal; each of them is kept once, in the form that comes first. -/
theorem start_seeding_sum :
    let x := Term.var "x"
    let y := Term.var "y"
    let doubled := Term.product [.int 2, .sum [y, x]]
    let goal : Proposition := .atMost (.sum [x, y]) doubled
    let bound : Proposition := .atMost (.sum [x, y]) (.int 3)
    let again : Proposition := .atMost (.sum [y, x]) (.int 3)
    let positive : Proposition := .atMost (.int 0) x
    let p : Problem := ⟨goal, [bound, again, positive], ["x", "y"]⟩
    let k := (start p).knowledge
    Problem.ofPropositions goal [bound, again, positive] = .ok p ∧
      (∀ q ∈ [goal, bound, again, positive], q.isDefined) ∧
      k.terms = [x, y, .sum [x, y], doubled] ∧ k.facts = [bound, positive] ∧
      k.history = ["we will prove for all x, y:", goal.text, "assuming: " ++ bound.text,
        "assuming: " ++ positive.text, "here we go!"] := by
  intro x y doubled goal bound again positive p k
  have accepted : Problem.ofPropositions goal [bound, again, positive] = .ok p := rfl
  have defined : ∀ q ∈ [goal, bound, again, positive], q.isDefined := by decide
  obtain ⟨-, -, terms, -, facts, history⟩ := start_seeding accepted defined
  have kept : [bound, again, positive].eraseDups = [bound, positive] := rfl
  rw [kept] at facts
  refine ⟨accepted, defined, terms.trans rfl, facts, ?_⟩
  have lines : k.history = _ ++ k.facts.map assumptionLine ++ _ := history
  rw [lines, facts]
  rfl

end Attempt

end InequalityChaining

import InequalityChaining.Proposition.Basic

/-!
# Knowledge

A knowledge base holds the facts believed true during a proof attempt, the terms under
consideration and a transcript of how both were found. Facts and terms without variables are not
kept, nor is what is known already; nothing is ever removed.

## Main definitions

* `KnowledgeBase` — facts, terms and history in the order in which they were found
* `KnowledgeBase.offerTerm`, `offerFact`, `addHistory` — what is new is added at the end
-/

namespace InequalityChaining

/-- The facts, the terms under consideration and the transcript, each in the order of arrival. -/
structure KnowledgeBase where
  facts : List Proposition
  terms : List Term
  history : List String

namespace KnowledgeBase

/-- Nothing is known. -/
def empty : KnowledgeBase := ⟨[], [], []⟩

/-- Whether a known fact equals this one; equations may differ in direction. -/
def containsFact (k : KnowledgeBase) (fact : Proposition) : Bool := k.facts.any (· == fact)

/-- Whether a term under consideration equals this one. -/
def containsTerm (k : KnowledgeBase) (t : Term) : Bool := k.terms.any (· == t)

/-- Adds a line to the transcript; an empty one is dropped. -/
def addHistory (k : KnowledgeBase) (message : String) : KnowledgeBase :=
  if message.isEmpty then k else { k with history := k.history ++ [message] }

@[simp] theorem facts_addHistory (k : KnowledgeBase) (message : String) :
    (k.addHistory message).facts = k.facts := by
  unfold addHistory
  split <;> rfl

@[simp] theorem terms_addHistory (k : KnowledgeBase) (message : String) :
    (k.addHistory message).terms = k.terms := by
  unfold addHistory
  split <;> rfl

/-- Offers a term. It is added, with a line for the transcript, if it has a variable and is new. The
answer is whether it has been added, next to what is known afterwards. -/
def offerTerm (k : KnowledgeBase) (t : Term) (message : String) : Bool × KnowledgeBase :=
  if !t.hasVariable || k.containsTerm t then (false, k)
  else (true, { k with terms := k.terms ++ [t] }.addHistory message)

/-- What is known after a term has been offered, added or not. -/
def addTerm (k : KnowledgeBase) (t : Term) : KnowledgeBase := (k.offerTerm t "").2

/-- Offers one term after the other. -/
def addTerms (k : KnowledgeBase) (ts : List Term) : KnowledgeBase := ts.foldl addTerm k

/-- Offers a fact. It is added together with both of its sides, with a line for the transcript, if
it has a variable and is new. The answer is whether it has been added, next to what is known
afterwards. -/
def offerFact (k : KnowledgeBase) (fact : Proposition) (message : String) : Bool × KnowledgeBase :=
  if !fact.hasVariable || k.containsFact fact then (false, k)
  else
    -- a side that is known or has no variable is left out
    let k := k.addTerms fact.sides
    (true, { k with facts := k.facts ++ [fact] }.addHistory message)

/-- What is known with a further term, if it is added. -/
def addTerm? (k : KnowledgeBase) (t : Term) (message : String) : Option KnowledgeBase :=
  let (added, k) := k.offerTerm t message
  if added then some k else none

/-- What is known with a further fact, if it is added. -/
def addFact? (k : KnowledgeBase) (fact : Proposition) (message : String) : Option KnowledgeBase :=
  let (added, k) := k.offerFact fact message
  if added then some k else none

end KnowledgeBase

end InequalityChaining

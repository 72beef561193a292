import Mathlib.Data.List.Lex
import InequalityChaining.Proofs.Deduction.Provenance

/-!
# The order of discovery

A step looks for the first admissible candidate of the first rule that has one. The candidates of a
rule are the consistent choices of a known fact for each assumption and of a term for each side that
still has placeholders, ordered by the first choice, then the second, and so on. The matcher works
through lists of bindings that are rebuilt for each assumption and each side. These lists enumerate
the choices: they are sorted by the positions chosen, and all consistent choices are in them, apart
from those of terms that lead to the same bindings as an earlier choice. So what the search finds
first is the first candidate, and where it finds nothing there is none.

## Main definitions

* `threaded?` — the bindings under which facts at given positions match the assumptions
* `Choices`, `completions` — choices of terms, without those that bind the same as an earlier one
* `InferenceRule.Candidate`, `KnowledgeBase.Admissible` — what can be concluded, and admitted
* `Choices.Enumerates` — a list of bindings goes through all choices in their order

## Main results

* `enumerates_assumptionBindings`, `enumerates_termBindings` — the two lists of the search
* `InferenceRule.fire?_eq_some_iff`, `InferenceRule.fire?_eq_none_iff` — what a rule yields
* `deduction_takes_first_candidate` — what a step admits, and when there is no step
-/

namespace InequalityChaining

/-- In a sorted list a search finds the first item that there is something to find for. -/
theorem findSome?_eq_some_iff_of_pairwise {α β : Type} {r : α → α → Prop}
    (asymm : ∀ a b, r a b → ¬ r b a) {as : List α} (sorted : as.Pairwise r) {f : α → Option β}
    {y : β} :
    as.findSome? f = some y ↔ ∃ a ∈ as, f a = some y ∧ ∀ b ∈ as, r b a → f b = none := by
  rw [List.findSome?_eq_some_iff]
  constructor
  · rintro ⟨before, a, after, rfl, found, nothing⟩
    refine ⟨a, by simp, found, fun b mem earlier => ?_⟩
    rcases List.mem_append.1 mem with mem | mem
    · exact nothing b mem
    rcases List.mem_cons.1 mem with rfl | mem
    · exact absurd earlier (asymm _ _ earlier)
    · have later := List.rel_of_pairwise_cons (List.pairwise_append.1 sorted).2.1 mem
      exact absurd later (asymm _ _ earlier)
  · rintro ⟨a, mem, found, nothing⟩
    obtain ⟨before, after, rfl⟩ := List.append_of_mem mem
    refine ⟨before, a, after, rfl, found, fun b mem => nothing b (by simp [mem]) ?_⟩
    exact (List.pairwise_append.1 sorted).2.2 b mem a List.mem_cons_self

/-! ### Positions -/

/-- The order of choices: the first position in which they differ decides. -/
def Precedes (is js : List Nat) : Prop := List.Lex (· < ·) is js

section Positions

variable {is js : List Nat} {i j : Nat}

theorem Precedes.asymm (h : Precedes is js) : ¬ Precedes js is := by
  intro h'
  induction h with
  | nil => cases h'
  | cons _ ih =>
    cases h' with
    | cons h' => exact ih h'
    | rel lt => exact Nat.lt_irrefl _ lt
  | rel lt =>
    cases h' with
    | cons _ => exact Nat.lt_irrefl _ lt
    | rel lt' => exact Nat.lt_asymm lt lt'

/-- Further choices do not change the order. -/
theorem Precedes.concat (h : Precedes is js) (len : is.length = js.length) (i j : Nat) :
    Precedes (is ++ [i]) (js ++ [j]) := by
  induction h with
  | nil => cases len
  | cons _ ih => exact .cons (ih (Nat.succ.inj len))
  | rel lt => exact .rel lt

theorem precedes_concat_of_lt (is : List Nat) (h : i < j) : Precedes (is ++ [i]) (is ++ [j]) := by
  induction is with
  | nil => exact .rel h
  | cons k is ih => exact .cons ih

end Positions

/-! ### Choices -/

/-- The bindings that the facts at the positions lead to, when each of them is matched with its
assumption under the bindings of those before it. -/
def threaded? (facts : List Proposition) : List Proposition → List Nat → Bindings → Option Bindings
  | [], [], b => some b
  | assumption :: rest, i :: is, b => do
    let fact ← facts[i]?
    let c ← fact.matchPattern? assumption b
    threaded? facts rest is c
  | _, _, _ => none

/-- Which positions can be chosen, and the bindings that they lead to. -/
abbrev Choices := List Nat → Bindings → Prop

namespace Choices

/-- Nothing is chosen and nothing is bound. -/
def start : Choices := fun is b => is = [] ∧ b = .empty

/-- After each choice an item of a list is chosen that matches under the bindings so far. -/
def extend {α : Type} (R : Choices) (items : List α) (match? : α → Bindings → Option Bindings) :
    Choices :=
  fun is c => ∃ before i b x, is = before ++ [i] ∧ R before b ∧ items[i]? = some x ∧
    match? x b = some c

/-- A choice that leads to bindings equal to those of an earlier one is dropped. -/
def distinct (R : Choices) : Choices :=
  fun is c => R is c ∧ ∀ is' c', R is' c' → Precedes is' is → ¬ c' == c

end Choices

/-- The choices of terms for the sides of a statement from left to right, as far as the sides have
placeholders. -/
def completions (terms : List Term) (statement : Proposition) : Choices :=
  statement.sides.foldl
    (fun R side =>
      if side.hasPlaceholder then (R.extend terms (·.matchPattern? side)).distinct else R)
    .start

/-- What the rule concludes if the facts at the first positions, equations in both directions, match
the assumptions and the terms at the second positions match what is left of the conclusion. -/
def InferenceRule.Candidate (rule : InferenceRule) (k : KnowledgeBase) (premises terms : List Nat)
    (candidate : Proposition) : Prop :=
  ∃ b c, threaded? (k.facts.flatMap Proposition.directions) rule.assumptions premises .empty =
      some b ∧
    completions k.terms (rule.conclusion.substitute b) terms c ∧
    candidate = (rule.conclusion.substitute b).substitute c

/-- The candidate is free of placeholders and can be simplified to a fact that is new and has a
variable. -/
structure KnowledgeBase.Admissible (k : KnowledgeBase) (table : ReductionTable)
    (candidate fact : Proposition) : Prop where
  ground : ¬ candidate.hasPlaceholder
  simplified : candidate.mapSides table.simplify = .ok fact
  hasVariable : fact.hasVariable
  isNew : ∀ known ∈ k.facts, ¬ known == fact

/-- Some candidate of the rule is admissible. -/
def InferenceRule.IsApplicable (rule : InferenceRule) (table : ReductionTable)
    (k : KnowledgeBase) : Prop :=
  ∃ is js candidate fact, rule.Candidate k is js candidate ∧ k.Admissible table candidate fact

/-- The first admissible candidate of the rule becomes the fact. Of two choices the one with the
earlier facts comes first, and of those with the same facts the one with the earlier terms. -/
def InferenceRule.FirstYields (rule : InferenceRule) (table : ReductionTable) (k : KnowledgeBase)
    (fact : Proposition) : Prop :=
  ∃ is js candidate, rule.Candidate k is js candidate ∧ k.Admissible table candidate fact ∧
    ∀ is' js' candidate' fact', rule.Candidate k is' js' candidate' →
      Precedes is' is ∨ (is' = is ∧ Precedes js' js) → ¬ k.Admissible table candidate' fact'

/-- The knowledge after a rule has led to a fact. -/
def KnowledgeBase.admit (k : KnowledgeBase) (rule : String) (fact : Proposition) : KnowledgeBase :=
  ⟨k.facts ++ [fact], k.terms ++ Term.unknown k.terms fact.sides,
    k.history ++ ["deduced by " ++ rule ++ ": " ++ fact.text]⟩

/-! ### Enumerations -/

/-- The list goes through the bindings of all choices of so many positions, in their order. -/
def Choices.Enumerates (R : Choices) (n : Nat) (bs : List Bindings) : Prop :=
  ∃ cs : List (List Nat × Bindings), cs.map Prod.snd = bs ∧
    cs.Pairwise (fun c d => Precedes c.1 d.1) ∧ (∀ is b, (is, b) ∈ cs ↔ R is b) ∧
    ∀ is b, R is b → is.length = n

namespace Choices.Enumerates

variable {R S : Choices} {n : Nat} {bs : List Bindings} {β : Type} {f : Bindings → Option β} {y : β}

theorem congr (h : R.Enumerates n bs) (same : ∀ is b, R is b ↔ S is b) : S.Enumerates n bs := by
  obtain ⟨cs, bindings, sorted, mem, len⟩ := h
  exact ⟨cs, bindings, sorted, fun is b => (mem is b).trans (same is b), fun is b chosen =>
    len is b ((same is b).2 chosen)⟩

/-- A search in an enumeration finds what comes of the first choice that something comes of. -/
theorem findSome?_eq_some_iff (h : R.Enumerates n bs) :
    bs.findSome? f = some y ↔ ∃ is b, R is b ∧ f b = some y ∧
      ∀ is' b', R is' b' → Precedes is' is → f b' = none := by
  obtain ⟨cs, rfl, sorted, mem, -⟩ := h
  rw [List.findSome?_map, findSome?_eq_some_iff_of_pairwise (fun _ _ => Precedes.asymm) sorted]
  simp only [Prod.exists, Prod.forall, mem, Function.comp_apply]

theorem findSome?_eq_none_iff (h : R.Enumerates n bs) :
    bs.findSome? f = none ↔ ∀ is b, R is b → f b = none := by
  obtain ⟨cs, rfl, -, mem, -⟩ := h
  simp only [List.findSome?_eq_none_iff, List.forall_mem_map, Prod.forall, mem]

theorem start : Choices.start.Enumerates 0 [.empty] := by
  refine ⟨[([], .empty)], rfl, List.pairwise_singleton _ _, ?_, ?_⟩
  · simp [Choices.start]
  · rintro is b ⟨rfl, -⟩
    rfl

/-- Going on with a list in each case goes through all choices of one position more. -/
theorem extend {α : Type} (h : R.Enumerates n bs) (items : List α)
    (match? : α → Bindings → Option Bindings) :
    (R.extend items match?).Enumerates (n + 1)
      (bs.flatMap fun b => items.filterMap (match? · b)) := by
  obtain ⟨cs, rfl, sorted, mem, len⟩ := h
  let step : List Nat × Bindings → α × Nat → Option (List Nat × Bindings) := fun c x =>
    (match? x.1 c.2).map fun d => (c.1 ++ [x.2], d)
  have step_eq : ∀ c x d, step c x = some d ↔ match? x.1 c.2 = some d.2 ∧ d.1 = c.1 ++ [x.2] := by
    rintro c x ⟨is, d⟩
    simp [step, eq_comm]
  refine ⟨cs.flatMap fun c => items.zipIdx.filterMap (step c), ?_, ?_, ?_, ?_⟩
  · rw [List.map_flatMap, List.flatMap_map]
    congr 1
    funext c
    rw [List.map_filterMap]
    calc items.zipIdx.filterMap (fun x => (step c x).map Prod.snd)
        = items.zipIdx.filterMap ((match? · c.2) ∘ Prod.fst) := by
          congr 1
          funext x
          simp [step, Function.comp_def]
      _ = items.filterMap (match? · c.2) := by
          rw [← List.filterMap_map, List.zipIdx_map_fst]
  · refine List.pairwise_flatMap.2 ⟨fun c _ => ?_, sorted.imp_of_mem ?_⟩
    · -- from the same choice it goes on in the order of the list
      have positions : items.zipIdx.Pairwise fun x y => x.2 < y.2 := by
        rw [List.pairwise_iff_getElem]
        intro i j hi hj lt
        simpa using lt
      refine List.pairwise_filterMap.2 (positions.imp fun {x y} lt d hd e he => ?_)
      rw [((step_eq c x d).1 hd).2, ((step_eq c y e).1 he).2]
      exact precedes_concat_of_lt c.1 lt
    · rintro c c' memc memc' earlier d hd e he
      obtain ⟨x, -, hd⟩ := List.mem_filterMap.1 hd
      obtain ⟨y, -, he⟩ := List.mem_filterMap.1 he
      rw [((step_eq c x d).1 hd).2, ((step_eq c' y e).1 he).2]
      have same : c.1.length = c'.1.length :=
        (len c.1 c.2 ((mem _ _).1 memc)).trans (len c'.1 c'.2 ((mem _ _).1 memc')).symm
      exact earlier.concat same x.2 y.2
  · intro is d
    simp only [List.mem_flatMap, List.mem_filterMap, step_eq, List.mem_zipIdx_iff_getElem?]
    constructor
    · rintro ⟨⟨before, b⟩, memc, ⟨x, i⟩, found, matched, rfl⟩
      exact ⟨before, i, b, x, rfl, (mem _ _).1 memc, found, matched⟩
    · rintro ⟨before, i, b, x, rfl, chosen, found, matched⟩
      exact ⟨(before, b), (mem _ _).2 chosen, (x, i), found, matched, rfl⟩
  · rintro _ d ⟨before, i, b, x, rfl, chosen, -, -⟩
    rw [List.length_append, len before b chosen, List.length_singleton]

end Choices.Enumerates

/-! ### Bindings that equal earlier ones -/

section Distinct

variable {a b c : Bindings} {bs : List Bindings}

theorem Bindings.beq_iff :
    a == b ↔ a.size = b.size ∧ ∀ name t, (name, t) ∈ a.entries →
      ∃ u, b.find? name = some u ∧ t == u := by
  change a.equal b = true ↔ _
  simp only [equal, Bool.and_eq_true, beq_iff_eq, List.all_eq_true, Option.any_eq_true, Prod.forall]

/-- Equality of bindings is transitive. -/
theorem Bindings.beq_trans (hab : a == b) (hbc : b == c) : a == c := by
  obtain ⟨size, left⟩ := beq_iff.1 hab
  obtain ⟨size', right⟩ := beq_iff.1 hbc
  refine beq_iff.2 ⟨size.trans size', fun name t mem => ?_⟩
  obtain ⟨u, found, same⟩ := left name t mem
  obtain ⟨entry, memEntry, rfl⟩ := Option.map_eq_some_iff.1 found
  have named : entry.1 = name := by simpa using List.find?_some memEntry
  obtain ⟨v, found', same'⟩ := right name entry.2 (named ▸ List.mem_of_find?_eq_some memEntry)
  exact ⟨v, found', Term.equal_trans same same'⟩

/-- What equals something in a list equals something that is kept of it. -/
theorem any_distinctBindings (bs : List Bindings) (b : Bindings) :
    (distinctBindings bs).any (· == b) = bs.any (· == b) := by
  induction bs using List.reverseRecOn with
  | nil => rfl
  | append_singleton bs c ih =>
    rw [distinctBindings, List.foldl_concat, ← distinctBindings, List.any_append]
    split
    · next dropped =>
      -- what has been kept in the place of `c` equals everything that `c` equals
      cases same : c == b with
      | false => simp [ih, same]
      | true =>
        obtain ⟨d, mem, equal⟩ := List.any_eq_true.1 dropped
        have kept : (distinctBindings bs).any (· == b) :=
          List.any_eq_true.2 ⟨d, mem, Bindings.beq_trans equal same⟩
        simp [kept, same]
    · rw [List.any_append, ih]

theorem distinctBindings_concat (bs : List Bindings) (b : Bindings) :
    distinctBindings (bs ++ [b]) =
      if bs.any (· == b) then distinctBindings bs else distinctBindings bs ++ [b] := by
  rw [distinctBindings, List.foldl_concat, ← distinctBindings, any_distinctBindings]

/-- Of sorted choices those are kept that equal no earlier one. -/
theorem exists_map_eq_distinctBindings {cs : List (List Nat × Bindings)}
    (sorted : cs.Pairwise fun c d => Precedes c.1 d.1) :
    ∃ ds : List (List Nat × Bindings),
      ds.map Prod.snd = distinctBindings (cs.map Prod.snd) ∧ ds.Sublist cs ∧
      ∀ d, d ∈ ds ↔ d ∈ cs ∧ ∀ c ∈ cs, Precedes c.1 d.1 → ¬ c.2 == d.2 := by
  induction cs using List.reverseRecOn with
  | nil => exact ⟨[], rfl, .slnil, by simp⟩
  | append_singleton cs c ih =>
    obtain ⟨sortedFront, -, later⟩ := List.pairwise_append.1 sorted
    obtain ⟨ds, bindings, sublist, mem⟩ := ih sortedFront
    have last : ∀ d ∈ cs, Precedes d.1 c.1 := fun d memd => later d memd c List.mem_cons_self
    -- the last choice does not come before any other
    have front : ∀ d ∈ cs, ((∀ e ∈ cs ++ [c], Precedes e.1 d.1 → ¬ e.2 == d.2) ↔
        ∀ e ∈ cs, Precedes e.1 d.1 → ¬ e.2 == d.2) := by
      intro d memd
      rw [List.forall_mem_append, List.forall_mem_singleton]
      exact and_iff_left fun earlier => absurd (last d memd) earlier.asymm
    have own : (∀ e ∈ cs ++ [c], Precedes e.1 c.1 → ¬ e.2 == c.2) ↔
        ¬ (cs.map Prod.snd).any (· == c.2) := by
      rw [List.forall_mem_append, List.forall_mem_singleton]
      simp only [List.any_map, List.any_eq_true, Function.comp_apply, not_exists, not_and]
      exact ⟨fun h d memd => h.1 d memd (last d memd), fun h =>
        ⟨fun d memd _ => h d memd, fun earlier => absurd earlier earlier.asymm⟩⟩
    rw [List.map_append, List.map_singleton, distinctBindings_concat]
    split
    · next dropped =>
      refine ⟨ds, bindings, sublist.trans (List.sublist_append_left cs [c]), fun d => ?_⟩
      rw [mem, List.mem_append, List.mem_singleton]
      constructor
      · rintro ⟨memd, unlike⟩
        exact ⟨.inl memd, (front d memd).2 unlike⟩
      · rintro ⟨memd | rfl, unlike⟩
        · exact ⟨memd, (front d memd).1 unlike⟩
        · exact absurd dropped (own.1 unlike)
    · next kept =>
      refine ⟨ds ++ [c], by simp [bindings], sublist.append (List.Sublist.refl [c]), fun d => ?_⟩
      rw [List.mem_append, List.mem_singleton, mem, List.mem_append, List.mem_singleton]
      constructor
      · rintro (⟨memd, unlike⟩ | rfl)
        · exact ⟨.inl memd, (front d memd).2 unlike⟩
        · exact ⟨.inr rfl, own.2 kept⟩
      · rintro ⟨memd | rfl, unlike⟩
        · exact .inl ⟨memd, (front d memd).1 unlike⟩
        · exact .inr rfl

/-- Dropping bindings that equal earlier ones goes through the choices that are left. -/
theorem Choices.Enumerates.distinct {R : Choices} {n : Nat} (h : R.Enumerates n bs) :
    R.distinct.Enumerates n (distinctBindings bs) := by
  obtain ⟨cs, rfl, sorted, mem, len⟩ := h
  obtain ⟨ds, bindings, sublist, memds⟩ := exists_map_eq_distinctBindings sorted
  refine ⟨ds, bindings, sorted.sublist sublist, fun is b => ?_, fun is b chosen =>
    len is b chosen.1⟩
  simp only [memds, Prod.forall, mem, Choices.distinct]

end Distinct

/-! ### The lists of the search -/

section Lists

variable {facts assumptions : List Proposition} {terms : List Term}

theorem threaded?_concat (assumption : Proposition) (i : Nat) {is : List Nat} (b : Bindings)
    (len : is.length = assumptions.length) :
    threaded? facts (assumptions ++ [assumption]) (is ++ [i]) b =
      (threaded? facts assumptions is b).bind fun c =>
        facts[i]?.bind fun fact => fact.matchPattern? assumption c := by
  induction assumptions generalizing is b with
  | nil =>
    obtain rfl := List.eq_nil_of_length_eq_zero len
    change (facts[i]?.bind fun fact => (fact.matchPattern? assumption b).bind some) = _
    simp only [Option.bind_fun_some]
    rfl
  | cons first assumptions ih =>
    cases is with
    | nil => cases len
    | cons j is =>
      change (facts[j]?.bind fun fact => (fact.matchPattern? first b).bind
        (threaded? facts (assumptions ++ [assumption]) (is ++ [i]))) =
        (facts[j]?.bind fun fact => (fact.matchPattern? first b).bind
          (threaded? facts assumptions is)).bind _
      -- the last assumption comes behind all others, so that only the brackets move
      simp only [Option.bind_assoc]
      congr 1
      funext fact
      congr 1
      funext c
      exact ih c (Nat.succ.inj len)

theorem length_of_threaded? {is : List Nat} {b c : Bindings}
    (h : threaded? facts assumptions is b = some c) : is.length = assumptions.length := by
  induction assumptions generalizing is b with
  | nil =>
    cases is with
    | nil => rfl
    | cons i is => cases h
  | cons assumption assumptions ih =>
    cases is with
    | nil => cases h
    | cons i is =>
      obtain ⟨fact, -, h⟩ := Option.bind_eq_some_iff.1 h
      obtain ⟨d, -, h⟩ := Option.bind_eq_some_iff.1 h
      exact congrArg Nat.succ (ih h)

/-- The bindings for the assumptions go through the choices of facts. -/
theorem enumerates_assumptionBindings (facts assumptions : List Proposition) :
    Choices.Enumerates
      (fun is b => threaded? (facts.flatMap Proposition.directions) assumptions is .empty = some b)
      assumptions.length (assumptionBindings facts assumptions) := by
  -- the bindings are extended by one assumption after the other, so the last one is split off
  induction assumptions using List.reverseRecOn with
  | nil =>
    refine Choices.Enumerates.start.congr fun is b => ?_
    cases is with
    | nil => simp [Choices.start, threaded?, eq_comm]
    | cons i is => simp [Choices.start, threaded?]
  | append_singleton earlier assumption ih =>
    have next := ih.extend (facts.flatMap Proposition.directions) (·.matchPattern? assumption)
    simp only [List.filterMap_flatMap] at next
    rw [List.length_append, List.length_singleton, assumptionBindings, List.foldl_concat]
    refine next.congr fun is c => ?_
    constructor
    · rintro ⟨before, i, b, q, rfl, chosen, found, matched⟩
      rw [threaded?_concat _ _ _ (length_of_threaded? chosen), chosen, Option.bind_some, found]
      exact matched
    · intro chosen
      have len := length_of_threaded? chosen
      rw [List.length_append, List.length_singleton] at len
      rcases List.eq_nil_or_concat' is with rfl | ⟨before, i, rfl⟩
      · cases len
      · rw [List.length_append, List.length_singleton] at len
        rw [threaded?_concat _ _ _ (Nat.succ.inj len)] at chosen
        obtain ⟨b, chosen, rest⟩ := Option.bind_eq_some_iff.1 chosen
        obtain ⟨q, found, matched⟩ := Option.bind_eq_some_iff.1 rest
        exact ⟨before, i, b, q, rfl, chosen, found, matched⟩

/-- The bindings for the rest of a conclusion go through the choices of terms. -/
theorem enumerates_termBindings (terms : List Term) (statement : Proposition) :
    ∃ n, (completions terms statement).Enumerates n (termBindings terms statement) := by
  have step : ∀ {R : Choices} {n : Nat} {bs : List Bindings} (side : Term), R.Enumerates n bs →
      ∃ n', Choices.Enumerates
        (if side.hasPlaceholder then (R.extend terms (·.matchPattern? side)).distinct else R) n'
        (if side.hasPlaceholder then
          distinctBindings (bs.flatMap fun b => terms.filterMap (·.matchPattern? side b))
        else bs) := by
    intro R n bs side h
    split
    · exact ⟨n + 1, (h.extend terms (·.matchPattern? side)).distinct⟩
    · exact ⟨n, h⟩
  obtain ⟨n, left⟩ := step statement.lhs .start
  exact step statement.rhs left

end Lists

/-! ### What a rule yields -/

namespace InferenceRule

variable {rule : InferenceRule} {table : ReductionTable} {k : KnowledgeBase}
  {candidate fact : Proposition} {d : Deduced}

theorem admit?_of_admissible (h : k.Admissible table candidate fact) :
    rule.admit? table k candidate = some ⟨rule.name, fact, k.admit rule.name fact⟩ := by
  have new : ¬ (!fact.hasVariable || k.containsFact fact) = true := by
    simpa [h.hasVariable, KnowledgeBase.containsFact] using h.isNew
  rw [admit?, if_neg h.ground, h.simplified]
  dsimp only
  cases added : k.addFact? fact ("deduced by " ++ rule.name ++ ": " ++ fact.text) with
  | none => simp [KnowledgeBase.addFact?_eq_ite, new] at added
  | some k' =>
    rw [KnowledgeBase.eq_mk_of_addFact? added (isEmpty_line _ _)]
    rfl

theorem admissible_of_admit? (h : rule.admit? table k candidate = some d) :
    k.Admissible table candidate d.fact := by
  rw [admit?] at h
  split at h
  · cases h
  · next ground =>
    split at h
    · cases h
    · next fact simplified =>
      obtain ⟨k', added, rfl⟩ := Option.map_eq_some_iff.1 h
      obtain ⟨hasVariable, new⟩ := KnowledgeBase.isNew_of_addFact? added
      exact ⟨ground, simplified, hasVariable, fun known mem same =>
        new (List.any_eq_true.2 ⟨known, mem, same⟩)⟩

theorem admit?_eq_some_iff :
    rule.admit? table k candidate = some d ↔
      ∃ fact, k.Admissible table candidate fact ∧
        d = ⟨rule.name, fact, k.admit rule.name fact⟩ := by
  constructor
  · intro h
    have admissible := admissible_of_admit? h
    exact ⟨d.fact, admissible, Option.some.inj (h.symm.trans (admit?_of_admissible admissible))⟩
  · rintro ⟨fact, admissible, rfl⟩
    exact admit?_of_admissible admissible

theorem admit?_eq_none_iff :
    rule.admit? table k candidate = none ↔ ∀ fact, ¬ k.Admissible table candidate fact := by
  constructor
  · intro h fact admissible
    rw [admit?_of_admissible admissible] at h
    cases h
  · intro h
    cases admitted : rule.admit? table k candidate with
    | none => rfl
    | some d => exact absurd (admissible_of_admit? admitted) (h d.fact)

/-- A rule yields its only candidate if this is admissible. -/
theorem fire?_of_single {b c : Bindings}
    (premises : assumptionBindings k.facts rule.assumptions = [b])
    (terms : termBindings k.terms (rule.conclusion.substitute b) = [c])
    (admissible : k.Admissible table ((rule.conclusion.substitute b).substitute c) fact) :
    rule.fire? table k = some ⟨rule.name, fact, k.admit rule.name fact⟩ := by
  rw [fire?, premises, List.findSome?_singleton]
  dsimp only
  rw [terms, List.findSome?_singleton]
  exact admit?_of_admissible admissible

/-- A rule yields its first admissible candidate. -/
theorem fire?_eq_some_iff :
    rule.fire? table k = some d ↔
      ∃ fact, rule.FirstYields table k fact ∧
        d = ⟨rule.name, fact, k.admit rule.name fact⟩ := by
  have premises := enumerates_assumptionBindings k.facts rule.assumptions
  have rest := fun b => enumerates_termBindings k.terms (rule.conclusion.substitute b)
  rw [fire?, premises.findSome?_eq_some_iff]
  constructor
  · rintro ⟨is, b, chosen, found, before⟩
    obtain ⟨n, completes⟩ := rest b
    obtain ⟨js, c, completed, admitted, beforeTerms⟩ := completes.findSome?_eq_some_iff.1 found
    obtain ⟨fact, admissible, rfl⟩ := admit?_eq_some_iff.1 admitted
    refine ⟨fact, ⟨is, js, _, ⟨b, c, chosen, completed, rfl⟩, admissible, ?_⟩, rfl⟩
    rintro is' js' _ fact' ⟨b', c', chosen', completed', rfl⟩ (earlier | ⟨rfl, earlier⟩)
    · -- the facts chosen come first, whatever terms are chosen
      obtain ⟨n', completes'⟩ := rest b'
      have nothing := completes'.findSome?_eq_none_iff.1 (before is' b' chosen' earlier)
      exact admit?_eq_none_iff.1 (nothing js' c' completed') fact'
    · obtain rfl := Option.some.inj (chosen.symm.trans chosen')
      exact admit?_eq_none_iff.1 (beforeTerms js' c' completed' earlier) fact'
  · rintro ⟨fact, ⟨is, js, _, ⟨b, c, chosen, completed, rfl⟩, admissible, before⟩, rfl⟩
    obtain ⟨n, completes⟩ := rest b
    refine ⟨is, b, chosen, ?_, fun is' b' chosen' earlier => ?_⟩
    · refine completes.findSome?_eq_some_iff.2 ⟨js, c, completed, admit?_of_admissible admissible,
        fun js' c' completed' earlier => admit?_eq_none_iff.2 fun fact' => ?_⟩
      exact before is js' _ fact' ⟨b, c', chosen, completed', rfl⟩ (.inr ⟨rfl, earlier⟩)
    · obtain ⟨n', completes'⟩ := rest b'
      refine completes'.findSome?_eq_none_iff.2 fun js' c' completed' =>
        admit?_eq_none_iff.2 fun fact' => ?_
      exact before is' js' _ fact' ⟨b', c', chosen', completed', rfl⟩ (.inl earlier)

/-- A rule yields nothing exactly if it has no admissible candidate. -/
theorem fire?_eq_none_iff : rule.fire? table k = none ↔ ¬ rule.IsApplicable table k := by
  rw [fire?, (enumerates_assumptionBindings k.facts rule.assumptions).findSome?_eq_none_iff]
  constructor
  · rintro nothing ⟨is, js, _, fact, ⟨b, c, chosen, completed, rfl⟩, admissible⟩
    obtain ⟨n, completes⟩ := enumerates_termBindings k.terms (rule.conclusion.substitute b)
    exact admit?_eq_none_iff.1
      (completes.findSome?_eq_none_iff.1 (nothing is b chosen) js c completed) fact admissible
  · intro nothing is b chosen
    obtain ⟨n, completes⟩ := enumerates_termBindings k.terms (rule.conclusion.substitute b)
    refine completes.findSome?_eq_none_iff.2 fun js c completed =>
      admit?_eq_none_iff.2 fun fact admissible => nothing ?_
    exact ⟨is, js, _, fact, ⟨b, c, chosen, completed, rfl⟩, admissible⟩

end InferenceRule

/-! ### Steps and saturation -/

/-- A step admits the first admissible candidate of the first rule that has one: of its candidates
those come first that take earlier facts for the first assumption, then for the second and so on,
then earlier terms for the left and for the right side of what is left of the conclusion. There is
no step exactly if no rule has an admissible candidate, and runs that are saturated have come to
this point. -/
theorem deduction_takes_first_candidate (calculus : Calculus) :
    (∀ (k : KnowledgeBase) (d : Deduced), k.deduce? calculus = some d ↔
      ∃ before rule after, calculus.inference = before ++ rule :: after ∧
        (∃ fact, rule.FirstYields calculus.reduction k fact ∧
          d = ⟨rule.name, fact, k.admit rule.name fact⟩) ∧
        ∀ other ∈ before, ¬ other.IsApplicable calculus.reduction k) ∧
    (∀ k : KnowledgeBase, k.deduce? calculus = none ↔
      ∀ rule ∈ calculus.inference, ¬ rule.IsApplicable calculus.reduction k) ∧
    (∀ (k : KnowledgeBase) (budget : Budget) (stop : KnowledgeBase → Bool) (clock : Nat → Float),
      (k.deduceUntil calculus budget stop clock).ending = .saturated →
        ∀ rule ∈ calculus.inference, ¬ rule.IsApplicable calculus.reduction
          (k.deduceUntil calculus budget stop clock).knowledge) := by
  have saturated : ∀ k : KnowledgeBase, k.deduce? calculus = none ↔
      ∀ rule ∈ calculus.inference, ¬ rule.IsApplicable calculus.reduction k := by
    intro k
    rw [KnowledgeBase.deduce?, List.findSome?_eq_none_iff]
    exact forall₂_congr fun rule _ => InferenceRule.fire?_eq_none_iff
  refine ⟨fun k d => ?_, saturated, fun k budget stop clock ending => ?_⟩
  · rw [KnowledgeBase.deduce?, List.findSome?_eq_some_iff]
    simp only [InferenceRule.fire?_eq_some_iff, InferenceRule.fire?_eq_none_iff]
  · exact (saturated _).1 (deduce?_of_saturated ending)

open Term in
/-- Of all ways to subtract on both sides of the only inequality the first that is new is taken. Of
terms alone nothing follows. -/
theorem deduction_takes_first_candidate_subtraction :
    let known : Proposition := .atMost (var "x") (var "y")
    let new : Proposition :=
      .atMost (difference (var "x") (var "z")) (difference (var "y") (var "z"))
    let calculus : Calculus := ⟨.ofRules [], [subtraction]⟩
    let terms : KnowledgeBase := ⟨[], new.sides, []⟩
    let run := terms.deduceUntil calculus .unlimited (fun _ => false) stillClock
    subtraction.FirstYields calculus.reduction ⟨[known], new.sides, []⟩ new ∧
      run.ending = .saturated ∧ ¬ subtraction.IsApplicable calculus.reduction run.knowledge := by
  intro known new calculus terms run
  obtain ⟨first, -, saturated⟩ := deduction_takes_first_candidate calculus
  have ending : run.ending = .saturated := by
    have nothing : terms.deduce? calculus = none := rfl
    simp [run, KnowledgeBase.deduceUntil, KnowledgeBase.deduceWithin, Budget.rounds,
      Budget.isExhausted, Budget.unlimited, nothing]
  refine ⟨?_, ending, saturated terms .unlimited _ stillClock ending _ List.mem_cons_self⟩
  obtain ⟨before, rule, after, rules, ⟨fact, yields, step⟩, -⟩ :=
    (first ⟨[known], new.sides, []⟩ _).1 deduce?_subtraction
  obtain rfl : rule = subtraction := by
    have mem : rule ∈ calculus.inference := by simp [rules]
    exact List.mem_singleton.1 mem
  obtain rfl : new = fact := congrArg Deduced.fact step
  exact yields

end InequalityChaining

import Mathlib
import InequalityChaining.Proofs.Deduction.Candidates
import InequalityChaining.Proofs.Matching.Kinds
import InequalityChaining.Proofs.Matching.Linearity
import InequalityChaining.Proofs.Reduction.Definedness
import InequalityChaining.Proofs.Term.Congruence

/-!
# Equal terms and equal bindings

Substituting equal bindings into equal terms leads to equal terms, and into equal propositions to
equal propositions. A search for bindings may therefore drop those that equal an earlier one: what
is then instantiated with them has an equal instance under what is kept.

What the search goes on from is another matter. A term may match a name that is bound to one of two
equal terms and not match if it is bound to the other, because nested operations are taken apart
from the end. So what the search drops on the left side may be all that fits the right side. It is
not if the names that both sides have are bound to terms that can stand for each other: the same
ones, or equal ones without nested operations of one kind.

## Main definitions

* `sideCandidates` — all bindings under which a side of a statement matches terms
* `Represents` — a choice of candidates that has an equal one for each of the others
* `Interchanges` — a relation between terms that can stand for each other

## Main results

* `Bindings.alike_of_beq` — equal bindings bind the same names to equal terms
* `Proposition.beq_substitute` — equal propositions under equal bindings
* `represents_termBindings` — what the search for bindings keeps
* `Interchanges.matchesUnderRelated` — terms match alike where related ones stand for each other
* `Interchanges.exists_termBindings` — what is kept of all that there is on both sides
* `substitution_respects_equality` — terms, propositions, and the bindings that are dropped
* `substitution_respects_equality_not_across_sides` — what is lost on the right side
-/

namespace InequalityChaining

open Term

/-! ### Bindings -/

namespace Bindings

variable {b c : Bindings} {name : String}

theorem isSome_find?_iff : (b.find? name).isSome ↔ name ∈ b.entries.map Prod.fst := by
  simp [find?, List.find?_isSome]

/-- Equal bindings bind the same names to equal terms. -/
theorem alike_of_beq (h : b == c) : b.Alike c := by
  obtain ⟨size, values⟩ := beq_iff.1 h
  have subset : b.entries.map Prod.fst ⊆ c.entries.map Prod.fst := by
    intro name mem
    obtain ⟨⟨_, t⟩, memEntry, rfl⟩ := List.mem_map.1 mem
    obtain ⟨u, found, -⟩ := values _ t memEntry
    exact isSome_find?_iff.1 (found ▸ rfl)
  -- there are as many names on both sides, so the second bindings have no others
  have perm : (b.entries.map Prod.fst).Perm (c.entries.map Prod.fst) :=
    (b.nodup.subperm subset).perm_of_length_le (by simpa [Bindings.size] using size.ge)
  intro name
  cases found : b.find? name with
  | none =>
    cases found' : c.find? name with
    | none => exact .none
    | some u =>
      have mem : name ∈ c.entries.map Prod.fst := isSome_find?_iff.1 (found' ▸ rfl)
      have bound := isSome_find?_iff.2 (perm.mem_iff.2 mem)
      rw [found] at bound
      cases bound
  | some t =>
    obtain ⟨⟨n, t⟩, foundEntry, rfl⟩ := Option.map_eq_some_iff.1 found
    obtain rfl : n = name := by simpa using List.find?_some foundEntry
    obtain ⟨u, found', same⟩ := values n t (List.mem_of_find?_eq_some foundEntry)
    rw [found']
    exact .some same

end Bindings

/-! ### Propositions -/

/-- Equal propositions stay equal, also where an equation is read backwards. -/
theorem Proposition.beq_substitute {p q : Proposition} {b c : Bindings} (same : p == q)
    (alike : b.Alike c) : p.substitute b == q.substitute c := by
  obtain ⟨relation, ⟨left, right⟩ | ⟨equation, left, right⟩⟩ := beq_iff_sides.1 same
  · exact beq_iff_sides.2 ⟨relation, .inl ⟨equal_substitute_of_equal left alike,
      equal_substitute_of_equal right alike⟩⟩
  · exact beq_iff_sides.2 ⟨relation, .inr ⟨equation, equal_substitute_of_equal left alike,
      equal_substitute_of_equal right alike⟩⟩

/-! ### Bindings that are dropped -/

/-- Some of the candidates are kept, in their order. For every other there is an equal one among
them, and the statement has equal instances under both. -/
structure Represents (statement : Proposition) (candidates kept : List Bindings) : Prop where
  sublist : kept.Sublist candidates
  exists_beq : ∀ c ∈ candidates, c ∈ kept ∨
    ∃ k ∈ kept, k == c ∧ statement.substitute k == statement.substitute c

/-- All bindings under which a side of a statement matches terms, if it has placeholders. -/
def sideCandidates (terms : List Term) (side : Term) (seeds : List Bindings) : List Bindings :=
  if side.hasPlaceholder then seeds.flatMap fun b => terms.filterMap (·.matchPattern? side b)
  else seeds

section Dropped

variable {statement : Proposition}

theorem sublist_distinctBindings (candidates : List Bindings) :
    (distinctBindings candidates).Sublist candidates := by
  induction candidates using List.reverseRecOn with
  | nil => exact .slnil
  | append_singleton candidates c ih =>
    rw [distinctBindings_concat]
    split
    · exact ih.trans (List.sublist_append_left _ _)
    · exact ih.append (List.Sublist.refl _)

/-- What is dropped equals something that is kept. -/
theorem mem_distinctBindings_or_exists_beq {candidates : List Bindings} {c : Bindings}
    (mem : c ∈ candidates) :
    c ∈ distinctBindings candidates ∨ ∃ k ∈ distinctBindings candidates, k == c := by
  induction candidates using List.reverseRecOn with
  | nil => cases mem
  | append_singleton candidates d ih =>
    rw [distinctBindings_concat, ← any_distinctBindings]
    split
    · next dropped =>
      rcases List.mem_append.1 mem with earlier | last
      · exact ih earlier
      · rw [List.mem_singleton.1 last]
        exact .inr (List.any_eq_true.1 dropped)
    · rcases List.mem_append.1 mem with earlier | last
      · refine (ih earlier).imp (List.mem_append_left _) ?_
        rintro ⟨k, kept, same⟩
        exact ⟨k, List.mem_append_left _ kept, same⟩
      · exact .inl (List.mem_append_right _ last)

theorem represents_distinctBindings (self : statement == statement) (candidates : List Bindings) :
    Represents statement candidates (distinctBindings candidates) := by
  refine ⟨sublist_distinctBindings candidates, fun c mem => ?_⟩
  refine (mem_distinctBindings_or_exists_beq mem).imp_right ?_
  rintro ⟨k, kept, same⟩
  exact ⟨k, kept, same, Proposition.beq_substitute self (Bindings.alike_of_beq same)⟩

theorem Represents.refl (candidates : List Bindings) :
    Represents statement candidates candidates :=
  ⟨List.Sublist.refl _, fun _ mem => .inl mem⟩

/-- The search for bindings drops candidates for the left side, and then candidates for the right
side that start from what it has kept. -/
theorem represents_termBindings (terms : List Term) (self : statement == statement) :
    ∃ kept, Represents statement (sideCandidates terms statement.lhs [.empty]) kept ∧
      Represents statement (sideCandidates terms statement.rhs kept)
        (termBindings terms statement) := by
  have side : ∀ (u : Term) (seeds : List Bindings),
      Represents statement (sideCandidates terms u seeds)
        (if u.hasPlaceholder then
          distinctBindings (seeds.flatMap fun b => terms.filterMap (·.matchPattern? u b))
        else seeds) := by
    intro u seeds
    rw [sideCandidates]
    split
    · exact represents_distinctBindings self _
    · exact .refl seeds
  exact ⟨_, side statement.lhs [.empty], side statement.rhs _⟩

end Dropped

/-! ### Bindings that are not reached -/

namespace Bindings

/-- All names are bound to terms of a kind. -/
def Binds (P : Term → Prop) (b : Bindings) : Prop := ∀ name t, b.find? name = some t → P t

/-- Each of these names is bound to related terms, or on neither side. -/
def RelatedOn (R : Term → Term → Prop) (names : List String) (b c : Bindings) : Prop :=
  ∀ name ∈ names, Option.Rel R (b.find? name) (c.find? name)

/-- A name that is bound anew is bound to the same term on both sides. -/
def ChangeAlike (b c r r' : Bindings) : Prop :=
  ∀ name, (r.find? name = b.find? name ∧ r'.find? name = c.find? name) ∨
    r.find? name = r'.find? name

section Changes

variable {P : Term → Prop} {R : Term → Term → Prop} {names others : List String} {name : String}
  {b c d e r r' : Bindings}

theorem binds_empty : empty.Binds P := fun _ _ found => by simp at found

theorem Binds.rel_refl (h : b.Binds P) (refl : ∀ t, P t → R t t) (name : String) :
    Option.Rel R (b.find? name) (b.find? name) := by
  cases found : b.find? name with
  | none => exact .none
  | some t => exact .some (refl t (h name t found))

theorem RelatedOn.mono (h : RelatedOn R names b c) (subset : ∀ name ∈ others, name ∈ names) :
    RelatedOn R others b c :=
  fun name mem => h name (subset name mem)

theorem ChangeAlike.refl : ChangeAlike b c b c := fun _ => .inl ⟨rfl, rfl⟩

theorem ChangeAlike.trans (first : ChangeAlike b c d e) (second : ChangeAlike d e r r') :
    ChangeAlike b c r r' := by
  intro name
  rcases second name with ⟨left, right⟩ | same
  · rw [left, right]
    exact first name
  · exact .inr same

theorem changeAlike_insert (b c : Bindings) (name : String) (t : Term) :
    ChangeAlike b c (b.insert name t) (c.insert name t) := by
  intro n
  rw [find?_insert, find?_insert]
  split
  · exact .inr rfl
  · exact .inl ⟨rfl, rfl⟩

/-- Related terms stay so, and a name that is bound anew is bound to terms that are related. -/
theorem ChangeAlike.rel (h : ChangeAlike b c r r')
    (related : Option.Rel R (b.find? name) (c.find? name)) (bound : r.Binds P)
    (refl : ∀ t, P t → R t t) : Option.Rel R (r.find? name) (r'.find? name) := by
  rcases h name with ⟨left, right⟩ | same
  · rwa [left, right]
  · rw [← same]
    exact bound.rel_refl refl name

end Changes

end Bindings

open Bindings

/-- Related terms of a kind can stand for each other where a name is bound to them: what passes for
one of them passes for the other. -/
structure Interchanges (P : Term → Prop) (R : Term → Term → Prop) : Prop where
  parts : PassesToParts P
  closed : ∀ {t}, P t → t.isGround ∧ t.isDefined
  refl : ∀ {t}, P t → R t t
  regroups : ∀ {s t u}, P s → P t → P u → R t u → Regroups s t → Regroups s u

/-- A pattern that matches the term under some bindings also matches it under others that bind the
names of the pattern to related terms. -/
def Term.MatchesUnderRelated (P : Term → Prop) (R : Term → Term → Prop) (s : Term) : Prop :=
  P s → ∀ (p : Term) (b c r : Bindings), p.isDefined → b.Binds P → c.Binds P →
    RelatedOn R p.placeholderNames b c → s.matchPattern? p b = some r →
      ∃ r', s.matchPattern? p c = some r' ∧ ChangeAlike b c r r'

namespace Interchanges

variable {P : Term → Prop} {R : Term → Term → Prop} {op : Variadic} {s t p s₁ s₂ p₁ p₂ : Term}
  {ss ps : List Term} {b c r : Bindings}

variable (h : Interchanges P R)

include h

theorem equal_refl (tame : P t) : t.equal t := Term.equal_refl (h.closed tame).2

/-- Names are bound to parts of what is matched, which are of its kind. -/
theorem binds_of_matchPattern? (tame : P s) (bound : b.Binds P)
    (found : s.matchPattern? p b = some r) : r.Binds P :=
  (matches_of_matchPattern? found).forall_bound h.parts tame bound

/-- Two parts are matched one after the other. -/
theorem exists_bind (first : s₁.MatchesUnderRelated P R) (second : s₂.MatchesUnderRelated P R)
    (tame : P s₁ ∧ P s₂) (defined : p₁.isDefined ∧ p₂.isDefined) (boundB : b.Binds P)
    (boundC : c.Binds P)
    (related : RelatedOn R p₁.placeholderNames b c ∧ RelatedOn R p₂.placeholderNames b c)
    (found : ((s₁.matchPattern? p₁ b).bind fun d => s₂.matchPattern? p₂ d) = some r) :
    ∃ r', ((s₁.matchPattern? p₁ c).bind fun d => s₂.matchPattern? p₂ d) = some r' ∧
      ChangeAlike b c r r' := by
  obtain ⟨d, foundFirst, foundSecond⟩ := Option.bind_eq_some_iff.1 found
  obtain ⟨e, matchFirst, change⟩ :=
    first tame.1 p₁ b c d defined.1 boundB boundC related.1 foundFirst
  have boundD := h.binds_of_matchPattern? tame.1 boundB foundFirst
  have boundE := h.binds_of_matchPattern? tame.1 boundC matchFirst
  have between : RelatedOn R p₂.placeholderNames d e := fun name mem =>
    change.rel (related.2 name mem) boundD fun _ => h.refl
  obtain ⟨r', matchSecond, change'⟩ :=
    second tame.2 p₂ d e r defined.2 boundD boundE between foundSecond
  exact ⟨r', Option.bind_eq_some_iff.2 ⟨e, matchFirst, matchSecond⟩, change.trans change'⟩

/-- Operand lists are matched as the last operand and what is in front of it. -/
theorem exists_matchBackwards
    (smaller : ∀ t : Term, t.size < (variadic op ss).size → t.MatchesUnderRelated P R)
    (tame : P (variadic op ss)) (defined : (variadic op ps).isDefined) (boundB : b.Binds P)
    (boundC : c.Binds P) (related : RelatedOn R (variadic op ps).placeholderNames b c)
    (found : matchBackwards op ss.reverse ps.reverse b = some r) :
    ∃ r', matchBackwards op ss.reverse ps.reverse c = some r' ∧ ChangeAlike b c r r' := by
  rcases lengths_of_matchBackwards found with ⟨rfl, rfl⟩ | ⟨s, p, rfl, rfl⟩ |
    ⟨ss, s, ps, p, rfl, rfl, several, severalPatterns⟩
  · rw [List.reverse_nil, matchBackwards.eq_def] at found ⊢
    obtain rfl := Option.some.inj found
    exact ⟨c, rfl, .refl⟩
  · rw [List.reverse_singleton, List.reverse_singleton, matchBackwards_singleton] at found ⊢
    refine smaller s (size_lt_of_append [] s) (h.parts.single tame) p b c r
      (isDefined_variadic.1 defined p List.mem_cons_self) boundB boundC
      (related.mono fun name mem => ?_) found
    exact mem_placeholderNames_variadic.2 ⟨p, List.mem_cons_self, mem⟩
  · have split : Splits op (ps ++ [p]) (front op ps) p := splits_front severalPatterns p
    have definedSubject := isDefined_variadic.1 (h.closed tame).2
    rw [List.forall_mem_append] at definedSubject
    obtain ⟨definedFront, definedLast⟩ := split.isDefined_iff.1 defined
    rw [isDefined_variadic, List.forall_mem_append] at defined
    rw [matchBackwards_append several severalPatterns definedSubject.1 defined.1] at found ⊢
    exact h.exists_bind (smaller s (size_lt_of_append ss s))
      (smaller (front op ss) (size_front_lt ss s))
      (h.parts.splits (splits_front several s) tame).symm ⟨definedLast, definedFront⟩ boundB boundC
      ⟨related.mono fun name mem => (split.mem_placeholderNames_iff name).2 (.inl mem),
        related.mono fun name mem => (split.mem_placeholderNames_iff name).2 (.inr mem)⟩ found

/-- A placeholder that is not bound takes the term under either bindings, and one that is bound
stands for related terms. -/
theorem exists_matchPattern?_placeholder {name : String} {kind : PlaceholderKind} (tame : P s)
    (boundB : b.Binds P) (boundC : c.Binds P) (related : Option.Rel R (b.find? name) (c.find? name))
    (found : s.matchPattern? (placeholder name kind) b = some r) :
    ∃ r', s.matchPattern? (placeholder name kind) c = some r' ∧ ChangeAlike b c r r' := by
  obtain ⟨ground, defined⟩ := h.closed tame
  -- related bindings bind the same names, so two of the four cases do not occur
  cases inB : b.find? name with
  | none =>
    cases inC : c.find? name with
    | some u => rw [inB, inC] at related; cases related
    | none =>
      rw [matchPattern?_of_unbound ground inB] at found
      obtain ⟨allowed, taken⟩ := Option.ite_none_left_eq_some.1 found
      obtain rfl := Option.some.inj taken
      refine ⟨c.insert name s, ?_, changeAlike_insert b c name s⟩
      rw [matchPattern?_of_unbound ground inC, if_neg allowed]
  | some t =>
    cases inC : c.find? name with
    | none => rw [inB, inC] at related; cases related
    | some u =>
      have tameT := boundB name t inB
      have tameU := boundC name u inC
      obtain ⟨groundT, definedT⟩ := h.closed tameT
      obtain ⟨groundU, definedU⟩ := h.closed tameU
      have stands : R t u := by
        rw [inB, inC] at related
        cases related with
        | some stands => exact stands
      rw [matchPattern?_of_bound ground groundT inB] at found
      obtain ⟨rfl, passes⟩ := regroups_of_matchPattern? ground defined groundT definedT found
      refine ⟨c, ?_, .refl⟩
      rw [matchPattern?_of_bound ground groundU inC]
      exact matchPattern?_of_regroups (h.regroups tame tameT tameU stands passes) ground defined
        groundU definedU

omit h in
/-- Where only an equal term matches, nothing is bound. -/
theorem exists_of_beq (found : (if s == p then some b else none) = some r) :
    ∃ r', (if s == p then some c else none) = some r' ∧ ChangeAlike b c r r' := by
  obtain ⟨same, unchanged⟩ := Option.ite_none_right_eq_some.1 found
  obtain rfl := Option.some.inj unchanged
  exact ⟨c, if_pos same, .refl⟩

/-- Where related terms can stand for each other, terms match alike under bindings to them. -/
theorem matchesUnderRelated (s : Term) : s.MatchesUnderRelated P R := by
  -- the operands in front are matched as an operation of their own, which is smaller but no part
  induction n : s.size using Nat.strong_induction_on generalizing s with
  | _ n ih =>
  have smaller : ∀ t : Term, t.size < s.size → t.MatchesUnderRelated P R :=
    fun t lt => ih t.size (n ▸ lt) t rfl
  intro tame p b c r defined boundB boundC related found
  cases p with
  | constant value =>
    rw [matchPattern?_constant] at found ⊢
    exact exists_of_beq found
  | var name =>
    rw [matchPattern?_var] at found ⊢
    exact exists_of_beq found
  | placeholder name kind =>
    exact h.exists_matchPattern?_placeholder tame boundB boundC (related name (by simp)) found
  | binary o p₁ p₂ =>
    obtain ⟨s₁, s₂, -, rfl, -⟩ := matchPattern?_binary_eq_some.1 found
    rw [matchPattern?_binary, if_pos rfl] at found ⊢
    have sizes : s₁.size < (binary o s₁ s₂).size ∧ s₂.size < (binary o s₁ s₂).size := by
      simp only [Term.size]
      omega
    exact h.exists_bind (smaller s₁ sizes.1) (smaller s₂ sizes.2) (h.parts.binary tame)
      (isDefined_binary.1 defined) boundB boundC
      ⟨related.mono fun name mem => mem_placeholderNames_binary.2 (.inl mem),
        related.mono fun name mem => mem_placeholderNames_binary.2 (.inr mem)⟩ found
  | variadic op ps =>
    obtain ⟨ss, rfl⟩ := exists_of_matchPattern?_variadic found
    rw [matchPattern?_variadic] at found ⊢
    split at found
    · next same =>
      obtain rfl := Option.some.inj found
      exact ⟨c, if_pos same, .refl⟩
    · next distinct =>
      rw [if_pos rfl] at found
      rw [if_neg distinct, if_pos rfl]
      exact h.exists_matchBackwards smaller tame defined boundB boundC related found

end Interchanges

/-! ### Terms that can stand for each other -/

theorem passesToParts_closed : PassesToParts fun t => t.isGround ∧ t.isDefined :=
  passesToParts_isGround.and passesToParts_isDefined

/-- The same term can stand for itself. -/
theorem interchanges_eq : Interchanges (fun t => t.isGround ∧ t.isDefined) Eq where
  parts := passesToParts_closed
  closed tame := tame
  refl _ := rfl
  regroups _ _ _ same passes := same ▸ passes

/-- Equal terms without nested operations of one kind can stand for each other, since only equal
ones pass for them. -/
theorem interchanges_equal :
    Interchanges (fun t => (t.isGround ∧ t.isDefined) ∧ t.IsFlat) fun t u => t.equal u where
  parts := passesToParts_closed.and passesToParts_isFlat
  closed tame := tame.1
  refl tame := equal_refl tame.1.2
  regroups := by
    rintro s t u ⟨⟨ground, defined⟩, flat⟩ ⟨⟨ground', defined'⟩, flat'⟩ - same passes
    exact .equal (equal_trans (passes.equal_of_isFlat ground defined ground' defined' flat flat')
      same)

/-! ### Both sides -/

section BothSides

variable {P : Term → Prop} {R : Term → Term → Prop} {terms : List Term} {side : Term}
  {seeds others : List Bindings} {statement : Proposition} {b c r : Bindings}

/-- The left side binds no names but its own. -/
theorem mem_placeholderNames_of_mem_sideCandidates {name : String}
    (closed : ∀ t ∈ terms, t.isGround ∧ t.isDefined) (defined : side.isDefined)
    (mem : c ∈ sideCandidates terms side [.empty]) (bound : (c.find? name).isSome) :
    name ∈ side.placeholderNames := by
  rw [sideCandidates] at mem
  split at mem
  · simp only [List.flatMap_singleton] at mem
    obtain ⟨t, memTerm, found⟩ := List.mem_filterMap.1 mem
    have extended := ((matches_of_matchPattern? found).instantiates (closed t memTerm).1
      (closed t memTerm).2 defined closed_empty).extended
    simpa using (extended.bound name).1 bound
  · rw [List.mem_singleton.1 mem] at bound
    simp at bound

/-- Candidates bind terms of a kind if all terms and the seeds are of that kind. -/
theorem Interchanges.binds_of_mem_sideCandidates (h : Interchanges P R) (tame : ∀ t ∈ terms, P t)
    (bound : ∀ b ∈ seeds, b.Binds P) (mem : c ∈ sideCandidates terms side seeds) : c.Binds P := by
  rw [sideCandidates] at mem
  split at mem
  · obtain ⟨b, memSeed, inner⟩ := List.mem_flatMap.1 mem
    obtain ⟨t, memTerm, found⟩ := List.mem_filterMap.1 inner
    exact h.binds_of_matchPattern? (tame t memTerm) (bound b memSeed) found
  · exact bound c mem

/-- A seed may be replaced by an equal one that binds the names of the side to related terms. -/
theorem Interchanges.exists_sideCandidates (h : Interchanges P R) (tame : ∀ t ∈ terms, P t)
    (defined : side.isDefined) (boundSeeds : ∀ b ∈ seeds, b.Binds P)
    (boundOthers : ∀ b ∈ others, b.Binds P)
    (covered : ∀ b ∈ seeds, ∃ c ∈ others, b.Alike c ∧ RelatedOn R side.placeholderNames b c)
    (mem : r ∈ sideCandidates terms side seeds) :
    ∃ r' ∈ sideCandidates terms side others, r.Alike r' := by
  have bound := h.binds_of_mem_sideCandidates tame boundSeeds mem
  rw [sideCandidates] at mem ⊢
  split at mem
  · next has =>
    obtain ⟨b, memSeed, inner⟩ := List.mem_flatMap.1 mem
    obtain ⟨t, memTerm, found⟩ := List.mem_filterMap.1 inner
    obtain ⟨c, memOther, alike, related⟩ := covered b memSeed
    obtain ⟨r', found', change⟩ := h.matchesUnderRelated t (tame t memTerm) side b c r defined
      (boundSeeds b memSeed) (boundOthers c memOther) related found
    rw [if_pos has]
    exact ⟨r', List.mem_flatMap.2 ⟨c, memOther, List.mem_filterMap.2 ⟨t, memTerm, found'⟩⟩,
      fun name => change.rel (alike name) bound fun _ => h.equal_refl⟩
  · next hasNot =>
    rw [if_neg hasNot]
    obtain ⟨c, memOther, alike, -⟩ := covered r mem
    exact ⟨c, memOther, alike⟩

/-- Nothing is lost on the right side, where the search starts from what it has kept for the left
side, if equal bindings for the left side bind the names of the right side to terms that can stand
for each other. -/
theorem Interchanges.exists_termBindings (h : Interchanges P R) (self : statement == statement)
    (tame : ∀ t ∈ terms, P t) (defined : statement.rhs.isDefined)
    (related : ∀ b ∈ sideCandidates terms statement.lhs [.empty],
      ∀ c ∈ sideCandidates terms statement.lhs [.empty], c == b →
        RelatedOn R statement.rhs.placeholderNames b c)
    (mem : r ∈ sideCandidates terms statement.rhs
      (sideCandidates terms statement.lhs [.empty])) :
    ∃ k ∈ termBindings terms statement, statement.substitute k == statement.substitute r := by
  obtain ⟨kept, left, right⟩ := represents_termBindings terms self
  have boundLeft : ∀ b ∈ sideCandidates terms statement.lhs [.empty], b.Binds P :=
    fun b => h.binds_of_mem_sideCandidates tame (List.forall_mem_singleton.2 binds_empty)
  have boundKept : ∀ b ∈ kept, b.Binds P := fun b mem => boundLeft b (left.sublist.subset mem)
  have covered : ∀ b ∈ sideCandidates terms statement.lhs [.empty],
      ∃ c ∈ kept, b.Alike c ∧ RelatedOn R statement.rhs.placeholderNames b c := by
    intro b memLeft
    have bound := boundLeft b memLeft
    rcases left.exists_beq b memLeft with memKept | ⟨c, memKept, same, -⟩
    · exact ⟨b, memKept, bound.rel_refl fun _ => h.equal_refl,
        fun name _ => bound.rel_refl (fun _ => h.refl) name⟩
    · exact ⟨c, memKept, (alike_of_beq same).symm,
        related b memLeft c (left.sublist.subset memKept) same⟩
  obtain ⟨d, memRight, alike⟩ :=
    h.exists_sideCandidates tame defined boundLeft boundKept covered mem
  rcases right.exists_beq d memRight with memKept | ⟨k, memKept, same, -⟩
  · exact ⟨d, memKept, Proposition.beq_substitute self alike.symm⟩
  · exact ⟨k, memKept, Proposition.beq_substitute self ((alike_of_beq same).trans alike.symm)⟩

/-- With flat terms nothing is lost on the right side. -/
theorem exists_termBindings_of_isFlat (self : statement == statement)
    (closed : ∀ t ∈ terms, t.isGround ∧ t.isDefined) (flat : ∀ t ∈ terms, t.IsFlat)
    (defined : statement.rhs.isDefined)
    (mem : r ∈ sideCandidates terms statement.rhs
      (sideCandidates terms statement.lhs [.empty])) :
    ∃ k ∈ termBindings terms statement, statement.substitute k == statement.substitute r :=
  interchanges_equal.exists_termBindings self (fun t mem => ⟨closed t mem, flat t mem⟩) defined
    (fun _ _ _ _ same name _ => (alike_of_beq same).symm name) mem

/-- If equal bindings for the left side bind the names on both sides to the same terms, nothing is
lost on the right side either. -/
theorem exists_termBindings_of_shared (self : statement == statement)
    (closed : ∀ t ∈ terms, t.isGround ∧ t.isDefined) (definedLeft : statement.lhs.isDefined)
    (definedRight : statement.rhs.isDefined)
    (shared : ∀ b ∈ sideCandidates terms statement.lhs [.empty],
      ∀ c ∈ sideCandidates terms statement.lhs [.empty], c == b →
        ∀ name ∈ statement.lhs.placeholderNames, name ∈ statement.rhs.placeholderNames →
          b.find? name = c.find? name)
    (mem : r ∈ sideCandidates terms statement.rhs
      (sideCandidates terms statement.lhs [.empty])) :
    ∃ k ∈ termBindings terms statement, statement.substitute k == statement.substitute r := by
  refine interchanges_eq.exists_termBindings self closed definedRight ?_ mem
  intro b memB c memC same name memRight
  have unbound : name ∉ statement.lhs.placeholderNames →
      ∀ d ∈ sideCandidates terms statement.lhs [.empty], d.find? name = none :=
    fun notLeft d memD => Option.not_isSome_iff_eq_none.1 fun bound =>
      notLeft (mem_placeholderNames_of_mem_sideCandidates closed definedLeft memD bound)
  have found : b.find? name = c.find? name := by
    by_cases memLeft : name ∈ statement.lhs.placeholderNames
    · exact shared b memB c memC same name memLeft memRight
    · rw [unbound memLeft b memB, unbound memLeft c memC]
  rw [found]
  cases c.find? name with
  | none => exact .none
  | some t => exact .some rfl

end BothSides

/-! ### The theorem -/

/-- Substitution respects equality. Equal bindings make equal terms of equal terms, and equal
propositions of equal propositions. So on each side the search for bindings only drops those under
which the statement that it is for equals an instance under what is kept. With terms that have no
placeholders and no undefined constants this holds of all that a search without dropping would find
on both sides, if there are no nested operations of one kind, as in simplified terms, or if equal
bindings for the left side bind the placeholders that the sides have in common to the same terms, as
they do where the sides have none in common. -/
theorem substitution_respects_equality :
    (∀ (s t : Term) (b c : Bindings), s == t → b == c → s.substitute b == t.substitute c) ∧
    (∀ (p q : Proposition) (b c : Bindings), p == q → b == c →
      p.substitute b == q.substitute c) ∧
    ∀ (terms : List Term) (statement : Proposition), statement.isDefined →
      let left := sideCandidates terms statement.lhs [.empty]
      (∃ kept, Represents statement left kept ∧
        Represents statement (sideCandidates terms statement.rhs kept)
          (termBindings terms statement)) ∧
      ((∀ t ∈ terms, t.isGround ∧ t.isDefined) →
        ((∀ t ∈ terms, t.IsFlat) ∨ ∀ b ∈ left, ∀ c ∈ left, c == b →
          ∀ name ∈ statement.lhs.placeholderNames, name ∈ statement.rhs.placeholderNames →
            b.find? name = c.find? name) →
        ∀ c ∈ sideCandidates terms statement.rhs left,
          ∃ k ∈ termBindings terms statement,
            statement.substitute k == statement.substitute c) := by
  refine ⟨fun s t b c same bindings => ?_, fun p q b c same bindings => ?_,
    fun terms statement defined => ?_⟩
  · exact equal_substitute_of_equal same (alike_of_beq bindings)
  · exact Proposition.beq_substitute same (alike_of_beq bindings)
  · have self : statement == statement := Proposition.isEquivalenceOn_beq.refl defined
    obtain ⟨definedLeft, definedRight⟩ := Bool.and_eq_true_iff.1 defined
    refine ⟨represents_termBindings terms self, fun closed condition c mem => ?_⟩
    rcases condition with flat | shared
    · exact exists_termBindings_of_isFlat self closed flat definedRight mem
    · exact exists_termBindings_of_shared self closed definedLeft definedRight shared mem

/-- The placeholders of a sum stand for equal terms after substitution, in one order and in the
other. Of two equal bindings for an inequality the search keeps the first. With nested sums it keeps
the first of two for the left side of another one, whose right side has other placeholders. -/
theorem substitution_respects_equality_merged :
    let X := placeholder "X" .any
    let Y := placeholder "Y" .any
    let u := sum [var "x", int 1]
    let v := sum [int 1, var "x"]
    let s := sum [X, Y, var "z"]
    let t := sum [var "z", Y, X]
    let b := (Bindings.empty.insert "X" u).insert "Y" v
    let c := (Bindings.empty.insert "X" v).insert "Y" u
    let p := Proposition.equals s (var "w")
    let q := Proposition.equals (var "w") t
    let statement := Proposition.atMost X X
    let second := Bindings.empty.insert "X" v
    let nested := [sum [u, var "y"], sum [v, var "y"], product [var "y", var "z"]]
    let apart := Proposition.atMost (sum [X, var "y"]) (product [Y, var "z"])
    let third := second.insert "Y" (var "y")
    s == t ∧ b == c ∧ s.substitute b == t.substitute c ∧
      p == q ∧ p.substitute b == q.substitute c ∧
      statement.isDefined ∧ (∀ t ∈ [u, v], t.isGround ∧ t.isDefined) ∧ (∀ t ∈ [u, v], t.IsFlat) ∧
      second ∈ sideCandidates [u, v] statement.rhs
        (sideCandidates [u, v] statement.lhs [.empty]) ∧
      (∃ kept, Represents statement (sideCandidates [u, v] statement.lhs [.empty]) kept ∧
        Represents statement (sideCandidates [u, v] statement.rhs kept)
          (termBindings [u, v] statement)) ∧
      (∃ k ∈ termBindings [u, v] statement,
        statement.substitute k == statement.substitute second) ∧
      apart.isDefined ∧ (∀ t ∈ nested, t.isGround ∧ t.isDefined) ∧
      third ∈ sideCandidates nested apart.rhs (sideCandidates nested apart.lhs [.empty]) ∧
      ∃ k ∈ termBindings nested apart, apart.substitute k == apart.substitute third := by
  intro X Y u v s t b c p q statement second nested apart third
  have sameTerms : s == t := by decide
  have sameBindings : b == c := by decide
  have sameEquations : p == q := by decide
  have closed : ∀ t ∈ [u, v], t.isGround ∧ t.isDefined := by decide
  have normal : ∀ t ∈ [u, v], Standard.IsNormal t := by decide
  have flat : ∀ t ∈ [u, v], t.IsFlat := fun t mem => isFlat_of_isNormal (normal t mem)
  have candidates : sideCandidates [u, v] statement.rhs
      (sideCandidates [u, v] statement.lhs [.empty]) =
        [Bindings.empty.insert "X" u, Bindings.empty.insert "X" u, second, second] := by cbv
  have memSecond : second ∈ sideCandidates [u, v] statement.rhs
      (sideCandidates [u, v] statement.lhs [.empty]) := by simp [candidates]
  have closedNested : ∀ t ∈ nested, t.isGround ∧ t.isDefined := by decide
  have candidatesApart : sideCandidates nested apart.rhs
      (sideCandidates nested apart.lhs [.empty]) =
        [(Bindings.empty.insert "X" u).insert "Y" (var "y"), third] := by cbv
  have memThird : third ∈ sideCandidates nested apart.rhs
      (sideCandidates nested apart.lhs [.empty]) := by simp [candidatesApart]
  have disjoint : ∀ name ∈ apart.lhs.placeholderNames, name ∉ apart.rhs.placeholderNames := by
    decide
  obtain ⟨terms, propositions, dropped⟩ := substitution_respects_equality
  obtain ⟨kept, reached⟩ := dropped [u, v] statement (by decide)
  obtain ⟨-, reachedApart⟩ := dropped nested apart (by decide)
  exact ⟨sameTerms, sameBindings, terms s t b c sameTerms sameBindings, sameEquations,
    propositions p q b c sameEquations sameBindings, by decide, closed, flat, memSecond, kept,
    reached closed (.inl flat) second memSecond, by decide, closedNested, memThird,
    reachedApart closedNested (.inr fun _ _ _ _ _ name left right =>
      absurd right (disjoint name left)) third memThird⟩

/-- Nested sums are taken apart from the end. Of two equal sums that the left side binds a
placeholder to, the second fits the right side and the first, which is kept, does not. Without
nested operations the same happens where terms have placeholders. In both cases nothing is left of
what the search would find without dropping. -/
theorem substitution_respects_equality_not_across_sides :
    let X := placeholder "X" .any
    let Y := placeholder "Y" .any
    let Z := placeholder "Z" .any
    let inner := sum [var "x", var "w"]
    let nested := [sum [sum [var "z", inner], var "y"], sum [inner, var "z", var "y"],
      product [sum [var "x", var "w", var "z"], var "q"]]
    let statement := Proposition.atMost (sum [X, var "y"]) (product [X, Z])
    let withPlaceholder := [sum [Y, var "y", int 1], sum [var "y", Y, int 1],
      product [sum [var "y", var "x"], var "q"]]
    let statement' := Proposition.atMost (sum [X, int 1]) (product [X, Z])
    let left := sideCandidates nested statement.lhs [.empty]
    let left' := sideCandidates withPlaceholder statement'.lhs [.empty]
    statement.isDefined ∧ (∀ t ∈ nested, t.isGround ∧ t.isDefined) ∧
      (∃ c ∈ sideCandidates nested statement.rhs left,
        ¬ ∃ k ∈ termBindings nested statement,
          statement.substitute k == statement.substitute c) ∧
      statement'.isDefined ∧ (∀ t ∈ withPlaceholder, t.isDefined ∧ t.IsFlat) ∧
      (∃ c ∈ sideCandidates withPlaceholder statement'.rhs left',
        ¬ ∃ k ∈ termBindings withPlaceholder statement',
          statement'.substitute k == statement'.substitute c) := by
  intro X Y Z inner nested statement withPlaceholder statement'
  have lost : sideCandidates nested statement.rhs (sideCandidates nested statement.lhs [.empty]) =
      [(Bindings.empty.insert "X" (sum [inner, var "z"])).insert "Z" (var "q")] := by cbv
  have kept : termBindings nested statement = [] := by cbv
  have lost' : sideCandidates withPlaceholder statement'.rhs
      (sideCandidates withPlaceholder statement'.lhs [.empty]) =
        [((Bindings.empty.insert "X" (sum [var "y", Y])).insert "Z" (var "q")).insert "Y"
          (var "x")] := by cbv
  have kept' : termBindings withPlaceholder statement' = [] := by cbv
  have flat : ∀ t ∈ withPlaceholder, t.isDefined ∧ t.IsFlat := by
    have normal : ∀ t ∈ withPlaceholder, t.isDefined ∧ Standard.IsNormal t := by decide
    exact fun t mem => ⟨(normal t mem).1, isFlat_of_isNormal (normal t mem).2⟩
  refine ⟨by decide, by decide, ?_, by decide, flat, ?_⟩
  · simp [lost, kept]
  · simp [lost', kept']

end InequalityChaining

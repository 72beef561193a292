import InequalityChaining.Proofs.Matching.Soundness

/-!
# Completeness of matching

A pattern matches each of its instances, and matching it finds the bindings that the instance was
made with. The instance has as many operands as the pattern everywhere, so that the operands meet
one by one, and the two short cuts of the matcher, which return as soon as subject and pattern are
equal, are taken only where the pattern has no placeholders left to bind. A placeholder that occurs
again meets a term equal to the one that it is bound to.

## Main definitions

* `Bindings.RestrictionOf` — bindings whose names others bind to the same terms
* `Bindings.Serves` — bindings for all placeholders of a pattern, as their kinds allow
* `Bindings.Collects` — bindings found for some names besides the given ones

## Main results

* `Term.isCollected` — the match of a pattern with its instance
* `matchPattern?_substitute` — matching undoes substitution, for terms and propositions
-/

namespace InequalityChaining

open Term

namespace Bindings

/-- Whatever is bound is bound to the same term by the others. -/
def RestrictionOf (b σ : Bindings) : Prop := ∀ n t, b.find? n = some t → σ.find? n = some t

/-- Every placeholder of the pattern is bound, and one for terms without variables to such a
term. -/
def Serves (σ : Bindings) (p : Term) : Prop :=
  ∀ n kind, placeholder n kind ∈ p.subterms →
    ∃ t, σ.find? n = some t ∧ (kind = .constantOnly → ¬ t.hasVariable)

/-- The second bindings bind the names that the first do and the listed ones, all to the terms that
`σ` binds them to. -/
structure Collects (σ b r : Bindings) (names : List String) : Prop where
  restrictionOf : r.RestrictionOf σ
  bound : ∀ n, (r.find? n).isSome ↔ (b.find? n).isSome ∨ n ∈ names

section Collecting

variable {σ b c r : Bindings} {ns ms ks : List String}

theorem Collects.refl (within : b.RestrictionOf σ) : σ.Collects b b [] := ⟨within, by simp⟩

theorem Collects.trans (first : σ.Collects b c ns) (second : σ.Collects c r ms)
    (h : ∀ n, n ∈ ks ↔ n ∈ ns ∨ n ∈ ms) : σ.Collects b r ks :=
  ⟨second.restrictionOf, fun n => by rw [second.bound, first.bound, h, or_assoc]⟩

end Collecting

section Parts

variable {σ : Bindings} {op : Variadic} {o : Binary} {ps : List Term} {p l r : Term} {name : String}
  {kind : PlaceholderKind}

@[simp] theorem serves_var : σ.Serves (var name) := fun n kind mem => by simp [subterms] at mem

@[simp] theorem serves_placeholder : σ.Serves (placeholder name kind) ↔
    ∃ t, σ.find? name = some t ∧ (kind = .constantOnly → ¬ t.hasVariable) := by
  constructor
  · exact fun h => h name kind (mem_subterms_self _)
  · rintro h n k mem
    obtain ⟨rfl, rfl⟩ : n = name ∧ k = kind := by simpa [subterms] using mem
    exact h

@[simp] theorem serves_variadic : σ.Serves (variadic op ps) ↔ ∀ p ∈ ps, σ.Serves p := by
  constructor
  · intro h p mem n kind inner
    exact h n kind (mem_subterms_variadic.2 (.inr ⟨p, mem, inner⟩))
  · intro h n kind inner
    rcases mem_subterms_variadic.1 inner with same | ⟨p, mem, inner⟩
    · cases same
    · exact h p mem n kind inner

@[simp] theorem serves_binary : σ.Serves (binary o l r) ↔ σ.Serves l ∧ σ.Serves r := by
  constructor
  · intro h
    exact ⟨fun n kind inner => h n kind (mem_subterms_binary.2 (.inr (.inl inner))),
      fun n kind inner => h n kind (mem_subterms_binary.2 (.inr (.inr inner)))⟩
  · rintro ⟨left, right⟩ n kind inner
    rcases mem_subterms_binary.1 inner with same | inner | inner
    · cases same
    · exact left n kind inner
    · exact right n kind inner

/-- The instance of a pattern has no placeholders. -/
theorem Serves.isGround_substitute (h : σ.Serves p) (closed : σ.Closed) :
    (p.substitute σ).isGround := by
  refine Term.isGround_substitute fun n mem => ?_
  obtain ⟨kind, placeholder⟩ := mem_placeholderNames_iff.1 mem
  obtain ⟨t, found, -⟩ := h n kind placeholder
  exact ⟨t, found, (closed n t found).1⟩

end Parts

end Bindings

namespace Term

open Bindings

/-- Matching the pattern with its instance finds the bindings of its placeholders, whatever part of
`σ` is bound already. -/
def IsCollected (σ : Bindings) (p : Term) : Prop :=
  ∀ b : Bindings, b.RestrictionOf σ →
    ∃ r, (p.substitute σ).matchPattern? p b = some r ∧ σ.Collects b r p.placeholderNames

section Instances

variable {σ b : Bindings} {p : Term} {ps : List Term} {op : Variadic} {o : Binary}
  {name : String} {kind : PlaceholderKind}

/-- An instance that equals its pattern shows that there is nothing to bind. -/
theorem collects_of_equal (closed : σ.Closed) (serves : σ.Serves p) (defined : p.isDefined)
    (within : b.RestrictionOf σ) (h : equal (p.substitute σ) p) :
    σ.Collects b b p.placeholderNames := by
  have definedInstance := isDefined_substitute defined fun n t found => (closed n t found).2
  have ground := isGround_of_equal (serves.isGround_substitute closed) definedInstance defined h
  rw [placeholderNames_of_isGround ground]
  exact .refl within

theorem isCollected_placeholder (closed : σ.Closed) (serves : σ.Serves (placeholder name kind)) :
    IsCollected σ (placeholder name kind) := by
  intro b within
  obtain ⟨t, found, allowed⟩ := Bindings.serves_placeholder.1 serves
  obtain ⟨ground, defined⟩ := closed name t found
  rw [substitute, found, Option.getD_some, placeholderNames_placeholder]
  cases bound : b.find? name with
  | some u =>
    -- the name is bound to the very term that the placeholder has become
    obtain rfl : t = u := by simpa [found] using within name u bound
    rw [matchPattern?_of_bound ground ground bound, matchPattern?_of_beq (equal_refl defined)]
    refine ⟨b, rfl, within, fun n => ?_⟩
    by_cases same : n = name <;> simp [same, bound]
  | none =>
    have taken : ¬ (kind = .constantOnly ∧ !t.isConstant) := by
      rintro ⟨only, notConstant⟩
      rw [isConstant_of_isGround ground (allowed only)] at notConstant
      cases notConstant
    rw [matchPattern?_of_unbound ground bound, if_neg taken]
    refine ⟨_, rfl, fun n u bound => ?_, fun n => ?_⟩
    · rw [find?_insert] at bound
      split at bound
      · next same => rw [same, found, bound]
      · exact within n u bound
    · rw [find?_insert]
      by_cases same : n = name <;> simp [same]

/-- Operand lists of the same length are matched from the end, one operand after the other, unless
those in front agree up to order. -/
theorem matchBackwards_cons_cons {s s' p p' : Term} {ss ps : List Term}
    (len : ss.length = ps.length) :
    matchBackwards op (s :: s' :: ss) (p :: p' :: ps) b =
      (s.matchPattern? p b).bind fun c =>
        if ss ≠ [] ∧ sameOperands (s' :: ss) (p' :: ps) then some c
        else matchBackwards op (s' :: ss) (p' :: ps) c := by
  rw [matchBackwards.eq_def]
  change (s.matchPattern? p b).bind _ = _
  congr 1
  funext c
  cases ss with
  | nil =>
    obtain rfl := List.length_eq_zero_iff.1 len.symm
    simp [matchBackwards.eq_def op [s'] [p']]
  | cons s'' ss =>
    cases ps with
    | nil => cases len
    | cons p'' ps => simp

/-- If each operand is collected, so are all of them together. -/
theorem exists_collects_matchBackwards (op : Variadic) (closed : σ.Closed)
    (serves : ∀ p ∈ ps, σ.Serves p)
    (defined : ∀ p ∈ ps, p.isDefined) (collected : ∀ p ∈ ps, IsCollected σ p)
    (within : b.RestrictionOf σ) :
    ∃ r, matchBackwards op (ps.map (substitute σ)) ps b = some r ∧
      σ.Collects b r (variadic op ps).placeholderNames := by
  induction ps generalizing b with
  | nil =>
    refine ⟨b, by rw [List.map_nil, matchBackwards], ?_⟩
    exact (Collects.refl within).trans (.refl within) (by simp)
  | cons p ps ih =>
    obtain ⟨c, found, first⟩ := collected p List.mem_cons_self b within
    have names : ∀ n, n ∈ (variadic op (p :: ps)).placeholderNames ↔
        n ∈ p.placeholderNames ∨ n ∈ (variadic op ps).placeholderNames := by simp
    rw [List.forall_mem_cons] at serves defined collected
    obtain ⟨r, foundRest, rest⟩ := ih serves.2 defined.2 collected.2 first.restrictionOf
    cases ps with
    | nil =>
      refine ⟨c, ?_, first.trans (.refl first.restrictionOf) (by simp)⟩
      rw [List.map_singleton, matchBackwards_singleton, found]
    | cons p' ps =>
      rw [List.map_cons, List.map_cons, matchBackwards_cons_cons (List.length_map _), found,
        Option.bind_some]
      split
      · next same =>
        -- the operations with the operands in front are equal, so nothing is left to bind there
        have equalFront :
            equal ((variadic op (p' :: ps)).substitute σ) (variadic op (p' :: ps)) := by
          simpa [equal, substitute, sameOperands] using same.2
        have front := collects_of_equal closed (serves_variadic.2 serves.2)
          (isDefined_variadic.2 defined.2) first.restrictionOf equalFront
        exact ⟨c, rfl, first.trans front names⟩
      · exact ⟨r, foundRest, first.trans rest names⟩

/-- Matching a pattern with its instance finds the bindings of its placeholders. -/
theorem isCollected (closed : σ.Closed) (serves : σ.Serves p) (defined : p.isDefined) :
    IsCollected σ p := by
  induction p using Term.induction with
  | constant value =>
    intro b within
    exact ⟨b, matchPattern?_of_beq (equal_refl defined), .refl within⟩
  | var name =>
    intro b within
    exact ⟨b, matchPattern?_of_beq (equal_refl defined), .refl within⟩
  | placeholder name kind => exact isCollected_placeholder closed serves
  | binary o p₁ p₂ ihl ihr =>
    obtain ⟨servesLeft, servesRight⟩ := serves_binary.1 serves
    obtain ⟨definedLeft, definedRight⟩ := isDefined_binary.1 defined
    intro b within
    obtain ⟨c, foundLeft, left⟩ := ihl servesLeft definedLeft b within
    obtain ⟨r, foundRight, right⟩ := ihr servesRight definedRight c left.restrictionOf
    refine ⟨r, ?_, left.trans right (by simp)⟩
    rw [substitute, matchPattern?_binary, if_pos rfl, foundLeft, Option.bind_some, foundRight]
  | variadic op ps ih =>
    intro b within
    rw [substitute, substituteAll_eq_map, matchPattern?_variadic]
    split
    · next same =>
      have equalInstance : equal ((variadic op ps).substitute σ) (variadic op ps) := by
        rwa [substitute, substituteAll_eq_map]
      exact ⟨b, rfl, collects_of_equal closed serves defined within equalInstance⟩
    · rw [serves_variadic] at serves
      rw [isDefined_variadic] at defined
      -- operands are matched from the end
      have reversed : ∀ {P : Term → Prop}, (∀ p ∈ ps, P p) → ∀ p ∈ ps.reverse, P p :=
        fun h p mem => h p (List.mem_reverse.1 mem)
      obtain ⟨r, found, collects⟩ := exists_collects_matchBackwards op closed
        (reversed serves) (reversed defined)
        (reversed fun p mem => ih p mem (serves p mem) (defined p mem)) within
      rw [List.map_reverse] at found
      refine ⟨r, by rw [if_pos rfl, found], collects.restrictionOf, fun n => ?_⟩
      rw [collects.bound]
      simp

end Instances

end Term

/-- Matching undoes substitution. Let `σ` bind all placeholders of a pattern without undefined
constants, those for terms without variables to such terms, and let part of it be bound already.
Then the pattern matches the instance that `σ` makes of it, and what is found binds the names that
were bound and those of the pattern, and no others, as `σ` does. The same holds for propositions. -/
theorem matchPattern?_substitute (σ seed : Bindings) (closed : σ.Closed)
    (within : seed.RestrictionOf σ) :
    (∀ p : Term, p.isDefined → σ.Serves p →
      ∃ r, (p.substitute σ).matchPattern? p seed = some r ∧ r.RestrictionOf σ ∧
        ∀ n, (r.find? n).isSome ↔ (seed.find? n).isSome ∨ n ∈ p.placeholderNames) ∧
    (∀ p : Proposition, (∀ side ∈ p.sides, side.isDefined ∧ σ.Serves side) →
      ∃ r, (p.substitute σ).matchPattern? p seed = some r ∧ r.RestrictionOf σ ∧
        ∀ n, (r.find? n).isSome ↔ (seed.find? n).isSome ∨
          n ∈ p.lhs.placeholderNames ++ p.rhs.placeholderNames) := by
  constructor
  · intro p defined serves
    obtain ⟨r, found, collects⟩ := Term.isCollected closed serves defined seed within
    exact ⟨r, found, collects.restrictionOf, collects.bound⟩
  · intro p sides
    obtain ⟨definedLeft, servesLeft⟩ := sides p.lhs (by simp [Proposition.sides])
    obtain ⟨definedRight, servesRight⟩ := sides p.rhs (by simp [Proposition.sides])
    obtain ⟨c, foundLeft, left⟩ := Term.isCollected closed servesLeft definedLeft seed within
    obtain ⟨r, foundRight, right⟩ :=
      Term.isCollected closed servesRight definedRight c left.restrictionOf
    have both := left.trans right fun n => List.mem_append
    refine ⟨r, ?_, both.restrictionOf, both.bound⟩
    rw [Proposition.matchPattern?, Proposition.substitute, if_pos rfl]
    change ((p.lhs.substitute σ).matchPattern? p.lhs seed).bind
      (fun c => (p.rhs.substitute σ).matchPattern? p.rhs c) = some r
    rw [foundLeft, Option.bind_some, foundRight]

/-- The placeholder `X` occurs three times and is bound already, and `C` stands for constants only.
-/
theorem matchPattern?_substitute_repeated :
    let p := sum [placeholder "X" .any, product [placeholder "C" .constantOnly, var "y"],
      placeholder "X" .any]
    let seed := Bindings.empty.insert "X" (sum [var "x", int 1])
    let σ := seed.insert "C" (int 2)
    p.isDefined ∧ σ.Closed ∧ σ.Serves p ∧ seed.RestrictionOf σ ∧
      (∃ r, (sum [sum [var "x", int 1], product [int 2, var "y"],
          sum [var "x", int 1]]).matchPattern? p seed = some r ∧ r.RestrictionOf σ ∧
        ∀ n, (r.find? n).isSome ↔ (seed.find? n).isSome ∨ n ∈ ["X", "C", "X"]) ∧
      ∃ r, ((Proposition.atMost p (placeholder "X" .any)).substitute σ).matchPattern?
        (.atMost p (placeholder "X" .any)) seed = some r := by
  intro p seed σ
  have defined : p.isDefined := by decide
  have values : ∀ n, σ.find? n = if n = "C" then some (int 2) else
      if n = "X" then some (sum [var "x", int 1]) else none := by
    intro n
    simp only [σ, seed, Bindings.find?_insert, Bindings.find?_empty]
  have closed : σ.Closed := by
    intro n t found
    rw [values] at found
    split at found
    · obtain rfl := Option.some.inj found
      decide
    · split at found
      · obtain rfl := Option.some.inj found
        decide
      · cases found
  have serves : σ.Serves p := by simp [p, values]
  have servesAlone : σ.Serves (placeholder "X" .any) := by simp [values]
  have within : seed.RestrictionOf σ := by
    intro n t found
    have other : n ≠ "C" := by
      rintro rfl
      simp [seed, Bindings.find?_insert] at found
    rwa [Bindings.find?_insert, if_neg other]
  obtain ⟨terms, propositions⟩ := matchPattern?_substitute σ seed closed within
  obtain ⟨r, found, -⟩ := propositions (.atMost p (placeholder "X" .any))
    (by simp [Proposition.sides, Proposition.atMost, serves, servesAlone, defined])
  exact ⟨defined, closed, serves, within, terms p defined serves, r, found⟩

end InequalityChaining

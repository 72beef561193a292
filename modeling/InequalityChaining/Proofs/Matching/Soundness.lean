import InequalityChaining.Proofs.Matching.Derivation
import InequalityChaining.Proofs.Matching.Equations
import InequalityChaining.Proofs.Term.Flattening
import InequalityChaining.Proofs.Term.Substitution

/-!
# Soundness of matching

The bindings that the matcher finds extend the given ones by the names of the pattern's
placeholders, and they turn the pattern into the subject up to associativity: the matcher may let
several operands of the subject be one operand of the pattern, or the other way round, and both
contribute the same operands to the flat form. The proof follows the derivation of the match. What
is shown of an operand under the bindings found so far carries over to all later bindings, because
they keep what is bound and every placeholder of the operand is bound by then.

## Main definitions

* `Bindings.Closed` — all bound terms are without placeholders and undefined constants
* `Bindings.ExtendedBy` — bindings that are kept, with the names that are new
* `Instantiates` — bindings that turn a pattern into a subject

## Main results

* `Matches.instantiates` — a derivation of a match leads to such bindings
* `matchPattern?_sound` — so does the matcher, for terms and propositions
-/

namespace InequalityChaining

open Term

namespace Bindings

/-- All bound terms are without placeholders and without undefined constants. -/
def Closed (b : Bindings) : Prop := ∀ name t, b.find? name = some t → t.isGround ∧ t.isDefined

/-- The second bindings keep those of the first, bind the listed names besides, and are closed. -/
structure ExtendedBy (b r : Bindings) (names : List String) : Prop where
  keeps : ∀ name t, b.find? name = some t → r.find? name = some t
  bound : ∀ name, (r.find? name).isSome ↔ (b.find? name).isSome ∨ name ∈ names
  closed : r.Closed

theorem closed_empty : Bindings.empty.Closed := by
  intro name t bound
  simp at bound

section Extension

variable {b c r : Bindings} {ns ms ks : List String}

theorem ExtendedBy.refl (closed : b.Closed) : b.ExtendedBy b [] :=
  ⟨fun _ _ h => h, by simp, closed⟩

theorem ExtendedBy.trans (first : b.ExtendedBy c ns) (second : c.ExtendedBy r ms)
    (h : ∀ name, name ∈ ks ↔ name ∈ ns ∨ name ∈ ms) : b.ExtendedBy r ks where
  keeps name t bound := second.keeps name t (first.keeps name t bound)
  bound name := by rw [second.bound, first.bound, h, or_assoc]
  closed := second.closed

/-- A name that was to be bound is bound to a term without placeholders. -/
theorem ExtendedBy.exists_find? (h : b.ExtendedBy r ns) {name : String} (mem : name ∈ ns) :
    ∃ t, r.find? name = some t ∧ t.isGround := by
  obtain ⟨t, found⟩ := Option.isSome_iff_exists.1 ((h.bound name).2 (.inr mem))
  exact ⟨t, found, (h.closed name t found).1⟩

/-- Later bindings do to a term what the first bindings of all its placeholders do. -/
theorem ExtendedBy.substitute_eq {p : Term} (h : b.ExtendedBy c p.placeholderNames)
    (later : c.ExtendedBy r ns) : p.substitute r = p.substitute c := by
  refine substitute_congr fun name mem => ?_
  obtain ⟨t, found, -⟩ := h.exists_find? mem
  rw [found, later.keeps name t found]

end Extension

end Bindings

/-- The second bindings extend the first so that the pattern becomes the subject, up to
associativity. -/
structure Instantiates (s p : Term) (b r : Bindings) : Prop where
  extended : b.ExtendedBy r p.placeholderNames
  equal : (p.substitute r).flattened.equal s.flattened

namespace Instantiates

variable {s s' p p' : Term} {b c r : Bindings}

theorem isGround (h : Instantiates s p b r) : (p.substitute r).isGround :=
  isGround_substitute fun _ mem => h.extended.exists_find? mem

theorem isDefined (h : Instantiates s p b r) (defined : p.isDefined) :
    (p.substitute r).isDefined :=
  isDefined_substitute defined fun name t found => (h.extended.closed name t found).2

/-- What has become of an operand does not change any more. -/
theorem substitute_eq {s' p' : Term} (first : Instantiates s p b c)
    (rest : Instantiates s' p' c r) : p.substitute r = p.substitute c :=
  first.extended.substitute_eq rest.extended

end Instantiates

/-! ### Equal terms -/

section Equal

variable {s p : Term} {b : Bindings}

/-- What equals a term without placeholders has none either. -/
theorem isGround_of_equal (ground : s.isGround) (definedSubject : s.isDefined)
    (definedPattern : p.isDefined) (h : s.equal p) : p.isGround := by
  induction s using Term.induction generalizing p with
  | constant value =>
    obtain ⟨value', rfl, -⟩ := equal_constant_iff.1 h
    rfl
  | var name =>
    obtain rfl := equal_var_iff.1 h
    rfl
  | placeholder name kind => simp at ground
  | binary o l r ihl ihr =>
    obtain ⟨l', r', rfl, left, right⟩ := equal_binary_iff.1 h
    rw [isGround_binary] at ground ⊢
    rw [isDefined_binary] at definedSubject definedPattern
    exact ⟨ihl ground.1 definedSubject.1 definedPattern.1 left,
      ihr ground.2 definedSubject.2 definedPattern.2 right⟩
  | variadic op ss ih =>
    obtain ⟨ps, rfl, -, -⟩ := equal_variadic_iff.1 h
    rw [isGround_variadic] at ground ⊢
    rw [isDefined_variadic] at definedSubject definedPattern
    have pairs := (equal_variadic_iff_equalOperands definedSubject definedPattern).1 h
    intro p mem
    -- every operand of the pattern is paired with an operand of the subject
    obtain ⟨s, memSubject, same⟩ :=
      Multiset.exists_mem_of_rel_of_mem (Multiset.rel_flip.2 pairs) (Multiset.mem_coe.2 mem)
    exact ih s memSubject (ground s memSubject) (definedSubject s memSubject)
      (definedPattern p mem) same

/-- A pattern that equals the subject is the subject already. -/
theorem instantiates_of_equal (ground : s.isGround) (definedSubject : s.isDefined)
    (definedPattern : p.isDefined) (closed : b.Closed) (h : s.equal p) :
    Instantiates s p b b := by
  have groundPattern := isGround_of_equal ground definedSubject definedPattern h
  constructor
  · rw [placeholderNames_of_isGround groundPattern]
    exact .refl closed
  · rw [substitute_of_isGround groundPattern]
    exact equal_flattened definedPattern definedSubject
      (equal_symm h)

/-- Operands that agree up to order, read in either direction, are those of equal operations. -/
theorem equal_of_sameOperands {op : Variadic} {ss ps : List Term}
    (definedSubject : ∀ s ∈ ss, s.isDefined) (definedPattern : ∀ p ∈ ps, p.isDefined)
    (h : sameOperands ss.reverse ps.reverse) : (variadic op ss).equal (variadic op ps) := by
  rw [equal_variadic_iff_equalOperands definedSubject definedPattern,
    ← Multiset.coe_reverse ss, ← Multiset.coe_reverse ps]
  refine equalOperands_of_pairOff equivalenceOn_isDefined ?_ ?_ (Bool.and_eq_true _ _ ▸ h).2
  · exact fun s mem => definedSubject s (List.mem_reverse.1 mem)
  · exact fun p mem => definedPattern p (List.mem_reverse.1 mem)

end Equal

/-! ### Operands -/

namespace Splits

variable {op : Variadic} {ts : List Term} {u t : Term}

theorem isGround_iff (h : Splits op ts u t) :
    (variadic op ts).isGround ↔ u.isGround ∧ t.isGround := by
  cases h <;> simp [or_imp, forall_and]

theorem isDefined_iff (h : Splits op ts u t) :
    (variadic op ts).isDefined ↔ u.isDefined ∧ t.isDefined := by
  cases h <;> simp [or_imp, forall_and]

theorem mem_placeholderNames_iff (h : Splits op ts u t) (name : String) :
    name ∈ (variadic op ts).placeholderNames ↔
      name ∈ t.placeholderNames ∨ name ∈ u.placeholderNames := by
  cases h <;> simp [or_and_right, exists_or, or_comm]

theorem contribution_eq (h : Splits op ts u t) :
    contribution op (variadic op ts) = contribution op u + contribution op t := by
  cases h with
  | append ts => exact contribution_append op ts t
  | pair => exact contribution_pair op u t

theorem substitute (h : Splits op ts u t) (b : Bindings) :
    Splits op (ts.map (Term.substitute b)) (u.substitute b) (t.substitute b) := by
  cases h with
  | append ts =>
    simp only [Term.substitute, substituteAll_eq_map, List.map_append, List.map_cons, List.map_nil]
    exact .append _ _
  | pair => exact .pair _ _

end Splits

/-- A pattern with an undefined constant fits no term without one. -/
theorem Matches.isDefined {s p : Term} {b r : Bindings} (h : Matches s p b r)
    (defined : s.isDefined) : p.isDefined := by
  induction h with
  | equal same => exact isDefined_of_equal defined same
  | @sameOperands ss ps b op same =>
    obtain ⟨len, pairs⟩ := Bool.and_eq_true _ _ ▸ same
    have subjects := isDefined_variadic.1 defined
    have patterns : ∀ p ∈ ps.reverse, p.isDefined := by
      refine isDefined_of_pairOff (by simpa using subjects) (beq_iff_eq.1 len) ?_ pairs
      exact fun s mem p => isDefined_of_equal (subjects s (List.mem_reverse.1 mem))
    exact isDefined_variadic.2 fun p mem => patterns p (List.mem_reverse.2 mem)
  | take unbound allowed => rfl
  | follow bound h ih => rfl
  | binary o left right ihl ihr =>
    rw [isDefined_binary] at defined ⊢
    exact ⟨ihl defined.1, ihr defined.2⟩
  | single op h ih =>
    simp only [isDefined_variadic, List.forall_mem_singleton] at defined ⊢
    exact ih defined
  | operands subject pattern last front ihLast ihFront =>
    obtain ⟨definedFront, definedLast⟩ := subject.isDefined_iff.1 defined
    exact pattern.isDefined_iff.2 ⟨ihFront definedFront, ihLast definedLast⟩

/-- If the last operand and what is in front of it have become what they should, so has the
operation. -/
theorem Instantiates.operands {op : Variadic} {ss ps : List Term} {s s' p p' : Term}
    {b c r : Bindings} (subject : Splits op ss s' s) (pattern : Splits op ps p' p)
    (last : Instantiates s p b c) (front : Instantiates s' p' c r)
    (definedSubject : (variadic op ss).isDefined) (definedPattern : (variadic op ps).isDefined) :
    Instantiates (variadic op ss) (variadic op ps) b r := by
  have extended := last.extended.trans front.extended pattern.mem_placeholderNames_iff
  refine ⟨extended, ?_⟩
  obtain ⟨definedFront, definedLast⟩ := subject.isDefined_iff.1 definedSubject
  obtain ⟨definedFront', definedLast'⟩ := pattern.isDefined_iff.1 definedPattern
  have definedInstance := isDefined_substitute definedPattern
    fun name t found => (extended.closed name t found).2
  rw [Term.substitute, substituteAll_eq_map] at definedInstance ⊢
  rw [equal_flattened_variadic_iff (isDefined_variadic.1 definedInstance)
    (isDefined_variadic.1 definedSubject), subject.contribution_eq,
    (pattern.substitute r).contribution_eq]
  -- both operands have become what they should, and what they contribute adds up
  have sameFront := equalOperands_contribution op (front.isDefined definedFront')
    definedFront front.equal
  have sameLast := equalOperands_contribution op (last.isDefined definedLast')
    definedLast last.equal
  rw [← last.substitute_eq front] at sameLast
  exact sameFront.add sameLast

theorem Instantiates.single {op : Variadic} {s p : Term} {b r : Bindings}
    (operand : Instantiates s p b r) (definedSubject : s.isDefined) (definedPattern : p.isDefined) :
    Instantiates (variadic op [s]) (variadic op [p]) b r := by
  refine ⟨operand.extended.trans (.refl operand.extended.closed) (by simp), ?_⟩
  have definedInstance := operand.isDefined definedPattern
  simp only [substitute, substituteAll_eq_map, List.map_cons, List.map_nil]
  rw [equal_flattened_variadic_iff (by simpa using definedInstance) (by simpa using definedSubject),
    contribution_singleton, contribution_singleton]
  exact equalOperands_contribution op definedInstance definedSubject operand.equal

/-! ### The theorem -/

/-- The bindings of a match turn the pattern into the subject. -/
theorem Matches.instantiates {s p : Term} {b r : Bindings} (h : Matches s p b r)
    (ground : s.isGround) (definedSubject : s.isDefined) (definedPattern : p.isDefined)
    (closed : b.Closed) : Instantiates s p b r := by
  induction h with
  | equal h => exact instantiates_of_equal ground definedSubject definedPattern closed h
  | @take s name kind b unbound allowed =>
    refine ⟨⟨fun n t bound => ?_, fun n => ?_, fun n t bound => ?_⟩, ?_⟩
    -- no name is bound anew, because this one was not bound
    · have distinct : n ≠ name := by
        rintro rfl
        simp [unbound] at bound
      rw [Bindings.find?_insert, if_neg distinct, bound]
    · rw [Bindings.find?_insert]
      by_cases same : n = name <;> simp [same]
    · rw [Bindings.find?_insert] at bound
      split at bound
      · obtain rfl := Option.some.inj bound
        exact ⟨ground, definedSubject⟩
      · exact closed n t bound
    · simp only [substitute, Bindings.find?_insert, if_true, Option.getD_some]
      exact equal_refl (isDefined_flattened definedSubject)
  | @follow s t name kind b r bound h ih =>
    obtain ⟨groundBound, definedBound⟩ := closed name t bound
    obtain ⟨extended, same⟩ := ih ground definedSubject definedBound closed
    -- a bound term has no placeholders, so matching it binds nothing and it stays as it is
    rw [placeholderNames_of_isGround groundBound] at extended
    rw [substitute_of_isGround groundBound] at same
    refine ⟨⟨extended.keeps, fun n => ?_, extended.closed⟩, ?_⟩
    · -- the name was bound before, so it is not new
      rw [extended.bound, placeholderNames_placeholder, List.mem_singleton]
      by_cases here : n = name <;> simp [here, bound]
    · rwa [substitute, extended.keeps name t bound]
  | @binary s₁ s₂ p₁ p₂ b c r o _ _ ihl ihr =>
    rw [isGround_binary] at ground
    rw [isDefined_binary] at definedSubject definedPattern
    have left := ihl ground.1 definedSubject.1 definedPattern.1 closed
    have right := ihr ground.2 definedSubject.2 definedPattern.2 left.extended.closed
    refine ⟨left.extended.trans right.extended (by simp), ?_⟩
    rw [substitute, left.substitute_eq right]
    exact equal_binary_iff.2 ⟨_, _, rfl, left.equal, right.equal⟩
  | @single s p b r op _ ih =>
    rw [isGround_variadic] at ground
    rw [isDefined_variadic] at definedSubject definedPattern
    have definedOperand := definedSubject s List.mem_cons_self
    have definedPlaceholder := definedPattern p List.mem_cons_self
    exact (ih (ground s List.mem_cons_self) definedOperand definedPlaceholder closed).single
      definedOperand definedPlaceholder
  | operands subject pattern _ _ ihLast ihFront =>
    obtain ⟨groundFront, groundLast⟩ := subject.isGround_iff.1 ground
    obtain ⟨definedFront, definedLast⟩ := subject.isDefined_iff.1 definedSubject
    obtain ⟨definedFront', definedLast'⟩ := pattern.isDefined_iff.1 definedPattern
    -- the last operand is matched first, and its bindings are those that the front starts from
    have last := ihLast groundLast definedLast definedLast' closed
    have front := ihFront groundFront definedFront definedFront' last.extended.closed
    exact .operands subject pattern last front definedSubject definedPattern
  | sameOperands op h =>
    exact instantiates_of_equal ground definedSubject definedPattern closed
      (equal_of_sameOperands (isDefined_variadic.1 definedSubject)
        (isDefined_variadic.1 definedPattern) h)

/-- Matching is sound. Its bindings keep the given ones, bind the names of the placeholders of the
pattern besides and nothing else, and turn the pattern into a term without placeholders that equals
the subject up to associativity. For propositions the same bindings do so on both sides. -/
theorem matchPattern?_sound :
    (∀ (s p : Term) (seed r : Bindings), s.isGround → s.isDefined → p.isDefined → seed.Closed →
      s.matchPattern? p seed = some r →
        seed.ExtendedBy r p.placeholderNames ∧ (p.substitute r).isGround ∧
          (p.substitute r).flattened == s.flattened) ∧
    (∀ (s p : Proposition) (seed r : Bindings), (∀ t ∈ s.sides, t.isGround ∧ t.isDefined) →
      (∀ t ∈ p.sides, t.isDefined) → seed.Closed → s.matchPattern? p seed = some r →
        seed.ExtendedBy r (p.lhs.placeholderNames ++ p.rhs.placeholderNames) ∧
          (p.substitute r).relation = s.relation ∧
          (∀ t ∈ (p.substitute r).sides, t.isGround) ∧
          (p.substitute r).lhs.flattened == s.lhs.flattened ∧
          (p.substitute r).rhs.flattened == s.rhs.flattened) := by
  constructor
  · intro s p seed r ground definedSubject definedPattern closed found
    have sound := (matches_of_matchPattern? found).instantiates ground definedSubject
      definedPattern closed
    exact ⟨sound.extended, sound.isGround, sound.equal⟩
  · intro s p seed r subject definedPattern closed found
    rw [Proposition.matchPattern?] at found
    split at found
    · next relation =>
      obtain ⟨c, foundLeft, foundRight⟩ := Option.bind_eq_some_iff.1 found
      obtain ⟨groundLeft, definedLeft⟩ := subject s.lhs (by simp [Proposition.sides])
      obtain ⟨groundRight, definedRight⟩ := subject s.rhs (by simp [Proposition.sides])
      have left := (matches_of_matchPattern? foundLeft).instantiates groundLeft definedLeft
        (definedPattern p.lhs (by simp [Proposition.sides])) closed
      have right := (matches_of_matchPattern? foundRight).instantiates groundRight definedRight
        (definedPattern p.rhs (by simp [Proposition.sides])) left.extended.closed
      -- the right side binds more names, but none of the left side's
      have stays := left.substitute_eq right
      refine ⟨left.extended.trans right.extended fun name => List.mem_append, relation.symm,
        ?_, ?_, right.equal⟩
      · have := left.isGround
        rw [← stays] at this
        simpa [Proposition.sides, Proposition.substitute] using ⟨this, right.isGround⟩
      · have := left.equal
        rwa [← stays] at this
    · simp at found

/-- The sum of two placeholders takes a sum of three variables: the first placeholder stands for
the sum of the first two. The other side of a proposition is matched with the same bindings. -/
theorem matchPattern?_sound_sum_of_three :
    let s := sum [var "x", var "y", var "z"]
    let p := sum [placeholder "A" .any, placeholder "B" .any]
    let r := (Bindings.empty.insert "B" (var "z")).insert "A" (sum [var "x", var "y"])
    s.matchPattern? p .empty = some r ∧
      Bindings.empty.ExtendedBy r ["A", "B"] ∧ (p.substitute r).isGround ∧
      (p.substitute r).flattened == s.flattened ∧
      (Proposition.atMost s (var "z")).matchPattern? (.atMost p (placeholder "B" .any)) .empty =
        some r ∧
      Bindings.empty.ExtendedBy r ["A", "B", "B"] := by
  intro s p r
  have found : s.matchPattern? p .empty = some r := by
    rw [matchPattern?_variadic, if_neg (by decide), if_pos rfl, matchBackwards.eq_def]
    change ((var "z").matchPattern? (placeholder "B" .any) .empty).bind
      (fun b => (sum [var "x", var "y"]).matchPattern? (placeholder "A" .any) b) = some r
    rw [matchPattern?_of_unbound rfl rfl]
    exact matchPattern?_of_unbound rfl rfl
  have foundBoth : (Proposition.atMost s (var "z")).matchPattern?
      (.atMost p (placeholder "B" .any)) .empty = some r := by
    change (s.matchPattern? p .empty).bind
      (fun b => (var "z").matchPattern? (placeholder "B" .any) b) = some r
    have bound : r.find? "B" = some (var "z") := rfl
    rw [found, Option.bind_some, matchPattern?_of_bound rfl rfl bound]
    exact matchPattern?_of_beq rfl
  have closed : Bindings.empty.Closed := fun name t h => by simp at h
  obtain ⟨extended, ground, same⟩ := matchPattern?_sound.1 s p .empty r rfl rfl rfl closed found
  obtain ⟨extendedBoth, -⟩ := matchPattern?_sound.2 _ _ .empty r (by decide) (by decide) closed
    foundBoth
  exact ⟨found, extended, ground, same, foundBoth, extendedBoth⟩

end InequalityChaining

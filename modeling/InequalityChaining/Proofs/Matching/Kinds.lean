import InequalityChaining.Proofs.Matching.Completeness
import InequalityChaining.Proofs.Matching.Linearity

/-!
# Placeholders for terms without variables

A placeholder may be for terms without variables only. The matcher looks at that when it binds the
name, which is when it meets the first placeholder of this name. Where it meets the name again the
name stands for its term, and the kind of the placeholder counts for nothing. So the kinds of later
placeholders may be changed at will without a change to any match, and a pattern keeps terms with
variables away from all its placeholders that are to have none if and only if their names are met at
such placeholders first. That is so where no name is used for both kinds, as in the standard rules.
In `X-#X` it is not so: `X` takes a variable, and `#X` stands for it.

## Main definitions

* `Term.met` — the placeholders of a pattern in the order in which they are met
* `Term.kindMet?` — the kind with which a name is met first
* `Term.SettlesKinds` — all names of placeholders for terms without variables are met so first
* `Term.withKinds` — a pattern with other kinds of placeholders

## Main results

* `Matches.exists_placeholder` — what a name takes comes with a placeholder that allows it
* `not_hasVariable_of_matchPattern?` — what names take that are only for terms without variables
* `Term.matchPattern?_withKinds` — only the kinds that are met first count
* `kinds_count_when_met_first` — the patterns that keep terms with variables away
* `later_kind_takes_variable` — the difference `x-x` matches `X-#X`
-/

namespace InequalityChaining

open Term

/-! ### The order in which placeholders are met -/

namespace Term

mutual

/-- The placeholders in the order in which the matcher meets them: it takes the operands of a sum or
a product from the last to the first, and those of other operations from left to right. -/
def met : Term → List (String × PlaceholderKind)
  | placeholder name kind => [(name, kind)]
  | variadic _ operands => metInAll operands
  | binary _ left right => met left ++ met right
  | _ => []

/-- The same for a list of operands. -/
def metInAll : List Term → List (String × PlaceholderKind)
  | [] => []
  | t :: ts => metInAll ts ++ met t

end

/-- The kind of the placeholder at which the name is met first. -/
def kindMet? (p : Term) (name : String) : Option PlaceholderKind :=
  (p.met.find? (·.1 == name)).map Prod.snd

/-- A name that is to stand for a term without variables is met at such a placeholder first. -/
def SettlesKinds (p : Term) : Prop :=
  ∀ name, placeholder name .constantOnly ∈ p.subterms → p.kindMet? name = some .constantOnly

section Met

variable {op : Variadic} {o : Binary} {p l r t u : Term} {ts us : List Term} {name n : String}
  {kind : PlaceholderKind}

theorem metInAll_append : metInAll (ts ++ us) = metInAll us ++ metInAll ts := by
  induction ts with
  | nil => simp [metInAll]
  | cons t ts ih => rw [List.cons_append, metInAll, ih, metInAll, List.append_assoc]

@[simp] theorem kindMet?_placeholder :
    (placeholder name kind).kindMet? n = if name = n then some kind else none := by
  by_cases same : name = n <;> simp [kindMet?, met, same]

theorem kindMet?_binary : (binary o l r).kindMet? n = (l.kindMet? n).or (r.kindMet? n) := by
  rw [kindMet?, met, List.find?_append, Option.map_or]
  rfl

theorem kindMet?_variadic_singleton : (variadic op [t]).kindMet? n = t.kindMet? n := by
  simp [kindMet?, met, metInAll]

theorem mem_metInAll {x : String × PlaceholderKind} :
    x ∈ metInAll ts ↔ ∃ t ∈ ts, x ∈ t.met := by
  induction ts with
  | nil => simp [metInAll]
  | cons t ts ih => simp [metInAll, ih, or_comm]

/-- All placeholders are met. -/
theorem mem_met_iff : (n, kind) ∈ p.met ↔ placeholder n kind ∈ p.subterms := by
  induction p using Term.induction with
  | placeholder name k => simp [met, subterms]
  | variadic op ts ih =>
    simp only [met, mem_metInAll, mem_subterms_variadic, reduceCtorEq, false_or]
    exact exists_congr fun t => and_congr_right fun mem => ih t mem
  | binary o l r ihl ihr => simp [met, ihl, ihr]
  | _ => simp [met, subterms]

theorem isSome_kindMet?_iff : (p.kindMet? n).isSome ↔ n ∈ p.placeholderNames := by
  rw [kindMet?, Option.isSome_map, List.find?_isSome, mem_placeholderNames_iff]
  constructor
  · rintro ⟨⟨name, kind⟩, mem, same⟩
    obtain rfl : name = n := by simpa using same
    exact ⟨kind, mem_met_iff.1 mem⟩
  · rintro ⟨kind, mem⟩
    exact ⟨(n, kind), mem_met_iff.2 mem, by simp⟩

end Met

end Term

/-- The last operand is met before what is in front of it. -/
theorem Splits.kindMet?_eq {op : Variadic} {ts : List Term} {u t : Term} (h : Splits op ts u t)
    (name : String) :
    (variadic op ts).kindMet? name = (t.kindMet? name).or (u.kindMet? name) := by
  cases h with
  | append ts =>
    simp [Term.kindMet?, met, metInAll_append, metInAll, List.find?_append, Option.map_or]
  | pair => simp [Term.kindMet?, met, metInAll, List.find?_append, Option.map_or]

/-- A placeholder of an operation belongs to the last operand or to what is in front of it. -/
theorem Splits.mem_placeholder_iff {op : Variadic} {ts : List Term} {u t : Term}
    (h : Splits op ts u t) {name : String} {kind : PlaceholderKind} :
    placeholder name kind ∈ (variadic op ts).subterms ↔
      placeholder name kind ∈ t.subterms ∨ placeholder name kind ∈ u.subterms := by
  cases h <;> simp [or_and_right, exists_or, or_comm]

/-! ### What a name takes -/

section Taken

variable {s p : Term} {b r : Bindings} {name : String} {v : Term}

theorem passesToParts_isGround : PassesToParts fun t => t.isGround where
  splits split := split.isGround_iff.1
  single h := isGround_variadic.1 h _ List.mem_cons_self
  binary := isGround_binary.1

/-- A name that is bound in a match has been met at a placeholder that allows for its term. -/
theorem Matches.exists_placeholder (h : Matches s p b r) (ground : s.isGround)
    (seed : ∀ n t, b.find? n = some t → t.isGround) (unbound : b.find? name = none)
    (found : r.find? name = some v) :
    ∃ kind, placeholder name kind ∈ p.subterms ∧ (kind = .constantOnly → v.isConstant) := by
  induction h with
  | equal => simp [unbound] at found
  | sameOperands => simp [unbound] at found
  | @take s n kind b _ allowed =>
    rw [Bindings.find?_insert] at found
    split at found
    · next same =>
      obtain rfl := Option.some.inj found
      exact ⟨kind, same ▸ mem_subterms_self _, allowed⟩
    · simp [unbound] at found
  | @follow s t n k b r bound h ih =>
    -- the term that a name stands for has no placeholders
    obtain ⟨kind, mem, -⟩ := ih ground seed unbound found
    have placeholder := isGround_of_mem_subterms (seed n t bound) mem
    simp at placeholder
  | @binary s₁ s₂ p₁ p₂ b c r o left right ihl ihr =>
    obtain ⟨groundLeft, groundRight⟩ := isGround_binary.1 ground
    cases foundLeft : c.find? name with
    | some w =>
      obtain rfl : w = v := Option.some.inj ((right.keeps foundLeft).symm.trans found)
      obtain ⟨kind, mem, allowed⟩ := ihl groundLeft seed unbound foundLeft
      exact ⟨kind, mem_subterms_binary.2 (.inr (.inl mem)), allowed⟩
    | none =>
      have bindings := left.forall_bound passesToParts_isGround groundLeft seed
      obtain ⟨kind, mem, allowed⟩ := ihr groundRight bindings foundLeft found
      exact ⟨kind, mem_subterms_binary.2 (.inr (.inr mem)), allowed⟩
  | single op h ih =>
    obtain ⟨kind, mem, allowed⟩ := ih (isGround_variadic.1 ground _ List.mem_cons_self) seed
      unbound found
    exact ⟨kind, mem_subterms_variadic.2 (.inr ⟨_, List.mem_cons_self, mem⟩), allowed⟩
  | @operands ss ps s s' p p' b c r op subject pattern last front ihLast ihFront =>
    obtain ⟨groundFront, groundLast⟩ := subject.isGround_iff.1 ground
    cases foundLast : c.find? name with
    | some w =>
      obtain rfl : w = v := Option.some.inj ((front.keeps foundLast).symm.trans found)
      obtain ⟨kind, mem, allowed⟩ := ihLast groundLast seed unbound foundLast
      exact ⟨kind, pattern.mem_placeholder_iff.2 (.inl mem), allowed⟩
    | none =>
      have bindings := last.forall_bound passesToParts_isGround groundLast seed
      obtain ⟨kind, mem, allowed⟩ := ihFront groundFront bindings foundLast found
      exact ⟨kind, pattern.mem_placeholder_iff.2 (.inr mem), allowed⟩

/-- If all placeholders of a name are for terms without variables, that is what the name takes. -/
theorem not_hasVariable_of_matchPattern? (found : s.matchPattern? p .empty = some r)
    (ground : s.isGround) (bound : r.find? name = some v)
    (kinds : ∀ kind, placeholder name kind ∈ p.subterms → kind = .constantOnly) :
    ¬ v.hasVariable := by
  obtain ⟨kind, mem, allowed⟩ := (matches_of_matchPattern? found).exists_placeholder ground
    (by simp) (Bindings.find?_empty name) bound
  exact not_hasVariable_of_isConstant (allowed (kinds kind mem))

end Taken

/-! ### Other kinds -/

namespace Term

mutual

/-- The term with the kind of every placeholder given by its name. -/
def withKinds (f : String → PlaceholderKind) : Term → Term
  | placeholder name _ => placeholder name (f name)
  | variadic op operands => variadic op (withKindsInAll f operands)
  | binary op left right => binary op (withKinds f left) (withKinds f right)
  | t => t

/-- The same for a list of terms. -/
def withKindsInAll (f : String → PlaceholderKind) : List Term → List Term
  | [] => []
  | t :: ts => withKinds f t :: withKindsInAll f ts

end

section WithKinds

variable {f : String → PlaceholderKind} {op : Variadic} {s p t : Term} {ts ss ps : List Term}
  {b r : Bindings} {name : String} {kind : PlaceholderKind}

@[simp] theorem withKindsInAll_eq_map : withKindsInAll f ts = ts.map (withKinds f) := by
  induction ts with
  | nil => rfl
  | cons t ts ih => simp [withKindsInAll, ih]

/-- What does not depend on the kinds of placeholders holds of the same parts. -/
theorem any_withKinds {q : Term → Bool} (h : ∀ t, q (t.withKinds f) = q t) :
    (t.withKinds f).any q = t.any q := by
  induction t using Term.induction with
  | placeholder name kind =>
    simpa [any, subterms, withKinds] using h (placeholder name kind)
  | variadic op ts ih =>
    have root := h (variadic op ts)
    rw [withKinds, withKindsInAll_eq_map] at root ⊢
    rw [any_variadic, any_variadic, root, List.any_map]
    congr 1
    rw [Bool.eq_iff_iff, List.any_eq_true, List.any_eq_true]
    exact exists_congr fun t => and_congr_right fun mem => by rw [Function.comp_apply, ih t mem]
  | binary o l r ihl ihr =>
    have root := h (binary o l r)
    rw [withKinds] at root ⊢
    rw [any_binary, any_binary, root, ihl, ihr]
  | _ => rfl

@[simp] theorem isGround_withKinds : (t.withKinds f).isGround = t.isGround := by
  rw [isGround, hasPlaceholder, any_withKinds fun t => by cases t <;> rfl]
  rfl

@[simp] theorem isDefined_withKinds : (t.withKinds f).isDefined = t.isDefined := by
  rw [isDefined, any_withKinds fun t => by cases t <;> rfl]
  rfl

theorem withKinds_of_isGround (ground : t.isGround) : t.withKinds f = t := by
  induction t using Term.induction with
  | placeholder name kind => simp at ground
  | variadic op ts ih =>
    rw [isGround_variadic] at ground
    rw [withKinds, withKindsInAll_eq_map, List.map_congr_left fun t mem => ih t mem (ground t mem),
      List.map_id']
  | binary o l r ihl ihr =>
    obtain ⟨left, right⟩ := isGround_binary.1 ground
    rw [withKinds, ihl left, ihr right]
  | _ => rfl

/-- The placeholders are those of the term, with the given kinds. -/
theorem placeholder_mem_subterms_withKinds :
    placeholder name kind ∈ (t.withKinds f).subterms ↔
      kind = f name ∧ name ∈ t.placeholderNames := by
  induction t using Term.induction with
  | placeholder n k =>
    simp only [withKinds, subterms, List.mem_singleton, placeholder.injEq,
      placeholderNames_placeholder]
    exact ⟨fun h => ⟨h.1 ▸ h.2, h.1⟩, fun h => ⟨h.2, h.2 ▸ h.1⟩⟩
  | variadic op ts ih =>
    simp only [withKinds, withKindsInAll_eq_map, mem_subterms_variadic, reduceCtorEq, false_or,
      List.mem_map, exists_exists_and_eq_and, mem_placeholderNames_variadic]
    constructor
    · rintro ⟨t, mem, inner⟩
      obtain ⟨same, named⟩ := (ih t mem).1 inner
      exact ⟨same, t, mem, named⟩
    · rintro ⟨same, t, mem, named⟩
      exact ⟨t, mem, (ih t mem).2 ⟨same, named⟩⟩
  | binary o l r ihl ihr =>
    simp only [withKinds, mem_subterms_binary, reduceCtorEq, false_or, ihl, ihr,
      mem_placeholderNames_binary, and_or_left]
  | _ => simp [withKinds, subterms]

/-- A pattern that equals a term without placeholders has no kinds to change. -/
theorem equal_withKinds_iff (ground : s.isGround) (defined : s.isDefined) :
    equal s (p.withKinds f) ↔ equal s p := by
  constructor
  · intro same
    have groundPattern := isGround_of_equal ground defined (isDefined_of_equal defined same) same
    rw [isGround_withKinds] at groundPattern
    rwa [withKinds_of_isGround groundPattern] at same
  · intro same
    have groundPattern := isGround_of_equal ground defined (isDefined_of_equal defined same) same
    rwa [withKinds_of_isGround groundPattern]

theorem front_map_withKinds : front op (ts.map (withKinds f)) = (front op ts).withKinds f := by
  match ts with
  | [] => simp [front, withKinds]
  | [t] => rfl
  | t :: t' :: ts => simp [front, withKinds]

/-- The given kinds are those with which names that are not bound yet are met first. -/
def KindsFit (f : String → PlaceholderKind) (b : Bindings) (p : Term) : Prop :=
  ∀ name kind, b.find? name = none → p.kindMet? name = some kind → f name = kind

/-- A name that is met in a second part and is not bound after the first is met there first. -/
theorem KindsFit.second {p q u : Term} {c : Bindings} (fits : KindsFit f b u)
    (order : ∀ name, u.kindMet? name = (p.kindMet? name).or (q.kindMet? name))
    (extended : b.ExtendedBy c p.placeholderNames) : KindsFit f c q := by
  intro name kind unbound met
  have notBound : ¬ ((b.find? name).isSome ∨ name ∈ p.placeholderNames) := by
    rw [← extended.bound, unbound]
    simp
  rw [not_or, ← isSome_kindMet?_iff, Option.not_isSome_iff_eq_none,
    Option.not_isSome_iff_eq_none] at notBound
  exact fits name kind notBound.1 (by rw [order, notBound.2, Option.none_or, met])

theorem KindsFit.first {p q u : Term} (fits : KindsFit f b u)
    (order : ∀ name, u.kindMet? name = (p.kindMet? name).or (q.kindMet? name)) :
    KindsFit f b p := by
  intro name kind unbound met
  exact fits name kind unbound (by rw [order, met, Option.some_or])

/-- Only the kinds count with which names are met first, when a pattern is matched with the term. -/
def IgnoresLaterKinds (f : String → PlaceholderKind) (s : Term) : Prop :=
  s.isGround → s.isDefined → ∀ (p : Term) (b : Bindings), p.isDefined → b.Closed →
    KindsFit f b p → s.matchPattern? (p.withKinds f) b = s.matchPattern? p b

/-- Two parts are matched one after the other, the second with the names of the first bound. -/
theorem IgnoresLaterKinds.bind {s₁ s₂ p₁ p₂ u : Term} (first : IgnoresLaterKinds f s₁)
    (second : IgnoresLaterKinds f s₂) (ground : s₁.isGround ∧ s₂.isGround)
    (definedSubject : s₁.isDefined ∧ s₂.isDefined) (definedPattern : p₁.isDefined ∧ p₂.isDefined)
    (closed : b.Closed) (fits : KindsFit f b u)
    (order : ∀ name, u.kindMet? name = (p₁.kindMet? name).or (p₂.kindMet? name)) :
    ((s₁.matchPattern? (p₁.withKinds f) b).bind fun c => s₂.matchPattern? (p₂.withKinds f) c) =
      (s₁.matchPattern? p₁ b).bind fun c => s₂.matchPattern? p₂ c := by
  rw [first ground.1 definedSubject.1 p₁ b definedPattern.1 closed (fits.first order)]
  refine Option.bind_congr fun c found => ?_
  have extended := ((matches_of_matchPattern? found).instantiates ground.1 definedSubject.1
    definedPattern.1 closed).extended
  exact second ground.2 definedSubject.2 p₂ c definedPattern.2 extended.closed
    (fits.second order extended)

/-- Operand lists are matched as the last operand and what is in front of it. -/
theorem matchBackwards_withKinds
    (smaller : ∀ t, t.size < (variadic op ss).size → IgnoresLaterKinds f t)
    (ground : ∀ s ∈ ss, s.isGround) (definedSubject : ∀ s ∈ ss, s.isDefined)
    (definedPattern : ∀ p ∈ ps, p.isDefined) (closed : b.Closed)
    (fits : KindsFit f b (variadic op ps)) :
    matchBackwards op ss.reverse (ps.map (withKinds f)).reverse b =
      matchBackwards op ss.reverse ps.reverse b := by
  rcases List.eq_nil_or_concat' ss with rfl | ⟨ss, s, rfl⟩ <;>
    rcases List.eq_nil_or_concat' ps with rfl | ⟨ps, p, rfl⟩
  · rfl
  · simp [matchBackwards.eq_def]
  · simp [matchBackwards.eq_def]
  rw [List.forall_mem_append, List.forall_mem_singleton] at ground definedSubject definedPattern
  rw [List.map_append, List.map_singleton]
  rcases eq_or_ne ss [] with rfl | several <;> rcases eq_or_ne ps [] with rfl | severalPatterns
  · -- a single operand on both sides
    have operand : KindsFit f b p := fun name kind unbound met =>
      fits name kind unbound (by rwa [List.nil_append, kindMet?_variadic_singleton])
    rw [List.map_nil, List.nil_append, List.nil_append, List.nil_append, List.reverse_singleton,
      List.reverse_singleton, List.reverse_singleton, matchBackwards_singleton,
      matchBackwards_singleton]
    exact smaller s (size_lt_of_append [] s) ground.2 definedSubject.2 p b definedPattern.2
      closed operand
  · obtain ⟨ps, p', rfl⟩ := (List.eq_nil_or_concat' ps).resolve_left severalPatterns
    simp [matchBackwards.eq_def]
  · obtain ⟨ss, s', rfl⟩ := (List.eq_nil_or_concat' ss).resolve_left several
    simp [matchBackwards.eq_def]
  · have definedMap : ∀ q ∈ ps.map (withKinds f), q.isDefined := by simpa using definedPattern.1
    rw [matchBackwards_append several (by simpa using severalPatterns) definedSubject.1 definedMap,
      matchBackwards_append several severalPatterns definedSubject.1 definedPattern.1,
      front_map_withKinds]
    exact (smaller s (size_lt_of_append ss s)).bind (smaller (front op ss) (size_front_lt ss s))
      ⟨ground.2, isGround_front ground.1⟩ ⟨definedSubject.2, isDefined_front definedSubject.1⟩
      ⟨definedPattern.2, isDefined_front definedPattern.1⟩ closed fits
      (splits_front severalPatterns p).kindMet?_eq

/-- Only the kinds count with which names are met first. -/
theorem matchPattern?_withKinds (f : String → PlaceholderKind) (s : Term) :
    IgnoresLaterKinds f s := by
  induction n : s.size using Nat.strong_induction_on generalizing s with
  | _ n ih =>
  have smaller : ∀ t : Term, t.size < s.size → IgnoresLaterKinds f t :=
    fun t lt => ih t.size (n ▸ lt) t rfl
  intro ground definedSubject p b definedPattern closed fits
  cases p with
  | constant value => rfl
  | var name => rfl
  | placeholder name kind =>
    rw [withKinds]
    cases bound : b.find? name with
    | some t =>
      obtain ⟨groundBound, -⟩ := closed name t bound
      rw [matchPattern?_of_bound ground groundBound bound,
        matchPattern?_of_bound ground groundBound bound]
    | none => rw [fits name kind bound (by simp)]
  | binary o p₁ p₂ =>
    by_cases operation : ∃ s₁ s₂, s = binary o s₁ s₂
    · obtain ⟨s₁, s₂, rfl⟩ := operation
      rw [withKinds, matchPattern?_binary, matchPattern?_binary, if_pos rfl, if_pos rfl]
      exact (smaller s₁ (by simp only [size]; omega)).bind (smaller s₂ (by simp only [size]; omega))
        (isGround_binary.1 ground) (isDefined_binary.1 definedSubject)
        (isDefined_binary.1 definedPattern) closed fits fun _ => kindMet?_binary
    · have other : ∀ s₁ s₂, s ≠ binary o s₁ s₂ := fun s₁ s₂ same => operation ⟨s₁, s₂, same⟩
      rw [withKinds, matchPattern?_binary_of_ne other, matchPattern?_binary_of_ne other]
  | variadic op ps =>
    by_cases operation : ∃ ss, s = variadic op ss
    · obtain ⟨ss, rfl⟩ := operation
      -- whether the operations are equal from the start does not depend on any kinds
      have test : (variadic op ss == variadic op (ps.map (withKinds f))) =
          (variadic op ss == variadic op ps) := by
        have same := equal_withKinds_iff (f := f) (p := variadic op ps) ground definedSubject
        rw [withKinds, withKindsInAll_eq_map] at same
        exact Bool.eq_iff_iff.2 same
      rw [withKinds, withKindsInAll_eq_map, matchPattern?_variadic, matchPattern?_variadic, test,
        if_pos rfl, if_pos rfl, matchBackwards_withKinds smaller (isGround_variadic.1 ground)
          (isDefined_variadic.1 definedSubject) (isDefined_variadic.1 definedPattern) closed fits]
    · have other : ∀ ss, s ≠ variadic op ss := fun ss same => operation ⟨ss, same⟩
      rw [withKinds, matchPattern?_variadic_of_ne other, matchPattern?_variadic_of_ne other]

end WithKinds

/-! ### Patterns that keep terms with variables away -/

section Settled

variable {s p : Term} {r : Bindings} {name : String}

/-- The kinds with which the names of the pattern are met first. -/
def firstKinds (p : Term) (name : String) : PlaceholderKind := (p.kindMet? name).getD .any

theorem kindsFit_firstKinds (b : Bindings) (p : Term) : KindsFit p.firstKinds b p := by
  intro name kind _ met
  rw [firstKinds, met, Option.getD_some]

/-- A pattern may be replaced by one in which every name has one kind. -/
theorem matchPattern?_withKinds_firstKinds (ground : s.isGround) (definedSubject : s.isDefined)
    (definedPattern : p.isDefined) :
    s.matchPattern? (p.withKinds p.firstKinds) .empty = s.matchPattern? p .empty :=
  matchPattern?_withKinds p.firstKinds s ground definedSubject p .empty definedPattern
    Bindings.closed_empty (kindsFit_firstKinds .empty p)

theorem serves_of_settlesKinds (settles : p.SettlesKinds) (definedPattern : p.isDefined)
    (ground : s.isGround) (definedSubject : s.isDefined)
    (found : s.matchPattern? p .empty = some r) : r.Serves p := by
  intro name kind mem
  have extended := ((matches_of_matchPattern? found).instantiates ground definedSubject
    definedPattern Bindings.closed_empty).extended
  obtain ⟨t, bound, -⟩ := extended.exists_find? (mem_placeholderNames_iff.2 ⟨kind, mem⟩)
  refine ⟨t, bound, ?_⟩
  rintro rfl
  -- where every name has one kind, this one stands for terms without variables only
  rw [← matchPattern?_withKinds_firstKinds ground definedSubject definedPattern] at found
  refine not_hasVariable_of_matchPattern? found ground bound fun kind mem' => ?_
  rw [(placeholder_mem_subterms_withKinds.1 mem').1, firstKinds, settles name mem,
    Option.getD_some]

theorem exists_bindings (names : List String) (f : String → Term) :
    ∃ σ : Bindings, ∀ name, σ.find? name = if name ∈ names then some (f name) else none := by
  induction names with
  | nil => exact ⟨.empty, by simp⟩
  | cons n names ih =>
    obtain ⟨σ, values⟩ := ih
    refine ⟨σ.insert n (f n), fun name => ?_⟩
    rw [Bindings.find?_insert, values]
    by_cases same : name = n <;> simp [same]

/-- A name that is met first at a placeholder for any term takes a variable. -/
theorem exists_match_of_kindMet?_any (defined : p.isDefined) (any : p.kindMet? name = some .any) :
    ∃ (s : Term) (r : Bindings), s.isGround ∧ s.isDefined ∧ s.matchPattern? p .empty = some r ∧
      r.find? name = some (var "x") := by
  obtain ⟨σ, values⟩ := exists_bindings p.placeholderNames fun n =>
    if n = name then var "x" else int 0
  have mem : name ∈ p.placeholderNames := isSome_kindMet?_iff.1 (any ▸ rfl)
  have closed : σ.Closed := by
    intro n t found
    rw [values, Option.ite_none_right_eq_some, Option.some.injEq] at found
    obtain ⟨-, rfl⟩ := found
    split <;> exact ⟨rfl, rfl⟩
  -- all other names stand for zero, which any placeholder may stand for
  have serves : σ.Serves (p.withKinds p.firstKinds) := by
    intro n kind inner
    obtain ⟨rfl, named⟩ := placeholder_mem_subterms_withKinds.1 inner
    refine ⟨_, by rw [values, if_pos named], fun only => ?_⟩
    have distinct : n ≠ name := by
      rintro rfl
      rw [firstKinds, any] at only
      cases only
    rw [if_neg distinct]
    exact Bool.false_ne_true
  have definedKinds : (p.withKinds p.firstKinds).isDefined := by rwa [isDefined_withKinds]
  obtain ⟨r, found, collects⟩ := isCollected closed serves definedKinds .empty
    fun n t h => by simp at h
  have ground := serves.isGround_substitute closed
  have definedInstance := isDefined_substitute definedKinds fun n t h => (closed n t h).2
  rw [matchPattern?_withKinds_firstKinds ground definedInstance defined] at found
  refine ⟨_, r, ground, definedInstance, found, ?_⟩
  have bound := (collects.bound name).2 (.inr ?_)
  · obtain ⟨t, bound⟩ := Option.isSome_iff_exists.1 bound
    have same := collects.restrictionOf name t bound
    rw [values, if_pos mem, if_pos rfl] at same
    rw [bound, same]
  · rw [mem_placeholderNames_iff]
    exact ⟨_, placeholder_mem_subterms_withKinds.2 ⟨rfl, mem⟩⟩

/-- A pattern keeps terms with variables away from the placeholders that are to have none if and
only if the names of these are met at such placeholders first. -/
theorem forall_serves_iff_settlesKinds (defined : p.isDefined) :
    (∀ (s : Term) (r : Bindings), s.isGround → s.isDefined → s.matchPattern? p .empty = some r →
      r.Serves p) ↔ p.SettlesKinds := by
  refine ⟨fun h name mem => ?_, fun settles s r ground definedSubject =>
    serves_of_settlesKinds settles defined ground definedSubject⟩
  have named := isSome_kindMet?_iff.2 (mem_placeholderNames_iff.2 ⟨_, mem⟩)
  cases met : p.kindMet? name with
  | none => simp [met] at named
  | some kind =>
    cases kind with
    | constantOnly => rfl
    | any =>
      obtain ⟨s, r, ground, definedSubject, found, bound⟩ :=
        exists_match_of_kindMet?_any defined met
      obtain ⟨t, bound', without⟩ := h s r ground definedSubject found name _ mem
      obtain rfl : var "x" = t := Option.some.inj (bound.symm.trans bound')
      exact absurd rfl (without rfl)

/-- Every name has one kind. -/
def HasSingleKinds (p : Term) : Prop := ∀ x ∈ p.met, ∀ y ∈ p.met, x.1 = y.1 → x.2 = y.2

instance (p : Term) : Decidable p.HasSingleKinds :=
  inferInstanceAs (Decidable (∀ x ∈ p.met, ∀ y ∈ p.met, x.1 = y.1 → x.2 = y.2))

theorem HasSingleKinds.eq (h : p.HasSingleKinds) {k l : PlaceholderKind}
    (mem : placeholder name k ∈ p.subterms) (mem' : placeholder name l ∈ p.subterms) : k = l :=
  h _ (mem_met_iff.2 mem) _ (mem_met_iff.2 mem') rfl

end Settled

end Term

/-- Every name has one kind, in a pattern that has names. -/
def Pattern.HasSingleKinds : Pattern → Prop
  | .term p => p.HasSingleKinds
  | .shape _ => True

instance : (p : Pattern) → Decidable p.HasSingleKinds
  | .term p => inferInstanceAs (Decidable p.HasSingleKinds)
  | .shape _ => .isTrue trivial

theorem Standard.hasSingleKinds_of_mem_rules : ∀ rule ∈ rules, rule.pattern.HasSingleKinds := by
  decide

/-! ### Propositions -/

namespace Proposition

/-- The kind of the placeholder at which the name is met first, the left side before the right. -/
def kindMet? (p : Proposition) (name : String) : Option PlaceholderKind :=
  (p.lhs.kindMet? name).or (p.rhs.kindMet? name)

/-- A name that is to stand for a term without variables is met at such a placeholder first. -/
def SettlesKinds (p : Proposition) : Prop :=
  ∀ side ∈ p.sides, ∀ name, placeholder name .constantOnly ∈ side.subterms →
    p.kindMet? name = some .constantOnly

variable {s p : Proposition} {b r : Bindings}

/-- Propositions of one relation are matched as the differences of their sides are. -/
theorem matchPattern?_eq_difference (h : s.relation = p.relation) :
    s.matchPattern? p b =
      (difference s.lhs s.rhs).matchPattern? (difference p.lhs p.rhs) b := by
  rw [Proposition.matchPattern?, if_pos h, matchPattern?_binary, if_pos rfl]
  rfl

theorem relation_eq_of_matchPattern? (h : s.matchPattern? p b = some r) :
    s.relation = p.relation := by
  rw [Proposition.matchPattern?] at h
  split at h
  · assumption
  · cases h

theorem settlesKinds_difference : (difference p.lhs p.rhs).SettlesKinds ↔ p.SettlesKinds := by
  have met : ∀ name, (difference p.lhs p.rhs).kindMet? name = p.kindMet? name :=
    fun _ => kindMet?_binary
  constructor
  · intro h side mem name inner
    rw [← met]
    refine h name (mem_subterms_binary.2 (.inr ?_))
    rcases List.mem_pair.1 mem with rfl | rfl
    · exact .inl inner
    · exact .inr inner
  · intro h name inner
    rw [met]
    rcases mem_subterms_binary.1 inner with same | inner | inner
    · cases same
    · exact h p.lhs List.mem_cons_self name inner
    · exact h p.rhs (List.mem_cons_of_mem _ List.mem_cons_self) name inner

/-- The bindings serve both sides if they serve their difference. -/
theorem forall_serves_iff_difference :
    (∀ side ∈ p.sides, r.Serves side) ↔ r.Serves (difference p.lhs p.rhs) := by
  simp [sides]

theorem forall_serves_iff_settlesKinds (defined : ∀ side ∈ p.sides, side.isDefined) :
    (∀ (s : Proposition) (r : Bindings), (∀ t ∈ s.sides, t.isGround ∧ t.isDefined) →
      s.matchPattern? p .empty = some r → ∀ side ∈ p.sides, r.Serves side) ↔ p.SettlesKinds := by
  have definedBoth : (difference p.lhs p.rhs).isDefined := by simpa [sides] using defined
  rw [← settlesKinds_difference, ← Term.forall_serves_iff_settlesKinds definedBoth]
  simp only [forall_serves_iff_difference]
  constructor
  · intro h s r ground definedSubject found
    -- only a difference matches a difference
    obtain ⟨s₁, s₂, -, rfl, -⟩ := matchPattern?_binary_eq_some.1 found
    have relation : (⟨p.relation, s₁, s₂⟩ : Proposition).relation = p.relation := rfl
    refine h _ r ?_ ((matchPattern?_eq_difference relation).trans found)
    rw [isGround_binary] at ground
    rw [isDefined_binary] at definedSubject
    simpa [sides] using ⟨⟨ground.1, definedSubject.1⟩, ground.2, definedSubject.2⟩
  · intro h s r subject found
    rw [matchPattern?_eq_difference (relation_eq_of_matchPattern? found)] at found
    simp only [sides, List.forall_mem_cons] at subject
    exact h _ r (isGround_binary.2 ⟨subject.1.1, subject.2.1.1⟩)
      (isDefined_binary.2 ⟨subject.1.2, subject.2.1.2⟩) found

end Proposition

/-! ### The theorem -/

/-- What a match binds to a name has no variables if all placeholders of the name are for terms
without variables. More exactly, a pattern without undefined constants binds all its placeholders
for terms without variables to such terms, whatever it matches, if and only if their names are met
at such placeholders first; the patterns of the standard rules always do, for every name in them has
one kind. The same holds for propositions, where the left side is met first. -/
theorem kinds_count_when_met_first (p : Term) (q : Proposition) :
    (∀ (s : Term) (r : Bindings), s.isGround → s.matchPattern? p .empty = some r →
      ∀ name v, r.find? name = some v →
        (∀ kind, placeholder name kind ∈ p.subterms → kind = .constantOnly) → ¬ v.hasVariable) ∧
    (p.isDefined →
      ((∀ (s : Term) (r : Bindings), s.isGround → s.isDefined →
        s.matchPattern? p .empty = some r → r.Serves p) ↔ p.SettlesKinds)) ∧
    (∀ rule ∈ Standard.rules, rule.pattern = .term p → ∀ (s : Term) (r : Bindings), s.isGround →
      s.matchPattern? p .empty = some r → ∀ name, placeholder name .constantOnly ∈ p.subterms →
        ∀ v, r.find? name = some v → ¬ v.hasVariable) ∧
    (∀ (s : Proposition) (r : Bindings), (∀ t ∈ s.sides, t.isGround) →
      s.matchPattern? q .empty = some r → ∀ name v, r.find? name = some v →
        (∀ side ∈ q.sides, ∀ kind, placeholder name kind ∈ side.subterms → kind = .constantOnly) →
          ¬ v.hasVariable) ∧
    ((∀ side ∈ q.sides, side.isDefined) →
      ((∀ (s : Proposition) (r : Bindings), (∀ t ∈ s.sides, t.isGround ∧ t.isDefined) →
        s.matchPattern? q .empty = some r → ∀ side ∈ q.sides, r.Serves side) ↔
          q.SettlesKinds)) := by
  refine ⟨fun s r ground found name v bound kinds =>
      not_hasVariable_of_matchPattern? found ground bound kinds,
    fun defined => Term.forall_serves_iff_settlesKinds defined,
    fun rule mem pattern s r ground found name inner v bound => ?_,
    fun s r ground found name v bound kinds => ?_,
    fun defined => Proposition.forall_serves_iff_settlesKinds defined⟩
  · have single := Standard.hasSingleKinds_of_mem_rules rule mem
    rw [pattern] at single
    exact not_hasVariable_of_matchPattern? found ground bound fun kind inner' =>
      HasSingleKinds.eq single inner' inner
  · rw [Proposition.matchPattern?_eq_difference
      (Proposition.relation_eq_of_matchPattern? found)] at found
    refine not_hasVariable_of_matchPattern? found
      (isGround_binary.2 (by simpa [Proposition.sides] using ground)) bound fun kind inner => ?_
    rcases mem_subterms_binary.1 inner with same | inner | inner
    · cases same
    · exact kinds q.lhs List.mem_cons_self kind inner
    · exact kinds q.rhs (List.mem_cons_of_mem _ List.mem_cons_self) kind inner

/-- The first operand of a product is for numbers. On the other side of an inequality its name is
met again, at a placeholder for any term. In the last place differences of numbers are folded. -/
theorem kinds_count_when_met_first_factor :
    let s := product [int 2, var "x"]
    let p := product [placeholder "C" .constantOnly, placeholder "X" .any]
    let r := (Bindings.empty.insert "X" (var "x")).insert "C" (int 2)
    let q := Proposition.atMost p (placeholder "C" .any)
    let five := (Bindings.empty.insert "X" (int 5)).insert "Y" (int 3)
    s.matchPattern? p .empty = some r ∧ ¬ (int 2).hasVariable ∧ r.Serves p ∧
      (Proposition.atMost s (int 2)).matchPattern? q .empty = some r ∧
      (∀ side ∈ q.sides, r.Serves side) ∧
      (difference (int 5) (int 3)).matchPattern?
        (difference (Standard.anyConstant "X") (Standard.anyConstant "Y")) .empty = some five ∧
      ¬ (int 5).hasVariable := by
  intro s p r q five
  have found : s.matchPattern? p .empty = some r := by
    rw [matchPattern?_variadic, if_neg (by decide), if_pos rfl, matchBackwards.eq_def]
    change ((var "x").matchPattern? (placeholder "X" .any) .empty).bind
      (fun b => (int 2).matchPattern? (placeholder "C" .constantOnly) b) = some r
    rw [matchPattern?_of_unbound rfl rfl]
    exact matchPattern?_of_unbound rfl rfl
  have bound : r.find? "C" = some (int 2) := by simp [r, Bindings.find?_insert]
  have foundBoth : (Proposition.atMost s (int 2)).matchPattern? q .empty = some r := by
    change (s.matchPattern? p .empty).bind
      (fun b => (int 2).matchPattern? (placeholder "C" .any) b) = some r
    rw [found, Option.bind_some, matchPattern?_of_bound rfl rfl bound]
    exact matchPattern?_of_beq (by decide)
  have foundFive : (difference (int 5) (int 3)).matchPattern?
      (difference (Standard.anyConstant "X") (Standard.anyConstant "Y")) .empty = some five := by
    rw [matchPattern?_binary, if_pos rfl]
    change ((int 5).matchPattern? (placeholder "X" .constantOnly) .empty).bind
      (fun b => (int 3).matchPattern? (placeholder "Y" .constantOnly) b) = some five
    rw [matchPattern?_of_unbound rfl rfl]
    exact matchPattern?_of_unbound rfl rfl
  have settles : p.SettlesKinds := by
    intro name mem
    obtain rfl : name = "C" := by simpa [p, subterms] using mem
    decide
  have settlesBoth : q.SettlesKinds := by
    intro side mem name inner
    rcases List.mem_pair.1 mem with rfl | rfl
    · obtain rfl : name = "C" := by simpa [p, q, Proposition.atMost, subterms] using inner
      decide
    · simp [q, Proposition.atMost, subterms] at inner
  obtain ⟨names, patterns, -, -, propositions⟩ := kinds_count_when_met_first p q
  obtain ⟨-, -, rules, -⟩ := kinds_count_when_met_first
    (difference (Standard.anyConstant "X") (Standard.anyConstant "Y")) q
  refine ⟨found, names s r rfl found "C" _ bound (by simp [p, subterms]),
    (patterns rfl).2 settles s r rfl rfl found, foundBoth,
    (propositions (by decide)).2 settlesBoth _ r (by decide) foundBoth, foundFive, ?_⟩
  have mem := List.getElem_mem (l := Standard.rules) (n := 22) (by decide)
  exact rules _ mem rfl _ five rfl foundFive "X" (by simp [Standard.anyConstant, subterms]) _
    (by simp [five, Bindings.find?_insert])

/-- On the right side of `X-#X` the name is bound already. The difference `x-x` matches, and `#X`
stands for a variable. The same happens when the placeholders are the sides of an inequality. -/
theorem later_kind_takes_variable :
    let s := difference (var "x") (var "x")
    let p := difference (placeholder "X" .any) (placeholder "X" .constantOnly)
    let r := Bindings.empty.insert "X" (var "x")
    s.isGround ∧ s.isDefined ∧ p.isDefined ∧ s.matchPattern? p .empty = some r ∧
      (Proposition.atMost (var "x") (var "x")).matchPattern?
        (.atMost (placeholder "X" .any) (placeholder "X" .constantOnly)) .empty = some r ∧
      placeholder "X" .constantOnly ∈ p.subterms ∧ r.find? "X" = some (var "x") ∧
      (var "x").hasVariable := by
  intro s p r
  have found : s.matchPattern? p .empty = some r := by
    rw [matchPattern?_binary, if_pos rfl, matchPattern?_of_unbound rfl (Bindings.find?_empty "X")]
    exact (matchPattern?_of_bound rfl rfl (Bindings.find?_insert _ _ _ _)).trans
      (matchPattern?_of_beq rfl)
  have relation : (Proposition.atMost (var "x") (var "x")).relation =
    (Proposition.atMost (placeholder "X" .any) (placeholder "X" .constantOnly)).relation := rfl
  exact ⟨rfl, rfl, rfl, found, (Proposition.matchPattern?_eq_difference relation).trans found,
    by simp [p, subterms], by simp [r, Bindings.find?_insert], rfl⟩

end InequalityChaining

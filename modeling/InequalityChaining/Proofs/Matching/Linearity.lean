import InequalityChaining.Proofs.Matching.Soundness
import InequalityChaining.Proofs.Reduction.NormalForm

/-!
# Names that are bound already

A placeholder that is bound stands for its term, and that term is matched with the subject as any
pattern is. Between terms without placeholders the matcher binds nothing, so it is a test, but not
one for equality: operands are taken from the end of both lists, and where one list is down to a
single operand, that operand is tested against all that is left of the other list. So the sum of
three operands passes for the sum of the inner sum of the first two and the third. Terms that pass
are equal up to associativity, and equal terms pass; on flat terms, as simplification leaves them,
the test is equality.

## Main definitions

* `Term.front` — what is in front of the last operand
* `Regroups` — the terms without placeholders that match
* `Term.IsFlat` — no operation is an operand of an operation of the same kind

## Main results

* `Term.matchPattern?_eq_some_iff_regroups` — matching without placeholders is a test
* `Regroups.equal_flattened` — what passes is equal up to associativity
* `Regroups.equal_of_isFlat` — between flat terms only equal ones pass
* `bound_placeholder_regroups` — a bound placeholder, and one that is repeated
* `bound_placeholder_takes_other` — a sum of three passes for a sum of two
-/

namespace InequalityChaining

open Term

/-- What is in front of the last operand: the operation with these operands, or the operand itself
if it is the only one. -/
def Term.front (op : Variadic) : List Term → Term
  | [t] => t
  | ts => variadic op ts

/-- Equal terms, and operations whose last operands pass for each other, as does what is in front of
them. -/
inductive Regroups : Term → Term → Prop where
  | equal {s p : Term} (h : Term.equal s p) : Regroups s p
  | binary {s₁ s₂ p₁ p₂ : Term} (o : Binary) (left : Regroups s₁ p₁) (right : Regroups s₂ p₂) :
      Regroups (.binary o s₁ s₂) (.binary o p₁ p₂)
  | single {s p : Term} (op : Variadic) (h : Regroups s p) :
      Regroups (variadic op [s]) (variadic op [p])
  | operands {s p : Term} {ss ps : List Term} (op : Variadic) (subject : ss ≠ [])
      (pattern : ps ≠ []) (last : Regroups s p) (front : Regroups (front op ss) (front op ps)) :
      Regroups (variadic op (ss ++ [s])) (variadic op (ps ++ [p]))

namespace Term

section Front

variable {op : Variadic} {s t : Term} {ss ts : List Term}

theorem front_append (h : ts ≠ []) (t : Term) : front op (ts ++ [t]) = variadic op (ts ++ [t]) := by
  match ts, h with
  | [u], _ => rfl
  | u :: u' :: us, _ => rfl

/-- What is in front, together with the last operand, splits the operation. -/
theorem splits_front (h : ts ≠ []) (t : Term) : Splits op (ts ++ [t]) (front op ts) t := by
  match ts, h with
  | [u], _ => exact .pair u t
  | u :: u' :: us, _ => exact .append (u :: u' :: us) t

theorem isGround_front (h : ∀ t ∈ ts, t.isGround) : (front op ts).isGround := by
  match ts with
  | [] => simp [front]
  | [u] => exact h u List.mem_cons_self
  | u :: u' :: us => exact isGround_variadic.2 h

theorem isDefined_front (h : ∀ t ∈ ts, t.isDefined) : (front op ts).isDefined := by
  match ts with
  | [] => simp [front]
  | [u] => exact h u List.mem_cons_self
  | u :: u' :: us => exact isDefined_variadic.2 h

theorem size_front_le (op : Variadic) (ts : List Term) : (front op ts).size ≤ 1 + sizeOfAll ts := by
  match ts with
  | [] => simp [front, size]
  | [u] => simp [front, sizeOfAll]
  | u :: u' :: us => simp [front, size]

theorem size_front_lt (ts : List Term) (t : Term) :
    (front op ts).size < (variadic op (ts ++ [t])).size := by
  have pos := t.size_pos
  have le := size_front_le op ts
  simp only [size, sizeOfAll_append, sizeOfAll]
  omega

theorem size_lt_of_append (ts : List Term) (t : Term) :
    t.size < (variadic op (ts ++ [t])).size := by
  simp only [size, sizeOfAll_append, sizeOfAll]
  omega

end Front

section Matching

variable {op : Variadic} {s p : Term} {ss ps : List Term} {b r : Bindings}

/-- Reading operands from the end makes no difference to whether they agree up to order. -/
theorem sameOperands_reverse_iff (op : Variadic) (subject : ∀ s ∈ ss, s.isDefined)
    (pattern : ∀ p ∈ ps, p.isDefined) :
    sameOperands ss.reverse ps.reverse ↔ equal (variadic op ss) (variadic op ps) := by
  have reversed : equal (variadic op ss.reverse) (variadic op ps.reverse) ↔
      sameOperands ss.reverse ps.reverse := by
    simp [equal, sameOperands]
  rw [← reversed, equal_variadic_iff_equalOperands subject pattern,
    equal_variadic_iff_equalOperands (by simpa using subject) (by simpa using pattern),
    Multiset.coe_reverse, Multiset.coe_reverse]

/-- The last operands are matched with each other, and then what is in front of them. -/
theorem matchBackwards_append (subject : ss ≠ []) (pattern : ps ≠ [])
    (definedSubject : ∀ s ∈ ss, s.isDefined) (definedPattern : ∀ p ∈ ps, p.isDefined) :
    matchBackwards op (ss ++ [s]).reverse (ps ++ [p]).reverse b =
      (s.matchPattern? p b).bind fun c => (front op ss).matchPattern? (front op ps) c := by
  obtain ⟨ss, s', rfl⟩ := (List.eq_nil_or_concat' ss).resolve_left subject
  obtain ⟨ps, p', rfl⟩ := (List.eq_nil_or_concat' ps).resolve_left pattern
  have same := sameOperands_reverse_iff op definedSubject definedPattern
  rw [List.reverse_append, List.reverse_append, List.reverse_append, List.reverse_append] at *
  change matchBackwards op (s :: s' :: ss.reverse) (p :: p' :: ps.reverse) b = _
  rw [matchBackwards.eq_def]
  change (s.matchPattern? p b).bind _ = _
  congr 1
  funext c
  -- a single operand in front stands for itself, several make up an operation
  rcases eq_or_ne ss [] with rfl | several
  · rcases eq_or_ne ps [] with rfl | severalPatterns
    · rfl
    · rw [front_append severalPatterns]
      simp [front, List.isEmpty_eq_false_iff.2 severalPatterns, matchPattern?]
  · rcases eq_or_ne ps [] with rfl | severalPatterns
    · rw [front_append several]
      simp [front, List.isEmpty_eq_false_iff.2 several, matchPattern?]
    · rw [front_append several, front_append severalPatterns, matchPattern?_variadic, if_pos rfl]
      simp only [List.isEmpty_reverse, List.isEmpty_eq_false_iff.2 several,
        List.isEmpty_eq_false_iff.2 severalPatterns, List.reverse_append]
      exact if_congr same rfl rfl

/-- Operands match only if there are none or one on both sides, or several. -/
theorem lengths_of_matchBackwards (h : matchBackwards op ss.reverse ps.reverse b = some r) :
    ss = [] ∧ ps = [] ∨ (∃ s p, ss = [s] ∧ ps = [p]) ∨
      ∃ ss' s ps' p, ss = ss' ++ [s] ∧ ps = ps' ++ [p] ∧ ss' ≠ [] ∧ ps' ≠ [] := by
  rcases List.eq_nil_or_concat' ss with rfl | ⟨ss, s, rfl⟩
  · rcases List.eq_nil_or_concat' ps with rfl | ⟨ps, p, rfl⟩
    · exact .inl ⟨rfl, rfl⟩
    · simp [matchBackwards.eq_def] at h
  · rcases List.eq_nil_or_concat' ps with rfl | ⟨ps, p, rfl⟩
    · simp [matchBackwards.eq_def] at h
    · rcases List.eq_nil_or_concat' ss with rfl | ⟨ss, s', rfl⟩
      · rcases List.eq_nil_or_concat' ps with rfl | ⟨ps, p', rfl⟩
        · exact .inr (.inl ⟨s, p, rfl, rfl⟩)
        · simp [matchBackwards.eq_def] at h
      · rcases List.eq_nil_or_concat' ps with rfl | ⟨ps, p', rfl⟩
        · simp [matchBackwards.eq_def] at h
        · exact .inr (.inr ⟨_, s, _, p, rfl, rfl, by simp, by simp⟩)

/-- Without placeholders, what matches passes, and nothing is bound. -/
theorem regroups_of_matchPattern? {s p : Term} {b r : Bindings} (groundSubject : s.isGround)
    (definedSubject : s.isDefined) (groundPattern : p.isGround) (definedPattern : p.isDefined)
    (h : s.matchPattern? p b = some r) : r = b ∧ Regroups s p := by
  cases p with
  | placeholder name kind => simp at groundPattern
  | constant value =>
    rw [matchPattern?_constant, Option.ite_none_right_eq_some] at h
    exact ⟨(Option.some.inj h.2).symm, .equal h.1⟩
  | var name =>
    rw [matchPattern?_var, Option.ite_none_right_eq_some] at h
    exact ⟨(Option.some.inj h.2).symm, .equal h.1⟩
  | binary o p₁ p₂ =>
    obtain ⟨s₁, s₂, c, rfl, matchLeft, matchRight⟩ := matchPattern?_binary_eq_some.1 h
    rw [isGround_binary] at groundSubject groundPattern
    rw [isDefined_binary] at definedSubject definedPattern
    obtain ⟨rfl, left⟩ := regroups_of_matchPattern? groundSubject.1 definedSubject.1
      groundPattern.1 definedPattern.1 matchLeft
    obtain ⟨rfl, right⟩ := regroups_of_matchPattern? groundSubject.2 definedSubject.2
      groundPattern.2 definedPattern.2 matchRight
    exact ⟨rfl, .binary o left right⟩
  | variadic op ps =>
    obtain ⟨ss, rfl⟩ := exists_of_matchPattern?_variadic h
    by_cases same : (variadic op ss == variadic op ps) = true
    · rw [matchPattern?_of_beq same] at h
      exact ⟨(Option.some.inj h).symm, .equal same⟩
    rw [matchPattern?_variadic, if_neg same, if_pos rfl] at h
    rw [isGround_variadic] at groundSubject groundPattern
    rw [isDefined_variadic] at definedSubject definedPattern
    rcases lengths_of_matchBackwards h with ⟨rfl, rfl⟩ | ⟨s, p, rfl, rfl⟩ |
      ⟨ss, s, ps, p, rfl, rfl, several, severalPatterns⟩
    · -- operations without operands are equal
      exact absurd (by cases op <;> rfl) same
    · rw [List.reverse_singleton, List.reverse_singleton, matchBackwards_singleton] at h
      obtain ⟨rfl, passes⟩ := regroups_of_matchPattern? (groundSubject s List.mem_cons_self)
        (definedSubject s List.mem_cons_self) (groundPattern p List.mem_cons_self)
        (definedPattern p List.mem_cons_self) h
      exact ⟨rfl, .single op passes⟩
    · rw [List.forall_mem_append, List.forall_mem_singleton] at groundSubject groundPattern
      rw [List.forall_mem_append, List.forall_mem_singleton] at definedSubject definedPattern
      rw [matchBackwards_append several severalPatterns definedSubject.1 definedPattern.1] at h
      obtain ⟨c, matchLast, matchFront⟩ := Option.bind_eq_some_iff.1 h
      obtain ⟨rfl, last⟩ := regroups_of_matchPattern? groundSubject.2 definedSubject.2
        groundPattern.2 definedPattern.2 matchLast
      obtain ⟨rfl, front⟩ := regroups_of_matchPattern? (isGround_front groundSubject.1)
        (isDefined_front definedSubject.1) (isGround_front groundPattern.1)
        (isDefined_front definedPattern.1) matchFront
      exact ⟨rfl, .operands op several severalPatterns last front⟩
termination_by s.size
decreasing_by
  all_goals subst_vars
  all_goals first
    | exact size_front_lt _ _
    | exact size_lt_of_append _ _
    | (simp only [size, sizeOfAll]; omega)

/-- What passes without placeholders matches. -/
theorem matchPattern?_of_regroups (h : Regroups s p) (groundSubject : s.isGround)
    (definedSubject : s.isDefined) (groundPattern : p.isGround) (definedPattern : p.isDefined) :
    s.matchPattern? p b = some b := by
  induction h with
  | equal same => exact matchPattern?_of_beq same
  | binary o left right ihl ihr =>
    rw [isGround_binary] at groundSubject groundPattern
    rw [isDefined_binary] at definedSubject definedPattern
    exact matchPattern?_binary_eq_some.2 ⟨_, _, b, rfl,
      ihl groundSubject.1 definedSubject.1 groundPattern.1 definedPattern.1,
      ihr groundSubject.2 definedSubject.2 groundPattern.2 definedPattern.2⟩
  | @single s p op h ih =>
    simp only [isGround_variadic, isDefined_variadic, List.forall_mem_singleton] at *
    rw [matchPattern?_variadic]
    split
    · rfl
    · rw [if_pos rfl, List.reverse_singleton, List.reverse_singleton, matchBackwards_singleton]
      exact ih groundSubject definedSubject groundPattern definedPattern
  | @operands s p ss ps op subject pattern last front ihLast ihFront =>
    obtain ⟨groundFront, groundLast⟩ := (splits_front subject s).isGround_iff.1 groundSubject
    obtain ⟨definedFront, definedLast⟩ := (splits_front subject s).isDefined_iff.1 definedSubject
    obtain ⟨groundFront', groundLast'⟩ := (splits_front pattern p).isGround_iff.1 groundPattern
    obtain ⟨definedFront', definedLast'⟩ := (splits_front pattern p).isDefined_iff.1 definedPattern
    rw [isDefined_variadic, List.forall_mem_append] at definedSubject definedPattern
    rw [matchPattern?_variadic]
    split
    · rfl
    · rw [if_pos rfl, matchBackwards_append subject pattern definedSubject.1 definedPattern.1,
        ihLast groundLast definedLast groundLast' definedLast', Option.bind_some,
        ihFront groundFront definedFront groundFront' definedFront']

/-- Between terms without placeholders and undefined constants matching is a test, which binds
nothing. -/
theorem matchPattern?_eq_some_iff_regroups (groundSubject : s.isGround)
    (definedSubject : s.isDefined) (groundPattern : p.isGround) (definedPattern : p.isDefined) :
    s.matchPattern? p b = some r ↔ r = b ∧ Regroups s p := by
  constructor
  · exact regroups_of_matchPattern? groundSubject definedSubject groundPattern definedPattern
  · rintro ⟨rfl, passes⟩
    exact matchPattern?_of_regroups passes groundSubject definedSubject groundPattern
      definedPattern

end Matching

/-! ### What passes -/

/-- No sum is an operand of a sum, and no product an operand of a product. -/
def IsFlat (t : Term) : Prop :=
  ∀ op ts, variadic op ts ∈ t.subterms → ∀ u ∈ ts, u.operator? ≠ some (.variadic op)

section Flat

variable {op : Variadic} {o : Binary} {s t l r : Term} {ts : List Term}

theorem IsFlat.of_mem_subterms (h : t.IsFlat) (mem : s ∈ t.subterms) : s.IsFlat :=
  fun op ts inner => h op ts (mem_subterms_trans inner mem)

/-- Operations are flat if their operands are flat and of another kind. -/
theorem isFlat_variadic : (variadic op ts).IsFlat ↔
    ∀ u ∈ ts, u.operator? ≠ some (.variadic op) ∧ u.IsFlat := by
  constructor
  · exact fun flat u mem =>
      ⟨flat op ts (mem_subterms_self _) u mem, flat.of_mem_subterms (mem_subterms_operand mem)⟩
  · intro operands op' us mem
    rcases mem_subterms_variadic.1 mem with same | ⟨u, inside, inner⟩
    · obtain ⟨rfl, rfl⟩ : op' = op ∧ us = ts := by simpa using same
      exact fun u inside => (operands u inside).1
    · exact (operands u inside).2 op' us inner

/-- A flat term is its own flat form. -/
theorem flattened_of_isFlat (h : t.IsFlat) : t.flattened = t := by
  induction t using Term.induction with
  | binary o l r ihl ihr =>
    rw [flattened, ihl (h.of_mem_subterms mem_subterms_left),
      ihr (h.of_mem_subterms mem_subterms_right)]
  | variadic op ts ih =>
    have operands := h op ts (mem_subterms_self _)
    have below : ∀ u ∈ ts, u.flattened = u := fun u mem =>
      ih u mem (h.of_mem_subterms (mem_subterms_operand mem))
    rw [flattened]
    clear h ih
    congr 1
    induction ts with
    | nil => rfl
    | cons u us ihs =>
      rw [List.forall_mem_cons] at operands below
      rw [flattenedOperands, below.1, ihs operands.2 below.2]
      rcases Standard.splice_cases op u with ⟨vs, rfl, -⟩ | ⟨-, alone⟩
      · exact absurd rfl operands.1
      · rw [alone, List.singleton_append]
  | _ => rfl

/-- What simplification leaves as it is is flat. -/
theorem isFlat_of_isNormal (h : Standard.IsNormal t) : t.IsFlat := by
  intro op ts mem u inner
  have node := h _ mem
  cases op with
  | sum => exact (node.2.2 u inner).1
  | product => exact (node.2.2 u inner).1

end Flat

end Term

/-- The parts that are matched one after the other are flat. -/
theorem Splits.isFlat {op : Variadic} {ts : List Term} {u t : Term} (h : Splits op ts u t)
    (flat : (variadic op ts).IsFlat) : u.IsFlat ∧ t.IsFlat := by
  rw [isFlat_variadic] at flat
  cases h with
  | append ts t =>
    rw [List.forall_mem_append, List.forall_mem_singleton] at flat
    exact ⟨isFlat_variadic.2 flat.1, flat.2.2⟩
  | pair u t =>
    rw [List.forall_mem_cons, List.forall_mem_singleton] at flat
    exact ⟨flat.1.2, flat.2.2⟩

theorem passesToParts_isFlat : PassesToParts Term.IsFlat where
  splits := Splits.isFlat
  single flat := (isFlat_variadic.1 flat _ List.mem_cons_self).2
  binary flat := ⟨flat.of_mem_subterms mem_subterms_left, flat.of_mem_subterms mem_subterms_right⟩

namespace Regroups

variable {s p : Term}

/-- What passes is equal up to associativity. -/
theorem equal_flattened (h : Regroups s p) (groundSubject : s.isGround)
    (definedSubject : s.isDefined) (groundPattern : p.isGround) (definedPattern : p.isDefined) :
    s.flattened.equal p.flattened := by
  have found : s.matchPattern? p .empty = some .empty :=
    matchPattern?_of_regroups h groundSubject definedSubject groundPattern definedPattern
  have same := ((matches_of_matchPattern? found).instantiates groundSubject definedSubject
    definedPattern Bindings.closed_empty).equal
  rw [substitute_of_isGround groundPattern] at same
  exact equal_symm same

/-- Between flat terms only equal ones pass. -/
theorem equal_of_isFlat (h : Regroups s p) (groundSubject : s.isGround)
    (definedSubject : s.isDefined) (groundPattern : p.isGround) (definedPattern : p.isDefined)
    (flatSubject : s.IsFlat) (flatPattern : p.IsFlat) : s.equal p := by
  have same := h.equal_flattened groundSubject definedSubject groundPattern definedPattern
  rwa [flattened_of_isFlat flatSubject, flattened_of_isFlat flatPattern] at same

/-- Operands in front of the last one may be taken together. -/
theorem nested (op : Variadic) (ts : List Term) {t u : Term} (several : ts ≠ [])
    (defined : (variadic op (ts ++ [t, u])).isDefined) :
    Regroups (variadic op (ts ++ [t, u])) (variadic op [variadic op (ts ++ [t]), u]) := by
  obtain ⟨definedFront, definedLast⟩ :
      (variadic op (ts ++ [t])).isDefined ∧ u.isDefined := by
    simpa [or_imp, forall_and, and_assoc] using defined
  have whole : ts ++ [t, u] = ts ++ [t] ++ [u] := by simp
  rw [whole]
  change Regroups _ (variadic op ([variadic op (ts ++ [t])] ++ [u]))
  refine .operands op (by simp) (by simp) (.equal (equal_refl definedLast)) ?_
  rw [front_append several]
  exact .equal (equal_refl definedFront)

end Regroups

/-- On the right side of a difference a placeholder stands for the left side. -/
theorem matchPattern?_repeated {s bound : Term} (ground : bound.isGround) (name : String) :
    (difference bound s).matchPattern?
        (difference (placeholder name .any) (placeholder name .any)) .empty =
      s.matchPattern? (placeholder name .any) (Bindings.empty.insert name bound) := by
  rw [matchPattern?_binary, if_pos rfl,
    matchPattern?_of_unbound ground (Bindings.find?_empty name)]
  rfl

/-- A bound placeholder takes the terms that regroup its term, and binds nothing; and a placeholder
on both sides of a difference takes the differences whose right side regroups the left one. Equal
terms regroup each other. Terms that do are equal up to associativity, and between flat terms, as
simplification leaves them, they are equal. -/
theorem bound_placeholder_regroups (s bound : Term) (groundSubject : s.isGround)
    (definedSubject : s.isDefined) (groundBound : bound.isGround)
    (definedBound : bound.isDefined) :
    (∀ name kind seed r, seed.find? name = some bound →
      (s.matchPattern? (placeholder name kind) seed = some r ↔ r = seed ∧ Regroups s bound)) ∧
    (∀ name r, (difference bound s).matchPattern?
        (difference (placeholder name .any) (placeholder name .any)) .empty = some r ↔
      r = Bindings.empty.insert name bound ∧ Regroups s bound) ∧
    (s == bound → Regroups s bound) ∧
    (Regroups s bound → s.flattened == bound.flattened) ∧
    (s.IsFlat → bound.IsFlat → (Regroups s bound ↔ s == bound)) ∧
    (Standard.IsNormal s → Standard.IsNormal bound → (Regroups s bound ↔ s == bound)) := by
  have isBound : ∀ name kind (seed r : Bindings), seed.find? name = some bound →
      (s.matchPattern? (placeholder name kind) seed = some r ↔ r = seed ∧ Regroups s bound) := by
    intro name kind seed r found
    rw [matchPattern?_of_bound groundSubject groundBound found]
    exact matchPattern?_eq_some_iff_regroups groundSubject definedSubject groundBound definedBound
  have flat : s.IsFlat → bound.IsFlat → (Regroups s bound ↔ s == bound) := fun flatS flatB =>
    ⟨fun h => h.equal_of_isFlat groundSubject definedSubject groundBound definedBound flatS flatB,
      .equal⟩
  refine ⟨isBound, fun name r => ?_, .equal,
    fun h => h.equal_flattened groundSubject definedSubject groundBound definedBound, flat,
    fun normalS normalB => flat (isFlat_of_isNormal normalS) (isFlat_of_isNormal normalB)⟩
  rw [matchPattern?_repeated groundBound,
    isBound name .any _ r (by rw [Bindings.find?_insert, if_pos rfl])]

/-- A sum regrouped on the left, and simplified terms that differ in the order of operands. -/
theorem bound_placeholder_regroups_sums :
    let s := sum [var "x", var "y", var "z"]
    let bound := sum [sum [var "x", var "y"], var "z"]
    let seed := Bindings.empty.insert "X" bound
    let u := sum [product [var "x", var "y"], var "z"]
    let v := sum [var "z", product [var "y", var "x"]]
    s.isGround ∧ s.isDefined ∧ bound.isGround ∧ bound.isDefined ∧
      seed.find? "X" = some bound ∧
      s.matchPattern? (placeholder "X" .constantOnly) seed = some seed ∧
      (difference bound s).matchPattern?
        (difference (placeholder "X" .any) (placeholder "X" .any)) .empty = some seed ∧
      s.flattened == bound.flattened ∧
      Standard.IsNormal u ∧ Standard.IsNormal v ∧ u.IsFlat ∧ v.IsFlat ∧
      (Regroups u v ↔ u == v) := by
  intro s bound seed u v
  have found : seed.find? "X" = some bound := by simp [seed, Bindings.find?_insert]
  have passes : Regroups s bound :=
    .nested .sum [var "x"] (List.cons_ne_nil _ _) (by decide)
  have normalU : Standard.IsNormal u := by decide
  have normalV : Standard.IsNormal v := by decide
  obtain ⟨isBound, repeated, -, associativity, -⟩ :=
    bound_placeholder_regroups s bound rfl rfl rfl rfl
  obtain ⟨-, -, -, -, flat, -⟩ := bound_placeholder_regroups u v rfl rfl rfl rfl
  exact ⟨rfl, rfl, rfl, rfl, found, (isBound "X" _ seed seed found).2 ⟨rfl, passes⟩,
    (repeated "X" seed).2 ⟨rfl, passes⟩, associativity passes, normalU, normalV,
    isFlat_of_isNormal normalU, isFlat_of_isNormal normalV,
    flat (isFlat_of_isNormal normalU) (isFlat_of_isNormal normalV)⟩

/-- A sum of three operands passes for the sum of the inner sum of the first two and the third, to
which it is not equal. -/
theorem bound_placeholder_takes_other :
    let s := sum [var "x", var "y", var "z"]
    let bound := sum [sum [var "x", var "y"], var "z"]
    let seed := Bindings.empty.insert "X" bound
    s.isGround ∧ s.isDefined ∧ bound.isGround ∧ bound.isDefined ∧
      seed.find? "X" = some bound ∧ ¬ s == bound ∧
      s.matchPattern? (placeholder "X" .any) seed = some seed ∧
      (difference bound s).matchPattern?
        (difference (placeholder "X" .any) (placeholder "X" .any)) .empty = some seed := by
  intro s bound seed
  have found : seed.find? "X" = some bound := by simp [seed, Bindings.find?_insert]
  have passes : Regroups s bound :=
    .nested .sum [var "x"] (List.cons_ne_nil _ _) (by decide)
  have taken : s.matchPattern? (placeholder "X" .any) seed = some seed := by
    rw [matchPattern?_of_bound rfl rfl found]
    exact matchPattern?_of_regroups passes rfl rfl rfl rfl
  refine ⟨rfl, rfl, rfl, rfl, found, by decide, taken, ?_⟩
  rw [matchPattern?_repeated rfl]
  exact taken

end InequalityChaining

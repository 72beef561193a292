import Mathlib
import InequalityChaining.Proofs.Polynomial.Deduction
import InequalityChaining.Proofs.Reals.Identities
import InequalityChaining.Proofs.Reduction.FirstRule
import InequalityChaining.Proofs.Term.Rearrangement

/-!
# Deduction with rounded numbers

Over the reals, what is concluded from true facts is true, and the standard rules that are
identities keep it so. The rules that compute with numbers need not: folding rounds, and a real
that passes for an integer becomes that integer, which can make a bound stronger than it was. A
step is safe if in simplifying what it concludes these rules never raise the smaller side and never
lower the greater one. Facts that are found by safe steps are true, whatever is rounded on the way
to conclusions that are not admitted.

Truth is about values, so both sides of what is true have to have one. Sums and differences of
variables and finite numbers always do.

## Main definitions

* `Standard.SimplifiesWithin` — rounding keeps to one direction
* `Proposition.HoldsAt` — truth over the reals
* `KnowledgeBase.DeducesSafely` — a step in which rounding does not strengthen the conclusion
* `Term.IsLinear` — sums and differences of variables and finite numbers

## Main results

* `Term.ReplacesOne.keepsValue` — what keeps the value of a part keeps that of the whole
* `Standard.SimplifiesWithin.changesValue` — only rounding changes values
* `KnowledgeBase.IsTrueAt.deducesSafely` — safe steps keep what is known true
* `safe_deduction_sound` — safe runs from linear assumptions find what is true
* `safe_deduction_sound_not_rounded` — runs that are not safe need not
-/

open Relation (ReflTransGen)

namespace InequalityChaining

open Term Standard

/-! ### Changes of values -/

namespace Term

/-- The second term has a value wherever the first has one, and the two are related. -/
def ChangesValue (r : ℝ → ℝ → Prop) (t u : Term) : Prop :=
  ∀ assignment, t.HasValueAt assignment →
    u.HasValueAt assignment ∧ r (u.valueAt assignment) (t.valueAt assignment)

variable {r : ℝ → ℝ → Prop} {t u v : Term}

theorem KeepsValue.changesValue [Std.Refl r] (h : t.KeepsValue u) : t.ChangesValue r u := by
  intro assignment hasValue
  obtain ⟨hasValueU, same⟩ := h assignment hasValue
  exact ⟨hasValueU, same ▸ refl_of r _⟩

theorem ChangesValue.trans [IsTrans ℝ r] (h : t.ChangesValue r u) (h' : u.ChangesValue r v) :
    t.ChangesValue r v := by
  intro assignment hasValue
  obtain ⟨hasValueU, related⟩ := h assignment hasValue
  obtain ⟨hasValueV, related'⟩ := h' assignment hasValueU
  exact ⟨hasValueV, trans_of r related' related⟩

/-- What keeps the value of one part of a term keeps the value of the term. -/
theorem ReplacesOne.keepsValue {related : Term → Term → Prop} (h : t.ReplacesOne related u)
    (keeps : ∀ s s', related s s' → s.KeepsValue s') : t.KeepsValue u := by
  induction h with
  | root h => exact keeps _ _ h
  | operand op before after _ ih =>
    intro assignment h
    have operands := hasValueAt_variadic_iff.1 h
    obtain ⟨hasValue, same⟩ := ih assignment (operands _ (by simp))
    refine ⟨.variadic op (forall_mem_replace operands hasValue), ?_⟩
    rw [valueAt_variadic, valueAt_variadic, List.map_append, List.map_append, List.map_cons,
      List.map_cons, same]
  | left o r _ ih =>
    exact fun assignment h =>
      valueAt_binary_congr h (ih assignment h.operands.1) ⟨h.operands.2, rfl⟩
  | right o l _ ih =>
    exact fun assignment h =>
      valueAt_binary_congr h ⟨h.operands.1, rfl⟩ (ih assignment h.operands.2)

end Term

/-! ### Simplification -/

namespace Standard

/-- The first standard rule that applies turns the one term into the other, and it does not compute
with numbers. -/
def TurnsByIdentity (t u : Term) : Prop :=
  ∃ rule, IsFirstFitting rules t rule ∧ rule.name ∉ computing ∧ rule.reduce? t = .ok (some u)

/-- A rewriting by a rule that does not compute with numbers, or by any rule if it changes the value
of the whole term in the given direction only. -/
def RewritesWithin (r : ℝ → ℝ → Prop) (t u : Term) : Prop :=
  t.ReplacesOne TurnsByIdentity u ∨
    t.ReplacesOne (FirstRuleTurns rules) u ∧ t.ChangesValue r u

/-- Simplifying the one term gives the other by such rewritings. -/
def SimplifiesWithin (r : ℝ → ℝ → Prop) (t u : Term) : Prop :=
  ReductionTable.standard.simplify t = .ok u ∧ ReflTransGen (RewritesWithin r) t u

variable {r : ℝ → ℝ → Prop} {t u : Term}

theorem TurnsByIdentity.keepsValue (h : TurnsByIdentity t u) : t.KeepsValue u := by
  obtain ⟨rule, ⟨before, after, table, -, b, fits⟩, name, turns⟩ := h
  have mem : rule ∈ rules := table ▸ List.mem_append_right _ List.mem_cons_self
  intro assignment hasValue
  obtain ⟨u', reduced, keeps⟩ := (isIdentity_of_mem mem name).exists_reduce? fits hasValue
  obtain rfl : u' = u := by simpa [reduced] using turns
  exact keeps assignment hasValue

theorem RewritesWithin.changesValue [Std.Refl r] (h : RewritesWithin r t u) :
    t.ChangesValue r u := by
  rcases h with identity | ⟨-, changes⟩
  · exact (identity.keepsValue fun _ _ turns => turns.keepsValue).changesValue
  · exact changes

/-- What rounding does to the value is all that simplifying does to it. -/
theorem SimplifiesWithin.changesValue [Std.Refl r] [IsTrans ℝ r] (h : SimplifiesWithin r t u) :
    t.ChangesValue r u := by
  obtain ⟨-, rewritings⟩ := h
  induction rewritings with
  | refl => exact KeepsValue.changesValue fun _ hasValue => ⟨hasValue, rfl⟩
  | tail _ step ih => exact ih.trans step.changesValue

end Standard

/-! ### Truth -/

/-- Both sides of the proposition have values, of which the relation is true. -/
def Proposition.HoldsAt (assignment : String → ℝ) (p : Proposition) : Prop :=
  p.lhs.HasValueAt assignment ∧ p.rhs.HasValueAt assignment ∧
    match p.relation with
    | .equals => p.lhs.valueAt assignment = p.rhs.valueAt assignment
    | .atMost => p.lhs.valueAt assignment ≤ p.rhs.valueAt assignment

section Truth

variable {assignment : String → ℝ} {p q : Proposition} {l r : Term}

theorem holdsAt_atMost :
    (Proposition.atMost l r).HoldsAt assignment ↔ l.HasValueAt assignment ∧
      r.HasValueAt assignment ∧ l.valueAt assignment ≤ r.valueAt assignment :=
  Iff.rfl

theorem eq_atMost (relation : p.relation = .atMost) : p = .atMost p.lhs p.rhs := by
  cases p
  rw [Proposition.atMost, ← relation]

/-- An inequality stays true where its smaller side is lowered and its greater side is raised. -/
theorem Proposition.HoldsAt.changesValue (h : p.HoldsAt assignment)
    (inequality : p.relation = .atMost) (relation : q.relation = p.relation)
    (left : p.lhs.ChangesValue (· ≤ ·) q.lhs) (right : p.rhs.ChangesValue (· ≥ ·) q.rhs) :
    q.HoldsAt assignment := by
  rw [eq_atMost inequality, holdsAt_atMost] at h
  obtain ⟨hl, hr, below⟩ := h
  obtain ⟨hl', lowered⟩ := left assignment hl
  obtain ⟨hr', raised⟩ := right assignment hr
  rw [eq_atMost (relation.trans inequality), holdsAt_atMost]
  exact ⟨hl', hr', lowered.trans (below.trans raised)⟩

/-- An inequality is true if one that equals it is. -/
theorem holdsAt_of_beq (relation : q.relation = .atMost) (h : p == q)
    (holds : p.HoldsAt assignment) : q.HoldsAt assignment := by
  obtain ⟨same, ⟨left, right⟩ | ⟨equation, -⟩⟩ := Proposition.beq_iff_sides.1 h
  · obtain ⟨hl, hr, related⟩ := holds
    obtain ⟨hl', sameLeft⟩ := valueAt_of_equal hl left
    obtain ⟨hr', sameRight⟩ := valueAt_of_equal hr right
    refine ⟨hl', hr', ?_⟩
    rwa [← same, sameLeft, sameRight]
  · rw [same, relation] at equation
    cases equation

end Truth

/-! ### Steps -/

namespace KnowledgeBase

/-- All terms under consideration have values, and all facts are true. -/
structure IsTrueAt (assignment : String → ℝ) (k : KnowledgeBase) : Prop where
  terms : ∀ t ∈ k.terms, t.HasValueAt assignment
  facts : ∀ fact ∈ k.facts, fact.HoldsAt assignment

/-- A step by the standard rules in which rounding neither raises the smaller side of what is
concluded nor lowers the greater one. -/
def DeducesSafely (k k' : KnowledgeBase) : Prop :=
  ∃ d, k.deduce? .standard = some d ∧ d.knowledge = k' ∧
    ∃ p, Concludes k p ∧ d.fact.relation = p.relation ∧
      SimplifiesWithin (· ≤ ·) p.lhs d.fact.lhs ∧ SimplifiesWithin (· ≥ ·) p.rhs d.fact.rhs

end KnowledgeBase

section Steps

variable {assignment : String → ℝ} {k k' : KnowledgeBase} {p : Proposition}

theorem Concludes.relation (h : Concludes k p) : p.relation = .atMost := by
  cases h <;> rfl

/-- What is concluded from true facts is true. A square that has a value is not negative. -/
theorem Concludes.holdsAt (known : k.IsTrueAt assignment) (h : Concludes k p) :
    p.HoldsAt assignment := by
  cases h with
  | @squareNotNegative b e mem two =>
    obtain ⟨base, -, isPower⟩ := hasValueAt_power_iff.1 (known.terms _ mem)
    have exponent : (int 2).valueAt assignment = e.valueAt assignment := by
      rw [valueAt_int, (valueAt_of_isNumber two).2]
    refine holdsAt_atMost.2 ⟨hasValueAt_int 0, .power base (hasValueAt_int 2) ?_, ?_⟩
    · rwa [exponent]
    · have zero : (int 0).valueAt assignment = 0 := by simp
      rw [zero, valueAt_power]
      exact Real.rpow_nonneg isPower.nonneg _
  | @addInequalities p q memLeft memRight left right =>
    have first := known.facts p memLeft
    have second := known.facts q memRight
    rw [eq_atMost left, holdsAt_atMost] at first
    rw [eq_atMost right, holdsAt_atMost] at second
    obtain ⟨hl, hr, below⟩ := first
    obtain ⟨hl', hr', below'⟩ := second
    refine holdsAt_atMost.2 ⟨.variadic .sum (by simp [hl, hl']), .variadic .sum (by simp [hr, hr']),
      ?_⟩
    rw [valueAt_pair, valueAt_pair]
    exact add_le_add below below'

/-- A safe step keeps what is known true. -/
theorem KnowledgeBase.IsTrueAt.deducesSafely (known : k.IsTrueAt assignment)
    (h : k.DeducesSafely k') : k'.IsTrueAt assignment := by
  obtain ⟨d, deduced, rfl, p, concludes, relation, left, right⟩ := h
  obtain ⟨-, -, -, -, -, -, -, -, added⟩ := exists_of_deduce? deduced
  have holds : d.fact.HoldsAt assignment :=
    (concludes.holdsAt known).changesValue concludes.relation relation left.changesValue
      right.changesValue
  refine ⟨fun t mem => ?_, fun fact mem => ?_⟩
  · rcases mem_terms_of_addFact? added mem with mem | ⟨side, -⟩
    · exact known.terms t mem
    · have sides : ∀ t ∈ d.fact.sides, t.HasValueAt assignment :=
        List.forall_mem_cons.2 ⟨holds.1, List.forall_mem_singleton.2 holds.2.1⟩
      exact sides t side
  · rw [facts_of_addFact? added, List.mem_append, List.mem_singleton] at mem
    rcases mem with mem | rfl
    · exact known.facts fact mem
    · exact holds

theorem KnowledgeBase.IsTrueAt.reflTransGen (known : k.IsTrueAt assignment)
    (run : ReflTransGen DeducesSafely k k') : k'.IsTrueAt assignment := by
  induction run with
  | refl => exact known
  | tail _ step ih => exact ih.deducesSafely step

/-- The beginning of an attempt where the assumptions are true and the goal has values. -/
theorem Attempt.isTrueAt_start {p : Problem}
    (values : ∀ q ∈ p.goal :: p.assumptions, ∀ side ∈ q.sides, side.HasValueAt assignment)
    (holds : ∀ q ∈ p.assumptions, q.HoldsAt assignment) :
    (start p).knowledge.IsTrueAt assignment where
  terms t mem := by
    rcases mem_terms_start mem with ⟨name, -, rfl⟩ | ⟨⟨q, memProblem, side, memSides, part⟩, -⟩
    · exact .var name
    · exact (values q memProblem side memSides).of_mem_subterms part
  facts fact mem := holds fact (mem_facts_start mem)

end Steps

/-! ### Linear terms -/

/-- Sums and differences of variables and finite numbers. -/
inductive Term.IsLinear : Term → Prop where
  | constant {value : Number} (finite : value.isFinite) : IsLinear (constant value)
  | var (name : String) : IsLinear (var name)
  | sum {ts : List Term} (operands : ∀ t ∈ ts, IsLinear t) : IsLinear (sum ts)
  | difference {l r : Term} (left : IsLinear l) (right : IsLinear r) : IsLinear (difference l r)

theorem Term.IsLinear.hasValueAt {t : Term} (h : t.IsLinear) (assignment : String → ℝ) :
    t.HasValueAt assignment := by
  induction h with
  | constant finite => exact .constant finite
  | var name => exact .var name
  | sum operands ih => exact .variadic .sum ih
  | difference left right ihl ihr => exact .difference ihl ihr

/-- Deduction from linear assumptions is sound as long as rounding strengthens no conclusion: all
facts that are found so are true of the real numbers that the assumptions are true of, and so is a
goal that is proved so. -/
theorem safe_deduction_sound (goal : Proposition) (assumptions : List Proposition) (p : Problem)
    (accepted : Problem.ofPropositions goal assumptions = .ok p)
    (linear : ∀ q ∈ goal :: assumptions, ∀ side ∈ q.sides, side.IsLinear)
    (assignment : String → ℝ) (holds : ∀ q ∈ assumptions, q.HoldsAt assignment) :
    (∀ k, ReflTransGen KnowledgeBase.DeducesSafely (Attempt.start p).knowledge k →
      ∀ fact ∈ k.facts, fact.HoldsAt assignment) ∧
    (∀ budget clock a, (Attempt.start p).prove .standard budget clock = (.proved, a) →
      ReflTransGen KnowledgeBase.DeducesSafely (Attempt.start p).knowledge a.knowledge →
      goal.HoldsAt assignment) := by
  obtain ⟨rfl, rfl, relation⟩ := Problem.eq_of_ofPropositions accepted
  have known := Attempt.isTrueAt_start
    (fun q mem side memSides => (linear q mem side memSides).hasValueAt assignment) holds
  refine ⟨fun k run => (known.reflTransGen run).facts, ?_⟩
  intro budget clock a proved run
  obtain ⟨fact, mem, same⟩ := Attempt.exists_fact_of_prove proved
  exact holdsAt_of_beq relation same ((known.reflTransGen run).facts fact mem)

/-! ### A bound added to itself -/

section Doubling

variable {c v : Number}

namespace Standard

/-- A sum of two numbers is folded. -/
theorem reduceRoot_double (notZero : ¬ (constant c).isNumber 0)
    (folded : (sum [constant c, constant c]).evaluate = .ok v) :
    reduceRoot rules (sum [constant c, constant c]) = .ok (some (sum [constant v])) := by
  have both : [constant c, constant c].filter isConstantNode = [constant c, constant c] := rfl
  refine reduceRoot_of_forall_reduces rfl ?_ ?_ ?_
  · intro u h
    cases h with
    | dropNeutral op h => simp [notZero, Variadic.neutral] at h
    | foldSum two h =>
      obtain rfl := Except.ok.inj (folded.symm.trans (both ▸ h))
      rfl
    | flatten op h => simp [isVariadic] at h
    | pullOut op h => simp [partsOf?] at h
  · intro error h
    cases h with
    | foldVariadic two h => cases folded.symm.trans (both ▸ h)
  · rintro ⟨-, one, -⟩
    rw [both] at one
    simp at one

theorem reduceRoot_single (notZero : ¬ (constant v).isNumber 0) :
    reduceRoot rules (sum [constant v]) = .ok (some (constant v)) := by
  refine reduceRoot_of_forall_reduces rfl ?_ ?_ (by simp [IsNormalNode])
  · intro u h
    cases h with
    | singleton op t => rfl
    | dropNeutral op h => simp [notZero, Variadic.neutral] at h
    | foldSum two h => cases Nat.le_of_succ_le_succ two
    | flatten op h => simp [isVariadic] at h
    | pullOut op h => simp [partsOf?] at h
  · intro error h
    cases h with
    | foldVariadic two h => cases Nat.le_of_succ_le_succ two

/-- A real that passes for an integer becomes that integer. -/
theorem reduceRoot_integral {x : Real64} {i : Int64} (h : (Number.real x).integralValue? = some i) :
    reduceRoot rules (constant (.real x)) = .ok (some (int i)) := by
  refine reduceRoot_of_forall_reduces rfl ?_ nofun (by simp [IsNormalNode, h])
  intro u reduces
  cases reduces with
  | integralReal h' => rw [Option.some.inj (h.symm.trans h')]

/-- Twice a number is folded to a number. -/
theorem simplify_double (notZero : ¬ (constant c).isNumber 0)
    (folded : (sum [constant c, constant c]).evaluate = .ok v)
    (notZero' : ¬ (constant v).isNumber 0) :
    ReductionTable.standard.simplify (sum [constant c, constant c]) =
      .ok (toInteger (constant v)) := by
  have fold := reducePass_of_root_some (reduceRoot_double notZero folded)
  have single := reducePass_of_root_some (reduceRoot_single notZero')
  -- a real that passes for an integer takes one more pass
  cases integral : v.integralValue? with
  | none =>
    have normal : IsNormal (constant v) := by simpa [IsNormal, subterms, IsNormalNode]
    rw [simplify_of_passes (.head fold (.head single (.refl _))) (two_le_weightAt _ _ _),
      reduceWithin_of_none ((reducePass_eq_none_iff_isNormal rfl).2 normal)]
    simp [toInteger, constantValue?, integral]
  | some i =>
    cases v with
    | int j => cases integral
    | real x =>
      have normal : IsNormal (int i) := by
        simp [IsNormal, subterms, IsNormalNode, Number.integralValue?]
      have taken := reducePass_of_root_some (reduceRoot_integral integral)
      rw [simplify_of_passes (.head fold (.head single (.head taken (.refl _))))
          (Nat.le_add_right 3 _),
        reduceWithin_of_none ((reducePass_eq_none_iff_isNormal rfl).2 normal)]
      simp [toInteger, constantValue?, integral]

end Standard

end Doubling

section Problems

variable {c g : Number} {i : Int64} {x : Real64}

theorem isLinear_doubling (finite : c.isFinite) (finite' : g.isFinite) :
    ∀ q ∈ (doubling c g).goal :: (doubling c g).assumptions, ∀ side ∈ q.sides, side.IsLinear := by
  simp only [doubling, Proposition.sides, Proposition.atMost, List.forall_mem_cons,
    List.not_mem_nil, false_imp_iff, implies_true, and_true]
  exact ⟨⟨.sum (by simp [IsLinear.var]), .constant finite'⟩, .var "x", .constant finite⟩

theorem holdsAt_bound (finite : c.isFinite) :
    ∀ q ∈ (doubling c g).assumptions, q.HoldsAt fun _ => c.toReal := by
  refine List.forall_mem_singleton.2 (holdsAt_atMost.2 ⟨.var "x", .constant finite, ?_⟩)
  rw [valueAt, valueAt]

theorem not_holdsAt_of_lt (below : g.toReal < c.toReal + c.toReal) :
    ¬ (doubling c g).goal.HoldsAt fun _ => c.toReal := by
  intro holds
  obtain ⟨-, -, atMost⟩ := holdsAt_atMost.1 holds
  rw [valueAt_pair, valueAt, valueAt] at atMost
  exact absurd below (not_lt.2 atMost)

/-- Twice a number becomes an integer safely if neither folding nor the integer lowers it. -/
theorem simplifiesWithin_double (notZero : ¬ (constant c).isNumber 0)
    (folded : (sum [constant c, constant c]).evaluate = .ok (.real x))
    (notZero' : ¬ (constant (.real x)).isNumber 0)
    (integral : (Number.real x).integralValue? = some i) (finite : (Number.real x).isFinite)
    (raised : c.toReal + c.toReal ≤ (Number.real x).toReal)
    (raised' : (Number.real x).toReal ≤ i.toInt) :
    SimplifiesWithin (· ≥ ·) (sum [constant c, constant c]) (int i) := by
  have rewrites {t u : Term} (h : reduceRoot rules t = .ok (some u))
      (changes : t.ChangesValue (· ≥ ·) u) : RewritesWithin (· ≥ ·) t u :=
    .inr ⟨.root (reduceRoot_eq_some_iff.1 h), changes⟩
  have fold : RewritesWithin (· ≥ ·) (sum [constant c, constant c]) (sum [constant (.real x)]) := by
    refine rewrites (reduceRoot_double notZero folded) fun assignment _ => ⟨?_, ?_⟩
    · exact .variadic .sum (List.forall_mem_singleton.2 (.constant finite))
    · rw [valueAt_pair, valueAt_variadic]
      simpa [valueAt, Variadic.joinAll, Variadic.join] using raised
  have single : RewritesWithin (· ≥ ·) (sum [constant (.real x)]) (constant (.real x)) :=
    rewrites (reduceRoot_single notZero') (keepsValue_singleton .sum _).changesValue
  have taken : RewritesWithin (· ≥ ·) (constant (.real x)) (int i) := by
    refine rewrites (reduceRoot_integral integral) fun assignment _ => ⟨hasValueAt_int i, ?_⟩
    rwa [valueAt_int, valueAt]
  have simplified : toInteger (constant (.real x)) = int i := by
    simp [toInteger, constantValue?, integral]
  refine ⟨simplified ▸ simplify_double notZero folded notZero', ?_⟩
  exact .tail (.tail (.single fold) single) taken

end Problems

/-- Twice a bound that is just below one passes for two, which is a weaker bound, so that the goal
follows. -/
theorem safe_deduction_sound_tolerance :
    let close : Number := .real ⟨0x3FEFFFFFFFF24190⟩
    let p := doubling close (.int 2)
    Problem.ofPropositions p.goal p.assumptions = .ok p ∧
      (∀ q ∈ p.goal :: p.assumptions, ∀ side ∈ q.sides, side.IsLinear) ∧
      (∀ q ∈ p.assumptions, q.HoldsAt fun _ => close.toReal) ∧
      ∃ a, (Attempt.start p).prove .standard ⟨some 1, none⟩ stillClock = (.proved, a) ∧
        ReflTransGen KnowledgeBase.DeducesSafely (Attempt.start p).knowledge a.knowledge ∧
        p.goal.HoldsAt fun _ => close.toReal := by
  intro close p
  let twice : Number := .real ⟨0x3FFFFFFFFFF24190⟩
  have toRealTwice : twice.toReal = close.toReal + close.toReal := by
    rw [Number.toReal_of_value (a := close) (x := ⟨0x1FFFFFFFF24190, -53⟩) rfl,
      Number.toReal_of_value (x := ⟨0x1FFFFFFFF24190, -52⟩) rfl]
    norm_num [ScaledInt.toRat]
  have belowTwo : twice.toReal ≤ (2 : Int64).toInt := by
    have value : (2 : Int64).toInt = 2 := by decide
    rw [value, Number.toReal_of_value (x := ⟨0x1FFFFFFFF24190, -52⟩) rfl]
    norm_num [ScaledInt.toRat]
  have folded : (sum [constant close, constant close]).evaluate = .ok twice := by
    decide +kernel
  have rounded : SimplifiesWithin (· ≥ ·) (sum [constant close, constant close]) (int 2) :=
    simplifiesWithin_double (by decide +kernel) folded (by decide +kernel) (by decide +kernel)
      (by decide +kernel) toRealTwice.ge belowTwo
  have accepted := ofPropositions_doubling close (.int 2)
  have linear := isLinear_doubling (c := close) (g := .int 2) (by decide +kernel) rfl
  have holds := holdsAt_bound (c := close) (g := .int 2) (by decide +kernel)
  obtain ⟨d, deduced, same, proved⟩ := exists_prove_doubling (g := .int 2) rounded.1 (by decide)
  have step : (Attempt.start p).knowledge.DeducesSafely d.knowledge := by
    have mem : .atMost (var "x") (constant close) ∈ (Attempt.start p).knowledge.facts :=
      (start_doubling close (.int 2)).1 ▸ List.mem_cons_self
    have unchanged : SimplifiesWithin (· ≤ ·) (sum [var "x", var "x"]) (sum [var "x", var "x"]) :=
      ⟨simplify_twice, .refl⟩
    refine ⟨d, deduced, rfl, _, .addInequalities mem mem rfl rfl, ?_⟩
    rw [same]
    exact ⟨rfl, unchanged, rounded⟩
  have sound := safe_deduction_sound p.goal p.assumptions p accepted linear _ holds
  exact ⟨accepted, linear, holds, _, proved, .single step, sound.2 _ _ _ proved (.single step)⟩

/-- A bound that is just above one passes for one when it is doubled, and a large one is rounded
down when twice of it leaves the integers. Both make the bound of twice the variable stronger than
what follows, and a goal that does not follow is proved. -/
theorem safe_deduction_sound_not_rounded :
    let close : Number := .real ⟨0x3FF000000006DF38⟩
    let large : Number := .int 4611686018427387905
    let limit : Number := .real ⟨0x43E0000000000000⟩
    ∀ p ∈ [doubling close (.int 2), doubling large limit],
      Problem.ofPropositions p.goal p.assumptions = .ok p ∧
      (∀ q ∈ p.goal :: p.assumptions, ∀ side ∈ q.sides, side.IsLinear) ∧
      (∃ a, (Attempt.start p).prove .standard ⟨some 1, none⟩ stillClock = (.proved, a)) ∧
      ∃ assignment, (∀ q ∈ p.assumptions, q.HoldsAt assignment) ∧
        ¬ p.goal.HoldsAt assignment := by
  intro close large limit
  refine List.forall_mem_cons.2 ⟨?_, List.forall_mem_singleton.2 ?_⟩
  · let twice : Number := .real ⟨0x400000000006DF38⟩
    have folded : (sum [constant close, constant close]).evaluate = .ok twice := by
      decide +kernel
    have integral : twice.integralValue? = some 2 := by decide +kernel
    have simplified : ReductionTable.standard.simplify (sum [constant close, constant close]) =
        .ok (int 2) := by
      rw [simplify_double (by decide +kernel) folded (by decide +kernel)]
      simp [toInteger, constantValue?, integral]
    have below : (Number.int 2).toReal < close.toReal + close.toReal := by
      have value : (2 : Int64).toInt = 2 := by decide
      rw [Number.toReal_int, value, Number.toReal_of_value (x := ⟨4503599627820856, -52⟩) rfl]
      norm_num [ScaledInt.toRat]
    obtain ⟨d, -, -, proved⟩ := exists_prove_doubling (g := .int 2) simplified (by decide)
    exact ⟨ofPropositions_doubling _ _, isLinear_doubling (by decide +kernel) rfl, ⟨_, proved⟩, _,
      holdsAt_bound (by decide +kernel), not_holdsAt_of_lt below⟩
  · have folded : (sum [constant large, constant large]).evaluate = .ok limit := by
      decide +kernel
    have notIntegral : limit.integralValue? = none := by decide +kernel
    have simplified : ReductionTable.standard.simplify (sum [constant large, constant large]) =
        .ok (constant limit) := by
      rw [simplify_double (by decide +kernel) folded (by decide +kernel)]
      simp [toInteger, constantValue?, notIntegral]
    have below : limit.toReal < large.toReal + large.toReal := by
      have value : (4611686018427387905 : Int64).toInt = 4611686018427387905 := by decide
      rw [Number.toReal_int, value, Number.toReal_of_value (x := ⟨2 ^ 52, 11⟩) rfl]
      norm_num [ScaledInt.toRat]
    obtain ⟨d, -, -, proved⟩ := exists_prove_doubling (g := limit) simplified (by decide +kernel)
    exact ⟨ofPropositions_doubling _ _, isLinear_doubling rfl (by decide +kernel), ⟨_, proved⟩, _,
      holdsAt_bound rfl, not_holdsAt_of_lt below⟩

end InequalityChaining

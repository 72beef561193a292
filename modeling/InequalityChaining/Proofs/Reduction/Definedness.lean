import InequalityChaining.Deduction.Rule
import InequalityChaining.Proofs.Matching.Soundness
import InequalityChaining.Proofs.Reduction.StandardStep
import InequalityChaining.Proofs.Term.Evaluation

/-!
# Definedness through reduction

Matching binds parts of the subject only, so it brings in no undefined constants. A rule brings
them in only if its replacement holds one or its computation yields one. So if no rule of a table
does, what is made of a term without undefined constants has none either. The standard rules are
such: arithmetic yields finite numbers, and all else that they put in place are parts of the term.

## Main definitions

* `Bindings.IsDefined` — no undefined constant is bound
* `Action.KeepsDefined`, `Calculus.KeepsDefined` — rules that neither hold nor yield undefined
  constants

## Main results

* `Matches.isDefined_bindings` — what is bound in a match
* `isDefined_of_simplify` — what a table makes of a term
* `Calculus.keepsDefined_standard` — the standard rules keep terms defined
-/

namespace InequalityChaining

open Term

/-! ### Matching -/

/-- All bound terms are without undefined constants. -/
def Bindings.IsDefined (b : Bindings) : Prop := ∀ name t, b.find? name = some t → t.isDefined

theorem Bindings.isDefined_empty : Bindings.empty.IsDefined := by
  intro name t bound
  simp at bound

theorem passesToParts_isDefined : PassesToParts fun t => t.isDefined where
  splits split := split.isDefined_iff.1
  single h := isDefined_variadic.1 h _ List.mem_cons_self
  binary := isDefined_binary.1

/-- What a match binds are parts of the subject. -/
theorem Matches.isDefined_bindings {s p : Term} {b r : Bindings} (h : Matches s p b r)
    (defined : s.isDefined) (seed : b.IsDefined) : r.IsDefined :=
  h.forall_bound passesToParts_isDefined defined seed

/-! ### Rules -/

/-- The action neither holds nor yields undefined constants. -/
def Action.KeepsDefined : Action → Prop
  | .replace t => t.isDefined
  | .compute f => ∀ t u, t.isDefined → f t = .ok u → u.isDefined
  | .fail _ => True

/-- The rules of the calculus neither hold nor yield undefined constants. -/
structure Calculus.KeepsDefined (calculus : Calculus) : Prop where
  reduction : ∀ rule ∈ calculus.reduction.rules, rule.action.KeepsDefined
  inference : ∀ rule ∈ calculus.inference, ∀ side ∈ rule.conclusion.sides, side.isDefined

section Rules

variable {rules : List ReductionRule} {t u : Term}

theorem Action.isDefined_of_perform {a : Action} {b : Bindings} (keeps : a.KeepsDefined)
    (defined : t.isDefined) (bound : b.IsDefined) (h : a.perform t b = .ok u) : u.isDefined := by
  cases a with
  | replace v => exact Except.ok.inj h ▸ isDefined_substitute keeps bound
  | compute f => exact keeps t u defined h
  | fail error => cases h

theorem ReductionRule.isDefined_of_reduce? {rule : ReductionRule}
    (keeps : rule.action.KeepsDefined) (defined : t.isDefined)
    (h : rule.reduce? t = .ok (some u)) : u.isDefined := by
  rw [reduce?] at h
  split at h
  · cases h
  · next b found =>
    obtain ⟨v, performed, same⟩ := map_eq_ok.1 h
    obtain rfl := Option.some.inj same
    refine Action.isDefined_of_perform keeps defined ?_ performed
    cases pattern : rule.pattern with
    | term p =>
      rw [pattern] at found
      exact (matches_of_matchPattern? found).isDefined_bindings defined Bindings.isDefined_empty
    | shape holds =>
      -- a shape leaves the bindings as they were at the beginning
      rw [pattern, Pattern.bind?] at found
      split at found
      · exact Option.some.inj found ▸ Bindings.isDefined_empty
      · cases found

theorem isDefined_of_rewrites (keeps : ∀ rule ∈ rules, rule.action.KeepsDefined)
    (h : Rewrites rules t u) (defined : t.isDefined) : u.isDefined := by
  induction h with
  | root h =>
    obtain ⟨rule, mem, reduced⟩ := exists_rule_of_reduceRoot h (by simp)
    exact ReductionRule.isDefined_of_reduce? (keeps rule mem) defined reduced
  | operand op before after _ ih =>
    have operands := isDefined_variadic.1 defined
    exact isDefined_variadic.2 (forall_mem_replace operands (ih (operands _ (by simp))))
  | left o r _ ih =>
    rw [isDefined_binary] at defined ⊢
    exact ⟨ih defined.1, defined.2⟩
  | right o l _ ih =>
    rw [isDefined_binary] at defined ⊢
    exact ⟨defined.1, ih defined.2⟩

/-- What a table makes of a term without undefined constants has none. -/
theorem isDefined_of_simplify {table : ReductionTable}
    (keeps : ∀ rule ∈ table.rules, rule.action.KeepsDefined) (defined : t.isDefined)
    (h : table.simplify t = .ok u) : u.isDefined := by
  obtain ⟨n, passes⟩ := exists_passes_of_reduceWithin h
  have steps := passes.reflTransGen
  clear passes h
  induction steps with
  | refl => exact defined
  | tail _ step ih => exact isDefined_of_rewrites keeps step ih

end Rules

/-! ### The standard rules -/

namespace Term

/-- The value of a term without undefined constants is defined. -/
theorem isDefined_of_evaluate {t : Term} {v : Number} (defined : t.isDefined)
    (h : t.evaluate = .ok v) : v.isDefined := by
  cases t with
  | constant value =>
    rw [evaluate] at h
    rw [← Except.ok.inj h]
    simpa using defined
  | var name => cases h
  | placeholder name kind => cases h
  | variadic op ts => exact Number.isDefined_of_isFinite (isFinite_of_evaluate_variadic h)
  | binary op l r => exact Number.isDefined_of_isFinite (isFinite_of_evaluate_binary h)

end Term

namespace Standard

variable {op : Variadic} {inner : Binary} {t u : Term} {i : Int64}

theorem isDefined_of_mem_operandsOf (defined : t.isDefined) (mem : u ∈ operandsOf op t) :
    u.isDefined := by
  cases t with
  | variadic o ts =>
    rw [operandsOf] at mem
    split at mem
    · exact isDefined_variadic.1 defined u mem
    · simp at mem
  | _ => simp [operandsOf] at mem

theorem isDefined_toInteger (defined : t.isDefined) : (toInteger t).isDefined := by
  rw [toInteger]
  split
  · rfl
  · exact defined

theorem isDefined_withoutNumber (defined : t.isDefined) : (withoutNumber op i t).isDefined := by
  refine isDefined_variadic.2 fun u mem => ?_
  exact isDefined_of_mem_operandsOf defined (List.mem_filter.1 mem).1

theorem isDefined_flatten (defined : t.isDefined) : (flatten op t).isDefined := by
  refine isDefined_variadic.2 (forall_mem_flatMap_splice ?_ ?_)
  · exact fun us inner => isDefined_variadic.1 inner
  · exact fun u mem => isDefined_of_mem_operandsOf defined mem

theorem isDefined_pullOut (defined : t.isDefined) : (pullOut op inner t).isDefined := by
  have operands : ∀ u ∈ operandsOf op t, u.isDefined := fun u mem =>
    isDefined_of_mem_operandsOf defined mem
  refine isDefined_binary.2 ⟨isDefined_variadic.2 ?_, isDefined_variadic.2 ?_⟩
  · exact forall_mem_leftParts (fun l r both => (isDefined_binary.1 both).1) operands
  · exact forall_mem_rightParts (fun l r both => (isDefined_binary.1 both).2) operands

theorem isDefined_evaluated (defined : t.isDefined) (h : evaluated t = .ok u) : u.isDefined := by
  obtain ⟨v, value, rfl⟩ := map_eq_ok.1 h
  simpa using isDefined_of_evaluate defined value

/-- Folding leaves the other operands as they are and puts a value beside them. -/
theorem isDefined_fold {ts : List Term} (defined : ∀ t ∈ ts, t.isDefined) {v : Number}
    (value : (variadic op (ts.filter isConstantNode)).evaluate = .ok v) :
    v.isDefined ∧ ∀ t ∈ ts.filter (fun t => !isConstantNode t), t.isDefined := by
  refine ⟨isDefined_of_evaluate ?_ value, fun t mem => defined t (List.mem_filter.1 mem).1⟩
  exact isDefined_variadic.2 fun t mem => defined t (List.mem_filter.1 mem).1

theorem isDefined_foldSum (defined : t.isDefined) (h : foldSum t = .ok u) : u.isDefined := by
  obtain ⟨v, value, h⟩ := bind_eq_ok.1 h
  rw [pure_eq_ok] at h
  rw [List.partition_eq_filter_filter] at value h
  obtain ⟨definedValue, others⟩ :=
    isDefined_fold (fun t mem => isDefined_of_mem_operandsOf defined mem) value
  rw [← h, isDefined_variadic, List.forall_mem_append, List.forall_mem_singleton]
  exact ⟨others, isDefined_constant.trans definedValue⟩

theorem isDefined_foldProduct (defined : t.isDefined) (h : foldProduct t = .ok u) :
    u.isDefined := by
  obtain ⟨v, value, h⟩ := bind_eq_ok.1 h
  rw [pure_eq_ok] at h
  rw [List.partition_eq_filter_filter] at value h
  obtain ⟨definedValue, others⟩ :=
    isDefined_fold (fun t mem => isDefined_of_mem_operandsOf defined mem) value
  rw [← h, isDefined_variadic, List.forall_mem_cons]
  exact ⟨isDefined_constant.trans definedValue, others⟩

/-- A computation that always succeeds keeps terms defined if its result does. -/
theorem keepsDefined_compute_ok {f : Term → Term} (keeps : ∀ t, t.isDefined → (f t).isDefined) :
    (Action.compute fun t => .ok (f t)).KeepsDefined := by
  rintro t u defined h
  exact Except.ok.inj h ▸ keeps t defined

theorem keepsDefined_cleanup : ∀ rule ∈ cleanup, rule.action.KeepsDefined := by
  simp only [cleanup, List.forall_mem_cons, List.not_mem_nil, false_imp_iff, implies_true, and_true]
  exact ⟨keepsDefined_compute_ok fun _ => isDefined_toInteger, rfl, rfl, rfl, rfl⟩

theorem keepsDefined_arithmetic : ∀ rule ∈ arithmetic, rule.action.KeepsDefined := by
  have without : ∀ op i, (Action.compute fun t => .ok (withoutNumber op i t)).KeepsDefined :=
    fun op i => keepsDefined_compute_ok fun _ => isDefined_withoutNumber
  have fold : (Action.compute evaluated).KeepsDefined := fun _ _ => isDefined_evaluated
  simp only [arithmetic, List.forall_mem_cons, List.not_mem_nil, false_imp_iff, implies_true,
    and_true]
  refine ⟨trivial, trivial, trivial, without .sum 0, rfl, keepsDefined_compute_ok fun _ _ => rfl,
    rfl, without .product 1, rfl, rfl, rfl, rfl, rfl, rfl, rfl, rfl, ?_, fold, ?_, fold, fold, fold⟩
  · exact fun _ _ => isDefined_foldSum
  · exact fun _ _ => isDefined_foldProduct

theorem keepsDefined_nesting : ∀ rule ∈ nesting, rule.action.KeepsDefined := by
  have flat : ∀ op, (Action.compute fun t => .ok (flatten op t)).KeepsDefined :=
    fun op => keepsDefined_compute_ok fun _ => isDefined_flatten
  have out : ∀ op inner, (Action.compute fun t => .ok (pullOut op inner t)).KeepsDefined :=
    fun op inner => keepsDefined_compute_ok fun _ => isDefined_pullOut
  simp only [nesting, List.forall_mem_cons, List.not_mem_nil, false_imp_iff, implies_true, and_true]
  exact ⟨flat .sum, out .sum .difference, rfl, rfl, flat .product, out .product .quotient, rfl,
    rfl, rfl, rfl, rfl, rfl⟩

end Standard

/-- The standard rules neither hold nor yield undefined constants. -/
theorem Calculus.keepsDefined_standard : Calculus.standard.KeepsDefined where
  reduction := by
    refine List.forall_mem_append.2 ⟨List.forall_mem_append.2 ⟨?_, ?_⟩, ?_⟩
    · exact Standard.keepsDefined_cleanup
    · exact Standard.keepsDefined_arithmetic
    · exact Standard.keepsDefined_nesting
  inference := by decide

end InequalityChaining

import Mathlib.Logic.Function.Basic
import Mathlib.Tactic.ClearExcept
import InequalityChaining.Proofs.Matching.Equations

/-!
# Renaming variables

A renaming changes the names of variables and nothing else; placeholders and their names stay. If
no two names become one, renamed terms are equal exactly if the terms are, and everything that
matching looks at is the same before and after. So matching commutes with renaming, with no
condition on the terms: subject, pattern and bindings are renamed, and so are the bindings found.

## Main definitions

* `Term.rename`, `Bindings.rename`, `Proposition.rename` — the variables renamed

## Main results

* `Term.any_rename` — what a predicate that ignores the names of variables finds
* `Term.beq_rename`, `Proposition.beq_rename` — equality of what is renamed
* `Term.rename_substitute` — substitution of renamed terms
* `Term.matchPattern?_rename`, `Proposition.matchPattern?_rename` — matching commutes with renaming
-/

namespace InequalityChaining

namespace Term

mutual

/-- The term with all its variables renamed. -/
def rename (ρ : String → String) : Term → Term
  | constant value => constant value
  | var name => var (ρ name)
  | placeholder name kind => placeholder name kind
  | variadic op operands => variadic op (renameAll ρ operands)
  | binary op left right => binary op (rename ρ left) (rename ρ right)

/-- The same for a list of terms. -/
def renameAll (ρ : String → String) : List Term → List Term
  | [] => []
  | t :: ts => rename ρ t :: renameAll ρ ts

end

@[simp] theorem renameAll_eq_map (ρ : String → String) (ts : List Term) :
    renameAll ρ ts = ts.map (rename ρ) := by
  induction ts with
  | nil => rfl
  | cons t ts ih => simp [renameAll, ih]

section Parts

variable {ρ : String → String} {t : Term} {p : Term → Bool}

/-- A predicate that ignores the names of variables holds of a part of a renamed term exactly if it
does of a part of the term. -/
theorem any_rename (h : ∀ u, p (rename ρ u) = p u) : (t.rename ρ).any p = t.any p := by
  induction t using Term.induction with
  | variadic op ts ih =>
    rw [any_variadic, ← h (variadic op ts), rename, renameAll_eq_map, any_variadic, List.any_map]
    congr 1
    rw [Bool.eq_iff_iff, List.any_eq_true, List.any_eq_true]
    exact exists_congr fun u => and_congr_right fun mem => by rw [Function.comp_apply, ih u mem]
  | binary op l r ihl ihr =>
    rw [any_binary, ← h (binary op l r), rename, any_binary, ihl, ihr]
  | constant value => rfl
  | var name => simpa [any, subterms, rename] using h (var name)
  | placeholder name kind => rfl

@[simp] theorem isVar_rename : (t.rename ρ).isVar = t.isVar := by
  cases t <;> rfl

@[simp] theorem isPlaceholder_rename : (t.rename ρ).isPlaceholder = t.isPlaceholder := by
  cases t <;> rfl

@[simp] theorem hasVariable_rename : (t.rename ρ).hasVariable = t.hasVariable :=
  any_rename fun _ => isVar_rename

@[simp] theorem hasPlaceholder_rename : (t.rename ρ).hasPlaceholder = t.hasPlaceholder :=
  any_rename fun _ => isPlaceholder_rename

@[simp] theorem isConstant_rename : (t.rename ρ).isConstant = t.isConstant := by
  rw [isConstant, isConstant, any_rename fun u => by simp]

@[simp] theorem isReflexive_rename : (t.rename ρ).isReflexive = t.isReflexive := by
  induction t using Term.induction with
  | binary op l r ihl ihr => rw [rename, isReflexive, isReflexive, ihl, ihr]
  | _ => rfl

/-- A term without variables stays as it is. -/
theorem rename_of_not_hasVariable (h : ¬ t.hasVariable) : t.rename ρ = t := by
  induction t using Term.induction with
  | var name => simp at h
  | variadic op ts ih =>
    rw [hasVariable_variadic, not_exists] at h
    rw [rename, renameAll_eq_map, List.map_congr_left (g := id) fun u mem =>
      ih u mem fun var => h u ⟨mem, var⟩, List.map_id]
  | binary op l r ihl ihr =>
    rw [hasVariable_binary, not_or] at h
    rw [rename, ihl h.1, ihr h.2]
  | _ => rfl

end Parts

/-! ### Equality -/

section Equality

variable {ρ : String → String}

/-- Operands pair off after renaming if they do before. -/
theorem pairOff_rename {as bs : List Term}
    (h : ∀ a ∈ as, ∀ b, equal (a.rename ρ) (b.rename ρ) = equal a b) :
    pairOff (as.map (rename ρ)) (bs.map (rename ρ)) = pairOff as bs := by
  induction as generalizing bs with
  | nil =>
    rw [List.map_nil, pairOff, pairOff, List.all_map]
    exact List.all_congr rfl fun b => by simp
  | cons a as ih =>
    rw [List.forall_mem_cons] at h
    have same : equal (a.rename ρ) ∘ rename ρ = equal a := funext h.1
    rw [List.map_cons, pairOff, pairOff, isReflexive_rename, List.any_map, List.eraseP_map, same,
      ih h.2, ih h.2]

variable (injective : ρ.Injective)

include injective

theorem beq_rename (t u : Term) : (t.rename ρ == u.rename ρ) = (t == u) := by
  change equal (t.rename ρ) (u.rename ρ) = equal t u
  induction t using Term.induction generalizing u with
  | var name =>
    cases u with
    | var name' =>
      -- names are as different as they were
      rw [rename, rename, equal, equal, Bool.eq_iff_iff, beq_iff_eq, beq_iff_eq]
      exact injective.eq_iff
    | _ => rfl
  | variadic op ts ih =>
    cases u with
    | variadic op' us =>
      simp only [rename, renameAll_eq_map, equal, List.length_map, pairOff_rename ih]
    | _ => rfl
  | binary op l r ihl ihr =>
    cases u with
    | binary op' l' r' => simp only [rename, equal, ihl, ihr]
    | _ => rfl
  | constant value => cases u <;> rfl
  | placeholder name kind => cases u <;> rfl

theorem sameOperands_rename (as bs : List Term) :
    sameOperands (as.map (rename ρ)) (bs.map (rename ρ)) = sameOperands as bs := by
  have same : pairOff (as.map (rename ρ)) (bs.map (rename ρ)) = pairOff as bs :=
    pairOff_rename fun a _ b => beq_rename injective a b
  rw [sameOperands, sameOperands, List.length_map, List.length_map, same]

end Equality

end Term

/-! ### Bindings -/

open Term

namespace Bindings

variable {ρ : String → String}

/-- The bindings with the variables of all bound terms renamed. -/
def rename (ρ : String → String) (b : Bindings) : Bindings where
  entries := b.entries.map fun entry => (entry.1, entry.2.rename ρ)
  nodup := by
    rw [List.map_map]
    exact b.nodup

@[simp] theorem rename_empty : empty.rename ρ = empty := rfl

@[simp] theorem size_rename (b : Bindings) : (b.rename ρ).size = b.size :=
  List.length_map _

theorem find?_rename (b : Bindings) (name : String) :
    (b.rename ρ).find? name = (b.find? name).map (Term.rename ρ) := by
  rw [find?, find?, rename, List.find?_map, Option.map_map, Option.map_map]
  rfl

theorem rename_insert (b : Bindings) (name : String) (t : Term) :
    (b.insert name t).rename ρ = (b.rename ρ).insert name (t.rename ρ) := by
  simp only [rename, insert, List.map_cons, List.filter_map, Function.comp_def]

theorem beq_rename (injective : ρ.Injective) (b c : Bindings) :
    (b.rename ρ == c.rename ρ) = (b == c) := by
  change equal _ _ = equal _ _
  rw [equal, equal, size_rename, size_rename]
  congr 1
  rw [rename, List.all_map]
  refine List.all_congr rfl fun entry => ?_
  change ((c.rename ρ).find? entry.1).any (entry.2.rename ρ == ·) = _
  rw [find?_rename, Option.any_map]
  exact congrArg (Option.any · _) (funext fun t => Term.beq_rename injective entry.2 t)

end Bindings

theorem Term.rename_substitute (ρ : String → String) (t : Term) (b : Bindings) :
    (t.substitute b).rename ρ = (t.rename ρ).substitute (b.rename ρ) := by
  induction t using Term.induction with
  | placeholder name kind =>
    rw [rename, substitute, substitute, Bindings.find?_rename]
    cases b.find? name <;> rfl
  | variadic op ts ih =>
    simp only [substitute, rename, renameAll_eq_map, substituteAll_eq_map, List.map_map]
    exact congrArg _ (List.map_congr_left ih)
  | binary op l r ihl ihr => simp only [substitute, rename, ihl, ihr]
  | _ => rfl

/-! ### Matching -/

section Matching

variable {ρ : String → String} (injective : ρ.Injective)

include injective

mutual

/-- Matching commutes with renaming, however many hops are left. -/
theorem Term.matchWithin_rename (hops : Nat) (s p : Term) (b : Bindings) :
    matchWithin hops (s.rename ρ) (p.rename ρ) (b.rename ρ) =
      (matchWithin hops s p b).map (Bindings.rename ρ) := by
  by_cases same : (s == p) = true
  · rw [matchWithin.eq_def, if_pos ((beq_rename injective s p).trans same), matchWithin.eq_def,
      if_pos same]
    rfl
  have sameRenamed : ¬ (s.rename ρ == p.rename ρ) = true := by rwa [beq_rename injective]
  cases p with
  | placeholder name kind =>
    rw [rename] at sameRenamed ⊢
    rw [matchWithin_placeholder_of_not_beq (Bool.eq_false_iff.2 same),
      matchWithin_placeholder_of_not_beq (Bool.eq_false_iff.2 sameRenamed), Bindings.find?_rename]
    cases b.find? name with
    | none =>
      simp only [Option.map_none, isConstant_rename]
      split
      · rfl
      · rw [Option.map_some, Bindings.rename_insert]
    | some bound =>
      cases hops with
      | zero => rfl
      | succ hops => exact Term.matchWithin_rename hops s bound b
  | variadic o ps =>
    rw [matchWithin.eq_def, if_neg sameRenamed, matchWithin.eq_def hops s, if_neg same]
    cases s with
    | variadic o' ss =>
      simp only [rename, renameAll_eq_map, ← List.map_reverse]
      split
      · exact Term.matchBackwards_rename o' ss.reverse ps.reverse b
      · rfl
    | _ => rfl
  | binary o p₁ p₂ =>
    rw [matchWithin.eq_def, if_neg sameRenamed, matchWithin.eq_def hops s, if_neg same]
    cases s with
    | binary o' s₁ s₂ =>
      simp only [rename]
      split
      · -- either part may take as many hops as names are bound by then
        rw [Bindings.size_rename, Term.matchWithin_rename b.size s₁ p₁ b]
        cases matchWithin b.size s₁ p₁ b with
        | none => rfl
        | some c =>
          change matchWithin (c.rename ρ).size _ _ _ = _
          rw [Bindings.size_rename]
          exact Term.matchWithin_rename c.size s₂ p₂ c
      · rfl
    | _ => rfl
  | constant value =>
    rw [matchWithin.eq_def, if_neg sameRenamed, matchWithin.eq_def hops s, if_neg same]
    cases s <;> rfl
  | var name =>
    rw [matchWithin.eq_def, if_neg sameRenamed, matchWithin.eq_def hops s, if_neg same]
    cases s <;> rfl
termination_by (2 * s.size, hops)
decreasing_by
  all_goals subst_vars
  all_goals simp only [Prod.lex_def, size, sizeOfAll_reverse, true_and]
  all_goals omega

/-- Operands that are matched from the end are matched so after renaming. -/
theorem Term.matchBackwards_rename (op : Variadic) (ss ps : List Term) (b : Bindings) :
    matchBackwards op (ss.map (rename ρ)) (ps.map (rename ρ)) (b.rename ρ) =
      (matchBackwards op ss ps b).map (Bindings.rename ρ) := by
  have wrapped : ∀ ts : List Term, variadic op (ts.map (rename ρ)).reverse =
      (variadic op ts.reverse).rename ρ := by
    intro ts
    rw [rename, renameAll_eq_map, List.map_reverse]
  match ss, ps with
  | [], [] => simp [matchBackwards]
  | [], _ :: _ => simp [matchBackwards]
  | _ :: _, [] => simp [matchBackwards]
  | [s], [p] =>
    rw [List.map_singleton, List.map_singleton, matchBackwards, matchBackwards,
      Bindings.size_rename]
    exact Term.matchWithin_rename b.size s p b
  | [s], p :: p' :: ps => simp [matchBackwards]
  | s :: s' :: ss, [p] => simp [matchBackwards]
  | s :: s' :: ss, p :: p' :: ps =>
    simp only [List.map_cons]
    rw [matchBackwards, matchBackwards, Bindings.size_rename,
      Term.matchWithin_rename b.size s p b]
    cases matchWithin b.size s p b with
    | none => rfl
    | some c =>
      simp only [Option.map_some, Option.bind_eq_bind, Option.bind_some, List.isEmpty_map,
        ← List.map_cons, wrapped, sameOperands_rename injective, Bindings.size_rename]
      -- what is left is one operand or an operation, on either side
      cases ss.isEmpty <;> cases ps.isEmpty <;> dsimp only
      · split
        · rfl
        · exact Term.matchBackwards_rename op (s' :: ss) (p' :: ps) c
      · exact Term.matchWithin_rename c.size (variadic op (s' :: ss).reverse) p' c
      · exact Term.matchWithin_rename c.size s' (variadic op (p' :: ps).reverse) c
      · exact Term.matchWithin_rename c.size s' p' c
termination_by (2 * sizeOfAll ss + 1, 0)
decreasing_by
  all_goals simp only [Prod.lex_def, size, sizeOfAll, sizeOfAll_reverse]
  all_goals clear * -
  all_goals grind [size_pos]

end

theorem Term.matchPattern?_rename (s p : Term) (b : Bindings) :
    (s.rename ρ).matchPattern? (p.rename ρ) (b.rename ρ) =
      (s.matchPattern? p b).map (Bindings.rename ρ) := by
  rw [matchPattern?, Bindings.size_rename]
  exact matchWithin_rename injective b.size s p b

end Matching

/-! ### Propositions -/

namespace Proposition

variable {ρ : String → String}

/-- The proposition with the variables of both sides renamed. -/
def rename (ρ : String → String) (p : Proposition) : Proposition :=
  ⟨p.relation, p.lhs.rename ρ, p.rhs.rename ρ⟩

@[simp] theorem hasVariable_rename (p : Proposition) :
    (p.rename ρ).hasVariable = p.hasVariable := by
  simp [hasVariable, rename]

@[simp] theorem hasPlaceholder_rename (p : Proposition) :
    (p.rename ρ).hasPlaceholder = p.hasPlaceholder := by
  simp [hasPlaceholder, rename]

theorem sides_rename (p : Proposition) : (p.rename ρ).sides = p.sides.map (Term.rename ρ) := rfl

theorem rename_of_not_hasVariable {p : Proposition} (h : ¬ p.hasVariable) : p.rename ρ = p := by
  rw [hasVariable, Bool.or_eq_true, not_or] at h
  rw [rename, Term.rename_of_not_hasVariable h.1, Term.rename_of_not_hasVariable h.2]

theorem rename_substitute (p : Proposition) (b : Bindings) :
    (p.substitute b).rename ρ = (p.rename ρ).substitute (b.rename ρ) := by
  simp only [rename, substitute, Term.rename_substitute]

variable (injective : ρ.Injective)

include injective

theorem beq_rename (p q : Proposition) : (p.rename ρ == q.rename ρ) = (p == q) := by
  change equal _ _ = equal _ _
  simp only [equal, rename, Term.beq_rename injective]

theorem matchPattern?_rename (q p : Proposition) (b : Bindings) :
    (q.rename ρ).matchPattern? (p.rename ρ) (b.rename ρ) =
      (q.matchPattern? p b).map (Bindings.rename ρ) := by
  simp only [matchPattern?, rename, Term.matchPattern?_rename injective]
  split
  · cases q.lhs.matchPattern? p.lhs b with
    | none => rfl
    | some c => exact Term.matchPattern?_rename injective q.rhs p.rhs c
  · rfl

end Proposition

end InequalityChaining

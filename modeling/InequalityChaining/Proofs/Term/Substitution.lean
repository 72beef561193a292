import InequalityChaining.Bindings
import InequalityChaining.Proofs.Term.EqualityLaws

/-!
# Substitution

What a substitution makes of a term depends only on the terms that the placeholders of the term
are bound to. If all of them are bound to terms without placeholders, so is the result.

## Main definitions

* `Term.placeholderNames` — the names of the placeholders of a term
* `Bindings.orElse` — bindings with others for the names that they do not bind

## Main results

* `Term.substitute_congr` — bindings that agree on the placeholders of a term do the same to it
* `Term.substitute_of_isGround` — a term without placeholders stays as it is
* `Term.isGround_substitute`, `Term.isDefined_substitute` — what carries over to the result
* `Term.substitute_substitute` — two substitutions one after the other are one
-/

namespace InequalityChaining

namespace Bindings

/-- The bindings, and for names that they do not bind those of the others. -/
def orElse (b c : Bindings) : Bindings where
  entries := b.entries ++ c.entries.filter fun entry => (b.find? entry.1).isNone
  nodup := by
    rw [List.map_append]
    refine List.nodup_append.2 ⟨b.nodup, c.nodup.sublist (List.filter_sublist.map _), ?_⟩
    rintro name bound _ other rfl
    obtain ⟨⟨_, t⟩, mem, rfl⟩ := List.mem_map.1 bound
    obtain ⟨entry, mem', same⟩ := List.mem_map.1 other
    -- a name that is bound in front is left out of what comes behind
    have unbound := (List.mem_filter.1 mem').2
    rw [same, Option.isNone_iff_eq_none, find?, Option.map_eq_none_iff] at unbound
    simpa using List.find?_eq_none.1 unbound _ mem

theorem find?_orElse (b c : Bindings) (name : String) :
    (b.orElse c).find? name = (b.find? name).or (c.find? name) := by
  simp only [find?, orElse, List.find?_append, List.find?_filter]
  cases found : b.entries.find? fun entry => entry.1 == name with
  | some entry => rfl
  | none =>
    simp only [Option.none_or, Option.map_none]
    congr 2
    funext entry
    -- among the entries with the name none is left out
    by_cases same : entry.1 = name
    · subst same
      simp [found]
    · simp [same]

end Bindings

namespace Term

/-- The name of a placeholder. -/
def placeholderName? : Term → Option String
  | placeholder name _ => some name
  | _ => none

/-- The names of the placeholders in the term, in the order of their occurrence. -/
def placeholderNames (t : Term) : List String := t.subterms.filterMap placeholderName?

section Names

variable {op : Variadic} {o : Binary} {ts : List Term} {l r t : Term} {name n : String}
  {kind : PlaceholderKind} {b c : Bindings}

@[simp] theorem placeholderNames_constant {value : Number} :
    (constant value).placeholderNames = [] := rfl

@[simp] theorem placeholderNames_var : (var name).placeholderNames = [] := rfl

@[simp] theorem placeholderNames_placeholder :
    (placeholder name kind).placeholderNames = [name] := rfl

theorem mem_placeholderNames_iff :
    n ∈ t.placeholderNames ↔ ∃ kind, placeholder n kind ∈ t.subterms := by
  rw [placeholderNames, List.mem_filterMap]
  constructor
  · rintro ⟨u, mem, h⟩
    cases u with
    | placeholder name kind =>
      obtain rfl : name = n := Option.some.inj h
      exact ⟨kind, mem⟩
    | _ => simp [placeholderName?] at h
  · rintro ⟨kind, mem⟩
    exact ⟨_, mem, rfl⟩

@[simp] theorem mem_placeholderNames_variadic :
    n ∈ (variadic op ts).placeholderNames ↔ ∃ t ∈ ts, n ∈ t.placeholderNames := by
  simp only [mem_placeholderNames_iff, mem_subterms_variadic, reduceCtorEq, false_or]
  constructor
  · rintro ⟨kind, t, mem, h⟩
    exact ⟨t, mem, kind, h⟩
  · rintro ⟨t, mem, kind, h⟩
    exact ⟨kind, t, mem, h⟩

@[simp] theorem mem_placeholderNames_binary :
    n ∈ (binary o l r).placeholderNames ↔ n ∈ l.placeholderNames ∨ n ∈ r.placeholderNames := by
  simp only [mem_placeholderNames_iff, mem_subterms_binary, reduceCtorEq, false_or, exists_or]

theorem placeholderNames_of_isGround (ground : t.isGround) : t.placeholderNames = [] := by
  refine List.eq_nil_iff_forall_not_mem.2 fun n mem => ?_
  obtain ⟨kind, mem⟩ := mem_placeholderNames_iff.1 mem
  simp only [isGround, hasPlaceholder, any, Bool.not_eq_true', List.any_eq_false] at ground
  exact ground _ mem rfl

/-! ### The result of a substitution -/

theorem substitute_congr (h : ∀ n ∈ t.placeholderNames, b.find? n = c.find? n) :
    t.substitute b = t.substitute c := by
  induction t using Term.induction with
  | placeholder name kind => simp only [substitute, h name (by simp)]
  | variadic op ts ih =>
    simp only [substitute, substituteAll_eq_map, variadic.injEq, true_and]
    refine List.map_congr_left fun t mem => ih t mem fun n hn => ?_
    exact h n (mem_placeholderNames_variadic.2 ⟨t, mem, hn⟩)
  | binary o l r ihl ihr =>
    rw [substitute, substitute, ihl fun n hn => h n (mem_placeholderNames_binary.2 (.inl hn)),
      ihr fun n hn => h n (mem_placeholderNames_binary.2 (.inr hn))]
  | _ => rfl

theorem substitute_of_isGround (ground : t.isGround) : t.substitute b = t := by
  induction t using Term.induction with
  | placeholder name kind => simp at ground
  | variadic op ts ih =>
    simp only [substitute, substituteAll_eq_map, variadic.injEq, true_and]
    calc ts.map (substitute b) = ts.map id :=
          List.map_congr_left fun t mem => ih t mem (isGround_variadic.1 ground t mem)
      _ = ts := List.map_id ts
  | binary o l r ihl ihr =>
    obtain ⟨groundLeft, groundRight⟩ := isGround_binary.1 ground
    rw [substitute, ihl groundLeft, ihr groundRight]
  | _ => rfl

/-- No placeholder is left where all are bound to terms without placeholders. -/
theorem isGround_substitute
    (h : ∀ n ∈ t.placeholderNames, ∃ u, b.find? n = some u ∧ u.isGround) :
    (t.substitute b).isGround := by
  induction t using Term.induction with
  | placeholder name kind =>
    obtain ⟨u, found, ground⟩ := h name (by simp)
    simpa [substitute, found] using ground
  | variadic op ts ih =>
    simp only [substitute, substituteAll_eq_map, isGround_variadic, List.forall_mem_map]
    intro t mem
    exact ih t mem fun n hn => h n (mem_placeholderNames_variadic.2 ⟨t, mem, hn⟩)
  | binary o l r ihl ihr =>
    rw [substitute, isGround_binary]
    exact ⟨ihl fun n hn => h n (mem_placeholderNames_binary.2 (.inl hn)),
      ihr fun n hn => h n (mem_placeholderNames_binary.2 (.inr hn))⟩
  | _ => rfl

/-- No undefined constants come up where none are bound. -/
theorem isDefined_substitute (defined : t.isDefined)
    (h : ∀ n u, b.find? n = some u → u.isDefined) : (t.substitute b).isDefined := by
  induction t using Term.induction with
  | placeholder name kind =>
    rw [substitute]
    cases found : b.find? name with
    | none => rfl
    | some u => exact h name u found
  | variadic op ts ih =>
    simp only [substitute, substituteAll_eq_map, isDefined_variadic, List.forall_mem_map]
    exact fun t mem => ih t mem (isDefined_variadic.1 defined t mem)
  | binary o l r ihl ihr =>
    obtain ⟨left, right⟩ := isDefined_binary.1 defined
    rw [substitute, isDefined_binary]
    exact ⟨ihl left, ihr right⟩
  | _ => exact defined

/-- Substituting once more into what is left is substituting both at once. -/
theorem substitute_substitute (ground : ∀ n u, b.find? n = some u → u.isGround) :
    (t.substitute b).substitute c = t.substitute (b.orElse c) := by
  induction t using Term.induction with
  | placeholder name kind =>
    rw [substitute, substitute, Bindings.find?_orElse]
    cases found : b.find? name with
    | none => rfl
    | some u => exact substitute_of_isGround (ground name u found)
  | variadic op ts ih =>
    simp only [substitute, substituteAll_eq_map, List.map_map, variadic.injEq, true_and]
    exact List.map_congr_left ih
  | binary o l r ihl ihr => rw [substitute, substitute, substitute, ihl, ihr]
  | _ => rfl

end Names

end Term

end InequalityChaining

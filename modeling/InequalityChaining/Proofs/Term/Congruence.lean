import InequalityChaining.Proofs.Reduction.StandardStep
import InequalityChaining.Proofs.Term.Flattening
import InequalityChaining.Proofs.Term.Rearrangement

/-!
# What equal terms have in common

Equal terms are of the same shape up to the order of the operands of sums and products. What can be
read off a term without looking at this order is therefore the same for equal terms: which number it
is, what kind of operation, whether it has variables. And what is made of lists of operands one
by one, by picking, splicing or taking parts, leads from equal operands to equal operands.

## Main definitions

* `Bindings.Alike` — bindings of the same names to equal terms

## Main results

* `Term.equal_variadic_of_equalOperands` — operations on equal operands are equal
* `Term.equalOperands_filter`, `Term.equalOperands_flatMap_splice`, `Term.equalOperands_leftParts`,
  `Term.equalOperands_rightParts` — lists of operands
* `Term.equal_substitute_of_equal` — equal terms under bindings of equal terms
-/

namespace InequalityChaining

open Standard

/-! ### Related multisets -/

section Multisets

variable {α β γ δ : Type} {r : α → β → Prop} {s : γ → δ → Prop}

/-- What related entries are mapped to is related, as far as they are mapped to anything. -/
theorem rel_filterMap {f : α → Option γ} {g : β → Option δ} {as : Multiset α} {bs : Multiset β}
    (h : Multiset.Rel r as bs) (maps : ∀ a b, r a b → Option.Rel s (f a) (g b)) :
    Multiset.Rel s (as.filterMap f) (bs.filterMap g) := by
  induction h with
  | zero => exact .zero
  | @cons a b as bs related _ ih =>
    have first := maps a b related
    cases left : f a with
    | none =>
      rw [left] at first
      cases right : g b with
      | none => rwa [Multiset.filterMap_cons_none _ _ left, Multiset.filterMap_cons_none _ _ right]
      | some d =>
        rw [right] at first
        cases first
    | some c =>
      rw [left] at first
      cases right : g b with
      | none =>
        rw [right] at first
        cases first
      | some d =>
        rw [right] at first
        obtain ⟨first⟩ := first
        rw [Multiset.filterMap_cons_some _ _ _ left, Multiset.filterMap_cons_some _ _ _ right]
        exact .cons first ih

theorem rel_filter {p : α → Bool} {q : β → Bool} {as : Multiset α} {bs : Multiset β}
    (h : Multiset.Rel r as bs) (same : ∀ a b, r a b → p a = q b) :
    Multiset.Rel r (as.filter (p · = true)) (bs.filter (q · = true)) := by
  induction h with
  | zero => exact .zero
  | @cons a b as bs related _ ih =>
    have first := same a b related
    by_cases picked : p a = true
    · rw [Multiset.filter_cons_of_pos (p := (p · = true)) _ picked,
        Multiset.filter_cons_of_pos (p := (q · = true)) _ (first ▸ picked)]
      exact .cons related ih
    · rw [Multiset.filter_cons_of_neg (p := (p · = true)) _ picked,
        Multiset.filter_cons_of_neg (p := (q · = true)) _ (first ▸ picked)]
      exact ih

end Multisets

namespace Term

/-! ### Properties of equal terms -/

section Properties

variable {t u : Term} {op : Variadic} {o : Binary} {as bs ts us : List Term}

/-- Operations on equal operands are equal. -/
theorem equal_variadic_of_equalOperands (h : EqualOperands as bs) :
    equal (variadic op as) (variadic op bs) := by
  have reflexive : ∀ a ∈ (as : Multiset Term), a.isReflexive := by
    intro a mem
    obtain ⟨b, -, same⟩ := Multiset.exists_mem_of_rel_of_mem h mem
    exact (isReflexive_of_equal same).1
  have reflexive' : ∀ b ∈ (bs : Multiset Term), b.isReflexive := by
    intro b mem
    obtain ⟨a, -, same⟩ := Multiset.exists_mem_of_rel_of_mem (Multiset.rel_flip.2 h) mem
    exact (isReflexive_of_equal same).2
  refine equal_variadic_iff.2 ⟨bs, rfl, by simpa using Multiset.card_eq_card_of_rel h, ?_⟩
  exact pairOff_of_equalOperands equivalenceOn_isReflexive reflexive reflexive' h

/-- What equal terms are at the root. -/
inductive EqualAtRoot : Term → Term → Prop where
  | constant {value value' : Number} (same : value == value') :
      EqualAtRoot (constant value) (constant value')
  | var (name : String) : EqualAtRoot (var name) (var name)
  | placeholder (name : String) (kind : PlaceholderKind) :
      EqualAtRoot (placeholder name kind) (placeholder name kind)
  | variadic (op : Variadic) {ts us : List Term} (length : ts.length = us.length)
      (pairs : pairOff ts us) : EqualAtRoot (variadic op ts) (variadic op us)
  | binary (o : Binary) {l r l' r' : Term} (left : equal l l') (right : equal r r') :
      EqualAtRoot (binary o l r) (binary o l' r')

theorem equalAtRoot_of_equal (h : equal t u) : EqualAtRoot t u := by
  cases t with
  | constant value =>
    obtain ⟨value', rfl, same⟩ := equal_constant_iff.1 h
    exact .constant same
  | var name => exact equal_var_iff.1 h ▸ .var name
  | placeholder name kind => exact equal_placeholder_iff.1 h ▸ .placeholder name kind
  | variadic op ts =>
    obtain ⟨us, rfl, length, pairs⟩ := equal_variadic_iff.1 h
    exact .variadic op length pairs
  | binary o l r =>
    obtain ⟨l', r', rfl, left, right⟩ := equal_binary_iff.1 h
    exact .binary o left right

theorem isNumber_eq_of_equal (h : equal t u) (i : Int64) : t.isNumber i = u.isNumber i := by
  cases equalAtRoot_of_equal h with
  | constant same =>
    rw [Bool.eq_iff_iff]
    exact ⟨Number.beq_trans (Number.beq_symm same), Number.beq_trans same⟩
  | _ => rfl

theorem isConstantNode_eq_of_equal (h : equal t u) : isConstantNode t = isConstantNode u := by
  cases equalAtRoot_of_equal h <;> rfl

theorem isVariadic_eq_of_equal (h : equal t u) : isVariadic op t = isVariadic op u := by
  cases equalAtRoot_of_equal h <;> rfl

/-- Equal terms have equal parts on either side, or none. -/
theorem rel_partsOf?_of_equal (h : equal t u) :
    Option.Rel (fun a b => equal a.1 b.1 ∧ equal a.2 b.2) (partsOf? o t) (partsOf? o u) := by
  cases equalAtRoot_of_equal h with
  | binary o' left right =>
    rw [partsOf?, partsOf?]
    split
    · exact .some ⟨left, right⟩
    · exact .none
  | _ => exact .none

theorem equal_leftPart_of_equal (h : equal t u) : equal (leftPart o t) (leftPart o u) := by
  have parts := rel_partsOf?_of_equal (o := o) h
  rw [leftPart, leftPart]
  generalize partsOf? o t = a?, partsOf? o u = b? at parts
  cases parts with
  | none => exact h
  | some both => exact both.1

theorem rel_rightPart?_of_equal (h : equal t u) :
    Option.Rel (fun a b => equal a b = true) (rightPart? o t) (rightPart? o u) := by
  have parts := rel_partsOf?_of_equal (o := o) h
  rw [rightPart?, rightPart?]
  generalize partsOf? o t = a?, partsOf? o u = b? at parts
  cases parts with
  | none => exact .none
  | some both => exact .some both.2

end Properties

/-! ### Lists of operands -/

section Operands

variable {ts us : List Term} {op : Variadic} {o : Binary}

theorem equalOperands_filter {p : Term → Bool} (h : EqualOperands ts us)
    (same : ∀ t u, equal t u → p t = p u) : EqualOperands (ts.filter p) (us.filter p) := by
  simpa using rel_filter h same

theorem equalOperands_leftParts (h : EqualOperands ts us) :
    EqualOperands (ts.map (leftPart o)) (us.map (leftPart o)) := by
  rw [EqualOperands, ← Multiset.map_coe, ← Multiset.map_coe, Multiset.rel_map]
  exact h.mono fun _ _ _ _ => equal_leftPart_of_equal

theorem equalOperands_rightParts (h : EqualOperands ts us) :
    EqualOperands (ts.filterMap (rightPart? o)) (us.filterMap (rightPart? o)) := by
  rw [EqualOperands, ← Multiset.filterMap_coe, ← Multiset.filterMap_coe]
  exact rel_filterMap h fun _ _ => rel_rightPart?_of_equal

theorem equalOperands_flatMap_splice (h : EqualOperands ts us)
    (hts : ∀ t ∈ ts, t.isDefined) (hus : ∀ u ∈ us, u.isDefined) :
    EqualOperands (ts.flatMap (splice op)) (us.flatMap (splice op)) := by
  rw [EqualOperands, ← Multiset.coe_bind, ← Multiset.coe_bind]
  -- operands that are paired with each other are defined
  let paired : Term → Term → Prop := fun t u => t.isDefined ∧ u.isDefined ∧ equal t u
  have pairs : Multiset.Rel paired ts us :=
    h.mono fun t memT u memU same => ⟨hts t memT, hus u memU, same⟩
  refine Multiset.rel_bind (r := paired) ?_ pairs
  rintro t u ⟨definedT, definedU, same⟩
  exact equalOperands_splice definedT definedU same

/-- What is the same for operands that are paired with each other is the same in another order. -/
theorem perm_map_of_equalOperands {α : Type} {f : Term → α} (h : EqualOperands ts us)
    (same : ∀ t ∈ ts, ∀ u ∈ us, equal t u → f t = f u) : (ts.map f).Perm (us.map f) := by
  rw [← Multiset.coe_eq_coe, ← Multiset.map_coe, ← Multiset.map_coe, ← Multiset.rel_eq,
    Multiset.rel_map]
  exact h.mono same

/-- A property that is the same for operands that are paired with each other holds of an operand
of the one list if it does of one of the other. -/
theorem any_eq_of_equalOperands {p : Term → Bool} (h : EqualOperands ts us)
    (same : ∀ t ∈ ts, ∀ u ∈ us, equal t u → p t = p u) : ts.any p = us.any p := by
  rw [Bool.eq_iff_iff, List.any_eq_true, List.any_eq_true]
  constructor
  · rintro ⟨t, mem, holds⟩
    obtain ⟨u, memU, equals⟩ := Multiset.exists_mem_of_rel_of_mem h (Multiset.mem_coe.2 mem)
    exact ⟨u, Multiset.mem_coe.1 memU, same t mem u memU equals ▸ holds⟩
  · rintro ⟨u, mem, holds⟩
    obtain ⟨t, memT, equals⟩ :=
      Multiset.exists_mem_of_rel_of_mem (Multiset.rel_flip.2 h) (Multiset.mem_coe.2 mem)
    exact ⟨t, Multiset.mem_coe.1 memT, same t memT u mem equals ▸ holds⟩

end Operands

end Term

/-! ### Bindings -/

open Term

/-- The same names are bound, and to equal terms. -/
def Bindings.Alike (b c : Bindings) : Prop :=
  ∀ name, Option.Rel (fun t u : Term => t.equal u = true) (b.find? name) (c.find? name)

namespace Bindings

variable {b c r : Bindings} {name : String}

theorem alike_empty : empty.Alike .empty := fun _ => .none

theorem Alike.insert {t u : Term} (h : b.Alike c) (name : String) (same : t.equal u) :
    (b.insert name t).Alike (c.insert name u) := by
  intro n
  rw [find?_insert, find?_insert]
  split
  · exact .some same
  · exact h n

/-- Only terms that equal themselves are bound to equal terms. -/
theorem Alike.isReflexive (h : b.Alike c) {t : Term} (found : b.find? name = some t) :
    t.isReflexive := by
  have related := h name
  rw [found] at related
  generalize c.find? name = u? at related
  cases related with
  | some same => exact (isReflexive_of_equal same).1

theorem Alike.symm (h : b.Alike c) : c.Alike b := by
  intro name
  have related := h name
  generalize b.find? name = t?, c.find? name = u? at related ⊢
  cases related with
  | none => exact .none
  | some same => exact .some (equal_symm same)

theorem Alike.trans (first : b.Alike c) (second : c.Alike r) : b.Alike r := by
  intro name
  have left := first name
  have right := second name
  generalize b.find? name = t?, c.find? name = u?, r.find? name = v? at left right ⊢
  cases left with
  | none => cases right; exact .none
  | some same => cases right with
    | some same' => exact .some (equal_trans same same')

end Bindings

/-! ### Substitution -/

namespace Term

variable {b c : Bindings} {s t : Term} {op : Variadic} {as bs : List Term}

/-- Whether a term equals itself is not changed by substituting terms that do. -/
theorem isReflexive_substitute (h : ∀ name u, b.find? name = some u → u.isReflexive) :
    (t.substitute b).isReflexive = t.isReflexive := by
  induction t using Term.induction with
  | placeholder name kind =>
    rw [substitute]
    cases found : b.find? name with
    | none => rfl
    | some u => exact h name u found
  | binary op l r ihl ihr => rw [substitute, isReflexive, isReflexive, ihl, ihr]
  | _ => rfl

/-- Sums and products are equal if they have equally many operands and those that are equal to
themselves are equal one by one, in some order. -/
theorem equal_variadic_iff_reflexive : equal (variadic op as) (variadic op bs) ↔
    as.length = bs.length ∧ EqualOperands (as.filter isReflexive) (bs.filter isReflexive) := by
  have kept : ∀ {ts : List Term}, ∀ t ∈ ts.filter isReflexive, t.isReflexive :=
    fun t mem => (List.mem_filter.1 mem).2
  rw [equal_variadic_iff]
  constructor
  · rintro ⟨bs', same, length, pairs⟩
    obtain rfl : bs = bs' := by simpa using same
    rw [pairOff_filter] at pairs
    exact ⟨length, equalOperands_of_pairOff equivalenceOn_isReflexive kept kept pairs⟩
  · rintro ⟨length, pairs⟩
    refine ⟨bs, rfl, length, ?_⟩
    rw [pairOff_filter]
    exact pairOff_of_equalOperands equivalenceOn_isReflexive kept kept pairs

/-- Equal terms stay equal when bindings of the same names to equal terms are substituted. Operands
may become equal that were not, but on both sides they are the same ones, and those that equal
themselves still do. So the pairing of the operands before is one of the operands after. -/
theorem equal_substitute_of_equal (same : equal s t) (alike : b.Alike c) :
    equal (s.substitute b) (t.substitute c) := by
  induction s using Term.induction generalizing t with
  | constant value =>
    obtain ⟨value', rfl, -⟩ := equal_constant_iff.1 same
    exact same
  | var name =>
    obtain rfl := equal_var_iff.1 same
    exact same
  | placeholder name kind =>
    obtain rfl := equal_placeholder_iff.1 same
    have bound := alike name
    rw [substitute, substitute]
    generalize b.find? name = u?, c.find? name = v? at bound
    cases bound with
    | none => exact same
    | some equals => exact equals
  | binary op l r ihl ihr =>
    obtain ⟨l', r', rfl, left, right⟩ := equal_binary_iff.1 same
    exact equal_binary_iff.2 ⟨_, _, rfl, ihl left, ihr right⟩
  | variadic op as ih =>
    obtain ⟨bs, rfl, -, -⟩ := equal_variadic_iff.1 same
    obtain ⟨length, pairs⟩ := equal_variadic_iff_reflexive.1 same
    -- the operands that count are those that counted before
    have counted : ∀ {b c : Bindings} (_ : b.Alike c) (ts : List Term),
        (ts.map (substitute b)).filter isReflexive =
          (ts.filter isReflexive).map (substitute b) := by
      intro b c alike ts
      rw [List.filter_map]
      congr 2
      funext t
      exact isReflexive_substitute fun name u found => alike.isReflexive found
    rw [substitute, substitute, substituteAll_eq_map, substituteAll_eq_map,
      equal_variadic_iff_reflexive, counted alike, counted alike.symm]
    refine ⟨by simpa using length, ?_⟩
    rw [EqualOperands, ← Multiset.map_coe, ← Multiset.map_coe, Multiset.rel_map]
    exact pairs.mono fun a memA b _ equals =>
      ih a (List.mem_of_mem_filter (Multiset.mem_coe.1 memA)) equals

end Term

end InequalityChaining

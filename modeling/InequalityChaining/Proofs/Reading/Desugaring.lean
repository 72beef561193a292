import InequalityChaining.Proofs.Number.DecimalLiteral
import InequalityChaining.Proofs.Reading.Grammar

/-!
# Terms as they are read

Not every term is read as itself when it is written. A negative constant is written with a minus
sign, which is read as a difference from zero, and a root without a radical sign is written as the
power that it is read as. Terms that the reader returns have neither.

## Main definitions

* `Term.desugared` — a term without negative constants and without roots that have no sign
* `Term.alike` — equality of terms node by node, up to the form of constants
* `Term.isWritable` — the terms whose text can be read
* `Term.IsPlain` — writable terms that are their own desugared form

## Main results

* `Term.alikeAll_iff` — lists of terms are compared one by one
* `Parses.isPlain` — terms that are parsed are plain
-/

namespace InequalityChaining

namespace Term

/-- Whether the index of a root is two, three or four. -/
def isRadicalIndex (index : Term) : Bool :=
  index.isNumber 2 || index.isNumber 3 || index.isNumber 4

mutual

/-- The term with every negative constant replaced by a difference from zero, and every root whose
index is not two, three or four by a power. -/
def desugared : Term → Term
  | constant value => if value.isNegative then opposite (constant value.abs) else constant value
  | var name => var name
  | placeholder name kind => placeholder name kind
  | variadic op operands => variadic op (desugaredAll operands)
  | binary .root radicand index =>
    if index.isRadicalIndex then root (desugared radicand) (desugared index)
    else power (desugared radicand) (quotient (int 1) (desugared index))
  | binary op left right => binary op (desugared left) (desugared right)

/-- The desugared terms of a list. -/
def desugaredAll : List Term → List Term
  | [] => []
  | t :: ts => desugared t :: desugaredAll ts

end

mutual

/-- Equality node by node, with the operands in the same order. Constants may differ in form. -/
def alike : Term → Term → Bool
  | constant a, constant b => a == b
  | var a, var b => a == b
  | placeholder a k, placeholder b l => a == b && k == l
  | variadic o as, variadic p bs => o == p && alikeAll as bs
  | binary o a₁ a₂, binary p b₁ b₂ => o == p && alike a₁ b₁ && alike a₂ b₂
  | _, _ => false

/-- Equality of lists of terms. -/
def alikeAll : List Term → List Term → Bool
  | [], [] => true
  | a :: as, b :: bs => alike a b && alikeAll as bs
  | _, _ => false

end

/-- Whether the node at the root can be written so that it is read again. -/
def hasWritableRoot : Term → Bool
  | constant value => value.isWritable
  | var name => Text.isName name.toList && !name.toList.head?.any Text.isCapital
  | placeholder name .any => Text.isName name.toList && name.toList.head?.any Text.isCapital
  | placeholder name .constantOnly => Text.isName name.toList
  | variadic _ operands => decide (2 ≤ operands.length)
  | binary _ _ _ => true

/-- The terms whose text can be read: constants are finite and not negative zero, sums and products
have at least two operands, and names are as the reader expects them. -/
def isWritable (t : Term) : Bool := t.subterms.all hasWritableRoot

/-- A term that is written as it is. -/
structure IsPlain (t : Term) : Prop where
  isWritable : t.isWritable
  desugared_eq : t.desugared = t

variable {t u : Term} {op : Variadic} {o : Binary} {ts us : List Term} {l r : Term}

/-! ### The parts of a term -/

@[simp] theorem desugaredAll_eq_map : desugaredAll ts = ts.map desugared := by
  induction ts with
  | nil => rfl
  | cons t ts ih => simp [desugaredAll, ih]

theorem alikeAll_iff : alikeAll ts us ↔ List.Forall₂ (fun t u => t.alike u) ts us := by
  induction ts generalizing us with
  | nil => cases us <;> simp [alikeAll]
  | cons t ts ih => cases us <;> simp [alikeAll, ih]

@[simp] theorem isWritable_variadic :
    (variadic op ts).isWritable ↔ 2 ≤ ts.length ∧ ∀ t ∈ ts, t.isWritable := by
  simp only [isWritable, subterms, List.all_cons, subtermsOfAll_eq_flatMap, List.all_flatMap,
    Bool.and_eq_true, List.all_eq_true, hasWritableRoot, decide_eq_true_eq]

@[simp] theorem isWritable_binary : (binary o l r).isWritable ↔ l.isWritable ∧ r.isWritable := by
  simp [isWritable, subterms, hasWritableRoot]

theorem isWritable_constant {value : Number} :
    (constant value).isWritable = value.isWritable := by
  simp [isWritable, subterms, hasWritableRoot]

@[simp] theorem isWritable_var {name : String} : (var name).isWritable ↔
    Text.isName name.toList ∧ ¬ name.toList.head?.any Text.isCapital := by
  simp [isWritable, subterms, hasWritableRoot]

@[simp] theorem isWritable_any {name : String} : (placeholder name .any).isWritable ↔
    Text.isName name.toList ∧ name.toList.head?.any Text.isCapital := by
  simp [isWritable, subterms, hasWritableRoot]

@[simp] theorem isWritable_constantOnly {name : String} :
    (placeholder name .constantOnly).isWritable ↔ Text.isName name.toList := by
  simp [isWritable, subterms, hasWritableRoot]

/-- The signs are for the indices two, three and four. -/
theorem isSome_radicalSign? : t.radicalSign?.isSome = t.isRadicalIndex := by
  rw [radicalSign?, isRadicalIndex]
  cases t.isNumber 2 <;> cases t.isNumber 3 <;> cases t.isNumber 4 <;> rfl

/-- A term that is no root keeps its operation. -/
theorem desugared_binary (notRoot : o ≠ .root) :
    (binary o l r).desugared = binary o l.desugared r.desugared := by
  cases o with
  | root => exact absurd rfl notRoot
  | _ => rfl

/-- Desugaring neither makes nor changes constants that are integers without a minus sign. -/
theorem isNumber_desugared {i : Int64} (nonnegative : (Number.int i).isNegative = false) :
    t.desugared.isNumber i = t.isNumber i := by
  cases t with
  | constant value =>
    rw [desugared]
    split
    · next negative =>
      change false = (value == Number.int i)
      rw [eq_comm, Bool.eq_false_iff]
      intro same
      rw [Number.isNegative_congr same, nonnegative] at negative
      cases negative
    · rfl
  | binary o l r =>
    cases o with
    | root =>
      rw [desugared]
      split
      · rfl
      · rfl
    | _ => rfl
  | _ => rfl

/-- A constant is like the integer that it is. -/
theorem alike_int {i : Int64} (h : t.isNumber i) : (int i).alike t := by
  cases t with
  | constant value => exact Number.beq_symm h
  | _ => cases h

/-- Terms that are alike are the same constants. -/
theorem isNumber_congr {i : Int64} (same : t.alike u) : t.isNumber i = u.isNumber i := by
  cases t with
  | constant a =>
    cases u with
    | constant b =>
      have equal : a == b := by simpa [alike] using same
      rw [isNumber, isNumber, Bool.eq_iff_iff]
      exact ⟨Number.beq_trans (Number.beq_symm equal), Number.beq_trans equal⟩
    | _ => simp [alike] at same
  | _ => cases u <;> simp_all [alike, isNumber]

/-! ### Plain terms -/

namespace IsPlain

theorem variadic (length : 2 ≤ ts.length) (plain : ∀ t ∈ ts, t.IsPlain) :
    (Term.variadic op ts).IsPlain := by
  refine ⟨isWritable_variadic.2 ⟨length, fun t mem => (plain t mem).isWritable⟩, ?_⟩
  rw [desugared, desugaredAll_eq_map]
  congr 1
  calc ts.map desugared = ts.map id := List.map_congr_left fun t mem => (plain t mem).desugared_eq
    _ = ts := List.map_id ts

/-- What several operands are collapsed to is plain if they are. -/
theorem collapse (nonempty : ts ≠ []) (plain : ∀ t ∈ ts, t.IsPlain) : (collapse op ts).IsPlain := by
  match ts with
  | [] => exact absurd rfl nonempty
  | [t] => exact plain t (by simp)
  | _ :: _ :: _ => exact variadic (by simp) plain

theorem binary (notRoot : o ≠ .root) (left : l.IsPlain) (right : r.IsPlain) :
    (Term.binary o l r).IsPlain := by
  refine ⟨isWritable_binary.2 ⟨left.isWritable, right.isWritable⟩, ?_⟩
  rw [desugared_binary notRoot, left.desugared_eq, right.desugared_eq]

/-- The numbers that literals denote. -/
theorem constant {literal : Literal} {value : Number} (h : literal.toNumber? = some value) :
    (Term.constant value).IsPlain := by
  refine ⟨isWritable_constant.trans (Number.isWritable_of_toNumber? h), ?_⟩
  rw [desugared, Number.isNegative_of_toNumber? h]
  rfl

theorem index (sign : RadicalSign) : (int sign.index).IsPlain := by
  cases sign
  all_goals exact ⟨by decide +kernel, rfl⟩

theorem opposite (plain : t.IsPlain) : t.opposite.IsPlain :=
  binary (by decide) ⟨by decide +kernel, rfl⟩ plain

/-- A root that is written with a sign. -/
theorem root (sign : RadicalSign) (plain : t.IsPlain) : (Term.root t (int sign.index)).IsPlain := by
  have radical : (int sign.index).isRadicalIndex := by cases sign <;> decide
  refine ⟨isWritable_binary.2 ⟨plain.isWritable, (index _).isWritable⟩, ?_⟩
  rw [desugared, if_pos radical, plain.desugared_eq, (index _).desugared_eq]

theorem ofIdentifier {name : String} (h : ofIdentifier name = .ok t) : t.IsPlain := by
  rw [Term.ofIdentifier] at h
  split at h
  · next capital =>
    rw [checkedPlaceholder] at h
    split at h
    · next valid =>
      obtain rfl := Except.ok.inj h
      exact ⟨isWritable_any.2 ⟨valid, capital⟩, rfl⟩
    · cases h
  · next small =>
    rw [checkedVar] at h
    split at h
    · next valid =>
      obtain rfl := Except.ok.inj h
      exact ⟨isWritable_var.2 ⟨valid, small⟩, rfl⟩
    · cases h

theorem ofConstantPlaceholder {name : String}
    (h : checkedPlaceholder name .constantOnly = .ok t) : t.IsPlain := by
  rw [checkedPlaceholder] at h
  split at h
  · next valid =>
    obtain rfl := Except.ok.inj h
    exact ⟨isWritable_constantOnly.2 valid, rfl⟩
  · cases h

end IsPlain

end Term

/-! ### What is parsed -/

/-- The operands that a phrase continues are plain, and there are some. -/
def Phrase.ContinuesPlain : Phrase → Prop
  | continuation _ operands => operands ≠ [] ∧ ∀ t ∈ operands, t.IsPlain
  | _ => True

theorem Variadic.continuesPlain_firstPhrase (op : Variadic) : op.firstPhrase.ContinuesPlain := by
  cases op <;> trivial

theorem Variadic.continuesPlain_nextPhrase (op : Variadic) : op.nextPhrase.ContinuesPlain := by
  cases op <;> trivial

/-- Terms that are parsed are plain. -/
theorem Parses.isPlain {phrase : Phrase} {tokens : List Token} {t : Term}
    (h : Parses phrase tokens t) (continues : phrase.ContinuesPlain) : t.IsPlain := by
  induction h with
  | @chain op _ _ _ _ _ _ ihFirst ihContinues =>
    have first := ihFirst op.continuesPlain_firstPhrase
    exact ihContinues ⟨by simp, by simpa using first⟩
  | @another op _ _ _ _ _ _ _ ihNext ihContinues =>
    have next := ihNext op.continuesPlain_nextPhrase
    refine ihContinues ⟨by simp, fun t mem => ?_⟩
    rcases List.mem_append.1 mem with before | last
    · exact continues.2 t before
    · obtain rfl := List.mem_singleton.1 last
      exact next
  | @inverse op _ _ _ _ _ _ _ ihNext ihContinues =>
    have next := ihNext op.continuesPlain_nextPhrase
    have before : (Term.collapse op _).IsPlain := .collapse continues.1 continues.2
    have notRoot : op.inverse ≠ .root := by cases op <;> decide
    exact ihContinues ⟨by simp, by simpa using before.binary notRoot next⟩
  | done => exact .collapse continues.1 continues.2
  | negative _ ih => exact (ih trivial).opposite
  | unsigned _ _ ih => exact ih trivial
  | negativeFactor _ ih => exact (ih trivial).opposite
  | unsignedFactor _ ih => exact ih trivial
  | raised _ _ ihBase ihExponent => exact (ihBase trivial).binary (by decide) (ihExponent trivial)
  | base _ ih => exact ih trivial
  | radical _ ih => exact (ih trivial).root _
  | primary _ ih => exact ih trivial
  | number value => exact .constant value
  | identifier valid => exact .ofIdentifier valid
  | constantPlaceholder valid => exact .ofConstantPlaceholder valid
  | parenthesized _ ih => exact ih trivial

end InequalityChaining

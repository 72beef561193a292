import InequalityChaining.Proofs.Reading.Grammar
import InequalityChaining.Proofs.Token.Scanning

/-!
# Derivations from the grammar

The grammar as it is written: a sum or a product is an operand and any number of further operands,
each behind its sign. Its rules are ambiguous about a minus in front of a sum, which is a sign of
the first product as well as of the first factor, so they are stated with and without the former
taking precedence. The runs of tokens that have a derivation are the same; with the precedence, the
derivation has the tree of the parse.

## Main definitions

* `Groups` — how the operands of a chain are grouped by their signs
* `Generates` — which tokens are derived from a phrase, and the tree of the derivation
* `Token.IsReadable` — tokens with valid names and representable literals

## Main results

* `Generates.parses`, `Parses.generates` — derivations with the precedence are parses
* `Generates.exists_parses` — whatever is derived can be parsed
-/

namespace InequalityChaining

open Term (collapse)

/-! ### The rules -/

/-- The number that a literal denotes, or zero if it denotes none. -/
def Literal.value (l : Literal) : Number := l.toNumber?.getD (.int 0)

/-- The term that an identifier stands for: a placeholder if the initial is a capital. -/
def Term.named (name : String) : Term :=
  if name.toList.head?.any Text.isCapital then .placeholder name .any else .var name

/-- A sign in a chain and the operand behind it. -/
structure SignedOperand where
  sign : Token
  tokens : List Token
  term : Term

/-- The tokens of the sign and the operand. -/
def SignedOperand.written (part : SignedOperand) : List Token := part.sign :: part.tokens

/-- What a chain that begins with the given operands is collapsed from. A run of the sign of the
operation adds to the operands; an inverse sign has all in front of it as its left operand. -/
inductive Groups (op : Variadic) (operands : List Term) :
    List SignedOperand → List Term → Prop where
  | run {parts : List SignedOperand} :
    (∀ part ∈ parts, part.sign = op.sign) →
      Groups op operands parts (operands ++ parts.map SignedOperand.term)
  | inverse {before after : List SignedOperand} {next : SignedOperand} {left : List Term} :
    Groups op operands before left → next.sign = op.inverseSign →
      (∀ part ∈ after, part.sign = op.sign) →
      Groups op operands (before ++ next :: after)
        (.binary op.inverse (collapse op left) next.term :: after.map SignedOperand.term)

/-- Whether a minus in front of a sum has to be read as a sign of its first product. -/
inductive SignRule where
  | free
  | negationFirst

/-- A run of tokens is derived from a phrase, with a term as the tree. -/
inductive Generates (rule : SignRule) : Phrase → List Token → Term → Prop where
  | chain {op : Variadic} {ts : List Token} {first : Term} {parts : List SignedOperand}
    {operands : List Term} :
    Generates rule op.firstPhrase ts first →
      (∀ part ∈ parts, part.sign = op.sign ∨ part.sign = op.inverseSign) →
      (∀ part ∈ parts, Generates rule op.nextPhrase part.tokens part.term) →
      Groups op [first] parts operands →
      Generates rule (.chain op) (ts ++ parts.flatMap SignedOperand.written) (collapse op operands)
  | negative {ts : List Token} {t : Term} :
    Generates rule .negation ts t → Generates rule .negation (.minus :: ts) t.opposite
  | unsigned {ts : List Token} {t : Term} :
    (rule = .negationFirst → ts.head? ≠ some .minus) → Generates rule (.chain .product) ts t →
      Generates rule .negation ts t
  | negativeFactor {ts : List Token} {t : Term} :
    Generates rule .factor ts t → Generates rule .factor (.minus :: ts) t.opposite
  | unsignedFactor {ts : List Token} {t : Term} :
    Generates rule .power ts t → Generates rule .factor ts t
  | raised {ts us : List Token} {base exponent : Term} :
    Generates rule .radical ts base → Generates rule .factor us exponent →
      Generates rule .power (ts ++ .caret :: us) (.power base exponent)
  | base {ts : List Token} {t : Term} : Generates rule .radical ts t → Generates rule .power ts t
  | radical {sign : RadicalSign} {ts : List Token} {t : Term} :
    Generates rule .radical ts t →
      Generates rule .radical (.radical sign :: ts) (.root t (.int sign.index))
  | primary {ts : List Token} {t : Term} :
    Generates rule .primary ts t → Generates rule .radical ts t
  | number {literal : Literal} : Generates rule .primary [.number literal] (.constant literal.value)
  | identifier {name : String} : Generates rule .primary [.identifier name] (.named name)
  | constantPlaceholder {name : String} :
    Generates rule .primary [.constantPlaceholder name] (.placeholder name .constantOnly)
  | parenthesized {ts : List Token} {t : Term} :
    Generates rule (.chain .sum) ts t →
      Generates rule .primary (.leftParenthesis :: (ts ++ [.rightParenthesis])) t

/-! ### Groups -/

section Groups

variable {op : Variadic} {operands operands' : List Term} {part : SignedOperand}
  {parts : List SignedOperand}

theorem Groups.nil : Groups op operands [] operands := by
  simpa using @Groups.run op operands [] (by simp)

/-- A first operand behind the sign of the operation is one of those that the chain begins with. -/
theorem Groups.cons (sign : part.sign = op.sign)
    (h : Groups op (operands ++ [part.term]) parts operands') :
    Groups op operands (part :: parts) operands' := by
  induction h with
  | run signs =>
    rw [List.append_assoc]
    exact .run (List.forall_mem_cons.2 ⟨sign, signs⟩)
  | inverse _ next signs ih => exact .inverse ih next signs

/-- A chain whose first sign is inverse begins with the operation of that sign. -/
theorem Groups.cons_inverse (sign : part.sign = op.inverseSign)
    (h : Groups op [.binary op.inverse (collapse op operands) part.term] parts operands') :
    Groups op operands (part :: parts) operands' := by
  induction h with
  | run signs =>
    have beginning : Groups op operands [] operands := .nil
    exact beginning.inverse sign signs
  | inverse _ next signs ih => exact .inverse ih next signs

/-- A single operand is a chain. -/
theorem Generates.single {rule : SignRule} {ts : List Token} {t : Term}
    (h : Generates rule op.firstPhrase ts t) : Generates rule (.chain op) ts t := by
  simpa [collapse] using h.chain (by simp) (by simp) .nil

end Groups

/-! ### Literals and names that can be read -/

/-- The literal denotes a 64-bit integer, or the nearest float is finite. -/
def Literal.IsRepresentable (l : Literal) : Prop :=
  (l.fraction = [] ∧ natOfDigits l.whole ≤ Int64.maxValue.toInt) ∨
    (Float.ofScientific (natOfDigits (l.whole ++ l.fraction)) true l.fraction.length).isFinite

theorem Literal.isRepresentable_iff {l : Literal} :
    l.IsRepresentable ↔ l.toNumber? = some l.value := by
  have integer : ∀ n : Nat, (Number.int64? n).isSome ↔ n ≤ Int64.maxValue.toInt := by
    intro n
    rw [Number.int64?, Int64.toInt_minValue, Int64.toInt_maxValue]
    split
    · simp; omega
    · simp; omega
  have float : ∀ x : Float, (Number.ofFloat x).toOption.isSome ↔ x.isFinite := by
    intro x
    rw [Number.ofFloat]
    split
    · next finite => simp [finite, Except.toOption]
    · next notFinite => simp [notFinite, Except.toOption]
  have denotes : l.toNumber? = some l.value ↔ l.toNumber?.isSome := by
    rw [value]
    cases l.toNumber? <;> simp
  rw [denotes, IsRepresentable, ← integer, ← float, toNumber?]
  by_cases whole : l.fraction = []
  · simp only [whole, List.isEmpty_nil, if_true, true_and]
    cases Number.int64? (natOfDigits l.whole) <;> simp
  · simp [whole]

namespace Token

/-- The token has a valid name, or a literal that denotes a number. -/
structure IsReadable (token : Token) : Prop where
  isWritable : token.IsWritable
  isRepresentable : ∀ literal, token = .number literal → literal.IsRepresentable

end Token

/-! ### Derivations are parses -/

section Parses

variable {op : Variadic} {operands operands' : List Term} {parts : List SignedOperand}
  {us : List Token} {t : Term}

/-- A run of the sign of the operation in front of a continuation. -/
theorem Parses.run (signs : ∀ part ∈ parts, part.sign = op.sign)
    (parses : ∀ part ∈ parts, Parses op.nextPhrase part.tokens part.term)
    (rest : Parses (.continuation op (operands ++ parts.map SignedOperand.term)) us t) :
    Parses (.continuation op operands) (parts.flatMap SignedOperand.written ++ us) t := by
  induction parts generalizing operands with
  | nil => simpa using rest
  | cons part parts ih =>
    obtain ⟨sign, signs⟩ := List.forall_mem_cons.1 signs
    obtain ⟨next, parses⟩ := List.forall_mem_cons.1 parses
    rw [List.map_cons, List.append_cons] at rest
    rw [List.flatMap_cons, SignedOperand.written, sign, List.append_assoc, List.cons_append]
    exact .another next (ih signs parses rest)

/-- Grouped operands in front of a continuation of what they are grouped to. -/
theorem Parses.groups (groups : Groups op operands parts operands')
    (parses : ∀ part ∈ parts, Parses op.nextPhrase part.tokens part.term)
    (rest : Parses (.continuation op operands') us t) :
    Parses (.continuation op operands) (parts.flatMap SignedOperand.written ++ us) t := by
  induction groups generalizing us with
  | run signs => exact .run signs parses rest
  | @inverse before after next left _ sign signs ih =>
    obtain ⟨parsesBefore, parsesRest⟩ := List.forall_mem_append.1 parses
    obtain ⟨parsesNext, parsesAfter⟩ := List.forall_mem_cons.1 parsesRest
    rw [List.flatMap_append, List.flatMap_cons, SignedOperand.written, sign, List.append_assoc,
      List.append_assoc, List.cons_append]
    exact ih parsesBefore (.inverse parsesNext (.run signs parsesAfter rest))

end Parses

/-- The operands behind their signs have the tokens of the chain. -/
theorem SignedOperand.mem_written {part : SignedOperand} {parts : List SignedOperand}
    (mem : part ∈ parts) {token : Token} (h : token ∈ part.tokens) :
    token ∈ parts.flatMap written :=
  List.mem_flatMap.2 ⟨part, mem, List.mem_cons_of_mem _ h⟩

namespace Term

variable {name : String} {t : Term}

theorem checkedPlaceholder_eq_ok_iff {kind : PlaceholderKind} :
    checkedPlaceholder name kind = .ok t ↔
      Text.isName name.toList ∧ placeholder name kind = t := by
  rw [checkedPlaceholder]
  split
  · next valid => simp [valid]
  · next invalid => simp [invalid]

theorem ofIdentifier_eq_ok_iff :
    ofIdentifier name = .ok t ↔ Text.isName name.toList ∧ named name = t := by
  rw [ofIdentifier, named]
  split
  · exact checkedPlaceholder_eq_ok_iff
  · rw [checkedVar]
    split
    · next valid => simp [valid]
    · next invalid => simp [invalid]

end Term

variable {rule : SignRule} {phrase : Phrase} {ts us : List Token} {t : Term}

/-- What is derived with the precedence of the negation is parsed with the same tree. -/
theorem Generates.parses (h : Generates .negationFirst phrase ts t)
    (readable : ∀ token ∈ ts, token.IsReadable) : Parses phrase ts t := by
  induction h with
  | chain _ _ _ groups ihFirst ihParts =>
    obtain ⟨readableFirst, readableParts⟩ := List.forall_mem_append.1 readable
    refine .chain (ihFirst readableFirst) ?_
    rw [← List.append_nil (List.flatMap _ _)]
    refine .groups groups (fun part mem => ihParts part mem fun token h => ?_) .done
    exact readableParts token (SignedOperand.mem_written mem h)
  | negative _ ih => exact .negative (ih (List.forall_mem_cons.1 readable).2)
  | unsigned notMinus _ ih => exact .unsigned (notMinus rfl) (ih readable)
  | negativeFactor _ ih => exact .negativeFactor (ih (List.forall_mem_cons.1 readable).2)
  | unsignedFactor _ ih => exact .unsignedFactor (ih readable)
  | raised _ _ ihBase ihExponent =>
    obtain ⟨readableBase, readableRest⟩ := List.forall_mem_append.1 readable
    exact .raised (ihBase readableBase) (ihExponent (List.forall_mem_cons.1 readableRest).2)
  | base _ ih => exact .base (ih readable)
  | radical _ ih => exact .radical (ih (List.forall_mem_cons.1 readable).2)
  | primary _ ih => exact .primary (ih readable)
  | number =>
    have valid := List.forall_mem_singleton.1 readable
    exact .number (Literal.isRepresentable_iff.1 (valid.isRepresentable _ rfl))
  | identifier =>
    have valid := List.forall_mem_singleton.1 readable
    exact .identifier (Term.ofIdentifier_eq_ok_iff.2 ⟨valid.isWritable, rfl⟩)
  | constantPlaceholder =>
    have valid := List.forall_mem_singleton.1 readable
    exact .constantPlaceholder (Term.checkedPlaceholder_eq_ok_iff.2 ⟨valid.isWritable, rfl⟩)
  | parenthesized _ ih =>
    refine .parenthesized (ih fun token mem => readable token ?_)
    exact List.mem_cons_of_mem _ (List.mem_append_left _ mem)

/-! ### Parses are derivations -/

/-- The phrase is derived with the precedence of the negation; a continuation is derived as signs
with operands behind them. -/
def Phrase.IsGenerated : Phrase → List Token → Term → Prop
  | continuation op operands, ts, t =>
    ∃ (parts : List SignedOperand) (operands' : List Term),
      ts = parts.flatMap SignedOperand.written ∧ t = collapse op operands' ∧
        (∀ part ∈ parts, part.sign = op.sign ∨ part.sign = op.inverseSign) ∧
        (∀ part ∈ parts, Generates .negationFirst op.nextPhrase part.tokens part.term) ∧
        Groups op operands parts operands'
  | phrase, ts, t => Generates .negationFirst phrase ts t

theorem Phrase.IsGenerated.generates (h : phrase.IsGenerated ts t)
    (operand : phrase.isContinuation = false) : Generates .negationFirst phrase ts t := by
  cases phrase with
  | continuation op operands => cases operand
  | _ => exact h

theorem Parses.isGenerated (h : Parses phrase ts t) : phrase.IsGenerated ts t := by
  induction h with
  | @chain op _ _ _ _ _ _ ihFirst ihContinues =>
    obtain ⟨parts, operands, rfl, rfl, signs, generates, groups⟩ := ihContinues
    exact .chain (ihFirst.generates (by cases op <;> rfl)) signs generates groups
  | @another op _ ts us next _ _ _ ihNext ihContinues =>
    obtain ⟨parts, operands', rfl, rfl, signs, generates, groups⟩ := ihContinues
    -- what is read behind the sign becomes the first of the signed operands
    have generatesNext := ihNext.generates (by cases op <;> rfl)
    exact ⟨⟨op.sign, ts, next⟩ :: parts, operands', rfl, rfl,
      List.forall_mem_cons.2 ⟨.inl rfl, signs⟩, List.forall_mem_cons.2 ⟨generatesNext, generates⟩,
      groups.cons rfl⟩
  | @inverse op _ ts us next _ _ _ ihNext ihContinues =>
    obtain ⟨parts, operands', rfl, rfl, signs, generates, groups⟩ := ihContinues
    have generatesNext := ihNext.generates (by cases op <;> rfl)
    exact ⟨⟨op.inverseSign, ts, next⟩ :: parts, operands', rfl, rfl,
      List.forall_mem_cons.2 ⟨.inr rfl, signs⟩, List.forall_mem_cons.2 ⟨generatesNext, generates⟩,
      groups.cons_inverse rfl⟩
  | done => exact ⟨[], _, rfl, rfl, by simp, by simp, .nil⟩
  | negative _ ih => exact .negative ih
  | unsigned notMinus _ ih => exact .unsigned (fun _ => notMinus) ih
  | negativeFactor _ ih => exact .negativeFactor ih
  | unsignedFactor _ ih => exact .unsignedFactor ih
  | raised _ _ ihBase ihExponent => exact .raised ihBase ihExponent
  | base _ ih => exact .base ih
  | radical _ ih => exact .radical ih
  | primary _ ih => exact .primary ih
  | @number literal value found =>
    obtain rfl : literal.value = value := by rw [Literal.value, found, Option.getD_some]
    exact .number
  | identifier found =>
    obtain ⟨-, rfl⟩ := Term.ofIdentifier_eq_ok_iff.1 found
    exact .identifier
  | constantPlaceholder found =>
    obtain ⟨-, rfl⟩ := Term.checkedPlaceholder_eq_ok_iff.1 found
    exact .constantPlaceholder
  | parenthesized _ ih => exact .parenthesized ih

/-- What is parsed is derived with the precedence of the negation. -/
theorem Parses.generates (h : Parses (.chain .sum) ts t) :
    Generates .negationFirst (.chain .sum) ts t := h.isGenerated

/-- The literals of what is parsed denote numbers. -/
theorem Parses.isRepresentable (h : Parses phrase ts t) :
    ∀ literal, .number literal ∈ ts → literal.IsRepresentable := by
  have each : ∀ token ∈ ts, ∀ literal, token = .number literal → literal.IsRepresentable := by
    refine h.forall_mem (fun literal value found => ?_)
      fun token notNumber _ literal same => absurd same (notNumber literal)
    rintro _ ⟨rfl⟩
    rw [Literal.isRepresentable_iff, found, Literal.value, found, Option.getD_some]
  exact fun literal mem => each _ mem literal rfl

/-! ### Derivations without the precedence -/

/-- Dropping the precedence keeps all derivations. -/
theorem Generates.free (h : Generates .negationFirst phrase ts t) :
    Generates .free phrase ts t := by
  induction h with
  | chain _ signs _ groups ihFirst ihParts => exact .chain ihFirst signs ihParts groups
  | negative _ ih => exact .negative ih
  | unsigned _ _ ih => exact .unsigned (by simp) ih
  | negativeFactor _ ih => exact .negativeFactor ih
  | unsignedFactor _ ih => exact .unsignedFactor ih
  | raised _ _ ihBase ihExponent => exact .raised ihBase ihExponent
  | base _ ih => exact .base ih
  | radical _ ih => exact .radical ih
  | primary _ ih => exact .primary ih
  | number => exact .number
  | identifier => exact .identifier
  | constantPlaceholder => exact .constantPlaceholder
  | parenthesized _ ih => exact .parenthesized ih

/-- Signs with operands behind them continue any operands. -/
theorem exists_continuation {op : Variadic} {parts : List SignedOperand}
    (signs : ∀ part ∈ parts, part.sign = op.sign ∨ part.sign = op.inverseSign)
    (parses : ∀ part ∈ parts, ∃ t, Parses op.nextPhrase part.tokens t) (operands : List Term) :
    ∃ t, Parses (.continuation op operands) (parts.flatMap SignedOperand.written) t := by
  induction parts generalizing operands with
  | nil => exact ⟨_, .done⟩
  | cons part parts ih =>
    obtain ⟨sign, signs⟩ := List.forall_mem_cons.1 signs
    obtain ⟨⟨next, parsesNext⟩, parses⟩ := List.forall_mem_cons.1 parses
    rw [List.flatMap_cons, SignedOperand.written]
    rcases sign with sign | sign
    · obtain ⟨t, rest⟩ := ih signs parses (operands ++ [next])
      exact ⟨t, sign ▸ .another parsesNext rest⟩
    · obtain ⟨t, rest⟩ := ih signs parses [.binary op.inverse (collapse op operands) next]
      exact ⟨t, sign ▸ .inverse parsesNext rest⟩

/-- A continuation of some operands continues any others. -/
theorem Parses.exists_continuation (h : Parses phrase us t) {op : Variadic} {operands : List Term}
    (same : phrase = .continuation op operands) (operands' : List Term) :
    ∃ t', Parses (.continuation op operands') us t' := by
  induction h generalizing operands operands' with
  | another next _ _ ih =>
    cases same
    obtain ⟨t', rest⟩ := ih rfl (operands' ++ [_])
    exact ⟨t', .another next rest⟩
  | inverse next _ _ ih =>
    cases same
    obtain ⟨t', rest⟩ := ih rfl [.binary _ (collapse _ operands') _]
    exact ⟨t', .inverse next rest⟩
  | done =>
    cases same
    exact ⟨_, .done⟩
  | _ => cases same

/-- The minus signs in front of the first factor of a product may be signs of the product. -/
theorem Parses.exists_negation_of_factor (h : Parses phrase ts t) (factor : phrase = .factor)
    (continues : ∀ operands, ∃ u, Parses (.continuation .product operands) us u) :
    ∃ u, Parses .negation (ts ++ us) u := by
  induction h with
  | negativeFactor _ ih =>
    obtain ⟨u, rest⟩ := ih rfl
    exact ⟨_, .negative rest⟩
  | unsignedFactor power _ =>
    obtain ⟨u, rest⟩ := continues [_]
    refine ⟨u, .unsigned ?_ (.chain (.unsignedFactor power) rest)⟩
    rw [power.head_append rfl]
    exact power.head_ne_minus (.inl rfl)
  | _ => cases factor

theorem Parses.exists_negation (h : Parses (.chain .product) ts t) :
    ∃ u, Parses .negation ts u := by
  cases h with
  | chain first continues =>
    exact first.exists_negation_of_factor rfl (continues.exists_continuation rfl)

/-- Whatever is derived can be parsed, though with another tree if a minus stands in front. -/
theorem Generates.exists_parses (h : Generates rule phrase ts t)
    (readable : ∀ token ∈ ts, token.IsReadable) : ∃ u, Parses phrase ts u := by
  induction h with
  | @chain op _ _ _ _ _ signs _ _ ihFirst ihParts =>
    obtain ⟨readableFirst, readableParts⟩ := List.forall_mem_append.1 readable
    obtain ⟨first, parsesFirst⟩ := ihFirst readableFirst
    obtain ⟨u, continues⟩ := exists_continuation signs (fun part mem => ihParts part mem
      fun token h => readableParts token (SignedOperand.mem_written mem h)) [first]
    exact ⟨u, .chain parsesFirst continues⟩
  | negative _ ih =>
    obtain ⟨u, parses⟩ := ih (List.forall_mem_cons.1 readable).2
    exact ⟨_, .negative parses⟩
  | unsigned _ _ ih =>
    obtain ⟨u, parses⟩ := ih readable
    -- the product may begin with a minus, and the reader takes that for a negation
    exact parses.exists_negation
  | negativeFactor _ ih =>
    obtain ⟨u, parses⟩ := ih (List.forall_mem_cons.1 readable).2
    exact ⟨_, .negativeFactor parses⟩
  | unsignedFactor _ ih =>
    obtain ⟨u, parses⟩ := ih readable
    exact ⟨u, .unsignedFactor parses⟩
  | raised _ _ ihBase ihExponent =>
    obtain ⟨readableBase, readableRest⟩ := List.forall_mem_append.1 readable
    obtain ⟨base, parsesBase⟩ := ihBase readableBase
    obtain ⟨exponent, parsesExponent⟩ := ihExponent (List.forall_mem_cons.1 readableRest).2
    exact ⟨_, .raised parsesBase parsesExponent⟩
  | base _ ih =>
    obtain ⟨u, parses⟩ := ih readable
    exact ⟨u, .base parses⟩
  | radical _ ih =>
    obtain ⟨u, parses⟩ := ih (List.forall_mem_cons.1 readable).2
    exact ⟨_, .radical parses⟩
  | primary _ ih =>
    obtain ⟨u, parses⟩ := ih readable
    exact ⟨u, .primary parses⟩
  | number => exact ⟨_, Generates.number.parses readable⟩
  | identifier => exact ⟨_, Generates.identifier.parses readable⟩
  | constantPlaceholder => exact ⟨_, Generates.constantPlaceholder.parses readable⟩
  | parenthesized _ ih =>
    obtain ⟨u, parses⟩ := ih fun token mem =>
      readable token (List.mem_cons_of_mem _ (List.mem_append_left _ mem))
    exact ⟨u, .parenthesized parses⟩

end InequalityChaining

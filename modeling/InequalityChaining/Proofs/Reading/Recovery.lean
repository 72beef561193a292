import InequalityChaining.Proofs.Reading.Desugaring
import InequalityChaining.Proofs.Token.Scanning
import InequalityChaining.Proposition.Reader

/-!
# Parsing what is written

The tokens of a term are parsed as the term in its desugared form. An operand of a given precedence
is parsed as the phrase that this precedence leaves to it: what binds tighter is such a phrase
already, and everything else stands in parentheses. What is parsed is written with the same tokens
and brackets again, and it is by induction on the term that all of this holds together.

## Main definitions

* `operandPhrase` — the phrase of an operand of an operation
* `Term.Recovers` — a term is parsed from the tokens of another

## Main results

* `Parses.separated`, `Parses.relationSign?_eq_none` — words and relation signs in a phrase
* `Term.Recovers.parses_bracketed` — operands are parsed as such
* `Term.Recovers.variadic`, `Term.Recovers.difference` and so on — one lemma for each operation
* `Term.exists_recovers` — the tokens of every writable term are parsed
-/

namespace InequalityChaining

open Term (bracketed collapse)

/-! ### The tokens of a phrase -/

namespace Parses

variable {phrase : Phrase} {op : Variadic} {ts us : List Token} {t : Term}

theorem isWord_of_sign {token : Token} (h : token = op.sign ∨ token = op.inverseSign) :
    token.isWord = false ∧ token.beginsWord = false := by
  rcases h with rfl | rfl
  all_goals cases op <;> exact ⟨rfl, rfl⟩

/-- In the tokens of a phrase no word follows another. -/
theorem separated (h : Parses phrase ts t) : Token.Separated ts := by
  induction h with
  | chain _ continues ihFirst ihContinues =>
    refine ihFirst.append ihContinues fun token mem => ?_
    exact (isWord_of_sign (continues.head_of_continuation token mem)).2
  | @another op _ _ _ _ _ _ continues ihNext ihContinues =>
    refine (ihNext.append ihContinues fun token mem => ?_).cons (isWord_of_sign (.inl rfl)).1
    exact (isWord_of_sign (continues.head_of_continuation token mem)).2
  | @inverse op _ _ _ _ _ _ continues ihNext ihContinues =>
    refine (ihNext.append ihContinues fun token mem => ?_).cons (isWord_of_sign (.inr rfl)).1
    exact (isWord_of_sign (continues.head_of_continuation token mem)).2
  | done => exact List.isChain_nil
  | negative _ ih => exact ih.cons rfl
  | unsigned _ _ ih => exact ih
  | negativeFactor _ ih => exact ih.cons rfl
  | unsignedFactor _ ih => exact ih
  | raised _ _ ihBase ihExponent =>
    exact ihBase.append (ihExponent.cons rfl) (by simp [Token.beginsWord])
  | base _ ih => exact ih
  | radical _ ih => exact ih.cons rfl
  | primary _ ih => exact ih
  | number _ => exact List.isChain_singleton _
  | identifier _ => exact List.isChain_singleton _
  | constantPlaceholder _ => exact List.isChain_singleton _
  | parenthesized _ ih =>
    refine (ih.append (List.isChain_singleton _) ?_).cons rfl
    simp [Token.beginsWord]

/-- A phrase contains no relation sign. -/
theorem relationSign?_eq_none (h : Parses phrase ts t) :
    ∀ token ∈ ts, token.relationSign? = none := by
  refine h.forall_mem (fun _ _ _ => rfl) fun token _ notRelation => ?_
  cases token with
  | relation sign => exact absurd rfl (notRelation sign)
  | _ => rfl

end Parses

/-! ### Operands -/

/-- The phrase of an operand of an operation of the given precedence. -/
def operandPhrase : Nat → Phrase
  | 0 => .chain .sum
  | 1 => .chain .product
  | 2 => .power
  | _ => .radical

section Operands

variable {p q : Nat} {op : Variadic} {ts : List Token} {t : Term}

/-- A chain may consist of a single operand. -/
theorem Parses.single (op : Variadic) (first : Parses op.firstPhrase ts t) :
    Parses (.chain op) ts t := by
  have alone := first.chain .done
  rwa [List.append_nil] at alone

/-- A phrase for tighter operands is one for looser ones, but a product with a minus is no sum. -/
theorem Parses.loosen (h : Parses (operandPhrase q) ts t) (le : p ≤ q)
    (unsigned : p ≠ q → ts.head? ≠ some .minus) : Parses (operandPhrase p) ts t := by
  induction le using Nat.decreasingInduction with
  | self => exact h
  | of_succ n less ih =>
    have notMinus : ts.head? ≠ some .minus := unsigned (by omega)
    have tighter : Parses (operandPhrase (n + 1)) ts t := ih fun _ => notMinus
    match n with
    | 0 => exact .single .sum (.unsigned notMinus tighter)
    | 1 => exact .single .product (.unsignedFactor tighter)
    | 2 => exact .base tighter
    | _ + 3 => exact tighter

end Operands

namespace Term

/-! ### Written terms -/

section Written

variable {op : Variadic} {t : Term} {ts : List Term} {literal : Literal} {a b : Number}

theorem bindingStrength_pos (t : Term) : 0 < t.bindingStrength := by
  fun_cases bindingStrength t with
  | case4 op => cases op <;> decide
  | case7 op => cases op <;> decide
  | _ => decide

theorem bindingStrength_variadic (nonempty : ts ≠ []) :
    (Term.variadic op ts).bindingStrength = (Operator.variadic op).precedence := by
  rw [bindingStrength, if_neg (by simpa using nonempty)]

theorem tokens_variadic : (Term.variadic op (t :: ts)).tokens =
    bracketed (Operator.variadic op).precedence t t.tokens ++ tokensOfRest op ts := by
  cases op <;> rw [tokens]

theorem tokens_opposite (t : Term) : t.opposite.tokens = .minus :: bracketed 1 t t.tokens := by
  rw [opposite, tokens, if_pos (by decide)]
  rfl

theorem radicalSign?_index (sign : RadicalSign) : (int sign.index).radicalSign? = some sign := by
  cases sign <;> decide

theorem isNumber_of_radicalSign? {index : Term} {sign : RadicalSign}
    (h : index.radicalSign? = some sign) : index.isNumber sign.index := by
  rw [radicalSign?] at h
  split_ifs at h with two three four
  all_goals
    obtain rfl := Option.some.inj h
    assumption

theorem bindingStrength_constant (notNegative : ¬ b.isNegative) :
    (constant b).bindingStrength = 4 := by
  rw [bindingStrength, if_neg notNegative]
  rfl

theorem tokens_constant (unsigned : b.hasMinus = false)
    (written : b.magnitudeToken = .number literal) :
    (constant b).tokens = [.number literal] := by
  rw [tokens, Number.tokens, unsigned, written]
  rfl

end Written

/-- A term is parsed from the tokens of another, of which it is the desugared form, and is written
with these tokens again. -/
structure Recovers (t u : Term) : Prop where
  parses : Parses (operandPhrase (t.bindingStrength - 1)) t.tokens u
  unsigned : t.bindingStrength ≠ 1 → t.tokens.head? ≠ some .minus
  alike : u.alike t.desugared
  bindingStrength_eq : u.bindingStrength = t.bindingStrength
  tokens_eq : u.tokens = t.tokens

namespace Recovers

variable {t u l r l' r' : Term} {p : Nat} {op : Variadic} {ts us : List Term}

/-- An operand that binds tightly enough is parsed as such. -/
theorem parses_of_lt (h : Recovers t u) (tight : p < t.bindingStrength) :
    Parses (operandPhrase p) t.tokens u :=
  h.parses.loosen (Nat.le_sub_one_of_lt tight) fun _ => h.unsigned (by omega)

/-- The whole tokens of a term are parsed as a sum. -/
theorem parses_sum (h : Recovers t u) : Parses (.chain .sum) t.tokens u :=
  h.parses_of_lt (bindingStrength_pos t)

/-- An operand is parsed as such, in parentheses if need be. -/
theorem parses_bracketed (h : Recovers t u) (p : Nat) :
    Parses (operandPhrase p) (bracketed p t t.tokens) u := by
  rw [bracketed]
  split
  · have inner : Parses (operandPhrase (p + 3)) _ u := .primary (.parenthesized h.parses_sum)
    exact inner.loosen (Nat.le_add_right _ _) fun _ => by simp
  · next tight => exact h.parses_of_lt (not_le.1 tight)

/-- An operand of an operation begins with no minus. -/
theorem head_bracketed (h : Recovers t u) (positive : 0 < p) :
    (bracketed p t t.tokens).head? ≠ some .minus := by
  rw [bracketed]
  split
  · simp
  · exact h.unsigned (by omega)

/-- Operands are bracketed alike. -/
theorem bracketed_eq (h : Recovers t u) (p : Nat) :
    bracketed p u u.tokens = bracketed p t t.tokens := by
  rw [bracketed, bracketed, h.bindingStrength_eq, h.tokens_eq]

/-! #### Sums and products -/

theorem parses_firstPhrase (h : Recovers t u) (op : Variadic) :
    Parses op.firstPhrase (bracketed (Operator.variadic op).precedence t t.tokens) u := by
  cases op with
  | sum => exact .unsigned (h.head_bracketed one_pos) (h.parses_bracketed 1)
  | product => exact .unsignedFactor (h.parses_bracketed 2)

theorem parses_nextPhrase (h : Recovers t u) (op : Variadic) :
    Parses op.nextPhrase (bracketed (Operator.variadic op).precedence t t.tokens) u := by
  cases op with
  | sum => exact h.parses_bracketed 1
  | product => exact .unsignedFactor (h.parses_bracketed 2)

/-- The operands behind the first continue those that are parsed. -/
theorem parses_tokensOfRest (h : List.Forall₂ Recovers ts us) (before : List Term) :
    Parses (.continuation op before) (tokensOfRest op ts) (collapse op (before ++ us)) := by
  induction h generalizing before with
  | nil =>
    rw [List.append_nil, tokensOfRest]
    exact .done
  | @cons t u ts us recovers others ih =>
    rw [tokensOfRest, List.append_cons]
    exact .another (recovers.parses_nextPhrase op) (ih _)

theorem tokensOfRest_eq (h : List.Forall₂ Recovers ts us) :
    tokensOfRest op us = tokensOfRest op ts := by
  induction h with
  | nil => rfl
  | cons recovers others ih => rw [tokensOfRest, tokensOfRest, recovers.bracketed_eq, ih]

theorem exists_all (h : ∀ t ∈ ts, ∃ u, Recovers t u) : ∃ us, List.Forall₂ Recovers ts us := by
  induction ts with
  | nil => exact ⟨[], .nil⟩
  | cons t ts ih =>
    obtain ⟨⟨u, first⟩, rest⟩ := List.forall_mem_cons.1 h
    obtain ⟨us, others⟩ := ih rest
    exact ⟨u :: us, .cons first others⟩

theorem variadic (length : 2 ≤ ts.length) (h : List.Forall₂ Recovers ts us) :
    Recovers (Term.variadic op ts) (Term.variadic op us) := by
  have alike : (Term.variadic op us).alike (Term.variadic op ts).desugared := by
    rw [desugared, desugaredAll_eq_map, Term.alike, beq_self_eq_true, Bool.true_and, alikeAll_iff,
      List.forall₂_map_right_iff]
    exact h.flip.imp fun _ _ recovers => recovers.alike
  cases h with
  | nil => simp at length
  | @cons t u ts us first others =>
    have strength := @bindingStrength_variadic op (t :: ts) (by simp)
    refine ⟨?_, ?_, alike, ?_, ?_⟩
    · have chain : operandPhrase ((Operator.variadic op).precedence - 1) = .chain op := by
        cases op <;> rfl
      -- only a single operand would be read without its operation
      have several : collapse op ([u] ++ us) = Term.variadic op (u :: us) := by
        obtain - | ⟨second, others⟩ := others
        · simp at length
        · rfl
      rw [strength, chain, tokens_variadic, ← several]
      exact .chain (first.parses_firstPhrase op) (parses_tokensOfRest others _)
    · intro tight
      rw [tokens_variadic, (first.parses_firstPhrase op).head_append (by cases op <;> rfl)]
      exact first.head_bracketed (by cases op <;> decide)
    · rw [strength, bindingStrength_variadic (by simp)]
    · rw [tokens_variadic, tokens_variadic, first.bracketed_eq, tokensOfRest_eq others]

/-! #### Operations on two operands -/

/-- A term behind a minus. -/
theorem parses_minus (h : Recovers t u) :
    Parses (.chain .sum) (.minus :: bracketed 1 t t.tokens) u.opposite :=
  .single .sum (.negative (.unsigned (h.head_bracketed one_pos) (h.parses_bracketed 1)))

/-- Two operands around the sign of a difference or a quotient. -/
theorem parses_inverse (op : Variadic) (left : Recovers l l') (right : Recovers r r') :
    Parses (.chain op) (bracketed (Operator.variadic op).precedence l l.tokens ++
        op.inverseSign :: bracketed (Operator.variadic op).precedence r r.tokens)
      (binary op.inverse l' r') := by
  have continues : Parses (.continuation op [l'])
      (op.inverseSign :: (bracketed (Operator.variadic op).precedence r r.tokens ++ []))
      (binary op.inverse l' r') := .inverse (right.parses_nextPhrase op) .done
  rw [List.append_nil] at continues
  exact .chain (left.parses_firstPhrase op) continues

theorem alike_binary {o : Binary} (notRoot : o ≠ .root) (left : Recovers l l')
    (right : Recovers r r') : (binary o l' r').alike (binary o l r).desugared := by
  rw [desugared_binary notRoot, Term.alike, beq_self_eq_true, left.alike, right.alike]
  rfl

/-- A difference from zero is written without the zero. -/
theorem difference_of_zero (zero : l.isNumber 0) (right : Recovers r r') :
    Recovers (difference l r) r'.opposite := by
  have written : (difference l r).tokens = .minus :: bracketed 1 r r.tokens := by
    rw [tokens, if_pos zero, List.nil_append]
  refine ⟨?_, fun loose => absurd rfl loose, ?_, rfl, ?_⟩
  · rw [written]
    exact right.parses_minus
  · have sameLeft : (int 0).alike l.desugared := alike_int ((isNumber_desugared rfl).trans zero)
    rw [desugared_binary (by decide), opposite, Term.alike, sameLeft, right.alike]
    rfl
  · rw [written, tokens_opposite, right.bracketed_eq]

theorem difference (notZero : ¬ l.isNumber 0) (left : Recovers l l') (right : Recovers r r') :
    Recovers (difference l r) (difference l' r') := by
  have notZero' : ¬ l'.isNumber 0 := by
    rw [isNumber_congr left.alike, isNumber_desugared rfl]
    exact notZero
  refine ⟨?_, fun loose => absurd rfl loose, ?_, rfl, ?_⟩
  · rw [tokens, if_neg notZero]
    exact parses_inverse .sum left right
  · exact alike_binary (by decide) left right
  · rw [tokens, tokens, if_neg notZero, if_neg notZero', left.bracketed_eq, right.bracketed_eq]

theorem quotient (left : Recovers l l') (right : Recovers r r') :
    Recovers (quotient l r) (quotient l' r') := by
  refine ⟨?_, ?_, ?_, rfl, ?_⟩
  · rw [tokens]
    exact parses_inverse .product left right
  · intro _
    rw [tokens, (left.parses_bracketed 2).head_append rfl]
    exact left.head_bracketed two_pos
  · exact alike_binary (by decide) left right
  · rw [tokens, tokens, left.bracketed_eq, right.bracketed_eq]

theorem power (left : Recovers l l') (right : Recovers r r') :
    Recovers (power l r) (power l' r') := by
  refine ⟨?_, ?_, ?_, rfl, ?_⟩
  · rw [tokens]
    exact .raised (left.parses_bracketed 3) (.unsignedFactor (.base (right.parses_bracketed 3)))
  · intro _
    rw [tokens, (left.parses_bracketed 3).head_append rfl]
    exact left.head_bracketed three_pos
  · exact alike_binary (by decide) left right
  · rw [tokens, tokens, left.bracketed_eq, right.bracketed_eq]

theorem root {sign : RadicalSign} (h : r.radicalSign? = some sign) (left : Recovers l l') :
    Recovers (Term.root l r) (Term.root l' (int sign.index)) := by
  have strength : (Term.root l r).bindingStrength = 4 := by
    rw [bindingStrength, h]
    rfl
  have written : (Term.root l r).tokens = .radical sign :: bracketed 3 l l.tokens := by
    rw [tokens, h]
  refine ⟨?_, ?_, ?_, ?_, ?_⟩
  · rw [strength, written]
    exact .radical (left.parses_bracketed 3)
  · rw [written]
    simp
  · have nonnegative : (Number.int sign.index).isNegative = false := by cases sign <;> rfl
    have sameIndex : (int sign.index).alike r.desugared :=
      alike_int ((isNumber_desugared nonnegative).trans (isNumber_of_radicalSign? h))
    rw [desugared, ← isSome_radicalSign?, h, Option.isSome_some, if_pos rfl, Term.alike,
      left.alike, sameIndex]
    rfl
  · rw [strength, bindingStrength, radicalSign?_index]
    rfl
  · rw [written, tokens, radicalSign?_index, ← left.bracketed_eq]

/-- A term that is written as another one is read as this one. -/
theorem congr {t' : Term} (h : Recovers t u) (tokens : t'.tokens = t.tokens)
    (strength : t'.bindingStrength = t.bindingStrength) (alike : u.alike t'.desugared) :
    Recovers t' u :=
  ⟨strength ▸ tokens ▸ h.parses, strength ▸ tokens ▸ h.unsigned, alike,
    h.bindingStrength_eq.trans strength.symm, h.tokens_eq.trans tokens.symm⟩

/-! #### Leaves -/

section Constants

variable {literal : Literal} {a b : Number}

/-- What a literal denotes recovers itself if it is written as the literal. -/
theorem ofLiteral (value : literal.toNumber? = some b)
    (written : b.magnitudeToken = .number literal) : Recovers (constant b) (constant b) := by
  have notNegative : ¬ b.isNegative := by simp [Number.isNegative_of_toNumber? value]
  have strength := bindingStrength_constant notNegative
  have tokens := tokens_constant (Literal.hasMinus_of_toNumber? value) written
  refine ⟨?_, ?_, ?_, rfl, rfl⟩
  · rw [strength, tokens]
    exact .primary (.number value)
  · rw [tokens]
    simp
  · rw [(IsPlain.constant value).desugared_eq, Term.alike, Number.beq_self_iff]
    exact Number.isDefined_of_isFinite (Literal.isFinite_of_toNumber? value)

theorem exists_constant (writable : a.isWritable) : ∃ u, Recovers (constant a) u := by
  have finite : a.isFinite := (Bool.and_eq_true_iff.1 writable).1
  have sign := Number.hasMinus_eq_isNegative writable
  obtain ⟨digits, token, -, b, value, written, same⟩ := Number.exists_isReadBack finite
  have notNegative : ¬ b.isNegative := by simp [Number.isNegative_of_toNumber? value]
  have strength := bindingStrength_constant notNegative
  have readTokens := tokens_constant (Literal.hasMinus_of_toNumber? value) written
  have recovers : Recovers (constant b) (constant b) := ofLiteral value written
  by_cases negative : a.isNegative
  · -- a negative constant is written as the opposite of what its literal denotes
    have minus : Recovers (constant b).opposite (constant b).opposite :=
      difference_of_zero (by decide) recovers
    refine ⟨_, minus.congr ?_ ?_ ?_⟩
    · rw [tokens_opposite, bracketed, strength, if_neg (by decide), readTokens, tokens,
        Number.tokens, sign, if_pos negative, token]
    · rw [bindingStrength, if_pos negative]
      rfl
    · rw [desugared, if_pos negative, opposite, opposite, Term.alike, Term.alike, Term.alike, same]
      rfl
  · have unsigned : a.hasMinus = false := by
      rw [sign, Bool.eq_false_iff]
      exact negative
    refine ⟨_, recovers.congr ?_ ?_ ?_⟩
    · rw [readTokens, tokens_constant unsigned token]
    · rw [strength, bindingStrength_constant negative]
    · rw [desugared, if_neg negative, Term.alike, ← Number.abs_eq_self finite unsigned, same]

end Constants

/-- A root that has no sign is written as a power. -/
theorem rootless (h : r.radicalSign? = none) (left : Recovers l l') (right : Recovers r r') :
    Recovers (Term.root l r) (Term.power l' (Term.quotient (int 1) r')) := by
  have one : Recovers (int 1) (int 1) := ofLiteral rfl rfl
  have written : (Term.root l r).tokens = bracketed 3 l l.tokens ++
      [.caret, .leftParenthesis, .number (.ofNat 1), .slash] ++
      bracketed 2 r r.tokens ++ [.rightParenthesis] := by
    rw [tokens, h]
  have reciprocal : bracketed 3 (Term.quotient (int 1) r) (Term.quotient (int 1) r).tokens =
      [.leftParenthesis, .number (.ofNat 1), .slash] ++ bracketed 2 r r.tokens ++
        [.rightParenthesis] := by
    rw [tokens]
    rfl
  refine (left.power (one.quotient right)).congr ?_ ?_ ?_
  · rw [written, tokens, reciprocal]
    simp
  · rw [bindingStrength, h]
    rfl
  · rw [desugared, ← isSome_radicalSign?, h, Option.isSome_none, if_neg (by decide)]
    exact (left.power (one.quotient right)).alike

end Recovers

/-- Every writable term is parsed from its tokens. -/
theorem exists_recovers {t : Term} (writable : t.isWritable) : ∃ u, Recovers t u := by
  induction t using Term.induction with
  | constant value => exact Recovers.exists_constant (isWritable_constant.symm.trans writable)
  | var name =>
    have valid := isWritable_var.1 writable
    have read : ofIdentifier name = .ok (var name) := by
      rw [ofIdentifier, if_neg valid.2, checkedVar, if_pos valid.1]
    refine ⟨var name, .primary (.identifier read), by simp [tokens], ?_, rfl, rfl⟩
    simp [desugared, alike]
  | placeholder name kind =>
    cases kind with
    | any =>
      have valid := isWritable_any.1 writable
      have read : ofIdentifier name = .ok (placeholder name .any) := by
        rw [ofIdentifier, if_pos valid.2, checkedPlaceholder, if_pos valid.1]
      refine ⟨placeholder name .any, .primary (.identifier read), by simp [tokens], ?_, rfl, rfl⟩
      simp [desugared, alike]
    | constantOnly =>
      have read : checkedPlaceholder name .constantOnly = .ok (placeholder name .constantOnly) := by
        rw [checkedPlaceholder, if_pos (isWritable_constantOnly.1 writable)]
      refine ⟨placeholder name .constantOnly, .primary (.constantPlaceholder read),
        by simp [tokens], ?_, rfl, rfl⟩
      simp [desugared, alike]
  | variadic op ts ih =>
    obtain ⟨length, operands⟩ := isWritable_variadic.1 writable
    obtain ⟨us, recovers⟩ := Recovers.exists_all fun t mem => ih t mem (operands t mem)
    exact ⟨_, .variadic length recovers⟩
  | binary op l r ihl ihr =>
    obtain ⟨writableLeft, writableRight⟩ := isWritable_binary.1 writable
    obtain ⟨l', left⟩ := ihl writableLeft
    obtain ⟨r', right⟩ := ihr writableRight
    cases op with
    | difference =>
      by_cases zero : l.isNumber 0
      · exact ⟨_, .difference_of_zero zero right⟩
      · exact ⟨_, .difference zero left right⟩
    | quotient => exact ⟨_, left.quotient right⟩
    | power => exact ⟨_, left.power right⟩
    | root =>
      cases sign : r.radicalSign? with
      | some sign => exact ⟨_, .root sign left⟩
      | none => exact ⟨_, .rootless sign left right⟩

end Term

end InequalityChaining

import InequalityChaining.Term.Reader
import InequalityChaining.Term.Written
import InequalityChaining.Proofs.Outcome
import InequalityChaining.Proofs.Term.Parts

/-!
# The grammar of terms

The grammar is a system of rules by which a phrase is parsed from a run of tokens as the term that
the run stands for. A sum and a product are read alike, an operand and then a continuation that
depends on the operands read so far, so both are one phrase with the operation as a parameter.

## Main definitions

* `Phrase` — the nonterminals of the grammar
* `Parses` — which tokens a phrase is parsed from, and as which term
* `Phrase.read` — the function of the reader for a phrase

## Main results

* `Parses.forall_mem` — what all tokens of a phrase satisfy
* `Parses.read_append` — the reader finds every parse, whatever follows it
* `Phrase.exists_parses_of_read` — what the reader returns is parsed
* `Term.ofTokens_eq_ok_iff` — the tokens that are a term are those that parse as a sum
-/

namespace InequalityChaining

open Term (collapse)

/-- The nonterminals of the grammar. The continuation of a sum or product comes behind the operands
that are read already. -/
inductive Phrase where
  | chain (op : Variadic)
  | continuation (op : Variadic) (operands : List Term)
  | negation
  | factor
  | power
  | radical
  | primary

namespace Variadic

/-- The phrase of the first operand of a chain. -/
def firstPhrase : Variadic → Phrase
  | sum => .negation
  | product => .factor

/-- The phrase of the operands behind a sign. -/
def nextPhrase : Variadic → Phrase
  | sum => .chain .product
  | product => .factor

/-- The sign of the operation that undoes one operand. -/
def inverseSign : Variadic → Token
  | sum => .minus
  | product => .slash

end Variadic

/-- A phrase is parsed from a run of tokens as a term. A minus in front of a sum is read as a sign
of its first product, though the first factor could take it too. -/
inductive Parses : Phrase → List Token → Term → Prop where
  | chain {op : Variadic} {ts us : List Token} {first t : Term} :
    Parses op.firstPhrase ts first → Parses (.continuation op [first]) us t →
      Parses (.chain op) (ts ++ us) t
  | another {op : Variadic} {operands : List Term} {ts us : List Token} {next t : Term} :
    Parses op.nextPhrase ts next → Parses (.continuation op (operands ++ [next])) us t →
      Parses (.continuation op operands) (op.sign :: (ts ++ us)) t
  | inverse {op : Variadic} {operands : List Term} {ts us : List Token} {next t : Term} :
    Parses op.nextPhrase ts next →
      Parses (.continuation op [.binary op.inverse (collapse op operands) next]) us t →
      Parses (.continuation op operands) (op.inverseSign :: (ts ++ us)) t
  | done {op : Variadic} {operands : List Term} :
    Parses (.continuation op operands) [] (collapse op operands)
  | negative {ts : List Token} {t : Term} :
    Parses .negation ts t → Parses .negation (.minus :: ts) t.opposite
  | unsigned {ts : List Token} {t : Term} :
    ts.head? ≠ some .minus → Parses (.chain .product) ts t → Parses .negation ts t
  | negativeFactor {ts : List Token} {t : Term} :
    Parses .factor ts t → Parses .factor (.minus :: ts) t.opposite
  | unsignedFactor {ts : List Token} {t : Term} : Parses .power ts t → Parses .factor ts t
  | raised {ts us : List Token} {base exponent : Term} :
    Parses .radical ts base → Parses .factor us exponent →
      Parses .power (ts ++ .caret :: us) (.power base exponent)
  | base {ts : List Token} {t : Term} : Parses .radical ts t → Parses .power ts t
  | radical {sign : RadicalSign} {ts : List Token} {t : Term} :
    Parses .radical ts t → Parses .radical (.radical sign :: ts) (.root t (.int sign.index))
  | primary {ts : List Token} {t : Term} : Parses .primary ts t → Parses .radical ts t
  | number {literal : Literal} {value : Number} :
    literal.toNumber? = some value → Parses .primary [.number literal] (.constant value)
  | identifier {name : String} {t : Term} :
    Term.ofIdentifier name = .ok t → Parses .primary [.identifier name] t
  | constantPlaceholder {name : String} {t : Term} :
    Term.checkedPlaceholder name .constantOnly = .ok t →
      Parses .primary [.constantPlaceholder name] t
  | parenthesized {ts : List Token} {t : Term} :
    Parses (.chain .sum) ts t →
      Parses .primary (.leftParenthesis :: (ts ++ [.rightParenthesis])) t

/-! ### The functions of the reader -/

/-- What reading yields, without the proof that it reads. -/
def outcome {p : List Token → Prop} (reading : Except ReadError (Term × { rest // p rest })) :
    Except ReadError (Term × List Token) :=
  reading.map fun (t, rest) => (t, rest.1)

section Outcome

variable {p q : List Token → Prop} {x : Except ReadError (Term × { rest // p rest })}
  {f : Term × { rest // p rest } → Except ReadError (Term × { rest // q rest })}

/-- Two parts in sequence have the outcome of the one after that of the other. -/
theorem outcome_bind {g : Term × List Token → Except ReadError (Term × List Token)}
    (h : ∀ t rest, outcome (f (t, rest)) = g (t, rest.1)) :
    outcome (x >>= f) = outcome x >>= g := by
  cases x with
  | error e => rfl
  | ok r => exact h r.1 r.2

/-- A part that passes on the result changes nothing. -/
theorem outcome_bind_pure (h : ∀ t rest, outcome (f (t, rest)) = .ok (t, rest.1)) :
    outcome (x >>= f) = outcome x := by
  cases x with
  | error e => rfl
  | ok r => exact h r.1 r.2

end Outcome

namespace Phrase

/-- The function of the reader for a phrase. -/
def read (phrase : Phrase) (tokens : List Token) : Except ReadError (Term × List Token) :=
  match phrase with
  | chain .sum => outcome (Term.readSum tokens)
  | chain .product => outcome (Term.readProduct tokens)
  | continuation .sum operands => outcome (Term.readSummands operands tokens)
  | continuation .product operands => outcome (Term.readFactors operands tokens)
  | negation => outcome (Term.readNegation tokens)
  | factor => outcome (Term.readFactor tokens)
  | power => outcome (Term.readPower tokens)
  | radical => outcome (Term.readRadical tokens)
  | primary => outcome (Term.readPrimary tokens)

variable {op : Variadic} {operands : List Term} {tokens : List Token}

theorem read_chain :
    (chain op).read tokens = (do
      let (first, rest) ← op.firstPhrase.read tokens
      (continuation op [first]).read rest) := by
  cases op with
  | sum =>
    simp only [read, Variadic.firstPhrase]
    rw [Term.readSum]
    exact outcome_bind fun first rest => outcome_bind_pure fun t rest => rfl
  | product =>
    simp only [read, Variadic.firstPhrase]
    rw [Term.readProduct]
    exact outcome_bind fun first rest => outcome_bind_pure fun t rest => rfl

theorem read_continuation_sign :
    (continuation op operands).read (op.sign :: tokens) = (do
      let (next, rest) ← op.nextPhrase.read tokens
      (continuation op (operands ++ [next])).read rest) := by
  cases op with
  | sum =>
    simp only [read, Variadic.nextPhrase, Variadic.sign]
    rw [Term.readSummands]
    exact outcome_bind fun next rest => outcome_bind_pure fun t rest => rfl
  | product =>
    simp only [read, Variadic.nextPhrase, Variadic.sign]
    rw [Term.readFactors]
    exact outcome_bind fun next rest => outcome_bind_pure fun t rest => rfl

theorem read_continuation_inverseSign :
    (continuation op operands).read (op.inverseSign :: tokens) = (do
      let (next, rest) ← op.nextPhrase.read tokens
      (continuation op [.binary op.inverse (collapse op operands) next]).read rest) := by
  cases op with
  | sum =>
    simp only [read, Variadic.nextPhrase, Variadic.inverseSign]
    rw [Term.readSummands]
    exact outcome_bind fun next rest => outcome_bind_pure fun t rest => rfl
  | product =>
    simp only [read, Variadic.nextPhrase, Variadic.inverseSign]
    rw [Term.readFactors]
    exact outcome_bind fun next rest => outcome_bind_pure fun t rest => rfl

theorem read_continuation_done (notSign : tokens.head? ≠ some op.sign)
    (notInverse : tokens.head? ≠ some op.inverseSign) :
    (continuation op operands).read tokens = .ok (collapse op operands, tokens) := by
  cases op with
  | sum =>
    simp only [read]
    rw [Term.readSummands.eq_def]
    split
    · exact absurd rfl notSign
    · exact absurd rfl notInverse
    · rfl
  | product =>
    simp only [read]
    rw [Term.readFactors.eq_def]
    split
    · exact absurd rfl notSign
    · exact absurd rfl notInverse
    · rfl

theorem read_negation_minus :
    negation.read (.minus :: tokens) = (do
      let (t, rest) ← negation.read tokens
      return (t.opposite, rest)) := by
  simp only [read]
  rw [Term.readNegation]
  exact outcome_bind fun t rest => rfl

theorem read_negation (h : tokens.head? ≠ some .minus) :
    negation.read tokens = (chain .product).read tokens := by
  simp only [read]
  rw [Term.readNegation.eq_def]
  split
  · exact absurd rfl h
  · rfl

theorem read_factor_minus :
    factor.read (.minus :: tokens) = (do
      let (t, rest) ← factor.read tokens
      return (t.opposite, rest)) := by
  simp only [read]
  rw [Term.readFactor]
  exact outcome_bind fun t rest => rfl

theorem read_factor (h : tokens.head? ≠ some .minus) : factor.read tokens = power.read tokens := by
  simp only [read]
  rw [Term.readFactor.eq_def]
  split
  · exact absurd rfl h
  · rfl

theorem read_power :
    power.read tokens = (do
      match ← radical.read tokens with
      | (base, .caret :: rest) =>
        let (exponent, rest) ← factor.read rest
        return (.power base exponent, rest)
      | (base, rest) => return (base, rest)) := by
  simp only [read]
  rw [Term.readPower]
  refine outcome_bind fun base rest => ?_
  obtain ⟨rest, shorter⟩ := rest
  cases rest with
  | nil => rfl
  | cons token rest =>
    cases token with
    | caret => exact outcome_bind fun exponent rest => rfl
    | _ => rfl

theorem read_radical_sign {sign : RadicalSign} :
    radical.read (.radical sign :: tokens) = (do
      let (t, rest) ← radical.read tokens
      return (.root t (.int sign.index), rest)) := by
  simp only [read]
  rw [Term.readRadical]
  exact outcome_bind fun t rest => rfl

theorem read_radical (h : ∀ sign, tokens.head? ≠ some (.radical sign)) :
    radical.read tokens = primary.read tokens := by
  simp only [read]
  rw [Term.readRadical.eq_def]
  split
  · exact absurd rfl (h _)
  · rfl

theorem read_parenthesis_eq_ok {t : Term} {rest : List Token} :
    primary.read (.leftParenthesis :: tokens) = .ok (t, rest) ↔
      (chain .sum).read tokens = .ok (t, .rightParenthesis :: rest) := by
  simp only [read]
  rw [Term.readPrimary]
  cases Term.readSum tokens with
  | error e => simp [outcome, bind, Except.bind, Except.map]
  | ok r =>
    obtain ⟨u, left, shorter⟩ := r
    cases left with
    | nil => simp [outcome, bind, Except.bind, Except.map]
    | cons token left =>
      cases token with
      | rightParenthesis => simp [outcome, bind, Except.bind, Except.map, pure, Except.pure]
      | _ => simp [outcome, bind, Except.bind, Except.map]

end Phrase

/-! ### Where a phrase ends -/

/-- The strength of the operation that a sign may continue an operand with. -/
def Token.signStrength : Token → Nat
  | plus | minus => 1
  | star | slash => 2
  | caret => 3
  | _ => 0

namespace Phrase

/-- Whether the phrase may be empty. -/
def isContinuation : Phrase → Bool
  | continuation _ _ => true
  | _ => false

/-- A sign of this strength or a greater one continues the phrase. -/
def level : Phrase → Nat
  | chain op => (Operator.variadic op).precedence
  | continuation op _ => (Operator.variadic op).precedence
  | negation => 2
  | factor => 3
  | power => 3
  | radical => 4
  | primary => 4

/-- The tokens do not continue the phrase. -/
def Stops (phrase : Phrase) (rest : List Token) : Prop :=
  ∀ token ∈ rest.head?, token.signStrength < phrase.level

variable {phrase : Phrase} {rest : List Token}

theorem stops_cons {token : Token} (h : token.signStrength < phrase.level) :
    phrase.Stops (token :: rest) := by
  intro first mem
  obtain rfl : token = first := by simpa using mem
  exact h

theorem Stops.mono {phrase' : Phrase} (h : phrase.Stops rest) (le : phrase.level ≤ phrase'.level) :
    phrase'.Stops rest := fun token mem => Nat.lt_of_lt_of_le (h token mem) le

end Phrase

namespace Parses

variable {phrase : Phrase} {op : Variadic} {operands : List Term} {ts us rest : List Token}
  {t : Term}

/-- A continuation is empty or begins with a sign of its operation. -/
theorem head_of_continuation (h : Parses (.continuation op operands) us t) :
    ∀ token ∈ us.head?, token = op.sign ∨ token = op.inverseSign := by
  cases h with
  | another next continues => simp
  | inverse next continues => simp
  | done => simp

theorem signStrength_of_sign {token : Token} (h : token = op.sign ∨ token = op.inverseSign) :
    token.signStrength = (Operator.variadic op).precedence := by
  rcases h with rfl | rfl
  all_goals cases op <;> rfl

/-- An operand of a chain ends where the continuation begins. -/
theorem stops_of_continuation (h : Parses (.continuation op operands) us t)
    (stops : (Phrase.chain op).Stops rest)
    (level : phrase.level = (Operator.variadic op).precedence + 1) :
    phrase.Stops (us ++ rest) := by
  intro token mem
  rw [level]
  cases us with
  | nil => exact Nat.lt_succ_of_lt (stops token mem)
  | cons sign us =>
    obtain rfl : sign = token := by simpa using mem
    rw [signStrength_of_sign (head_of_continuation h sign rfl)]
    exact Nat.lt_succ_self _

theorem level_firstPhrase : op.firstPhrase.level = (Operator.variadic op).precedence + 1 := by
  cases op <;> rfl

theorem level_nextPhrase : op.nextPhrase.level = (Operator.variadic op).precedence + 1 := by
  cases op <;> rfl

/-- Only a continuation is parsed from no tokens. -/
theorem ne_nil (h : Parses phrase ts t) (operand : phrase.isContinuation = false) : ts ≠ [] := by
  induction h with
  | @chain op _ _ _ _ first continues ih =>
    have nonempty := ih (by cases op <;> rfl)
    simp [nonempty]
  | another => cases operand
  | inverse => cases operand
  | done => cases operand
  | unsigned _ _ ih => exact ih rfl
  | unsignedFactor _ ih => exact ih rfl
  | base _ ih => exact ih rfl
  | primary _ ih => exact ih rfl
  | _ => simp

theorem head_append (h : Parses phrase ts t) (operand : phrase.isContinuation = false)
    (rest : List Token) : (ts ++ rest).head? = ts.head? := by
  obtain - | ⟨token, ts⟩ := ts
  · exact absurd rfl (h.ne_nil operand)
  · rfl

/-- Neither a primary nor what is built with roots and a caret begins with a minus. -/
theorem head_ne_minus (h : Parses phrase ts t)
    (strong : phrase = .power ∨ phrase = .radical ∨ phrase = .primary) :
    ts.head? ≠ some .minus := by
  induction h with
  | chain => simp at strong
  | another => simp at strong
  | inverse => simp at strong
  | done => simp at strong
  | negative => simp at strong
  | unsigned => simp at strong
  | negativeFactor => simp at strong
  | unsignedFactor => simp at strong
  | raised base exponent ih =>
    rw [base.head_append rfl]
    exact ih (by simp)
  | base _ ih => exact ih (by simp)
  | primary _ ih => exact ih (by simp)
  | _ => simp

theorem head_of_primary (h : Parses .primary ts t) (sign : RadicalSign) :
    ts.head? ≠ some (.radical sign) := by
  cases h <;> simp

/-! ### The tokens of a phrase -/

/-- What literals that denote numbers satisfy, and all other tokens but relation signs, the tokens
of a phrase satisfy. -/
theorem forall_mem {Q : Token → Prop} (h : Parses phrase ts t)
    (number : ∀ literal value, literal.toNumber? = some value → Q (.number literal))
    (others : ∀ token, (∀ literal, token ≠ .number literal) →
      (∀ sign, token ≠ .relation sign) → Q token) : ∀ token ∈ ts, Q token := by
  have signs : ∀ op : Variadic, Q op.sign ∧ Q op.inverseSign := by
    intro op
    constructor
    all_goals
      cases op
      all_goals exact others _ nofun nofun
  induction h with
  | chain _ _ ihFirst ihContinues => exact List.forall_mem_append.2 ⟨ihFirst, ihContinues⟩
  | @another op _ _ _ _ _ _ _ ihNext ihContinues =>
    exact List.forall_mem_cons.2 ⟨(signs op).1, List.forall_mem_append.2 ⟨ihNext, ihContinues⟩⟩
  | @inverse op _ _ _ _ _ _ _ ihNext ihContinues =>
    exact List.forall_mem_cons.2 ⟨(signs op).2, List.forall_mem_append.2 ⟨ihNext, ihContinues⟩⟩
  | done => simp
  | negative _ ih => exact List.forall_mem_cons.2 ⟨others _ nofun nofun, ih⟩
  | unsigned _ _ ih => exact ih
  | negativeFactor _ ih => exact List.forall_mem_cons.2 ⟨others _ nofun nofun, ih⟩
  | unsignedFactor _ ih => exact ih
  | raised _ _ ihBase ihExponent =>
    exact List.forall_mem_append.2
      ⟨ihBase, List.forall_mem_cons.2 ⟨others _ nofun nofun, ihExponent⟩⟩
  | base _ ih => exact ih
  | radical _ ih => exact List.forall_mem_cons.2 ⟨others _ nofun nofun, ih⟩
  | primary _ ih => exact ih
  | number found => exact List.forall_mem_singleton.2 (number _ _ found)
  | identifier _ => exact List.forall_mem_singleton.2 (others _ nofun nofun)
  | constantPlaceholder _ => exact List.forall_mem_singleton.2 (others _ nofun nofun)
  | parenthesized _ ih =>
    exact List.forall_mem_cons.2 ⟨others _ nofun nofun,
      List.forall_mem_append.2 ⟨ih, List.forall_mem_singleton.2 (others _ nofun nofun)⟩⟩

/-! ### The reader finds every parse -/

/-- A phrase is read up to the tokens that do not continue it. -/
theorem read_append (h : Parses phrase ts t) (stops : phrase.Stops rest) :
    phrase.read (ts ++ rest) = .ok (t, rest) := by
  induction h generalizing rest with
  | chain first continues ihFirst ihContinues =>
    have stopsFirst := stops_of_continuation continues stops level_firstPhrase
    rw [List.append_assoc, Phrase.read_chain, ihFirst stopsFirst]
    exact ihContinues stops
  | another next continues ihNext ihContinues =>
    have stopsNext := stops_of_continuation continues stops level_nextPhrase
    rw [List.cons_append, List.append_assoc, Phrase.read_continuation_sign, ihNext stopsNext]
    exact ihContinues stops
  | inverse next continues ihNext ihContinues =>
    have stopsNext := stops_of_continuation continues stops level_nextPhrase
    rw [List.cons_append, List.append_assoc, Phrase.read_continuation_inverseSign,
      ihNext stopsNext]
    exact ihContinues stops
  | @done op operands =>
    -- a sign of this operation would not be weaker than the phrase
    have notSign : ∀ token, token = op.sign ∨ token = op.inverseSign →
        rest.head? ≠ some token := by
      intro token sign mem
      have weaker := stops token mem
      rw [signStrength_of_sign sign] at weaker
      exact Nat.lt_irrefl _ weaker
    exact Phrase.read_continuation_done (notSign _ (.inl rfl)) (notSign _ (.inr rfl))
  | negative _ ih =>
    rw [List.cons_append, Phrase.read_negation_minus, ih stops]
    rfl
  | unsigned notMinus product ih =>
    rw [Phrase.read_negation (product.head_append rfl rest ▸ notMinus)]
    exact ih stops
  | negativeFactor _ ih =>
    rw [List.cons_append, Phrase.read_factor_minus, ih stops]
    rfl
  | unsignedFactor power ih =>
    rw [Phrase.read_factor (power.head_append rfl rest ▸ power.head_ne_minus (.inl rfl))]
    exact ih stops
  | raised base exponent ihBase ihExponent =>
    rw [List.append_assoc, List.cons_append, Phrase.read_power,
      ihBase (Phrase.stops_cons (by decide))]
    change (Phrase.factor.read _ >>= _) = _
    rw [ihExponent stops]
    rfl
  | base _ ih =>
    rw [Phrase.read_power, ih (stops.mono (by decide))]
    -- a caret would make this the base of a power
    obtain - | ⟨token, rest⟩ := rest
    · rfl
    · have weaker := stops token rfl
      cases token with
      | caret => exact absurd weaker (by decide)
      | _ => rfl
  | radical _ ih =>
    rw [List.cons_append, Phrase.read_radical_sign, ih stops]
    rfl
  | primary h ih =>
    rw [Phrase.read_radical fun sign => h.head_append rfl rest ▸ h.head_of_primary sign]
    exact ih stops
  | number value =>
    rw [List.singleton_append, Phrase.read, Term.readPrimary, value]
    rfl
  | identifier valid =>
    rw [List.singleton_append, Phrase.read, Term.readPrimary, valid]
    rfl
  | constantPlaceholder valid =>
    rw [List.singleton_append, Phrase.read, Term.readPrimary, valid]
    rfl
  | parenthesized _ ih =>
    rw [List.cons_append, List.append_assoc, Phrase.read_parenthesis_eq_ok]
    exact ih (Phrase.stops_cons (by decide))

end Parses

/-! ### What the reader returns is parsed -/

namespace Phrase

/-- A primary is read from a literal, a name or a sum in parentheses. -/
theorem read_primary_cases {tokens rest : List Token} {t : Term}
    (h : primary.read tokens = .ok (t, rest)) :
    (∃ ts, tokens = ts ++ rest ∧ Parses .primary ts t) ∨
      ∃ inner, tokens = .leftParenthesis :: inner ∧
        (chain .sum).read inner = .ok (t, .rightParenthesis :: rest) := by
  cases tokens with
  | nil =>
    rw [read, Term.readPrimary] at h
    cases h
  | cons token tokens =>
    cases token with
    | leftParenthesis => exact .inr ⟨tokens, rfl, read_parenthesis_eq_ok.1 h⟩
    | number literal =>
      rw [read, Term.readPrimary] at h
      split at h
      · next value found =>
        obtain ⟨rfl, rfl⟩ : .constant value = t ∧ tokens = rest := by
          simpa [outcome, Except.map] using h
        exact .inl ⟨_, rfl, .number found⟩
      · cases h
    | identifier name =>
      rw [read, Term.readPrimary] at h
      split at h
      · next u valid =>
        obtain ⟨rfl, rfl⟩ : u = t ∧ tokens = rest := by simpa [outcome, Except.map] using h
        exact .inl ⟨_, rfl, .identifier valid⟩
      · cases h
    | constantPlaceholder name =>
      rw [read, Term.readPrimary] at h
      split at h
      · next u valid =>
        obtain ⟨rfl, rfl⟩ : u = t ∧ tokens = rest := by simpa [outcome, Except.map] using h
        exact .inl ⟨_, rfl, .constantPlaceholder valid⟩
      · cases h
    | _ =>
      rw [read, Term.readPrimary.eq_def] at h
      cases h

/-- The order in which the functions of the reader call each other on the same tokens. -/
def rank : Phrase → Nat
  | chain .sum => 7
  | negation => 6
  | chain .product => 5
  | factor => 4
  | power => 3
  | radical => 2
  | primary => 1
  | continuation _ _ => 0

theorem rank_le (phrase : Phrase) : phrase.rank ≤ 7 := by
  cases phrase with
  | chain op => cases op <;> decide
  | _ => exact Nat.le_add_left _ _

theorem rank_continuation (op : Variadic) (operands : List Term) :
    (continuation op operands).rank = 0 := rfl

theorem rank_firstPhrase (op : Variadic) : op.firstPhrase.rank < (chain op).rank := by
  cases op <;> decide

/-- Whatever the phrase is read as at the beginning of the tokens, it is parsed as that. -/
def Recognizes (phrase : Phrase) (tokens : List Token) : Prop :=
  ∀ t rest, phrase.read tokens = .ok (t, rest) → ∃ ts, tokens = ts ++ rest ∧ Parses phrase ts t

section Recognizes

variable {phrase first : Phrase} {tokens rest : List Token} {t : Term}

/-- A phrase that is read and then changed. -/
theorem Recognizes.exists_of_map (f : Term → Term) (recognizes : phrase.Recognizes tokens)
    (h : (do let (u, rest) ← phrase.read tokens; return (f u, rest)) = .ok (t, rest)) :
    ∃ ts u, tokens = ts ++ rest ∧ Parses phrase ts u ∧ f u = t := by
  obtain ⟨⟨u, rest'⟩, readPhrase, result⟩ := bind_eq_ok.1 h
  obtain ⟨rfl, rfl⟩ : f u = t ∧ rest' = rest := by simpa using result
  obtain ⟨ts, same, parsed⟩ := recognizes u rest' readPhrase
  exact ⟨ts, u, same, parsed, rfl⟩

/-- Two phrases in sequence, the second of which depends on what the first is read as. -/
theorem Recognizes.exists_of_bind (second : Term → Phrase) (recognizes : first.Recognizes tokens)
    (recognizesRest : ∀ u left, left.length ≤ tokens.length → (second u).Recognizes left)
    (h : (do let (u, rest) ← first.read tokens; (second u).read rest) = .ok (t, rest)) :
    ∃ ts us u, tokens = ts ++ us ++ rest ∧ Parses first ts u ∧ Parses (second u) us t := by
  obtain ⟨⟨u, left⟩, readFirst, readSecond⟩ := bind_eq_ok.1 h
  obtain ⟨ts, rfl, parsesFirst⟩ := recognizes u left readFirst
  have shorter : left.length ≤ (ts ++ left).length := by simp
  obtain ⟨us, rfl, parsesSecond⟩ := recognizesRest u left shorter t rest readSecond
  exact ⟨ts, us, u, (List.append_assoc ts us rest).symm, parsesFirst, parsesSecond⟩

end Recognizes

/-- A call on the same tokens has a smaller rank, and every other call has fewer tokens. -/
theorem recognizes_of_measure_lt (n : Nat) {phrase : Phrase} {tokens : List Token}
    (bound : 8 * tokens.length + phrase.rank < n) : phrase.Recognizes tokens := by
  induction n generalizing phrase tokens with
  | zero => exact absurd bound (Nat.not_lt_zero _)
  | succ n ih =>
    intro t rest h
    have sameTokens : ∀ callee : Phrase, callee.rank < phrase.rank → callee.Recognizes tokens :=
      fun callee less => ih (by omega)
    -- behind a token all phrases may be called
    have fewerTokens : ∀ (callee : Phrase) (fewer : List Token), fewer.length < tokens.length →
        callee.Recognizes fewer := by
      intro callee fewer less
      have calleeRank := rank_le callee
      exact ih (by omega)
    cases phrase with
    | chain op =>
      rw [read_chain] at h
      have firstRank := rank_firstPhrase op
      obtain ⟨ts, us, first, rfl, parsesFirst, continues⟩ :=
        (sameTokens _ firstRank).exists_of_bind (fun first => continuation op [first])
          (fun first left le => ih (by rw [rank_continuation]; omega)) h
      exact ⟨ts ++ us, rfl, .chain parsesFirst continues⟩
    | continuation op operands =>
      by_cases sign : tokens.head? = some op.sign
      · obtain ⟨tokens, rfl⟩ := List.head?_eq_some_iff.1 sign
        rw [read_continuation_sign] at h
        obtain ⟨ts, us, next, rfl, parsesNext, continues⟩ :=
          (fewerTokens _ tokens (Nat.lt_succ_self _)).exists_of_bind
            (fun next => continuation op (operands ++ [next]))
            (fun next left le => fewerTokens _ left (Nat.lt_succ_of_le le)) h
        exact ⟨op.sign :: (ts ++ us), rfl, .another parsesNext continues⟩
      by_cases inverse : tokens.head? = some op.inverseSign
      · obtain ⟨tokens, rfl⟩ := List.head?_eq_some_iff.1 inverse
        rw [read_continuation_inverseSign] at h
        obtain ⟨ts, us, next, rfl, parsesNext, continues⟩ :=
          (fewerTokens _ tokens (Nat.lt_succ_self _)).exists_of_bind
            (fun next => continuation op [.binary op.inverse (collapse op operands) next])
            (fun next left le => fewerTokens _ left (Nat.lt_succ_of_le le)) h
        exact ⟨op.inverseSign :: (ts ++ us), rfl, .inverse parsesNext continues⟩
      rw [read_continuation_done sign inverse] at h
      obtain ⟨rfl, rfl⟩ : collapse op operands = t ∧ tokens = rest := by simpa using h
      exact ⟨[], rfl, .done⟩
    | negation =>
      by_cases minus : tokens.head? = some .minus
      · obtain ⟨tokens, rfl⟩ := List.head?_eq_some_iff.1 minus
        rw [read_negation_minus] at h
        obtain ⟨ts, u, rfl, parsed, rfl⟩ :=
          (fewerTokens _ tokens (Nat.lt_succ_self _)).exists_of_map Term.opposite h
        exact ⟨.minus :: ts, rfl, .negative parsed⟩
      · rw [read_negation minus] at h
        obtain ⟨ts, rfl, parsed⟩ := sameTokens _ (by decide) t rest h
        exact ⟨ts, rfl, .unsigned (parsed.head_append rfl rest ▸ minus) parsed⟩
    | factor =>
      by_cases minus : tokens.head? = some .minus
      · obtain ⟨tokens, rfl⟩ := List.head?_eq_some_iff.1 minus
        rw [read_factor_minus] at h
        obtain ⟨ts, u, rfl, parsed, rfl⟩ :=
          (fewerTokens _ tokens (Nat.lt_succ_self _)).exists_of_map Term.opposite h
        exact ⟨.minus :: ts, rfl, .negativeFactor parsed⟩
      · rw [read_factor minus] at h
        obtain ⟨ts, rfl, parsed⟩ := sameTokens _ (by decide) t rest h
        exact ⟨ts, rfl, .unsignedFactor parsed⟩
    | power =>
      rw [read_power] at h
      obtain ⟨⟨base, tokens'⟩, readBase, readRest⟩ := bind_eq_ok.1 h
      obtain ⟨ts, rfl, parsesBase⟩ := sameTokens _ (by decide) base tokens' readBase
      split at readRest
      · next u tokens'' same =>
        obtain ⟨rfl, rfl⟩ : base = u ∧ tokens' = .caret :: tokens'' := by simpa using same
        obtain ⟨us, exponent, rfl, parsesExponent, rfl⟩ :=
          (fewerTokens _ tokens'' (by simp; omega)).exists_of_map (Term.power base) readRest
        exact ⟨ts ++ .caret :: us, by simp, .raised parsesBase parsesExponent⟩
      · next u tokens'' notCaret same =>
        obtain ⟨rfl, rfl⟩ : u = t ∧ tokens'' = rest := by simpa using readRest
        obtain ⟨rfl, rfl⟩ : base = u ∧ tokens' = tokens'' := by simpa using same
        exact ⟨ts, rfl, .base parsesBase⟩
    | radical =>
      by_cases sign : ∃ sign, tokens.head? = some (.radical sign)
      · obtain ⟨sign, head⟩ := sign
        obtain ⟨tokens, rfl⟩ := List.head?_eq_some_iff.1 head
        rw [read_radical_sign] at h
        obtain ⟨ts, u, rfl, parsed, rfl⟩ :=
          (fewerTokens _ tokens (Nat.lt_succ_self _)).exists_of_map
            (Term.root · (.int sign.index)) h
        exact ⟨.radical sign :: ts, rfl, .radical parsed⟩
      · rw [read_radical (not_exists.1 sign)] at h
        obtain ⟨ts, rfl, parsed⟩ := sameTokens _ (by decide) t rest h
        exact ⟨ts, rfl, .primary parsed⟩
    | primary =>
      obtain direct | ⟨inner, rfl, readInner⟩ := read_primary_cases h
      · exact direct
      · obtain ⟨ts, rfl, parsed⟩ := fewerTokens _ inner (Nat.lt_succ_self _) _ _ readInner
        exact ⟨.leftParenthesis :: (ts ++ [.rightParenthesis]), by simp, .parenthesized parsed⟩

/-- What the reader returns is parsed from the tokens that it took. -/
theorem exists_parses_of_read {phrase : Phrase} {tokens rest : List Token} {t : Term}
    (h : phrase.read tokens = .ok (t, rest)) : ∃ ts, tokens = ts ++ rest ∧ Parses phrase ts t :=
  recognizes_of_measure_lt _ (Nat.lt_succ_self _) t rest h

end Phrase

/-! ### Whole runs of tokens -/

/-- Every parenthesis of a phrase has its partner there. -/
theorem Parses.depthAfter?_append {phrase : Phrase} {ts : List Token} {t : Term}
    (h : Parses phrase ts t) (depth : Nat) (rest : List Token) :
    Token.depthAfter? depth (ts ++ rest) = Token.depthAfter? depth rest := by
  induction h generalizing depth rest with
  | chain _ _ ihFirst ihContinues => rw [List.append_assoc, ihFirst, ihContinues]
  | @another op _ _ _ _ _ _ _ ihNext ihContinues =>
    have sign : ∀ us, Token.depthAfter? depth (op.sign :: us) = Token.depthAfter? depth us := by
      intro us
      cases op <;> rfl
    rw [List.cons_append, sign, List.append_assoc, ihNext, ihContinues]
  | @inverse op _ _ _ _ _ _ _ ihNext ihContinues =>
    have sign : ∀ us,
        Token.depthAfter? depth (op.inverseSign :: us) = Token.depthAfter? depth us := by
      intro us
      cases op <;> rfl
    rw [List.cons_append, sign, List.append_assoc, ihNext, ihContinues]
  | done => rfl
  | raised _ _ ihBase ihExponent =>
    rw [List.append_assoc, ihBase, List.cons_append, Token.depthAfter?, ihExponent]
    all_goals simp
  | parenthesized _ ih =>
    rw [List.cons_append, List.append_assoc, Token.depthAfter?, ih]
    rfl
  | unsigned _ _ ih => exact ih depth rest
  | unsignedFactor _ ih => exact ih depth rest
  | base _ ih => exact ih depth rest
  | primary _ ih => exact ih depth rest
  | negative _ ih => exact ih depth rest
  | negativeFactor _ ih => exact ih depth rest
  | radical _ ih => exact ih depth rest
  | number _ => rfl
  | identifier _ => rfl
  | constantPlaceholder _ => rfl

theorem Parses.balanced {phrase : Phrase} {ts : List Token} {t : Term} (h : Parses phrase ts t) :
    Token.balanced ts := by
  have closed := h.depthAfter?_append 0 []
  rw [List.append_nil] at closed
  rw [Token.balanced, closed]
  rfl

/-- The runs of tokens that are terms are those that parse as a sum. -/
theorem Term.ofTokens_eq_ok_iff {tokens : List Token} {t : Term} :
    ofTokens tokens = .ok t ↔ Parses (.chain .sum) tokens t := by
  constructor
  · intro h
    have read : (Phrase.chain .sum).read tokens = .ok (t, []) := by
      rw [ofTokens] at h
      split at h
      · cases result : readSum tokens with
        | error e => simp [result] at h
        | ok r =>
          obtain ⟨u, rest, shorter⟩ := r
          cases rest with
          | nil => simpa [Phrase.read, outcome, result, Except.map] using h
          | cons token rest => simp [result] at h
      · cases h
    obtain ⟨ts, same, parsed⟩ := Phrase.exists_parses_of_read read
    rw [List.append_nil] at same
    exact same ▸ parsed
  · intro parsed
    have read : (Phrase.chain .sum).read tokens = .ok (t, []) := by
      simpa using @Parses.read_append _ _ [] _ parsed (by simp [Phrase.Stops])
    rw [ofTokens, if_pos parsed.balanced]
    cases result : readSum tokens with
    | error e => simp [Phrase.read, outcome, result, Except.map] at read
    | ok r =>
      obtain ⟨u, rest, shorter⟩ := r
      obtain ⟨rfl, rfl⟩ : u = t ∧ rest = [] := by
        simpa [Phrase.read, outcome, result, Except.map] using read
      rfl

end InequalityChaining

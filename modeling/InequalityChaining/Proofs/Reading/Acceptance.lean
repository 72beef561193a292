import InequalityChaining.Proofs.Reading.Derivation
import InequalityChaining.Proofs.Reading.Text

/-!
# Texts that are accepted

A text is accepted if it is scanned as a run of tokens that the grammar derives and its literals
denote numbers. The reader fails where it looks for a primary and finds none. There are more
reasons for that than a text can give: names that are scanned are valid, and once the parentheses
have been counted, each one that is opened is closed.

## Main definitions

* `NoPrimary` — why no primary is at the beginning of a run of tokens
* `Token.IsBalanced` — runs in which the parentheses are balanced
* `Token.Denotes`, `Token.IsAccepted` — runs that are derived as a term
* `Token.SplitsAt` — runs with one relation sign

## Main results

* `Phrase.exists_noPrimary_of_read` — where the reader fails, it finds no primary
* `Token.balanced_iff_isBalanced` — the count of open parentheses tells balanced runs
* `texts_accepted` — which texts are read as terms and as propositions
-/

namespace InequalityChaining

/-! ### Where the reader fails -/

/-- Whether a primary may begin with the token. -/
def Token.beginsPrimary : Token → Bool
  | number _ => true
  | identifier _ => true
  | constantPlaceholder _ => true
  | leftParenthesis => true
  | _ => false

/-- No primary is at the beginning of the tokens, for a reason that the reader gives. -/
inductive NoPrimary : List Token → ReadError → Prop where
  | ended : NoPrimary [] .unexpectedEnd
  | unexpected {token : Token} {rest : List Token} :
    token.beginsPrimary = false → NoPrimary (token :: rest) (.unexpectedToken token)
  | number {literal : Literal} {rest : List Token} :
    literal.toNumber? = none → NoPrimary (.number literal :: rest) (.numberOutOfRange literal)
  | identifier {name : String} {rest : List Token} {e : TermError} :
    Term.ofIdentifier name = .error e → NoPrimary (.identifier name :: rest) (.invalidTerm e)
  | constantPlaceholder {name : String} {rest : List Token} {e : TermError} :
    Term.checkedPlaceholder name .constantOnly = .error e →
      NoPrimary (.constantPlaceholder name :: rest) (.invalidTerm e)
  | unclosed {ts : List Token} {t : Term} :
    Parses (.chain .sum) ts t → NoPrimary (.leftParenthesis :: ts) .unbalancedParentheses
  | interrupted {ts rest : List Token} {token : Token} {t : Term} :
    Parses (.chain .sum) ts t → token ≠ .rightParenthesis →
      NoPrimary (.leftParenthesis :: (ts ++ token :: rest)) (.unexpectedToken token)

namespace Phrase

variable {phrase : Phrase} {tokens : List Token} {e : ReadError}

theorem noPrimary_of_read_parenthesis
    (h : primary.read (.leftParenthesis :: tokens) = .error e) :
    (chain .sum).read tokens = .error e ∨ NoPrimary (.leftParenthesis :: tokens) e := by
  rw [read, Term.readPrimary] at h
  cases result : Term.readSum tokens with
  | error e' =>
    rw [result] at h
    refine .inl ?_
    rw [read, result]
    exact h
  | ok r =>
    obtain ⟨t, left, shorter⟩ := r
    have sum : (chain .sum).read tokens = .ok (t, left) := by rw [read, result]; rfl
    -- behind the parenthesis there is a sum, so what is missing is its partner
    obtain ⟨ts, rfl, parses⟩ := exists_parses_of_read sum
    refine .inr ?_
    rw [result] at h
    cases left with
    | nil =>
      cases h
      rw [List.append_nil]
      exact .unclosed parses
    | cons token rest =>
      cases token with
      | rightParenthesis => cases h
      | _ =>
        cases h
        exact .interrupted parses (by simp)

theorem noPrimary_of_read_primary (h : primary.read tokens = .error e) :
    NoPrimary tokens e ∨
      ∃ inner, tokens = .leftParenthesis :: inner ∧ (chain .sum).read inner = .error e := by
  cases tokens with
  | nil =>
    rw [read, Term.readPrimary] at h
    cases h
    exact .inl .ended
  | cons token tokens =>
    cases token with
    | leftParenthesis =>
      rcases noPrimary_of_read_parenthesis h with inside | none
      · exact .inr ⟨tokens, rfl, inside⟩
      · exact .inl none
    | number literal =>
      rw [read, Term.readPrimary] at h
      split at h
      · cases h
      · next notFound =>
        cases h
        exact .inl (.number notFound)
    | identifier name =>
      rw [read, Term.readPrimary] at h
      split at h
      · cases h
      · next e invalid =>
        cases h
        exact .inl (.identifier invalid)
    | constantPlaceholder name =>
      rw [read, Term.readPrimary] at h
      split at h
      · cases h
      · next e invalid =>
        cases h
        exact .inl (.constantPlaceholder invalid)
    | _ =>
      rw [read, Term.readPrimary.eq_def] at h
      cases h
      exact .inl (.unexpected rfl)

/-- What only changes the term that is read does not fail by itself. -/
theorem read_eq_error_of_map (f : Term → Term)
    (h : (do let (u, rest) ← phrase.read tokens; return (f u, rest)) = .error e) :
    phrase.read tokens = .error e := by
  rcases bind_eq_error.1 h with failed | ⟨_, -, impossible⟩
  · exact failed
  · cases impossible

/-- Of two phrases in sequence the first fails, or the second on what the first leaves. -/
theorem read_eq_error_of_bind (second : Term → Phrase)
    (h : (do let (u, rest) ← phrase.read tokens; (second u).read rest) = .error e) :
    phrase.read tokens = .error e ∨
      ∃ u ts rest, tokens = ts ++ rest ∧ (second u).read rest = .error e := by
  rcases bind_eq_error.1 h with failed | ⟨⟨u, rest⟩, readFirst, failed⟩
  · exact .inl failed
  · obtain ⟨ts, same, -⟩ := exists_parses_of_read readFirst
    exact .inr ⟨u, ts, rest, same, failed⟩

/-- A function of the reader fails where a primary is expected, or because a function that it calls
fails, on fewer tokens or with a smaller rank. -/
theorem exists_call_of_read (h : phrase.read tokens = .error e) :
    NoPrimary tokens e ∨ ∃ (callee : Phrase) (ts rest : List Token), tokens = ts ++ rest ∧
      (ts ≠ [] ∨ callee.rank < phrase.rank) ∧ callee.read rest = .error e := by
  cases phrase with
  | chain op =>
    rw [read_chain] at h
    rcases read_eq_error_of_bind (fun first => continuation op [first]) h with
      failed | ⟨first, ts, rest, same, failed⟩
    · exact .inr ⟨_, [], _, rfl, .inr (rank_firstPhrase op), failed⟩
    · exact .inr ⟨_, ts, rest, same, .inr (by cases op <;> simp [rank]), failed⟩
  | continuation op operands =>
    by_cases sign : tokens.head? = some op.sign
    · obtain ⟨tokens, rfl⟩ := List.head?_eq_some_iff.1 sign
      rw [read_continuation_sign] at h
      rcases read_eq_error_of_bind (fun next => continuation op (operands ++ [next])) h with
        failed | ⟨next, ts, rest, rfl, failed⟩
      · exact .inr ⟨_, [op.sign], _, rfl, .inl (by simp), failed⟩
      · exact .inr ⟨_, op.sign :: ts, rest, rfl, .inl (by simp), failed⟩
    by_cases inverse : tokens.head? = some op.inverseSign
    · obtain ⟨tokens, rfl⟩ := List.head?_eq_some_iff.1 inverse
      rw [read_continuation_inverseSign] at h
      rcases read_eq_error_of_bind
          (fun next => continuation op [.binary op.inverse (Term.collapse op operands) next]) h with
        failed | ⟨next, ts, rest, rfl, failed⟩
      · exact .inr ⟨_, [op.inverseSign], _, rfl, .inl (by simp), failed⟩
      · exact .inr ⟨_, op.inverseSign :: ts, rest, rfl, .inl (by simp), failed⟩
    -- without a sign the continuation is at its end, which is no failure
    rw [read_continuation_done sign inverse] at h
    cases h
  | negation =>
    by_cases minus : tokens.head? = some .minus
    · obtain ⟨tokens, rfl⟩ := List.head?_eq_some_iff.1 minus
      rw [read_negation_minus] at h
      exact .inr ⟨_, [.minus], _, rfl, .inl (by simp), read_eq_error_of_map Term.opposite h⟩
    · rw [read_negation minus] at h
      exact .inr ⟨_, [], _, rfl, .inr (by decide), h⟩
  | factor =>
    by_cases minus : tokens.head? = some .minus
    · obtain ⟨tokens, rfl⟩ := List.head?_eq_some_iff.1 minus
      rw [read_factor_minus] at h
      exact .inr ⟨_, [.minus], _, rfl, .inl (by simp), read_eq_error_of_map Term.opposite h⟩
    · rw [read_factor minus] at h
      exact .inr ⟨_, [], _, rfl, .inr (by decide), h⟩
  | power =>
    rw [read_power] at h
    rcases bind_eq_error.1 h with failed | ⟨⟨base, tokens'⟩, readBase, failed⟩
    · exact .inr ⟨_, [], _, rfl, .inr (by decide), failed⟩
    · obtain ⟨ts, rfl, -⟩ := exists_parses_of_read readBase
      split at failed
      · next u rest same =>
        cases same
        have exponent := read_eq_error_of_map (Term.power base) failed
        exact .inr ⟨_, ts ++ [.caret], _, by simp, .inl (by simp), exponent⟩
      · cases failed
  | radical =>
    by_cases sign : ∃ sign, tokens.head? = some (.radical sign)
    · obtain ⟨sign, head⟩ := sign
      obtain ⟨tokens, rfl⟩ := List.head?_eq_some_iff.1 head
      rw [read_radical_sign] at h
      have radicand := read_eq_error_of_map (Term.root · (.int sign.index)) h
      exact .inr ⟨_, [.radical sign], _, rfl, .inl (by simp), radicand⟩
    · rw [read_radical (not_exists.1 sign)] at h
      exact .inr ⟨_, [], _, rfl, .inr (by decide), h⟩
  | primary =>
    rcases noPrimary_of_read_primary h with none | ⟨inner, rfl, failed⟩
    · exact .inl none
    · exact .inr ⟨_, [.leftParenthesis], _, rfl, .inl (by simp), failed⟩

/-- The induction is on the tokens and the rank, as for what is read. -/
theorem exists_noPrimary_of_measure_lt (n : Nat) {phrase : Phrase} {tokens : List Token}
    (bound : 8 * tokens.length + phrase.rank < n) (h : phrase.read tokens = .error e) :
    ∃ rest, rest <:+ tokens ∧ NoPrimary rest e := by
  induction n generalizing phrase tokens with
  | zero => exact absurd bound (Nat.not_lt_zero _)
  | succ n ih =>
    rcases exists_call_of_read h with none | ⟨callee, ts, rest, rfl, smaller, failed⟩
    · exact ⟨tokens, List.suffix_refl _, none⟩
    have calleeRank := rank_le callee
    have less : 8 * rest.length + callee.rank < n := by
      rw [List.length_append] at bound
      rcases smaller with nonempty | less
      · have length := List.length_pos_iff.2 nonempty
        omega
      · omega
    obtain ⟨rest', isSuffix, none⟩ := ih less failed
    exact ⟨rest', isSuffix.trans (List.suffix_append ts rest), none⟩

/-- Where the reader fails, there is no primary at the beginning of what is left, and the error
is the reason. -/
theorem exists_noPrimary_of_read (h : phrase.read tokens = .error e) :
    ∃ rest, rest <:+ tokens ∧ NoPrimary rest e :=
  exists_noPrimary_of_measure_lt _ (Nat.lt_succ_self _) h

end Phrase

/-! ### Parentheses -/

namespace Token

/-- No beginning closes more parentheses than it opens, and all together are as many. -/
structure IsBalanced (tokens : List Token) : Prop where
  opened : ∀ beginning, beginning <+: tokens →
    beginning.count rightParenthesis ≤ beginning.count leftParenthesis
  closed : tokens.count rightParenthesis = tokens.count leftParenthesis

variable {tokens ts us : List Token} {depth depth' : Nat}

theorem forall_prefix_cons {P : List Token → Prop} {token : Token} :
    (∀ beginning, beginning <+: token :: tokens → P beginning) ↔
      P [] ∧ ∀ beginning, beginning <+: tokens → P (token :: beginning) := by
  simp only [List.prefix_cons_iff, forall_eq_or_imp, forall_exists_index, and_imp]
  refine and_congr_right fun _ => ⟨fun h beginning isPrefix => h _ _ rfl isPrefix, ?_⟩
  rintro h _ beginning rfl isPrefix
  exact h beginning isPrefix

/-- The depth is the number of parentheses opened so far without those closed so far. -/
theorem depthAfter?_eq_some_iff :
    depthAfter? depth tokens = some depth' ↔
      (∀ beginning, beginning <+: tokens →
        beginning.count rightParenthesis ≤ depth + beginning.count leftParenthesis) ∧
      depth' + tokens.count rightParenthesis = depth + tokens.count leftParenthesis := by
  induction tokens generalizing depth with
  | nil => simp [depthAfter?, eq_comm]
  | cons token tokens ih =>
    rw [forall_prefix_cons]
    cases token with
    | leftParenthesis =>
      rw [depthAfter?, ih]
      simp [Nat.add_assoc, Nat.add_comm 1]
    | rightParenthesis =>
      cases depth with
      | zero =>
        -- the first closing parenthesis is a beginning with too many of them
        rw [depthAfter?]
        simp only [reduceCtorEq, false_iff, not_and]
        intro opened
        simpa using opened.2 [] List.nil_prefix
      | succ depth =>
        rw [depthAfter?, ih]
        simp [Nat.add_right_comm, ← Nat.add_assoc]
    | _ =>
      rw [depthAfter?, ih]
      all_goals simp

theorem balanced_iff_isBalanced : balanced tokens ↔ IsBalanced tokens := by
  rw [balanced, beq_iff_eq, depthAfter?_eq_some_iff]
  simp only [Nat.zero_add]
  exact ⟨fun h => ⟨h.1, h.2⟩, fun h => ⟨h.opened, h.closed⟩⟩

theorem depthAfter?_append :
    depthAfter? depth (ts ++ us) = (depthAfter? depth ts).bind (depthAfter? · us) := by
  induction ts generalizing depth with
  | nil => rfl
  | cons token ts ih =>
    rw [List.cons_append]
    cases token with
    | leftParenthesis => exact ih
    | rightParenthesis =>
      cases depth with
      | zero => rfl
      | succ depth => exact ih
    | _ => exact ih

/-- Behind a parenthesis that nothing closes, the parentheses are not balanced. -/
theorem not_balanced_of_noPrimary (h : NoPrimary us .unbalancedParentheses) (isSuffix : us <:+ ts) :
    ¬ balanced ts := by
  obtain ⟨before, rfl⟩ := isSuffix
  cases h with
  | unclosed parses =>
    have inside := fun depth => parses.depthAfter?_append depth []
    simp only [List.append_nil] at inside
    rw [balanced, depthAfter?_append]
    cases depthAfter? 0 before with
    | none => simp
    | some depth => simp [depthAfter?, inside]

/-! ### Runs that are derived -/

/-- The tokens are derived as a sum with the term as the tree, and their literals denote numbers. -/
structure Denotes (tokens : List Token) (t : Term) : Prop where
  generates : Generates .negationFirst (.chain .sum) tokens t
  isRepresentable : ∀ literal, number literal ∈ tokens → literal.IsRepresentable

/-- The tokens are derived as a sum in any way, and their literals denote numbers. -/
structure IsAccepted (tokens : List Token) : Prop where
  generates : ∃ t, Generates .free (.chain .sum) tokens t
  isRepresentable : ∀ literal, number literal ∈ tokens → literal.IsRepresentable

/-- The tokens have one relation sign, and it stands between these runs. -/
structure SplitsAt (tokens left : List Token) (sign : RelationSign) (right : List Token) :
    Prop where
  eq : tokens = left ++ relation sign :: right
  left_none : ∀ other, relation other ∉ left
  right_none : ∀ other, relation other ∉ right

variable {t : Term}

theorem SplitsAt.isWritable {left right : List Token} {sign : RelationSign}
    (h : SplitsAt tokens left sign right) (writable : ∀ token ∈ tokens, token.IsWritable) :
    (∀ token ∈ left, token.IsWritable) ∧ ∀ token ∈ right, token.IsWritable := by
  rw [h.eq, List.forall_mem_append, List.forall_mem_cons] at writable
  exact ⟨writable.1, writable.2.2⟩

theorem isReadable (writable : ∀ token ∈ tokens, token.IsWritable)
    (representable : ∀ literal, number literal ∈ tokens → literal.IsRepresentable) :
    ∀ token ∈ tokens, token.IsReadable :=
  fun token mem => ⟨writable token mem, fun literal same => representable literal (same ▸ mem)⟩

theorem denotes_iff_parses (writable : ∀ token ∈ tokens, token.IsWritable) :
    Denotes tokens t ↔ Parses (.chain .sum) tokens t := by
  constructor
  · exact fun h => h.generates.parses (isReadable writable h.isRepresentable)
  · exact fun h => ⟨h.generates, h.isRepresentable⟩

/-- The runs of valid tokens that are accepted are those that denote a term. -/
theorem isAccepted_iff_exists_denotes (writable : ∀ token ∈ tokens, token.IsWritable) :
    IsAccepted tokens ↔ ∃ t, Denotes tokens t := by
  constructor
  · rintro ⟨⟨t, generates⟩, representable⟩
    obtain ⟨u, parses⟩ := generates.exists_parses (isReadable writable representable)
    exact ⟨u, (denotes_iff_parses writable).2 parses⟩
  · rintro ⟨t, generates, representable⟩
    exact ⟨⟨t, generates.free⟩, representable⟩

end Token

/-! ### Runs that are read -/

variable {tokens : List Token} {t : Term} {p : Proposition} {e : ReadError}

theorem Term.ofTokens_eq_ok_iff_denotes (writable : ∀ token ∈ tokens, token.IsWritable) :
    Term.ofTokens tokens = .ok t ↔ Token.Denotes tokens t :=
  Term.ofTokens_eq_ok_iff.trans (Token.denotes_iff_parses writable).symm

/-- A run with balanced parentheses that is no term lacks a primary, or has a token too many. -/
theorem Term.cases_of_ofTokens (h : Term.ofTokens tokens = .error e) :
    (e = .unbalancedParentheses ∧ ¬ Token.balanced tokens) ∨
      (Token.balanced tokens ∧
        ((∃ rest, rest <:+ tokens ∧ NoPrimary rest e) ∨ ∃ token, e = .unexpectedToken token)) := by
  rw [ofTokens] at h
  split at h
  · next balanced =>
    refine .inr ⟨balanced, ?_⟩
    split at h
    · next e' result =>
      have failed : (Phrase.chain .sum).read tokens = .error e' := by
        rw [Phrase.read, result]
        rfl
      cases h
      exact .inl (Phrase.exists_noPrimary_of_read failed)
    · cases h
    · next u token rest shorter result =>
      cases h
      exact .inr ⟨token, rfl⟩
  · next notBalanced =>
    cases h
    exact .inl ⟨rfl, notBalanced⟩

theorem Term.ofTokens_eq_unbalanced_iff :
    Term.ofTokens tokens = .error .unbalancedParentheses ↔ ¬ Token.IsBalanced tokens := by
  rw [← Token.balanced_iff_isBalanced]
  constructor
  · intro h
    rcases cases_of_ofTokens h with ⟨-, notBalanced⟩ | ⟨-, ⟨rest, isSuffix, none⟩ | ⟨token, same⟩⟩
    · exact notBalanced
    · exact Token.not_balanced_of_noPrimary none isSuffix
    · cases same
  · exact fun notBalanced => if_neg notBalanced

/-- Tokens with valid names are rejected for other reasons than their names. -/
theorem Term.ofTokens_ne_invalidTerm (writable : ∀ token ∈ tokens, token.IsWritable)
    (e : TermError) : Term.ofTokens tokens ≠ .error (.invalidTerm e) := by
  intro h
  rcases cases_of_ofTokens h with ⟨same, -⟩ | ⟨-, ⟨rest, isSuffix, none⟩ | ⟨token, same⟩⟩
  · cases same
  · cases none with
    | identifier invalid =>
      have valid := writable _ (isSuffix.subset List.mem_cons_self)
      rw [Term.ofIdentifier_eq_ok_iff.2 ⟨valid, rfl⟩] at invalid
      cases invalid
    | constantPlaceholder invalid =>
      have valid := writable _ (isSuffix.subset List.mem_cons_self)
      rw [Term.checkedPlaceholder_eq_ok_iff.2 ⟨valid, rfl⟩] at invalid
      cases invalid
  · cases same

namespace Proposition

variable {left right : List Token} {sign : RelationSign}

theorem ofTokens_of_splitsAt (h : Token.SplitsAt tokens left sign right) :
    ofTokens tokens =
      if Token.balanced left && Token.balanced right then do
        let lhs ← Term.ofTokens left
        let rhs ← Term.ofTokens right
        return ofSign sign lhs rhs
      else .error .unbalancedParentheses := by
  have none : ∀ {ts : List Token}, (∀ other, .relation other ∉ ts) →
      ∀ token ∈ ts, token.relationSign? = none := by
    intro ts noSign token mem
    cases token with
    | relation other => exact absurd mem (noSign other)
    | _ => rfl
  rw [h.eq]
  exact ofTokens_relation sign (none h.left_none) (none h.right_none)

/-- A run of tokens in which relation signs are neither missing nor too many has one. -/
theorem exists_splitsAt {result : Except ReadError Proposition} (h : ofTokens tokens = result)
    (notMissing : result ≠ .error .missingRelation)
    (notMultiple : result ≠ .error .multipleRelations) :
    ∃ left sign right, Token.SplitsAt tokens left sign right := by
  have noSign : ∀ {ts : List Token}, (∀ token ∈ ts, token.relationSign? = none) →
      ∀ other, .relation other ∉ ts := by
    intro ts none other mem
    cases none _ mem
  cases signs : tokens.filterMap Token.relationSign? with
  | nil => exact absurd (by rw [← h, ofTokens, signs]) notMissing
  | cons sign others =>
    cases others with
    | cons other others => exact absurd (by rw [← h, ofTokens, signs]) notMultiple
    | nil =>
      obtain ⟨left, token, right, rfl, leftNone, found, rest⟩ :=
        List.filterMap_eq_cons_iff.1 signs
      obtain rfl : token = .relation sign := by
        cases token with
        | relation other =>
          rw [Option.some.inj found]
        | _ => cases found
      exact ⟨left, sign, right, rfl, noSign leftNone, noSign (List.filterMap_eq_nil_iff.1 rest)⟩

/-- The runs of tokens that are propositions are those with one relation sign between terms. -/
theorem ofTokens_eq_ok_iff :
    ofTokens tokens = .ok p ↔ ∃ left sign right lhs rhs, Token.SplitsAt tokens left sign right ∧
      Term.ofTokens left = .ok lhs ∧ Term.ofTokens right = .ok rhs ∧ p = ofSign sign lhs rhs := by
  constructor
  · intro h
    obtain ⟨left, sign, right, splits⟩ := exists_splitsAt h (by simp) (by simp)
    rw [ofTokens_of_splitsAt splits] at h
    split at h
    · obtain ⟨lhs, readLeft, h⟩ := bind_eq_ok.1 h
      obtain ⟨rhs, readRight, h⟩ := bind_eq_ok.1 h
      exact ⟨left, sign, right, lhs, rhs, splits, readLeft, readRight, (pure_eq_ok.1 h).symm⟩
    · cases h
  · rintro ⟨left, sign, right, lhs, rhs, splits, readLeft, readRight, rfl⟩
    rw [splits.eq]
    exact ofTokens_append sign (Term.ofTokens_eq_ok_iff.1 readLeft)
      (Term.ofTokens_eq_ok_iff.1 readRight)

/-- A run with one relation sign that is no proposition has an unbalanced side, or balanced ones of
which one is no term. -/
theorem cases_of_ofTokens (splits : Token.SplitsAt tokens left sign right)
    (h : ofTokens tokens = .error e) :
    (e = .unbalancedParentheses ∧ ¬ (Token.balanced left ∧ Token.balanced right)) ∨
      ((Token.balanced left ∧ Token.balanced right) ∧
        (Term.ofTokens left = .error e ∨ Term.ofTokens right = .error e)) := by
  rw [ofTokens_of_splitsAt splits] at h
  split at h
  · next balanced =>
    refine .inr ⟨Bool.and_eq_true_iff.1 balanced, ?_⟩
    rcases bind_eq_error.1 h with failed | ⟨lhs, -, h⟩
    · exact .inl failed
    · rcases bind_eq_error.1 h with failed | ⟨rhs, -, h⟩
      · exact .inr failed
      · cases h
  · next notBalanced =>
    cases h
    exact .inl ⟨rfl, fun balanced => notBalanced (Bool.and_eq_true_iff.2 balanced)⟩

theorem ofTokens_eq_unbalanced_iff :
    ofTokens tokens = .error .unbalancedParentheses ↔
      ∃ left sign right, Token.SplitsAt tokens left sign right ∧
        ¬ (Token.IsBalanced left ∧ Token.IsBalanced right) := by
  simp only [← Token.balanced_iff_isBalanced]
  constructor
  · intro h
    obtain ⟨left, sign, right, splits⟩ := exists_splitsAt h (by simp) (by simp)
    refine ⟨left, sign, right, splits, ?_⟩
    rcases cases_of_ofTokens splits h with ⟨-, notBalanced⟩ | ⟨⟨-, -⟩, failed | failed⟩
    · exact notBalanced
    · rw [Term.ofTokens_eq_unbalanced_iff, ← Token.balanced_iff_isBalanced] at failed
      exact fun balanced => failed balanced.1
    · rw [Term.ofTokens_eq_unbalanced_iff, ← Token.balanced_iff_isBalanced] at failed
      exact fun balanced => failed balanced.2
  · rintro ⟨left, sign, right, splits, notBalanced⟩
    rw [ofTokens_of_splitsAt splits, if_neg]
    rwa [Bool.and_eq_true]

theorem ofTokens_eq_ok_iff_denotes (writable : ∀ token ∈ tokens, token.IsWritable) :
    ofTokens tokens = .ok p ↔ ∃ left sign right lhs rhs, Token.SplitsAt tokens left sign right ∧
      Token.Denotes left lhs ∧ Token.Denotes right rhs ∧ p = ofSign sign lhs rhs := by
  rw [ofTokens_eq_ok_iff]
  constructor
  · rintro ⟨left, sign, right, lhs, rhs, splits, readLeft, readRight, same⟩
    obtain ⟨writableLeft, writableRight⟩ := splits.isWritable writable
    exact ⟨left, sign, right, lhs, rhs, splits,
      (Term.ofTokens_eq_ok_iff_denotes writableLeft).1 readLeft,
      (Term.ofTokens_eq_ok_iff_denotes writableRight).1 readRight, same⟩
  · rintro ⟨left, sign, right, lhs, rhs, splits, denotesLeft, denotesRight, same⟩
    obtain ⟨writableLeft, writableRight⟩ := splits.isWritable writable
    exact ⟨left, sign, right, lhs, rhs, splits,
      (Term.ofTokens_eq_ok_iff_denotes writableLeft).2 denotesLeft,
      (Term.ofTokens_eq_ok_iff_denotes writableRight).2 denotesRight, same⟩

/-- The runs that are propositions are those with one relation sign between accepted runs. -/
theorem exists_ofTokens_eq_ok_iff (writable : ∀ token ∈ tokens, token.IsWritable) :
    (∃ p, ofTokens tokens = .ok p) ↔ ∃ left sign right, Token.SplitsAt tokens left sign right ∧
      Token.IsAccepted left ∧ Token.IsAccepted right := by
  simp only [ofTokens_eq_ok_iff_denotes writable]
  constructor
  · rintro ⟨p, left, sign, right, lhs, rhs, splits, denotesLeft, denotesRight, -⟩
    obtain ⟨writableLeft, writableRight⟩ := splits.isWritable writable
    exact ⟨left, sign, right, splits,
      (Token.isAccepted_iff_exists_denotes writableLeft).2 ⟨lhs, denotesLeft⟩,
      (Token.isAccepted_iff_exists_denotes writableRight).2 ⟨rhs, denotesRight⟩⟩
  · rintro ⟨left, sign, right, splits, acceptedLeft, acceptedRight⟩
    obtain ⟨writableLeft, writableRight⟩ := splits.isWritable writable
    obtain ⟨lhs, denotesLeft⟩ := (Token.isAccepted_iff_exists_denotes writableLeft).1 acceptedLeft
    obtain ⟨rhs, denotesRight⟩ :=
      (Token.isAccepted_iff_exists_denotes writableRight).1 acceptedRight
    exact ⟨_, left, sign, right, lhs, rhs, splits, denotesLeft, denotesRight, rfl⟩

theorem ofTokens_ne_invalidTerm (writable : ∀ token ∈ tokens, token.IsWritable) (e : TermError) :
    ofTokens tokens ≠ .error (.invalidTerm e) := by
  intro h
  obtain ⟨left, sign, right, splits⟩ := exists_splitsAt h (by simp) (by simp)
  obtain ⟨writableLeft, writableRight⟩ := splits.isWritable writable
  rcases cases_of_ofTokens splits h with ⟨same, -⟩ | ⟨-, failed | failed⟩
  · cases same
  · exact Term.ofTokens_ne_invalidTerm writableLeft e failed
  · exact Term.ofTokens_ne_invalidTerm writableRight e failed

end Proposition

/-! ### Texts -/

/-- Which texts are read. A text is read as a term exactly if its tokens are derived from the
grammar and its literals denote numbers; the term is the tree of the derivation in which a minus in
front of a sum is a sign of its first product. The parentheses of a text are reported exactly if
they are unbalanced, and names never are. A text is read as a proposition exactly if it has one
relation sign, between runs that are accepted as terms. -/
theorem texts_accepted (text : String) :
    (∀ t, Term.read text = .ok t ↔
      ∃ tokens, Token.scan text = .ok tokens ∧ Token.Denotes tokens t) ∧
    ((∃ t, Term.read text = .ok t) ↔
      ∃ tokens, Token.scan text = .ok tokens ∧ Token.IsAccepted tokens) ∧
    (Term.read text = .error .unbalancedParentheses ↔
      ∃ tokens, Token.scan text = .ok tokens ∧ ¬ Token.IsBalanced tokens) ∧
    (∀ e, Term.read text ≠ .error (.invalidTerm e)) ∧
    (∀ p, Proposition.read text = .ok p ↔
      ∃ tokens, Token.scan text = .ok tokens ∧ ∃ left sign right lhs rhs,
        Token.SplitsAt tokens left sign right ∧ Token.Denotes left lhs ∧
        Token.Denotes right rhs ∧ p = Proposition.ofSign sign lhs rhs) ∧
    ((∃ p, Proposition.read text = .ok p) ↔
      ∃ tokens, Token.scan text = .ok tokens ∧ ∃ left sign right,
        Token.SplitsAt tokens left sign right ∧ Token.IsAccepted left ∧ Token.IsAccepted right) ∧
    (Proposition.read text = .error .unbalancedParentheses ↔
      ∃ tokens, Token.scan text = .ok tokens ∧ ∃ left sign right,
        Token.SplitsAt tokens left sign right ∧
        ¬ (Token.IsBalanced left ∧ Token.IsBalanced right)) ∧
    (∀ e, Proposition.read text ≠ .error (.invalidTerm e)) := by
  cases scanned : Token.scan text with
  | error c => simp [Term.read, Proposition.read, scanned]
  | ok tokens =>
    have writable := Token.isWritable_of_scanChars scanned
    simp only [Term.read, Proposition.read, scanned, Except.ok.injEq, exists_eq_left']
    refine ⟨fun t => Term.ofTokens_eq_ok_iff_denotes writable, ?_,
      Term.ofTokens_eq_unbalanced_iff, Term.ofTokens_ne_invalidTerm writable,
      fun p => Proposition.ofTokens_eq_ok_iff_denotes writable,
      Proposition.exists_ofTokens_eq_ok_iff writable, Proposition.ofTokens_eq_unbalanced_iff,
      Proposition.ofTokens_ne_invalidTerm writable⟩
    simp only [Term.ofTokens_eq_ok_iff_denotes writable]
    exact (Token.isAccepted_iff_exists_denotes writable).symm

open Term in
/-- The minus of `-x*y` may be derived as a sign of `x`, but it is read as one of the product, also
in front of a relation sign. The parentheses of `)(` are as many, but in the wrong order. -/
theorem texts_accepted_minus :
    let tokens : List Token := [.minus, .identifier "x", .star, .identifier "y"]
    Generates .free (.chain .sum) tokens (product [opposite (var "x"), var "y"]) ∧
      read "-x*y" = .ok (opposite (product [var "x", var "y"])) ∧
      read ")(" = .error .unbalancedParentheses ∧
      ∃ p, Proposition.read "-x*y<=1" = .ok p := by
  intro tokens
  have letter : ∀ (rule : SignRule) (name : String), named name = var name →
      Generates rule .factor [.identifier name] (var name) :=
    fun rule name same => .unsignedFactor (.base (.primary (same ▸ .identifier)))
  have timesY : ∀ {rule : SignRule} {ts : List Token} {t : Term}, Generates rule .factor ts t →
      Generates rule (.chain .product) (ts ++ [.star, .identifier "y"]) (product [t, var "y"]) := by
    intro rule ts t first
    exact @Generates.chain rule .product ts t [⟨.star, [.identifier "y"], var "y"⟩] _ first
      (by simp [Variadic.sign]) (List.forall_mem_singleton.2 (letter rule "y" rfl))
      (.run (by simp [Variadic.sign]))
  have ofFactor : Generates .free (.chain .sum) tokens (product [opposite (var "x"), var "y"]) :=
    .single (.unsigned (by simp) (timesY (.negativeFactor (letter _ "x" rfl))))
  have ofProduct : Token.Denotes tokens (opposite (product [var "x", var "y"])) := by
    refine ⟨.single (.negative (.unsigned (fun _ => ?_) (timesY (letter _ "x" rfl)))), ?_⟩
    · decide
    · simp [tokens]
  have one : Token.Denotes [.number ⟨['1'], []⟩] (.constant (Literal.value ⟨['1'], []⟩)) := by
    refine ⟨.single (.unsigned (fun _ => by decide)
      (.single (.unsignedFactor (.base (.primary .number))))), fun literal mem => ?_⟩
    obtain rfl : literal = ⟨['1'], []⟩ := by simpa using mem
    exact .inl ⟨rfl, by decide⟩
  have scanProduct : Token.scan "-x*y" = .ok tokens := by decide +kernel
  have scanReversed : Token.scan ")(" = .ok [.rightParenthesis, .leftParenthesis] := by
    decide +kernel
  have scanRelation : Token.scan "-x*y<=1" =
      .ok (tokens ++ .relation .atMost :: [.number ⟨['1'], []⟩]) := by decide +kernel
  have reversed : ¬ Token.IsBalanced [.rightParenthesis, .leftParenthesis] := fun balanced =>
    absurd (balanced.opened [.rightParenthesis] (by decide)) (by decide)
  have splits : Token.SplitsAt (tokens ++ .relation .atMost :: [.number ⟨['1'], []⟩]) tokens
      .atMost [.number ⟨['1'], []⟩] := ⟨rfl, by simp [tokens], by simp⟩
  have readProduct := (texts_accepted "-x*y").1 _ |>.2 ⟨tokens, scanProduct, ofProduct⟩
  have readReversed := (texts_accepted ")(").2.2.1.2 ⟨_, scanReversed, reversed⟩
  have readRelation := (texts_accepted "-x*y<=1").2.2.2.2.1 _ |>.2
    ⟨_, scanRelation, tokens, .atMost, _, _, _, splits, ofProduct, one, rfl⟩
  exact ⟨ofFactor, readProduct, readReversed, _, readRelation⟩

end InequalityChaining

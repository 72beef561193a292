import InequalityChaining.Proofs.Reading.Recovery

/-!
# Texts

The text of a writable term is read as the term in its desugared form, and the text of what is read
is the text again. What is read from any text is a term in desugared form, so that its text is read
as this term. Propositions are read side by side, as neither side contains a relation sign.

## Main results

* `Term.isWritable_of_mem_tokens` — the tokens of a writable term can be scanned
* `Term.Recovers.read_text`, `Proposition.read_text` — the texts of terms and propositions
* `Term.isPlain_of_read`, `Proposition.isPlain_of_read` — what is read from any text
* `reading_recovers_what_is_written` — all of this for terms and propositions
-/

namespace InequalityChaining

open Term (bracketed)

namespace Term

variable {t u : Term} {p : Nat} {op : Variadic} {ts : List Term}

/-! ### The tokens of writable terms -/

theorem isWritable_of_mem_bracketed {tokens : List Token}
    (h : ∀ token ∈ tokens, token.IsWritable) :
    ∀ token ∈ bracketed p t tokens, token.IsWritable := by
  rw [bracketed]
  split
  · refine List.forall_mem_cons.2 ⟨trivial, List.forall_mem_append.2 ⟨h, ?_⟩⟩
    simp [Token.IsWritable]
  · exact h

theorem isWritable_of_mem_tokensOfRest (h : ∀ t ∈ ts, ∀ token ∈ t.tokens, token.IsWritable) :
    ∀ token ∈ tokensOfRest op ts, token.IsWritable := by
  induction ts with
  | nil => simp [tokensOfRest]
  | cons t ts ih =>
    obtain ⟨first, rest⟩ := List.forall_mem_cons.1 h
    rw [tokensOfRest]
    refine List.forall_mem_cons.2 ⟨by cases op <;> trivial, ?_⟩
    exact List.forall_mem_append.2 ⟨isWritable_of_mem_bracketed first, ih rest⟩

/-- The tokens of a writable term have valid names and digits. -/
theorem isWritable_of_mem_tokens (writable : t.isWritable) :
    ∀ token ∈ t.tokens, token.IsWritable := by
  induction t using Term.induction with
  | constant value =>
    have finite := (Bool.and_eq_true_iff.1 (isWritable_constant.symm.trans writable)).1
    obtain ⟨digits, token, valid, -⟩ := Number.exists_isReadBack finite
    rw [tokens, Number.tokens, token]
    split
    · exact List.forall_mem_cons.2 ⟨trivial, List.forall_mem_singleton.2 valid⟩
    · exact List.forall_mem_singleton.2 valid
  | var name =>
    rw [tokens]
    exact List.forall_mem_singleton.2 (isWritable_var.1 writable).1
  | placeholder name kind =>
    cases kind with
    | any =>
      rw [tokens]
      exact List.forall_mem_singleton.2 (isWritable_any.1 writable).1
    | constantOnly =>
      rw [tokens]
      exact List.forall_mem_singleton.2 (isWritable_constantOnly.1 writable)
  | variadic op ts ih =>
    obtain ⟨length, operands⟩ := isWritable_variadic.1 writable
    obtain - | ⟨t, ts⟩ := ts
    · simp at length
    have each := fun t mem => ih t mem (operands t mem)
    obtain ⟨first, rest⟩ := List.forall_mem_cons.1 each
    rw [tokens_variadic]
    exact List.forall_mem_append.2
      ⟨isWritable_of_mem_bracketed first, isWritable_of_mem_tokensOfRest rest⟩
  | binary op l r ihl ihr =>
    obtain ⟨writableLeft, writableRight⟩ := isWritable_binary.1 writable
    have left : ∀ p, ∀ token ∈ bracketed p l l.tokens, token.IsWritable :=
      fun p => isWritable_of_mem_bracketed (ihl writableLeft)
    have right : ∀ p, ∀ token ∈ bracketed p r r.tokens, token.IsWritable :=
      fun p => isWritable_of_mem_bracketed (ihr writableRight)
    cases op with
    | difference =>
      rw [tokens]
      refine List.forall_mem_append.2 ⟨?_, List.forall_mem_cons.2 ⟨trivial, right 1⟩⟩
      split
      · simp
      · exact left 1
    | quotient =>
      rw [tokens]
      exact List.forall_mem_append.2 ⟨left 2, List.forall_mem_cons.2 ⟨trivial, right 2⟩⟩
    | power =>
      rw [tokens]
      exact List.forall_mem_append.2 ⟨left 3, List.forall_mem_cons.2 ⟨trivial, right 3⟩⟩
    | root =>
      rw [tokens]
      split
      · exact List.forall_mem_cons.2 ⟨trivial, left 3⟩
      · -- a root without a sign is written as a power with a reciprocal
        simp only [List.forall_mem_append]
        refine ⟨⟨⟨left 3, ?_⟩, right 2⟩, by simp [Token.IsWritable]⟩
        have one : (Token.number (.ofNat 1)).IsWritable := Literal.isWritable_ofNat
        simpa [Token.IsWritable] using one

/-! ### Terms -/

/-- The text of a term is read as the term that is recovered from its tokens. -/
theorem Recovers.read_text (h : Recovers t u) (writable : t.isWritable) : read t.text = .ok u := by
  have scanned : Token.scan t.text = .ok t.tokens :=
    Token.scan_textOfAll (isWritable_of_mem_tokens writable) h.parses_sum.separated
  rw [read, scanned]
  exact ofTokens_eq_ok_iff.2 h.parses_sum

theorem Recovers.text_eq (h : Recovers t u) : u.text = t.text :=
  congrArg Token.textOfAll h.tokens_eq

theorem isPlain_of_ofTokens {tokens : List Token} (h : ofTokens tokens = .ok t) : t.IsPlain :=
  (ofTokens_eq_ok_iff.1 h).isPlain trivial

/-- Terms that are read are plain. -/
theorem isPlain_of_read {text : String} (h : read text = .ok t) : t.IsPlain := by
  rw [read] at h
  split at h
  · cases h
  · exact isPlain_of_ofTokens h

end Term

/-! ### Propositions -/

namespace Proposition

variable {p : Proposition} {l r : Term}

/-- The tokens of a proposition are taken apart at the only relation sign. -/
theorem ofTokens_relation {ts us : List Token} (sign : RelationSign)
    (left : ∀ token ∈ ts, token.relationSign? = none)
    (right : ∀ token ∈ us, token.relationSign? = none) :
    ofTokens (ts ++ .relation sign :: us) =
      if Token.balanced ts && Token.balanced us then do
        let lhs ← Term.ofTokens ts
        let rhs ← Term.ofTokens us
        return ofSign sign lhs rhs
      else .error .unbalancedParentheses := by
  have onlySign : (ts ++ .relation sign :: us).filterMap Token.relationSign? = [sign] := by
    rw [List.filterMap_append, List.filterMap_cons, List.filterMap_eq_nil_iff.2 left,
      List.filterMap_eq_nil_iff.2 right]
    rfl
  have noSign : ∀ token ∈ ts, token.relationSign?.isNone := by
    intro token mem
    rw [left token mem]
    rfl
  have before : (ts ++ .relation sign :: us).takeWhile (·.relationSign?.isNone) = ts := by
    rw [List.takeWhile_append_of_pos noSign]
    simp [Token.relationSign?]
  have behind : (ts ++ .relation sign :: us).dropWhile (·.relationSign?.isNone) =
      .relation sign :: us := by
    rw [List.dropWhile_append_of_pos noSign]
    simp [Token.relationSign?]
  rw [ofTokens, onlySign]
  dsimp only
  rw [before, behind, List.tail_cons]

/-- Two terms with a relation sign between them are a proposition. -/
theorem ofTokens_append {ts us : List Token} (sign : RelationSign)
    (left : Parses (.chain .sum) ts l) (right : Parses (.chain .sum) us r) :
    ofTokens (ts ++ .relation sign :: us) = .ok (ofSign sign l r) := by
  have balanced : (Token.balanced ts && Token.balanced us) = true :=
    Bool.and_eq_true_iff.2 ⟨left.balanced, right.balanced⟩
  rw [ofTokens_relation sign left.relationSign?_eq_none right.relationSign?_eq_none,
    if_pos balanced, Term.ofTokens_eq_ok_iff.2 left, Term.ofTokens_eq_ok_iff.2 right]
  rfl

/-- The text of a proposition is read as the relation of what its sides are recovered as. -/
theorem read_text (left : p.lhs.Recovers l) (right : p.rhs.Recovers r)
    (writableLeft : p.lhs.isWritable) (writableRight : p.rhs.isWritable) :
    read p.text = .ok ⟨p.relation, l, r⟩ := by
  have valid : ∀ token ∈ p.tokens, token.IsWritable := List.forall_mem_append.2
    ⟨Term.isWritable_of_mem_tokens writableLeft,
      List.forall_mem_cons.2 ⟨trivial, Term.isWritable_of_mem_tokens writableRight⟩⟩
  have separated : Token.Separated p.tokens := by
    refine left.parses_sum.separated.append (right.parses_sum.separated.cons rfl) ?_
    simp [Token.beginsWord]
  have scanned : Token.scan p.text = .ok p.tokens := Token.scan_textOfAll valid separated
  rw [read, scanned]
  dsimp only
  rw [tokens, ofTokens_append _ left.parses_sum right.parses_sum]
  cases p.relation <;> rfl

theorem isPlain_of_ofTokens {tokens : List Token} (h : ofTokens tokens = .ok p) :
    p.lhs.IsPlain ∧ p.rhs.IsPlain := by
  rw [ofTokens] at h
  split at h
  · cases h
  · next sign found =>
    dsimp only at h
    split at h
    · obtain ⟨l, left, h⟩ := bind_eq_ok.1 h
      obtain ⟨r, right, h⟩ := bind_eq_ok.1 h
      have plainLeft := Term.isPlain_of_ofTokens left
      have plainRight := Term.isPlain_of_ofTokens right
      obtain rfl := pure_eq_ok.1 h
      cases sign with
      | equals => exact ⟨plainLeft, plainRight⟩
      | atMost => exact ⟨plainLeft, plainRight⟩
      | atLeast => exact ⟨plainRight, plainLeft⟩
    · cases h
  · cases h

/-- The sides of propositions that are read are plain. -/
theorem isPlain_of_read {text : String} (h : read text = .ok p) :
    p.lhs.IsPlain ∧ p.rhs.IsPlain := by
  rw [read] at h
  split at h
  · cases h
  · exact isPlain_of_ofTokens h

end Proposition

/-- The text of a writable term is read as its desugared form up to the form of constants, and so
are both sides of a proposition. The text of what is read is the same text. Every term and every
proposition that can be read at all is recovered from its text. -/
theorem reading_recovers_what_is_written :
    (∀ t : Term, t.isWritable →
      ∃ u, Term.read t.text = .ok u ∧ u.alike t.desugared ∧ u.text = t.text) ∧
    (∀ text t, Term.read text = .ok t →
      ∃ u, Term.read t.text = .ok u ∧ u.alike t ∧ u.text = t.text) ∧
    (∀ p : Proposition, p.lhs.isWritable → p.rhs.isWritable →
      ∃ q, Proposition.read p.text = .ok q ∧ q.relation = p.relation ∧
        q.lhs.alike p.lhs.desugared ∧ q.rhs.alike p.rhs.desugared ∧ q.text = p.text) ∧
    (∀ text p, Proposition.read text = .ok p →
      ∃ q, Proposition.read p.text = .ok q ∧ q.relation = p.relation ∧
        q.lhs.alike p.lhs ∧ q.rhs.alike p.rhs ∧ q.text = p.text) := by
  have terms : ∀ t : Term, t.isWritable →
      ∃ u, Term.read t.text = .ok u ∧ u.alike t.desugared ∧ u.text = t.text := by
    intro t writable
    obtain ⟨u, recovers⟩ := Term.exists_recovers writable
    exact ⟨u, recovers.read_text writable, recovers.alike, recovers.text_eq⟩
  have propositions : ∀ p : Proposition, p.lhs.isWritable → p.rhs.isWritable →
      ∃ q, Proposition.read p.text = .ok q ∧ q.relation = p.relation ∧
        q.lhs.alike p.lhs.desugared ∧ q.rhs.alike p.rhs.desugared ∧ q.text = p.text := by
    intro p writableLeft writableRight
    obtain ⟨l, left⟩ := Term.exists_recovers writableLeft
    obtain ⟨r, right⟩ := Term.exists_recovers writableRight
    refine ⟨⟨p.relation, l, r⟩, Proposition.read_text left right writableLeft writableRight, rfl,
      left.alike, right.alike, ?_⟩
    rw [Proposition.text, Proposition.tokens, left.tokens_eq, right.tokens_eq]
    rfl
  refine ⟨terms, fun text t found => ?_, propositions, fun text p found => ?_⟩
  · have plain := Term.isPlain_of_read found
    have recovered := terms t plain.isWritable
    rwa [plain.desugared_eq] at recovered
  · obtain ⟨left, right⟩ := Proposition.isPlain_of_read found
    have recovered := propositions p left.isWritable right.isWritable
    rwa [left.desugared_eq, right.desugared_eq] at recovered

/-- `(-2)^(x^(1/5))` and propositions about it are recovered, and so is what is read from `√y` and
from `√y>=x`. -/
theorem power_of_negative_is_recovered :
    (∃ u, Term.read (Term.power (.int (-2)) (.root (.var "x") (.int 5))).text = .ok u ∧
      u.alike (.power (.opposite (.int 2)) (.power (.var "x") (.quotient (.int 1) (.int 5)))) ∧
      u.text = (Term.power (.int (-2)) (.root (.var "x") (.int 5))).text) ∧
    (∃ u, Term.read (Term.root (.var "y") (.int 2)).text = .ok u ∧
      u.alike (.root (.var "y") (.int 2)) ∧ u.text = (Term.root (.var "y") (.int 2)).text) ∧
    (∃ q, Proposition.read (Proposition.equals (.int (-2)) (.placeholder "A" .any)).text = .ok q ∧
      q.relation = .equals ∧ q.lhs.alike (.opposite (.int 2)) ∧
      q.rhs.alike (.placeholder "A" .any) ∧
      q.text = (Proposition.equals (.int (-2)) (.placeholder "A" .any)).text) ∧
    (∃ q, Proposition.read (Proposition.atMost (.var "x") (.root (.var "y") (.int 2))).text =
        .ok q ∧
      q.relation = .atMost ∧ q.lhs.alike (.var "x") ∧ q.rhs.alike (.root (.var "y") (.int 2)) ∧
      q.text = (Proposition.atMost (.var "x") (.root (.var "y") (.int 2))).text) := by
  have root : Parses (.chain .sum) [.radical .square, .identifier "y"]
      (.root (.var "y") (.int 2)) :=
    .single .sum (.unsigned (by decide) (.single .product
      (.unsignedFactor (.base (.radical (.primary (.identifier rfl)))))))
  have letter : Parses (.chain .sum) [.identifier "x"] (.var "x") :=
    .single .sum (.unsigned (by decide) (.single .product
      (.unsignedFactor (.base (.primary (.identifier rfl))))))
  have readRoot : Term.read "√y" = .ok (.root (.var "y") (.int 2)) := by
    have scanned : Token.scan "√y" = .ok [.radical .square, .identifier "y"] := by decide +kernel
    rw [Term.read, scanned]
    exact Term.ofTokens_eq_ok_iff.2 root
  have readAtLeast : Proposition.read "√y>=x" =
      .ok (.atMost (.var "x") (.root (.var "y") (.int 2))) := by
    have scanned : Token.scan "√y>=x" = .ok ([.radical .square, .identifier "y"] ++
        .relation .atLeast :: [.identifier "x"]) := by decide +kernel
    rw [Proposition.read, scanned]
    exact Proposition.ofTokens_append .atLeast root letter
  exact ⟨reading_recovers_what_is_written.1 (.power (.int (-2)) (.root (.var "x") (.int 5)))
      (by decide +kernel),
    reading_recovers_what_is_written.2.1 "√y" _ readRoot,
    reading_recovers_what_is_written.2.2.1 (.equals (.int (-2)) (.placeholder "A" .any))
      (by decide +kernel) (by decide +kernel),
    reading_recovers_what_is_written.2.2.2 "√y>=x" _ readAtLeast⟩

end InequalityChaining

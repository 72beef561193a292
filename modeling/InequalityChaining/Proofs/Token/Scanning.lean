import Mathlib.Data.List.Chain
import Mathlib.Data.List.TakeWhile
import InequalityChaining.Token.Scan
import InequalityChaining.Proofs.Outcome

/-!
# Scanning what is written

A run of tokens is written without blanks, so two words in a row would be scanned as one. Where no
word stands right behind another, scanning the text of a run gives back the run: a token in front of
a text is scanned as this token if the text does not prolong it.

## Main definitions

* `Token.IsWritable` — tokens made of valid names and digits
* `Token.Separated` — runs in which no word follows another directly

## Main results

* `Token.scanChars_append` — a token in front of a text
* `Token.scan_textOfAll` — the text of a run is scanned as the run
* `Token.isWritable_of_scanChars` — all tokens that are scanned can be written
-/

namespace InequalityChaining

namespace Text

variable {c : Char}

theorem isNameChar_of_isDigit (h : c.isDigit) : isNameChar c := by
  simp [isNameChar, isNumeral_of_isDigit h]

theorem isNameChar_of_isLetter (h : isLetter c) : isNameChar c := by
  simp [isNameChar, h]

/-- The digits stand before all letters. -/
theorem not_isDigit_of_isLetter (h : isLetter c) : c.isDigit = false := by
  have first : 0x41 ≤ c.toNat := by
    rw [isLetter, letterRanges, inRanges, Bool.and_eq_true] at h
    exact of_decide_eq_true h.1
  by_contra digit
  have code : c.toNat ≤ 0x39 := by
    have bounds : 0x30 ≤ c.toNat ∧ c.toNat ≤ 0x39 := by
      simpa [Char.isDigit, UInt32.le_iff_toNat_le] using digit
    exact bounds.2
  omega

end Text

namespace Token

/-- Whether names are names and literals consist of digits. -/
def IsWritable : Token → Prop
  | number literal =>
    literal.whole ≠ [] ∧ (∀ c ∈ literal.whole, c.isDigit) ∧ ∀ c ∈ literal.fraction, c.isDigit
  | identifier name => Text.isName name.toList
  | constantPlaceholder name => Text.isName name.toList
  | _ => True

/-- Whether a letter or a numeral behind the token would prolong it. -/
def isWord : Token → Bool
  | number _ => true
  | identifier _ => true
  | constantPlaceholder _ => true
  | _ => false

/-- Whether the token begins with a letter or a digit. -/
def beginsWord : Token → Bool
  | number _ => true
  | identifier _ => true
  | _ => false

/-- No token prolongs the one before it. -/
def Separated (tokens : List Token) : Prop :=
  tokens.IsChain fun left right => left.isWord → right.beginsWord = false

/-- A text that prolongs no word. -/
def EndsWord (rest : List Char) : Prop := ∀ c ∈ rest.head?, Text.isNameChar c = false ∧ c ≠ '.'

/-- Runs of tokens stay separated if the second begins no word. -/
theorem Separated.append {ts us : List Token} (left : Separated ts) (right : Separated us)
    (begins : ∀ token ∈ us.head?, token.beginsWord = false) : Separated (ts ++ us) :=
  List.isChain_append.2 ⟨left, right, fun _ _ token mem _ => begins token mem⟩

/-- A token that is no word may stand in front of separated tokens. -/
theorem Separated.cons {token : Token} {ts : List Token} (separated : Separated ts)
    (notWord : token.isWord = false) : Separated (token :: ts) :=
  List.isChain_cons.2 ⟨fun _ _ word => by simp [notWord] at word, separated⟩

/-! ### Where a token ends -/

variable {token : Token} {rest : List Char}

/-- A character that is a token by itself belongs to no word. -/
theorem ofChar?_eq_none {c : Char} (h : Text.isNameChar c) : ofChar? c = none := by
  by_contra isToken
  revert h
  unfold ofChar? at isToken
  split at isToken
  all_goals first | decide +kernel | exact absurd rfl isToken

theorem ne_of_isNameChar {c : Char} (h : Text.isNameChar c) : ¬ (c = '<' ∨ c = '>') ∧ c ≠ '#' := by
  refine ⟨?_, ?_⟩
  · rintro (rfl | rfl)
    · exact absurd h (by decide +kernel)
    · exact absurd h (by decide +kernel)
  · rintro rfl
    exact absurd h (by decide +kernel)

/-- A run of characters of a kind ends before a text that does not continue it. -/
theorem takeWhile_append {p : Char → Bool} {run : List Char} (all : ∀ c ∈ run, p c)
    (stop : ∀ c ∈ rest.head?, p c = false) :
    (run ++ rest).takeWhile p = run ∧ (run ++ rest).dropWhile p = rest := by
  rw [List.takeWhile_append_of_pos all, List.dropWhile_append_of_pos all]
  cases rest with
  | nil => simp
  | cons c rest => simp [stop c rfl]

theorem EndsWord.not_isNameChar (ends : EndsWord rest) :
    ∀ c ∈ rest.head?, Text.isNameChar c = false := fun c mem => (ends c mem).1

theorem EndsWord.not_isDigit (ends : EndsWord rest) : ∀ c ∈ rest.head?, c.isDigit = false := by
  intro c mem
  by_contra digit
  have continues := Text.isNameChar_of_isDigit (c := c) (by simpa using digit)
  rw [(ends c mem).1] at continues
  cases continues

/-! ### Words -/

/-- A name is scanned up to its end. -/
theorem scanChars_identifier {name : List Char} (valid : Text.isName name) (ends : EndsWord rest) :
    scanChars (name ++ rest) = (scanChars rest).map (identifier (String.ofList name) :: ·) := by
  obtain - | ⟨c, cs⟩ := name
  · cases valid
  obtain ⟨letter, all⟩ := Bool.and_eq_true_iff.1 valid
  obtain ⟨notOrder, notSharp⟩ := ne_of_isNameChar (Text.isNameChar_of_isLetter letter)
  obtain ⟨taken, left⟩ := takeWhile_append (List.all_eq_true.1 all) ends.not_isNameChar
  rw [List.cons_append, scanChars.eq_def]
  simp only [ofChar?_eq_none (Text.isNameChar_of_isLetter letter), if_neg notOrder,
    if_neg notSharp, Text.not_isDigit_of_isLetter letter, letter, taken, left]
  rfl

/-- A number sign and a name are scanned up to the end of the name. -/
theorem scanChars_constantPlaceholder {name : List Char} (valid : Text.isName name)
    (ends : EndsWord rest) :
    scanChars ('#' :: name ++ rest) =
      (scanChars rest).map (constantPlaceholder (String.ofList name) :: ·) := by
  obtain - | ⟨c, cs⟩ := name
  · cases valid
  obtain ⟨letter, all⟩ := Bool.and_eq_true_iff.1 valid
  obtain ⟨taken, left⟩ := takeWhile_append (List.all_eq_true.1 all) ends.not_isNameChar
  rw [List.cons_append, List.cons_append, scanChars.eq_def]
  simp only [letter, taken, left]
  rfl

/-- Digits that no point follows are scanned up to their end. -/
theorem scanChars_whole {whole : List Char} (nonempty : whole ≠ []) (all : ∀ c ∈ whole, c.isDigit)
    (ends : EndsWord rest) :
    scanChars (whole ++ rest) = (scanChars rest).map (number ⟨whole, []⟩ :: ·) := by
  obtain - | ⟨c, cs⟩ := whole
  · exact absurd rfl nonempty
  obtain ⟨digit, digits⟩ := List.forall_mem_cons.1 all
  have nameChar := Text.isNameChar_of_isDigit digit
  obtain ⟨notOrder, notSharp⟩ := ne_of_isNameChar nameChar
  obtain ⟨taken, left⟩ := takeWhile_append digits ends.not_isDigit
  rw [List.cons_append, scanChars.eq_def]
  simp only [ofChar?_eq_none nameChar, if_neg notOrder, if_neg notSharp, digit, if_true, taken]
  split
  · next digits behind =>
    rw [left] at behind
    -- a point would prolong the literal
    exact absurd rfl (ends '.' (by simp [behind])).2
  · rw [left]
    rfl

/-- A point between digits belongs to their literal. -/
theorem scanChars_point {whole fraction : List Char} (wholeNonempty : whole ≠ [])
    (wholeDigits : ∀ c ∈ whole, c.isDigit) (fractionNonempty : fraction ≠ [])
    (fractionDigits : ∀ c ∈ fraction, c.isDigit) (ends : EndsWord rest) :
    scanChars (whole ++ '.' :: (fraction ++ rest)) =
      (scanChars rest).map (number ⟨whole, fraction⟩ :: ·) := by
  obtain - | ⟨c, cs⟩ := whole
  · exact absurd rfl wholeNonempty
  obtain ⟨digit, digits⟩ := List.forall_mem_cons.1 wholeDigits
  have nameChar := Text.isNameChar_of_isDigit digit
  obtain ⟨notOrder, notSharp⟩ := ne_of_isNameChar nameChar
  obtain ⟨taken, left⟩ := @takeWhile_append ('.' :: (fraction ++ rest)) _ _ digits (by simp)
  obtain ⟨takenBehind, leftBehind⟩ := takeWhile_append fractionDigits ends.not_isDigit
  have digitBehind : (fraction ++ rest).head?.any Char.isDigit := by
    obtain - | ⟨d, ds⟩ := fraction
    · exact absurd rfl fractionNonempty
    · simpa using fractionDigits d (by simp)
  rw [List.cons_append, scanChars.eq_def]
  simp only [ofChar?_eq_none nameChar, if_neg notOrder, if_neg notSharp, digit, if_true, taken]
  split
  · next digits behind =>
    rw [left] at behind
    obtain ⟨-, rfl⟩ := List.cons.inj behind
    rw [if_pos digitBehind, takenBehind, leftBehind]
    rfl
  · next others =>
    exact absurd left (others _)

/-- A literal is scanned up to its end. -/
theorem scanChars_number {literal : Literal} (valid : (number literal).IsWritable)
    (ends : EndsWord rest) :
    scanChars (literal.chars ++ rest) = (scanChars rest).map (number literal :: ·) := by
  obtain ⟨whole, fraction⟩ := literal
  obtain ⟨nonempty, wholeDigits, fractionDigits⟩ := valid
  obtain - | ⟨d, ds⟩ := fraction
  · exact scanChars_whole nonempty wholeDigits ends
  · simpa [Literal.chars] using
      scanChars_point nonempty wholeDigits (List.cons_ne_nil d ds) fractionDigits ends

/-- A token in front of a text is scanned first, unless the text prolongs it. -/
theorem scanChars_append (valid : token.IsWritable) (ends : token.isWord → EndsWord rest) :
    scanChars (token.text.toList ++ rest) = (scanChars rest).map (token :: ·) := by
  cases token with
  | number literal => simpa [text, Literal.text] using scanChars_number valid (ends rfl)
  | identifier name => simpa [text] using scanChars_identifier valid (ends rfl)
  | constantPlaceholder name =>
    simpa [text] using scanChars_constantPlaceholder valid (ends rfl)
  | radical sign =>
    cases sign
    all_goals
      rw [scanChars.eq_def]
      rfl
  | relation sign =>
    cases sign
    all_goals
      rw [scanChars.eq_def]
      rfl
  | _ =>
    rw [scanChars.eq_def]
    rfl

/-! ### Runs of tokens -/

/-- A token that begins with no letter and no digit begins with a sign. -/
theorem exists_sign (h : token.beginsWord = false) :
    ∃ c cs, token.text.toList = c :: cs ∧ Text.isNameChar c = false ∧ c ≠ '.' := by
  cases token with
  | number _ => cases h
  | identifier _ => cases h
  | constantPlaceholder name =>
    exact ⟨'#', name.toList, by simp [text], by decide +kernel, by decide⟩
  | radical sign =>
    cases sign
    all_goals exact ⟨_, _, rfl, by decide +kernel, by decide⟩
  | relation sign =>
    cases sign
    all_goals exact ⟨_, _, rfl, by decide +kernel, by decide⟩
  | _ => exact ⟨_, _, rfl, by decide +kernel, by decide⟩

@[simp] theorem toList_textOfAll_cons (tokens : List Token) :
    (textOfAll (token :: tokens)).toList = token.text.toList ++ (textOfAll tokens).toList := by
  simp [textOfAll]

/-- The text of a run that begins with no word prolongs no word. -/
theorem endsWord_textOfAll {tokens : List Token}
    (begins : ∀ t ∈ tokens.head?, t.beginsWord = false) : EndsWord (textOfAll tokens).toList := by
  cases tokens with
  | nil => simp [EndsWord, textOfAll]
  | cons t ts =>
    obtain ⟨c, cs, text, notNameChar, notPoint⟩ := exists_sign (begins t rfl)
    simp [EndsWord, text, notNameChar, notPoint]

/-- The text of a run of tokens in which no word prolongs another is scanned as the run. -/
theorem scan_textOfAll {tokens : List Token} (valid : ∀ t ∈ tokens, t.IsWritable)
    (separated : Separated tokens) : scan (textOfAll tokens) = .ok tokens := by
  induction tokens with
  | nil => simp [scan, textOfAll, scanChars]
  | cons token tokens ih =>
    obtain ⟨first, others⟩ := List.forall_mem_cons.1 valid
    obtain ⟨follows, separated⟩ := List.isChain_cons.1 separated
    have ends : token.isWord → EndsWord (textOfAll tokens).toList := fun word =>
      endsWord_textOfAll fun t mem => follows t mem word
    have rest : scanChars (textOfAll tokens).toList = .ok tokens := ih others separated
    rw [scan, toList_textOfAll_cons, scanChars_append first ends, rest]
    rfl

/-! ### What scanning yields -/

theorem isWritable_of_ofChar? {c : Char} (h : ofChar? c = some token) : token.IsWritable := by
  unfold ofChar? at h
  split at h
  all_goals cases h
  all_goals exact trivial

/-- A valid token in front of valid tokens. -/
theorem isWritable_of_cons {scanned : Except Char (List Token)} {tokens : List Token}
    (h : (do return token :: (← scanned)) = .ok tokens)
    (others : ∀ {ts : List Token}, scanned = .ok ts → ∀ t ∈ ts, t.IsWritable)
    (first : token.IsWritable) : ∀ t ∈ tokens, t.IsWritable := by
  obtain ⟨ts, rest, same⟩ := bind_eq_ok.1 h
  obtain rfl := pure_eq_ok.1 same
  exact List.forall_mem_cons.2 ⟨first, others rest⟩

theorem isName_of_takeWhile {c : Char} (letter : Text.isLetter c) (cs : List Char) :
    Text.isName (String.ofList (c :: cs.takeWhile Text.isNameChar)).toList := by
  simp [Text.isName, letter]

/-- Scanning yields valid names and digits only. -/
theorem isWritable_of_scanChars {cs : List Char} {tokens : List Token}
    (scanned : scanChars cs = .ok tokens) : ∀ t ∈ tokens, t.IsWritable := by
  fun_induction scanChars cs generalizing tokens with
  | case1 =>
    cases scanned
    simp
  | case2 c rest token single ih =>
    exact isWritable_of_cons scanned ih (isWritable_of_ofChar? single)
  | case3 c single order rest ih => exact isWritable_of_cons scanned ih trivial
  | case5 first rest letter single order ih =>
    exact isWritable_of_cons scanned ih (isName_of_takeWhile letter rest)
  | case8 c rest single order sharp digit =>
    rename_i ih
    refine isWritable_of_cons scanned ih ⟨List.cons_ne_nil _ _, ?_, ?_⟩
    · exact List.forall_mem_cons.2 ⟨digit, fun _ => List.mem_takeWhile_imp⟩
    · exact fun _ => List.mem_takeWhile_imp
  | case10 c rest single order sharp digit =>
    rename_i ih
    refine isWritable_of_cons scanned ih ⟨List.cons_ne_nil _ _, ?_, by simp⟩
    exact List.forall_mem_cons.2 ⟨digit, fun _ => List.mem_takeWhile_imp⟩
  | case11 c rest single order sharp digit letter ih =>
    exact isWritable_of_cons scanned ih (isName_of_takeWhile letter rest)
  | case12 c rest single order sharp digit letter blank ih => exact ih scanned
  -- in all other cases scanning ends with an error
  | _ => cases scanned

end Token

end InequalityChaining

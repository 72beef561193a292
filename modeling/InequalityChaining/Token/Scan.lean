import InequalityChaining.Token.Basic
import InequalityChaining.Text.Name
import InequalityChaining.Text.Blank

/-!
# Scanning text

Text is cut into tokens from left to right, each as long as possible; blanks between tokens are
skipped. A literal is a run of ASCII digits, and a point in it needs a digit on either side.

## Main definitions

* `Token.scan` — the tokens of a text, or the first character that starts none
-/

namespace InequalityChaining

namespace Token

/-- The tokens of a single character that is no beginning of a longer one. -/
def ofChar? : Char → Option Token
  | '(' => some leftParenthesis
  | ')' => some rightParenthesis
  | '+' => some plus
  | '-' => some minus
  | '*' => some star
  | '/' => some slash
  | '^' => some caret
  | '√' => some (radical .square)
  | '∛' => some (radical .cube)
  | '∜' => some (radical .fourth)
  | '=' => some (relation .equals)
  | '≤' => some (relation .atMost)
  | '≥' => some (relation .atLeast)
  | _ => none

theorem length_dropWhile_le (p : Char → Bool) (cs : List Char) :
    (cs.dropWhile p).length ≤ cs.length :=
  (List.dropWhile_suffix p).length_le

/-- The tokens of the characters, or the character at which no token starts. A sign of less or
greater needs an equality sign right behind it, and a number sign a letter. -/
def scanChars : List Char → Except Char (List Token)
  | [] => .ok []
  | c :: rest =>
    match ofChar? c with
    | some token => return token :: (← scanChars rest)
    | none =>
      if c = '<' ∨ c = '>' then
        match rest with
        | '=' :: rest =>
          return relation (if c = '<' then .atMost else .atLeast) :: (← scanChars rest)
        | _ => .error c
      else if c = '#' then
        match rest with
        | first :: rest =>
          if Text.isLetter first then
            return constantPlaceholder (String.ofList (first :: rest.takeWhile Text.isNameChar)) ::
              (← scanChars (rest.dropWhile Text.isNameChar))
          else .error c
        | [] => .error c
      else if c.isDigit then
        let whole := c :: rest.takeWhile Char.isDigit
        match _behind : rest.dropWhile Char.isDigit with
        | '.' :: digits =>
          if digits.head?.any Char.isDigit then
            return number ⟨whole, digits.takeWhile Char.isDigit⟩ ::
              (← scanChars (digits.dropWhile Char.isDigit))
          else .error '.'
        | others => return number ⟨whole, []⟩ :: (← scanChars others)
      else if Text.isLetter c then
        return identifier (String.ofList (c :: rest.takeWhile Text.isNameChar)) ::
          (← scanChars (rest.dropWhile Text.isNameChar))
      else if Text.isBlank c then scanChars rest
      else .error c
termination_by cs => cs.length
decreasing_by
  all_goals simp only [List.length_cons]
  · omega
  · omega
  · have := length_dropWhile_le Text.isNameChar rest
    omega
  · -- the point and the digits behind it are part of what follows the first digits
    have whole := length_dropWhile_le Char.isDigit rest
    have fraction := length_dropWhile_le Char.isDigit digits
    rw [_behind, List.length_cons] at whole
    omega
  · have others := length_dropWhile_le Char.isDigit rest
    rw [_behind] at others
    omega
  · have := length_dropWhile_le Text.isNameChar rest
    omega
  · omega

/-- The tokens of a text. -/
def scan (text : String) : Except Char (List Token) := scanChars text.toList

end Token

end InequalityChaining

import InequalityChaining.Deduction.Run

/-!
# Arguments of the command line

Arguments are read from left to right. Options with a value take it from behind an equality sign
or from the next argument, which must not look like an option; options of one letter may also have
it attached, and flags of one letter may be joined. After two dashes nothing is an option any more.
The format may be given before the subcommand and after it, and then the latter counts.

## Main definitions

* `Request` — what the arguments ask for
* `Refusal` — why they ask for nothing
* `Request.ofArguments` — reading the arguments
-/

namespace InequalityChaining

namespace CommandLine

/-- The forms of output. -/
inductive Format where
  | text
  | json
deriving DecidableEq, Repr

/-- The format of the given name, in letters of either case. -/
def Format.ofName? (name : String) : Option Format :=
  match name.map Char.toLower with
  | "text" => some text
  | "json" => some json
  | _ => none

/-- What can be asked for. -/
inductive Request where
  | prove (goal : String) (assumptions : List String) (budget : Budget) (format : Format)
  | simplify (term : String) (format : Format)
  | version
  | help

/-- The only answer to arguments that are not understood. -/
inductive Refusal where
  | usage
deriving DecidableEq, Repr

/-- The natural number that a text is, with or without a plus sign. -/
def natural? (text : String) : Option Nat :=
  let digits := match text.toList with
    | '+' :: rest => rest
    | cs => cs
  if !digits.isEmpty && digits.all Char.isDigit then some (Literal.natOfDigits digits) else none

/-- The 64-bit natural number that a text is. -/
def unsigned? (text : String) : Option Nat := (natural? text).filter (· < Nat.pow 2 64)

/-- The exponent that follows the digits of a decimal number, zero where there is none. -/
def exponent? : List Char → Option Int
  | [] => some 0
  | 'e' :: rest | 'E' :: rest =>
    match rest with
    | '-' :: digits =>
      if !digits.isEmpty && digits.all Char.isDigit then
        some (-(Literal.natOfDigits digits : Int))
      else none
    | rest => (natural? (String.ofList rest)).map fun n => (n : Int)
  | _ => none

/-- The real nearest to `mantissa * 10 ^ exponent`; what is out of all range is zero or infinite. -/
def nearestFloat (mantissa digits : Nat) (exponent : Int) : Float :=
  -- far outside the range the power of ten is not worked out
  if mantissa = 0 ∨ exponent + digits < -400 then 0
  else if 400 < exponent + digits then 1.0 / 0.0
  else Float.ofScientific mantissa (exponent < 0) exponent.natAbs

/-- The real without a sign that the characters are. -/
def magnitude? (cs : List Char) : Option Float :=
  match String.ofList (cs.map Char.toLower) with
  | "inf" | "infinity" => some (1.0 / 0.0)
  | "nan" => some (0.0 / 0.0)
  | _ =>
    let whole := cs.takeWhile Char.isDigit
    let (fraction, rest) := match cs.dropWhile Char.isDigit with
      | '.' :: cs => (cs.takeWhile Char.isDigit, cs.dropWhile Char.isDigit)
      | cs => ([], cs)
    let digits := whole ++ fraction
    if digits.isEmpty then none
    else
      (exponent? rest).map fun exponent =>
        nearestFloat (Literal.natOfDigits digits) digits.length (exponent - fraction.length)

/-- The real that a text is. -/
def float? (text : String) : Option Float :=
  match text.toList with
  | '-' :: cs => (magnitude? cs).map (- ·)
  | '+' :: cs => magnitude? cs
  | cs => magnitude? cs

/-- Where an argument stands: before the subcommand or after one. -/
inductive Level where
  | top
  | prove
  | simplify
deriving DecidableEq, Repr

/-- The options with a value. -/
inductive OptionKind where
  | format
  | assume
  | maxSteps
  | timeLimit
deriving DecidableEq, Repr

/-- The options without a value. -/
inductive FlagKind where
  | verbose
  | version
  | help
deriving DecidableEq, Repr

/-- What an option name stands for. -/
inductive Switch where
  | value (kind : OptionKind)
  | flag (kind : FlagKind)
deriving DecidableEq, Repr

namespace Level

/-- The option with a long name at a level; the format, the flag for verbosity and the one for help
are known everywhere. -/
def longSwitch? (level : Level) (name : String) : Option Switch :=
  match level, name with
  | _, "format" => some (.value .format)
  | _, "verbose" => some (.flag .verbose)
  | _, "help" => some (.flag .help)
  | top, "version" => some (.flag .version)
  | prove, "assume" => some (.value .assume)
  | prove, "max-steps" => some (.value .maxSteps)
  | prove, "time-limit-ms" => some (.value .timeLimit)
  | _, _ => none

/-- The option with a name of one letter at a level. -/
def shortSwitch? (level : Level) (letter : Char) : Option Switch :=
  match level, letter with
  | _, 'v' => some (.flag .verbose)
  | _, 'h' => some (.flag .help)
  | top, 'V' => some (.flag .version)
  | prove, 'a' => some (.value .assume)
  | _, _ => none

end Level

/-- What has been read at one level. -/
structure Settings where
  format : Option Format := none
  assumptions : List String := []
  maxSteps : Option Nat := none
  timeLimit : Option Float := none
  verbose : Bool := false
  subject : Option String := none

/-- Reading ends early with a refusal, or with a request that makes all the rest immaterial. -/
abbrev Reading (α : Type) : Type := Except (Except Refusal Request) α

/-- The end of reading with a refusal. -/
def refuse {α : Type} : Reading α := .error (.error .usage)

/-- A value that must be readable. -/
def required {α : Type} : Option α → Reading α
  | some a => .ok a
  | none => refuse

/-- A value that must be readable and must not be there yet. -/
def once {α : Type} (present : Option α) (read : Option α) : Reading (Option α) :=
  if present.isSome then refuse else (required read).map some

namespace Settings

/-- Stores the value of an option. Only assumptions may be repeated. -/
def setValue (s : Settings) (kind : OptionKind) (value : String) : Reading Settings := do
  match kind with
  | .format => return { s with format := ← once s.format (Format.ofName? value) }
  | .assume => return { s with assumptions := s.assumptions ++ [value] }
  | .maxSteps => return { s with maxSteps := ← once s.maxSteps (unsigned? value) }
  | .timeLimit => return { s with timeLimit := ← once s.timeLimit (float? value) }

/-- Stores a flag. -/
def setFlag (s : Settings) (kind : FlagKind) : Reading Settings :=
  match kind with
  | .verbose => if s.verbose then refuse else .ok { s with verbose := true }
  | .version => .error (.ok .version)
  | .help => .error (.ok .help)

/-- Stores the goal or the term, of which there is one. -/
def setSubject (s : Settings) (subject : String) : Reading Settings := do
  return { s with subject := ← once s.subject (some subject) }

/-- Reads joined options of one letter. What follows an option with a value is its value, with or
without an equality sign; if nothing does, the option still waits for its value. -/
def setShort (s : Settings) (level : Level) : List Char → Reading (Settings × Option OptionKind)
  | [] => .ok (s, none)
  | letter :: rest => do
    match ← required (level.shortSwitch? letter) with
    | .flag kind => (← s.setFlag kind).setShort level rest
    | .value kind =>
      match rest with
      | [] => return (s, some kind)
      | '=' :: value => return (← s.setValue kind (String.ofList value), none)
      | value => return (← s.setValue kind (String.ofList value), none)

/-- Reads an option with a long name, which stands behind two dashes. -/
def setLong (s : Settings) (level : Level) (cs : List Char) :
    Reading (Settings × Option OptionKind) := do
  let name := String.ofList (cs.takeWhile (· ≠ '='))
  match ← required (level.longSwitch? name), cs.dropWhile (· ≠ '=') with
  | .flag kind, [] => return (← s.setFlag kind, none)
  | .flag _, _ => refuse
  | .value kind, [] => return (s, some kind)
  | .value kind, _ :: value => return (← s.setValue kind (String.ofList value), none)

end Settings

/-- Whether an argument is taken for an option; a single dash is not. -/
def looksLikeOption (argument : String) : Bool :=
  argument.startsWith "-" && argument != "-"

/-- Reads the arguments of a subcommand. An option may wait for its value. -/
def readLevel (level : Level) (s : Settings) (waiting : Option OptionKind) :
    List String → Reading Settings
  | [] => if waiting.isSome then refuse else .ok s
  | argument :: rest => do
    match waiting with
    | some kind =>
      if looksLikeOption argument then refuse
      else readLevel level (← s.setValue kind argument) none rest
    | none =>
      match argument.toList with
      | ['-', '-'] => rest.foldlM Settings.setSubject s
      | ['-'] => readLevel level (← s.setSubject argument) none rest
      | '-' :: '-' :: cs =>
        let (s, waiting) ← s.setLong level cs
        readLevel level s waiting rest
      | '-' :: cs =>
        let (s, waiting) ← s.setShort level cs
        readLevel level s waiting rest
      | _ => readLevel level (← s.setSubject argument) none rest

/-- The request of a subcommand with the settings before it. -/
def readSubcommand (outer : Settings) (name : String) (rest : List String) : Reading Request := do
  match name with
  | "prove" =>
    let s ← readLevel .prove {} none rest
    let format := (s.format.or outer.format).getD .text
    return .prove (← required s.subject) s.assumptions ⟨s.maxSteps, s.timeLimit⟩ format
  | "simplify" =>
    let s ← readLevel .simplify {} none rest
    return .simplify (← required s.subject) ((s.format.or outer.format).getD .text)
  | "help" => return .help
  | _ => refuse

/-- Reads the arguments before the subcommand and then those after it. -/
def readTop (s : Settings) (waiting : Option OptionKind) : List String → Reading Request
  | [] => refuse
  | argument :: rest => do
    match waiting with
    | some kind =>
      if looksLikeOption argument then refuse
      else readTop (← s.setValue kind argument) none rest
    | none =>
      match argument.toList with
      | ['-', '-'] | ['-'] => refuse
      | '-' :: '-' :: cs =>
        let (s, waiting) ← s.setLong .top cs
        readTop s waiting rest
      | '-' :: cs =>
        let (s, waiting) ← s.setShort .top cs
        readTop s waiting rest
      | _ => readSubcommand s argument rest

/-- What the arguments ask for. -/
def Request.ofArguments (arguments : List String) : Except Refusal Request :=
  match readTop {} none arguments with
  | .ok request => .ok request
  | .error early => early

end CommandLine

end InequalityChaining

import InequalityChaining.Reduction.Rule

/-!
# Reduction by a table

A pass reduces a term once: at the root by the first rule of the table that applies there, or
else, where none does, in every operand by a pass of its own. Passes are repeated until nothing
changes any more. A table comes with a limit on the passes for each term, since a table of any rules
need not come to an end.

## Main definitions

* `reduceRoot`, `reducePass` — one reduction of a term
* `reduceWithin` — a bounded number of passes
* `ReductionTable`, `ReductionTable.simplify` — rules with a limit, and what they make of a term
* `ReductionError` — why there is no result
-/

namespace InequalityChaining

/-- What the first rule that applies makes of the term, if one does. -/
def reduceRoot (rules : List ReductionRule) (t : Term) : Except DomainError (Option Term) :=
  match rules with
  | [] => .ok none
  | rule :: rest => do
    match ← rule.reduce? t with
    | some u => return some u
    | none => reduceRoot rest t

/-- Two parts of a whole after a pass, if a part has changed. -/
def changedParts {α β : Type} (a : α) (b : β) (a? : Option α) (b? : Option β) : Option (α × β) :=
  if a?.isSome || b?.isSome then some (a?.getD a, b?.getD b) else none

@[simp] theorem changedParts_eq_none_iff {α β : Type} {a : α} {b : β} {a? : Option α}
    {b? : Option β} : changedParts a b a? b? = none ↔ a? = none ∧ b? = none := by
  cases a? <;> cases b? <;> simp [changedParts]

mutual

/-- The term after one pass, if the pass changes it. -/
def reducePass (rules : List ReductionRule) (t : Term) : Except DomainError (Option Term) := do
  match ← reduceRoot rules t with
  | some u => return some u
  | none =>
    -- where no rule applies at the root, the operands change in place
    match t with
    | .variadic op operands =>
      return (← reduceOperands rules operands).map (.variadic op)
    | .binary op left right =>
      let left? ← reducePass rules left
      let right? ← reducePass rules right
      return (changedParts left right left? right?).map fun parts =>
        .binary op parts.1 parts.2
    | _ => return none

/-- The operands after one pass over each, if one of them changes. -/
def reduceOperands (rules : List ReductionRule) (operands : List Term) :
    Except DomainError (Option (List Term)) := do
  match operands with
  | [] => return none
  | t :: ts =>
    let t? ← reducePass rules t
    let ts? ← reduceOperands rules ts
    return (changedParts t ts t? ts?).map fun parts => parts.1 :: parts.2

end

/-- Why reduction gives no result: a term has no value, or the passes did not suffice. -/
inductive ReductionError where
  | domain (error : DomainError)
  | passLimit
deriving DecidableEq, Repr

/-- The wording of a reduction error. -/
def ReductionError.message : ReductionError → String
  | domain error => error.message
  | passLimit => "reduction did not come to an end within the pass limit"

/-- The term on which a pass changes nothing, after at most the given number of passes that do. -/
def reduceWithin (rules : List ReductionRule) (passes : Nat) (t : Term) :
    Except ReductionError Term :=
  match reducePass rules t, passes with
  | .error error, _ => .error (.domain error)
  | .ok none, _ => .ok t
  | .ok (some _), 0 => .error .passLimit
  | .ok (some u), passes + 1 => reduceWithin rules passes u

/-- Rules in the order in which they are tried, and a limit on the passes for each term. -/
structure ReductionTable where
  rules : List ReductionRule
  passLimit : Term → Nat

namespace ReductionTable

/-- The limit for tables of which nothing is known. -/
def defaultPassLimit : Nat := Nat.pow 2 32

/-- Any rules, with the default limit. -/
def ofRules (rules : List ReductionRule) : ReductionTable := ⟨rules, fun _ => defaultPassLimit⟩

/-- The term on which a pass by the table changes nothing. -/
def simplify (table : ReductionTable) (t : Term) : Except ReductionError Term :=
  reduceWithin table.rules (table.passLimit t) t

/-- The first rule of the given name. -/
def rule? (table : ReductionTable) (name : String) : Option ReductionRule :=
  table.rules.find? (·.name == name)

end ReductionTable

end InequalityChaining

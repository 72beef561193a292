import InequalityChaining.Proofs.Matching.Equations

/-!
# The calls of the matcher

Without a limit on hops matching is a recursion that need not end: a placeholder that is bound to
itself calls for the same match again. A call does a little by itself and leaves the rest to calls
of its own, which it makes one after the other; each gets the bindings that the one before leaves,
and one that gives up ends them all. So calls that are still to be made are a list, and a limit is
set on how many are made.

If subjects and bound terms have no placeholders, the calls come to an end. A call for the term of a
bound placeholder has the same subject as the call that makes it, but its pattern is no placeholder,
and any other call is about less of the subject. So the size of the subject, with a little more for
a placeholder as the pattern, bounds the calls that are made. What they find then is what the
matcher finds, which limits hops and not calls.

## Main definitions

* `Call`, `Call.body?` — calls and what each does by itself
* `makeCalls` — making calls one after the other
* `MadeBy` — the calls that a call makes
* `Call.weight` — how many calls a call comes to at most

## Main results

* `Call.step_body?` — what a call makes is lighter and finds the same
* `makeCalls_eq` — calls come to an end and find what the matcher finds
* `acc_madeBy` — no call makes calls without end
* `makeCalls_bound_to_itself` — a placeholder that is bound to itself
* `matching_returns` — matching ends
-/

namespace InequalityChaining

open Term

/-! ### Calls -/

/-- What the matcher is called for. Operands are listed from the last to the first. -/
inductive Call where
  | term (subject pattern : Term)
  | operands (op : Variadic) (subjects patterns : List Term)
  | proposition (subject pattern : Proposition)

namespace Call

/-- What a call for a term does by itself if pattern and subject are not equal. -/
def ofDistinct? (b : Bindings) (s : Term) : Term → Option (Bindings × List Call)
  | placeholder name kind =>
    match b.find? name with
    | some bound => some (b, [term s bound])
    | none => if kind = .constantOnly ∧ !s.isConstant then none else some (b.insert name s, [])
  | variadic op ps =>
    match s with
    | variadic o ss => if o = op then some (b, [operands o ss.reverse ps.reverse]) else none
    | _ => none
  | binary op p₁ p₂ =>
    match s with
    | binary o s₁ s₂ => if o = op then some (b, [term s₁ p₁, term s₂ p₂]) else none
    | _ => none
  | _ => none

/-- The calls for what is in front of the last operands, which is an operand or several. -/
def ofFront (op : Variadic) (s p : Term) (ss ps : List Term) : List Call :=
  match ss.isEmpty, ps.isEmpty with
  | true, true => [term s p]
  | true, false => [term s (variadic op (p :: ps).reverse)]
  | false, true => [term (variadic op (s :: ss).reverse) p]
  | false, false =>
    -- operands that agree up to order need no call
    if sameOperands (s :: ss) (p :: ps) then [] else [operands op (s :: ss) (p :: ps)]

/-- What a call for operands does by itself. -/
def ofOperands? (b : Bindings) (op : Variadic) :
    List Term → List Term → Option (Bindings × List Call)
  | [], [] => some (b, [])
  | [s], [p] => some (b, [term s p])
  | s :: s' :: ss, p :: p' :: ps => some (b, term s p :: ofFront op s' p' ss ps)
  | _, _ => none

/-- What a call does by itself. It gives up, or it passes on the bindings, which it extends where a
placeholder takes the subject, and makes calls. -/
def body? (b : Bindings) : Call → Option (Bindings × List Call)
  | term s p => if s == p then some (b, []) else ofDistinct? b s p
  | operands op ss ps => ofOperands? b op ss ps
  | proposition s p =>
    if s.relation = p.relation then some (b, [term s.lhs p.lhs, term s.rhs p.rhs]) else none

/-- What the matcher finds. -/
def answer? (b : Bindings) : Call → Option Bindings
  | term s p => s.matchPattern? p b
  | operands op ss ps => matchBackwards op ss ps b
  | proposition s p => s.matchPattern? p b

/-- What the matcher finds for one call after the other. -/
def answers? : List Call → Bindings → Option Bindings
  | [], b => some b
  | call :: calls, b => (call.answer? b).bind (answers? calls)

/-- No placeholder occurs in what is matched. -/
def HasGroundSubject : Call → Prop
  | term s _ => s.isGround
  | operands _ ss _ => ∀ s ∈ ss, s.isGround
  | proposition s _ => ∀ side ∈ s.sides, side.isGround

/-- How many calls a call comes to at most, itself included. -/
def weight : Call → Nat
  -- one more, for the call with the term that the placeholder may be bound to
  | term s (placeholder _ _) => 6 * s.size - 3
  | term s _ => 6 * s.size - 4
  | operands _ ss _ => 6 * sizeOfAll ss + 1
  | proposition s _ => 6 * (s.lhs.size + s.rhs.size)

/-- The same for a list of calls. -/
def weightOfAll : List Call → Nat
  | [] => 0
  | call :: calls => call.weight + weightOfAll calls

end Call

/-- Makes calls one after the other, the calls that a call makes before those after it, and at most
as many as the limit says. There is no result if that is too few; else it is that of the matching,
which may be that there is no match. -/
def makeCalls : Nat → List Call → Bindings → Option (Option Bindings)
  | _, [], b => some (some b)
  | 0, _ :: _, _ => none
  | limit + 1, call :: calls, b =>
    match call.body? b with
    | none => some none
    | some (c, own) => makeCalls limit (own ++ calls) c

/-- The first call, with the bindings that it gets, is among the calls that the second makes. -/
def MadeBy (callee caller : Call × Bindings) : Prop :=
  ∃ b before after limit, caller.1.body? caller.2 = some (b, before ++ callee.1 :: after) ∧
    makeCalls limit before b = some (some callee.2)

/-- No placeholder occurs in what names are bound to. -/
def Bindings.IsGround (b : Bindings) : Prop := ∀ name t, b.find? name = some t → t.isGround

/-! ### One call -/

namespace Call

section Weight

variable {call : Call} {calls others : List Call} {s p : Term}

theorem weight_term_le (s p : Term) : (term s p).weight ≤ 6 * s.size - 3 := by
  cases p <;> simp only [weight] <;> omega

/-- Only a placeholder as the pattern adds to the weight. -/
theorem weight_term_of_isGround (ground : p.isGround) : (term s p).weight = 6 * s.size - 4 := by
  cases p with
  | placeholder name kind => simp at ground
  | _ => rfl

theorem weight_operands (op : Variadic) (ss ps : List Term) :
    (operands op ss ps).weight = 6 * sizeOfAll ss + 1 := rfl

theorem weight_proposition (s p : Proposition) :
    (proposition s p).weight = 6 * (s.lhs.size + s.rhs.size) := rfl

theorem weight_pos (call : Call) : 0 < call.weight := by
  cases call with
  | term s p =>
    have pos := s.size_pos
    cases p <;> simp only [weight] <;> omega
  | operands op ss ps => exact Nat.succ_pos _
  | proposition s p =>
    have pos := s.lhs.size_pos
    simp only [weight]
    omega

@[simp] theorem weightOfAll_nil : weightOfAll [] = 0 := rfl

@[simp] theorem weightOfAll_cons : weightOfAll (call :: calls) = call.weight + weightOfAll calls :=
  rfl

@[simp] theorem weightOfAll_append :
    weightOfAll (calls ++ others) = weightOfAll calls + weightOfAll others := by
  induction calls with
  | nil => simp
  | cons call calls ih => simp [ih, Nat.add_assoc]

theorem answers?_append (b : Bindings) :
    answers? (calls ++ others) b = (answers? calls b).bind (answers? others) := by
  induction calls generalizing b with
  | nil => rfl
  | cons call calls ih =>
    simp only [List.cons_append, answers?, Option.bind_assoc]
    exact congrArg _ (funext ih)

end Weight

/-- A call gives up where the matcher finds nothing. Otherwise there are no placeholders in the
bindings that it passes on and in the subjects of the calls that it makes, which together are
lighter than it is, and which find what the matcher finds. -/
inductive Step (call : Call) (b : Bindings) : Option (Bindings × List Call) → Prop where
  | givesUp (answer : call.answer? b = none) : Step call b none
  | makes {c : Bindings} {own : List Call} (bound : c.IsGround)
      (subjects : ∀ callee ∈ own, callee.HasGroundSubject)
      (lighter : weightOfAll own < call.weight)
      (answer : call.answer? b = answers? own c) : Step call b (some (c, own))

section Step

variable {b : Bindings} {s p : Term}

/-- A call for the term of a bound placeholder has the same subject, but no placeholder. -/
theorem step_placeholder (bound : b.IsGround) (ground : s.isGround) (name : String)
    (kind : PlaceholderKind) :
    Step (term s (placeholder name kind)) b (ofDistinct? b s (placeholder name kind)) := by
  have pos := s.size_pos
  rw [ofDistinct?]
  cases found : b.find? name with
  | some t =>
    have groundBound := bound name t found
    -- what the name is bound to is no placeholder, so this call weighs one less
    refine .makes bound (by simpa [HasGroundSubject] using ground) ?_ ?_
    · rw [weightOfAll_cons, weight_term_of_isGround groundBound, weightOfAll_nil, weight]
      omega
    · simpa [answers?, answer?] using matchPattern?_of_bound ground groundBound found
  | none =>
    have answer : s.matchPattern? (placeholder name kind) b = _ :=
      matchPattern?_of_unbound ground found
    by_cases refused : kind = .constantOnly ∧ !s.isConstant
    · rw [if_pos refused] at answer ⊢
      exact .givesUp answer
    · rw [if_neg refused] at answer ⊢
      refine .makes (fun n t inner => ?_) (by simp) (weight_pos _) answer
      rw [Bindings.find?_insert] at inner
      split at inner
      · exact Option.some.inj inner ▸ ground
      · exact bound n t inner

/-- The operands of an operation are less than the operation. -/
theorem step_variadic {op : Variadic} {ps : List Term} (bound : b.IsGround) (ground : s.isGround)
    (distinct : ¬ (s == variadic op ps) = true) :
    Step (term s (variadic op ps)) b (ofDistinct? b s (variadic op ps)) := by
  cases s with
  | variadic o ss =>
    rw [ofDistinct?]
    by_cases same : o = op
    · subst same
      have answer : (variadic o ss).matchPattern? (variadic o ps) b = _ := matchPattern?_variadic
      rw [if_neg distinct, if_pos rfl] at answer
      rw [if_pos rfl]
      refine .makes bound ?_ ?_ ?_
      · simpa [HasGroundSubject] using ground
      · simp only [weightOfAll_cons, weightOfAll_nil, weight, sizeOfAll_reverse, size]
        omega
      · simpa [answers?, answer?] using answer
    · rw [if_neg same]
      exact .givesUp (matchPattern?_variadic_of_ne fun us e => same (by injection e))
  | _ => exact .givesUp (matchPattern?_variadic_of_ne fun us e => by cases e)

/-- The two terms of an operation are matched in turn. -/
theorem step_binary {op : Binary} {p₁ p₂ : Term} (bound : b.IsGround) (ground : s.isGround) :
    Step (term s (binary op p₁ p₂)) b (ofDistinct? b s (binary op p₁ p₂)) := by
  cases s with
  | binary o s₁ s₂ =>
    rw [ofDistinct?]
    by_cases same : o = op
    · subst same
      obtain ⟨groundLeft, groundRight⟩ := isGround_binary.1 ground
      have left := weight_term_le s₁ p₁
      have right := weight_term_le s₂ p₂
      rw [if_pos rfl]
      refine .makes bound ?_ ?_ ?_
      · simp [HasGroundSubject, groundLeft, groundRight]
      · have pos := s₁.size_pos
        have whole : (term (binary o s₁ s₂) (binary o p₁ p₂)).weight =
          6 * (1 + s₁.size + s₂.size) - 4 := rfl
        simp only [weightOfAll_cons, weightOfAll_nil, whole]
        omega
      · simp [answers?, answer?, matchPattern?_binary]
    · rw [if_neg same]
      exact .givesUp (matchPattern?_binary_of_ne fun s₁ s₂ e => same (by injection e))
  | _ => exact .givesUp (matchPattern?_binary_of_ne fun s₁ s₂ e => by cases e)

theorem step_term (bound : b.IsGround) (ground : s.isGround) :
    Step (term s p) b ((term s p).body? b) := by
  rw [body?]
  by_cases same : (s == p) = true
  · rw [if_pos same]
    exact .makes bound (by simp) (weight_pos _) (matchPattern?_of_beq same)
  rw [if_neg same]
  cases p with
  | placeholder name kind => exact step_placeholder bound ground name kind
  | constant value => exact .givesUp (by rw [answer?, matchPattern?_constant, if_neg same])
  | var name => exact .givesUp (by rw [answer?, matchPattern?_var, if_neg same])
  | variadic op ps => exact step_variadic bound ground same
  | binary op p₁ p₂ => exact step_binary bound ground

/-- What is in front of the last operands has their size at most. -/
theorem weightOfAll_ofFront_le (op : Variadic) (s p : Term) (ss ps : List Term) :
    weightOfAll (ofFront op s p ss ps) ≤ 6 * (s.size + sizeOfAll ss) + 3 := by
  have alone := weight_term_le s p
  have wrapped := weight_term_le (variadic op (s :: ss).reverse) p
  have pattern := weight_term_le s (variadic op (p :: ps).reverse)
  simp only [size, sizeOfAll_reverse, sizeOfAll] at wrapped
  unfold ofFront
  split
  · simp only [weightOfAll_cons, weightOfAll_nil]
    omega
  · simp only [weightOfAll_cons, weightOfAll_nil]
    omega
  · simp only [weightOfAll_cons, weightOfAll_nil]
    omega
  · split
    · exact Nat.zero_le _
    · simp only [weightOfAll_cons, weightOfAll_nil, weight, sizeOfAll]
      omega

theorem hasGroundSubject_of_mem_ofFront {op : Variadic} {ss ps : List Term}
    (ground : ∀ t ∈ s :: ss, t.isGround) :
    ∀ callee ∈ ofFront op s p ss ps, callee.HasGroundSubject := by
  have first := ground s List.mem_cons_self
  have wrapped : (variadic op (s :: ss).reverse).isGround :=
    isGround_variadic.2 fun t mem => ground t (List.mem_reverse.1 mem)
  unfold ofFront
  split
  · exact List.forall_mem_singleton.2 first
  · exact List.forall_mem_singleton.2 first
  · exact List.forall_mem_singleton.2 wrapped
  · split
    · simp
    · exact List.forall_mem_singleton.2 ground

/-- The last operands are matched, and then what is in front of them. -/
theorem matchBackwards_cons {op : Variadic} {s' p' : Term} {ss ps : List Term} :
    matchBackwards op (s :: s' :: ss) (p :: p' :: ps) b =
      (s.matchPattern? p b).bind (answers? (ofFront op s' p' ss ps)) := by
  rw [matchBackwards.eq_def]
  change (s.matchPattern? p b).bind _ = _
  congr 1
  funext c
  unfold ofFront
  cases ss.isEmpty <;> cases ps.isEmpty
  · simp only []
    split <;> simp [answers?, answer?]
  all_goals simp [answers?, answer?, matchPattern?]

theorem step_operands {op : Variadic} {ss ps : List Term} (bound : b.IsGround)
    (ground : ∀ t ∈ ss, t.isGround) :
    Step (operands op ss ps) b ((operands op ss ps).body? b) := by
  rw [body?]
  unfold ofOperands?
  split
  · exact .makes bound (by simp) (weight_pos _) (by rw [answer?, matchBackwards.eq_def]; rfl)
  · next s p =>
    have le := weight_term_le s p
    refine .makes bound (List.forall_mem_singleton.2 (ground s List.mem_cons_self)) ?_ ?_
    · simp only [weightOfAll_cons, weightOfAll_nil, weight_operands, sizeOfAll]
      omega
    · simp [answers?, answer?, matchBackwards_singleton]
  · next s s' ss p p' ps =>
    obtain ⟨last, front⟩ := List.forall_mem_cons.1 ground
    have le := weight_term_le s p
    -- the last operands are matched first, then what is in front of them
    have leFront := weightOfAll_ofFront_le op s' p' ss ps
    have pos := s.size_pos
    refine .makes bound
      (List.forall_mem_cons.2 ⟨last, hasGroundSubject_of_mem_ofFront front⟩) ?_ ?_
    · simp only [weightOfAll_cons, weight_operands, sizeOfAll]
      omega
    · exact matchBackwards_cons
  · next several =>
    exact .givesUp (by rw [answer?, matchBackwards]; all_goals assumption)

/-- What a call makes is lighter and finds the same. -/
theorem step_body? {call : Call} (bound : b.IsGround) (ground : call.HasGroundSubject) :
    Step call b (call.body? b) := by
  cases call with
  | term s p => exact step_term bound ground
  | operands op ss ps => exact step_operands bound ground
  | proposition s p =>
    rw [body?]
    by_cases same : s.relation = p.relation
    · rw [if_pos same]
      have left := weight_term_le s.lhs p.lhs
      have right := weight_term_le s.rhs p.rhs
      have pos := s.lhs.size_pos
      refine .makes bound ?_ ?_ ?_
      · simpa [HasGroundSubject, Proposition.sides] using ground
      · simp only [weightOfAll_cons, weightOfAll_nil, weight_proposition]
        omega
      · simp [answers?, answer?, Proposition.matchPattern?, same]
    · rw [if_neg same]
      exact .givesUp (by rw [answer?, Proposition.matchPattern?, if_neg same])

end Step

end Call

/-! ### All calls -/

section Calls

open Call

variable {limit : Nat} {call : Call} {calls : List Call} {b r : Bindings}

/-- As many calls as they weigh are enough, and they find what the matcher finds. -/
theorem makeCalls_eq (bound : b.IsGround) (subjects : ∀ call ∈ calls, call.HasGroundSubject)
    (enough : weightOfAll calls ≤ limit) : makeCalls limit calls b = some (answers? calls b) := by
  induction limit generalizing calls b with
  | zero =>
    cases calls with
    | nil => rfl
    | cons call calls =>
      have pos := call.weight_pos
      simp only [weightOfAll_cons] at enough
      omega
  | succ limit ih =>
    cases calls with
    | nil => rfl
    | cons call calls =>
      obtain ⟨ground, others⟩ := List.forall_mem_cons.1 subjects
      rw [makeCalls, answers?]
      rw [weightOfAll_cons] at enough
      have step := step_body? bound ground
      generalize call.body? b = result at step
      cases step with
      | givesUp answer => rw [answer, Option.bind_none]
      | @makes c own bound subjects lighter answer =>
        -- what the first call makes is lighter, so the limit that is left is enough
        rw [answer, ← answers?_append]
        refine ih bound (List.forall_mem_append.2 ⟨subjects, others⟩) ?_
        rw [weightOfAll_append]
        omega

/-- Calls leave no placeholders in the bindings. -/
theorem isGround_of_makeCalls (bound : b.IsGround)
    (subjects : ∀ call ∈ calls, call.HasGroundSubject)
    (found : makeCalls limit calls b = some (some r)) : r.IsGround := by
  induction limit generalizing calls b with
  | zero =>
    cases calls with
    | nil => exact Option.some.inj (Option.some.inj found) ▸ bound
    | cons call calls => simp [makeCalls] at found
  | succ limit ih =>
    cases calls with
    | nil => exact Option.some.inj (Option.some.inj found) ▸ bound
    | cons call calls =>
      obtain ⟨ground, others⟩ := List.forall_mem_cons.1 subjects
      rw [makeCalls] at found
      have step := step_body? bound ground
      generalize call.body? b = result at step found
      cases step with
      | givesUp answer => simp at found
      | makes bound subjects lighter answer =>
        exact ih bound (List.forall_mem_append.2 ⟨subjects, others⟩) found

/-- No call makes calls without end. -/
theorem acc_madeBy {call : Call} {b : Bindings} (bound : b.IsGround)
    (ground : call.HasGroundSubject) : Acc MadeBy (call, b) := by
  refine ⟨_, fun (callee, c) ⟨d, before, after, limit, own, left⟩ => ?_⟩
  have step := step_body? bound ground
  rw [own] at step
  cases step with
  | makes boundOwn subjects lighter answer =>
    -- the calls made before this one leave bindings without placeholders
    rw [List.forall_mem_append, List.forall_mem_cons] at subjects
    obtain ⟨earlier, groundCallee, -⟩ := subjects
    have less : callee.weight < call.weight := by
      simp only [weightOfAll_append, weightOfAll_cons] at lighter
      omega
    exact acc_madeBy (isGround_of_makeCalls boundOwn earlier left) groundCallee
termination_by call.weight

/-- A placeholder that is bound to itself calls for itself without end. -/
theorem makeCalls_bound_to_itself {s : Term} {name : String} {kind : PlaceholderKind}
    (distinct : (s == placeholder name kind) = false)
    (found : b.find? name = some (placeholder name kind)) :
    (∀ limit, makeCalls limit [.term s (placeholder name kind)] b = none) ∧
      ¬ Acc MadeBy (.term s (placeholder name kind), b) := by
  have own : (Call.term s (placeholder name kind)).body? b =
      some (b, [.term s (placeholder name kind)]) := by
    simp [body?, ofDistinct?, distinct, found]
  constructor
  · intro limit
    induction limit with
    | zero => rfl
    | succ limit ih => rw [makeCalls, own]; exact ih
  · have never : ∀ x, Acc MadeBy x → ¬ MadeBy x x := fun x ends itself => by
      induction ends with
      | intro x _ ih => exact ih x itself itself
    exact fun ends => never _ ends ⟨b, [], [], 0, own, rfl⟩

end Calls

/-- If no placeholders occur in what is matched and in what names are bound to, matching ends: no
call makes calls without end, and there is a bound on the calls that are made in all, which is
linear in the size of what is matched. After them the matcher's result is there. This holds for
terms, for operands and for propositions. -/
theorem matching_returns (b : Bindings) (bound : b.IsGround) :
    (∀ s p : Term, s.isGround →
      Acc MadeBy (.term s p, b) ∧
      ∀ limit, 6 * s.size ≤ limit → makeCalls limit [.term s p] b = some (s.matchPattern? p b)) ∧
    (∀ (op : Variadic) (ss ps : List Term), (∀ s ∈ ss, s.isGround) →
      Acc MadeBy (.operands op ss ps, b) ∧
      ∀ limit, 6 * sizeOfAll ss + 1 ≤ limit →
        makeCalls limit [.operands op ss ps] b = some (matchBackwards op ss ps b)) ∧
    (∀ s p : Proposition, (∀ side ∈ s.sides, side.isGround) →
      Acc MadeBy (.proposition s p, b) ∧
      ∀ limit, 6 * (s.lhs.size + s.rhs.size) ≤ limit →
        makeCalls limit [.proposition s p] b = some (s.matchPattern? p b)) := by
  have ends : ∀ call : Call, call.HasGroundSubject → Acc MadeBy (call, b) ∧
      ∀ limit, call.weight ≤ limit → makeCalls limit [call] b = some (call.answer? b) := by
    intro call ground
    refine ⟨acc_madeBy bound ground, fun limit enough => ?_⟩
    rw [makeCalls_eq bound (List.forall_mem_singleton.2 ground) (by simpa using enough)]
    simp [Call.answers?]
  refine ⟨fun s p ground => ?_, fun op ss ps ground => ends (.operands op ss ps) ground,
    fun s p ground => ends (.proposition s p) ground⟩
  obtain ⟨acc, found⟩ := ends (.term s p) ground
  exact ⟨acc, fun limit enough => found limit (by have := Call.weight_term_le s p; omega)⟩

/-- A difference and an inequality whose placeholder is bound to a sum, which is larger than the
patterns are. -/
theorem matching_returns_following :
    let bound := sum [var "x", var "y", var "z"]
    let seed := Bindings.empty.insert "X" bound
    let s := difference (sum [var "z", var "x", var "y"]) (var "u")
    let p := difference (placeholder "X" .any) (placeholder "Y" .any)
    let found := seed.insert "Y" (var "u")
    seed.IsGround ∧ s.isGround ∧
      Acc MadeBy (.term s p, seed) ∧ s.matchPattern? p seed = some found ∧
      makeCalls 36 [.term s p] seed = some (some found) ∧
      Acc MadeBy (.operands .sum [s, var "u"] [p, var "v"], seed) ∧
      makeCalls 43 [.operands .sum [s, var "u"] [p, var "v"]] seed = some none ∧
      Acc MadeBy (.proposition (.atMost bound s) (.atMost (placeholder "X" .any) p), seed) ∧
      makeCalls 60 [.proposition (.atMost bound s) (.atMost (placeholder "X" .any) p)] seed =
        some (some found) := by
  intro bound seed s p found
  have groundSeed : seed.IsGround := by
    intro name t inner
    rw [Bindings.find?_insert] at inner
    split at inner
    · exact Option.some.inj inner ▸ rfl
    · simp at inner
  have takes : seed.find? "X" = some bound := by simp [seed, Bindings.find?_insert]
  have matched : s.matchPattern? p seed = some found := by
    rw [matchPattern?_binary, if_pos rfl, matchPattern?_of_bound rfl rfl takes,
      matchPattern?_of_beq (by decide), Option.bind_some]
    exact matchPattern?_of_unbound rfl (by simp [seed, Bindings.find?_insert])
  have differ : matchBackwards .sum [s, var "u"] [p, var "v"] seed = none := by
    rw [Call.matchBackwards_cons, matched, Option.bind_some]
    simp only [Call.ofFront, List.isEmpty_nil, Call.answers?, Call.answer?]
    rw [matchPattern?_var, if_neg (by decide), Option.bind_none]
  have both : (Proposition.atMost bound s).matchPattern? (.atMost (placeholder "X" .any) p) seed =
      some found := by
    change (bound.matchPattern? (placeholder "X" .any) seed).bind
      (fun b => s.matchPattern? p b) = some found
    rw [matchPattern?_of_bound rfl rfl takes, matchPattern?_of_beq (by decide), Option.bind_some,
      matched]
  obtain ⟨terms, operands, propositions⟩ := matching_returns seed groundSeed
  obtain ⟨accTerm, runTerm⟩ := terms s p rfl
  obtain ⟨accOperands, runOperands⟩ := operands .sum [s, var "u"] [p, var "v"] (by decide)
  obtain ⟨accBoth, runBoth⟩ :=
    propositions (.atMost bound s) (.atMost (placeholder "X" .any) p) (by decide)
  exact ⟨groundSeed, rfl, accTerm, matched, matched ▸ runTerm 36 (by decide), accOperands,
    differ ▸ runOperands 43 (by decide), accBoth, both ▸ runBoth 60 (by decide)⟩

end InequalityChaining

import Mathlib.Logic.Relation
import InequalityChaining.Proofs.Outcome
import InequalityChaining.Proofs.Term.Parts
import InequalityChaining.Reduction.Table

/-!
# Passes as rewriting sequences

A pass changes many places of a term at once. Since these places do not overlap, it can be taken
apart into single rewritings, each of which puts in the place of one subterm what the first rule
that applies there makes of it. So whatever single rewritings preserve is preserved by passes, and
by any number of them. This holds of every list of rules.

## Main definitions

* `Rewrites` — a single rewriting somewhere in a term
* `Passes` — a number of passes, each of which changes the term

## Main results

* `transGen_rewrites_of_reducePass` — a pass is a sequence of rewritings
* `reducePass_eq_none_iff` — a pass changes nothing exactly if no rule applies anywhere
* `exists_subterm_of_reducePass_eq_error` — an error of a pass is that of a rule at a subterm
* `exists_passes_of_measure` — passes that make a measure smaller come to an end
* `reduceWithin_of_passes` — a limit on passes does not matter as long as it suffices
* `exists_passes_of_limit` — how passes within a limit end
-/

open Relation (TransGen ReflTransGen)

namespace InequalityChaining

/-! ### The first rule that applies -/

section Root

variable {rules : List ReductionRule} {t : Term}

theorem reduceRoot_cons (rule : ReductionRule) (rest : List ReductionRule) (t : Term) :
    reduceRoot (rule :: rest) t =
      rule.reduce? t >>= fun u? => if u?.isSome then pure u? else reduceRoot rest t := by
  rw [reduceRoot]
  congr 1
  funext u?
  cases u? <;> rfl

/-- What the search for a rule yields is what one of the rules yields, unless none applies. -/
theorem exists_rule_of_reduceRoot {result : Except DomainError (Option Term)}
    (h : reduceRoot rules t = result) (applies : result ≠ .ok none) :
    ∃ rule ∈ rules, rule.reduce? t = result := by
  induction rules with
  | nil => exact absurd h.symm applies
  | cons rule rest ih =>
    rw [reduceRoot_cons] at h
    cases first : rule.reduce? t with
    | error error =>
      rw [first] at h
      exact ⟨rule, List.mem_cons_self, first.trans h⟩
    | ok u? =>
      rw [first] at h
      cases u? with
      | some u => exact ⟨rule, List.mem_cons_self, first.trans h⟩
      | none =>
        obtain ⟨rule', mem, yields⟩ := ih h
        exact ⟨rule', List.mem_cons_of_mem _ mem, yields⟩

theorem reduceRoot_eq_none_iff :
    reduceRoot rules t = .ok none ↔ ∀ rule ∈ rules, rule.reduce? t = .ok none := by
  induction rules with
  | nil => simp [reduceRoot]
  | cons rule rest ih =>
    rw [reduceRoot_cons, bind_eq_ok, List.forall_mem_cons, ← ih]
    constructor
    · rintro ⟨v?, hv, h⟩
      cases v? with
      | some v => simp at h
      | none => exact ⟨hv, h⟩
    · rintro ⟨hv, h⟩
      exact ⟨none, hv, h⟩

end Root

/-! ### Equations of a pass -/

section Equations

variable {rules : List ReductionRule} {t u : Term}

theorem reducePass_of_root_some (h : reduceRoot rules t = .ok (some u)) :
    reducePass rules t = .ok (some u) := by
  rw [reducePass.eq_def, h]
  rfl

theorem reducePass_of_root_error {error : DomainError} (h : reduceRoot rules t = .error error) :
    reducePass rules t = .error error := by
  rw [reducePass.eq_def, h]
  rfl

theorem reducePass_variadic {op : Variadic} {ts : List Term}
    (h : reduceRoot rules (.variadic op ts) = .ok none) :
    reducePass rules (.variadic op ts) = do
      return (← reduceOperands rules ts).map (.variadic op) := by
  rw [reducePass.eq_def, h]
  rfl

theorem reducePass_binary {op : Binary} {l r : Term}
    (h : reduceRoot rules (.binary op l r) = .ok none) :
    reducePass rules (.binary op l r) = do
      let l? ← reducePass rules l
      let r? ← reducePass rules r
      return (changedParts l r l? r?).map fun parts => .binary op parts.1 parts.2 := by
  rw [reducePass.eq_def, h]
  rfl

theorem reducePass_of_atom (h : reduceRoot rules t = .ok none)
    (variadic : ∀ op ts, t ≠ .variadic op ts) (binary : ∀ op l r, t ≠ .binary op l r) :
    reducePass rules t = .ok none := by
  rw [reducePass.eq_def, h]
  cases t with
  | variadic op ts => exact absurd rfl (variadic op ts)
  | binary op l r => exact absurd rfl (binary op l r)
  | _ => rfl

theorem reduceOperands_cons (rules : List ReductionRule) (t : Term) (ts : List Term) :
    reduceOperands rules (t :: ts) = do
      let t? ← reducePass rules t
      let ts? ← reduceOperands rules ts
      return (changedParts t ts t? ts?).map fun parts => parts.1 :: parts.2 := by
  rw [reduceOperands]

/-- Either a pass ends at the root, with a term or an error, or no rule applies there. -/
theorem reduceRoot_of_reducePass {result : Except DomainError (Option Term)}
    (h : reducePass rules t = result) :
    reduceRoot rules t = result ∨ reduceRoot rules t = .ok none := by
  cases root : reduceRoot rules t with
  | error error => exact .inl ((reducePass_of_root_error root).symm.trans h)
  | ok u? =>
    cases u? with
    | none => exact .inr rfl
    | some u => exact .inl ((reducePass_of_root_some root).symm.trans h)

end Equations

/-! ### Single rewritings -/

/-- A single rewriting: somewhere in the term, what the first rule that applies there makes of a
subterm takes its place. -/
inductive Rewrites (rules : List ReductionRule) : Term → Term → Prop where
  | root {t u : Term} (h : reduceRoot rules t = .ok (some u)) : Rewrites rules t u
  | operand {t u : Term} (op : Variadic) (before after : List Term) (h : Rewrites rules t u) :
      Rewrites rules (.variadic op (before ++ t :: after)) (.variadic op (before ++ u :: after))
  | left {t u : Term} (op : Binary) (r : Term) (h : Rewrites rules t u) :
      Rewrites rules (.binary op t r) (.binary op u r)
  | right {t u : Term} (op : Binary) (l : Term) (h : Rewrites rules t u) :
      Rewrites rules (.binary op l t) (.binary op l u)

/-- What all operands have before and after the replacement of one of them. -/
theorem forall_mem_replace {P : Term → Prop} {before after : List Term} {t u : Term}
    (h : ∀ v ∈ before ++ t :: after, P v) (hu : P u) : ∀ v ∈ before ++ u :: after, P v := by
  rw [List.forall_mem_append, List.forall_mem_cons] at h ⊢
  exact ⟨h.1, hu, h.2.2⟩

/-- Two independent parts change one after the other. -/
theorem transGen_of_changedParts {α β γ : Type} {r : α → α → Prop} {s : β → β → Prop}
    {q : γ → γ → Prop} {f : α → β → γ} {a : α} {b : β} {a? : Option α} {b? : Option β}
    {parts : α × β} (first : ∀ a a' b, r a a' → q (f a b) (f a' b))
    (second : ∀ a b b', s b b' → q (f a b) (f a b'))
    (ha : ∀ a', a? = some a' → TransGen r a a') (hb : ∀ b', b? = some b' → TransGen s b b')
    (h : changedParts a b a? b? = some parts) : TransGen q (f a b) (f parts.1 parts.2) := by
  -- each part changes within the whole, whatever the other one is
  have liftFirst : ∀ a' c, a? = some a' → TransGen q (f a c) (f a' c) := fun a' c e =>
    (ha a' e).lift (f · c) fun x y => first x y c
  have liftSecond : ∀ b' c, b? = some b' → TransGen q (f c b) (f c b') := fun b' c e =>
    (hb b' e).lift (f c) (second c)
  cases a? with
  | none =>
    cases b? with
    | none => simp [changedParts] at h
    | some b' =>
      obtain rfl : (a, b') = parts := by simpa [changedParts] using h
      exact liftSecond b' a rfl
  | some a' =>
    cases b? with
    | none =>
      obtain rfl : (a', b) = parts := by simpa [changedParts] using h
      exact liftFirst a' b rfl
    | some b' =>
      -- the second part changes where the first has changed already
      obtain rfl : (a', b') = parts := by simpa [changedParts] using h
      exact (liftFirst a' b rfl).trans (liftSecond b' a' rfl)

section Rewritings

variable {rules : List ReductionRule}

/-- The operands of a list that a pass goes over are rewritten one after the other. -/
theorem transGen_of_reduceOperands (op : Variadic) {ts us : List Term}
    (ih : ∀ t ∈ ts, ∀ u, reducePass rules t = .ok (some u) → TransGen (Rewrites rules) t u)
    (h : reduceOperands rules ts = .ok (some us)) :
    TransGen (fun vs ws => ∀ before : List Term,
      Rewrites rules (.variadic op (before ++ vs)) (.variadic op (before ++ ws))) ts us := by
  induction ts generalizing us with
  | nil => simp [reduceOperands] at h
  | cons t ts ihts =>
    rw [reduceOperands_cons, bind_eq_ok] at h
    obtain ⟨t?, ht, h⟩ := h
    obtain ⟨ts?, hts, h⟩ := bind_eq_ok.1 h
    rw [pure_eq_ok, Option.map_eq_some_iff] at h
    obtain ⟨parts, changed, rfl⟩ := h
    refine transGen_of_changedParts (f := List.cons) (r := Rewrites rules)
      (s := fun vs ws => ∀ before : List Term,
        Rewrites rules (.variadic op (before ++ vs)) (.variadic op (before ++ ws)))
      ?_ ?_ ?_ ?_ changed
    · intro v v' vs hv before
      exact .operand op before vs hv
    · intro v vs vs' hvs before
      -- the head joins the operands that come before
      simpa using hvs (before ++ [v])
    · rintro u rfl
      exact ih t List.mem_cons_self u ht
    · rintro us rfl
      exact ihts (fun t mem => ih t (List.mem_cons_of_mem _ mem)) hts

/-- A pass that changes a term is a sequence of rewritings. -/
theorem transGen_rewrites_of_reducePass {t u : Term} (h : reducePass rules t = .ok (some u)) :
    TransGen (Rewrites rules) t u := by
  induction t using Term.induction generalizing u with
  | variadic op ts ih =>
    rcases reduceRoot_of_reducePass h with hroot | hroot
    · exact .single (.root hroot)
    rw [reducePass_variadic hroot] at h
    obtain ⟨ts?, hts, h⟩ := bind_eq_ok.1 h
    rw [pure_eq_ok, Option.map_eq_some_iff] at h
    obtain ⟨us, rfl, rfl⟩ := h
    -- at the beginning there are no operands before those of the list
    have steps := transGen_of_reduceOperands op (fun t mem u => ih t mem) hts
    exact steps.lift (Term.variadic op) fun vs ws hvs => hvs []
  | binary op l r ihl ihr =>
    rcases reduceRoot_of_reducePass h with hroot | hroot
    · exact .single (.root hroot)
    rw [reducePass_binary hroot] at h
    obtain ⟨l?, hl, h⟩ := bind_eq_ok.1 h
    obtain ⟨r?, hr, h⟩ := bind_eq_ok.1 h
    rw [pure_eq_ok, Option.map_eq_some_iff] at h
    obtain ⟨parts, changed, rfl⟩ := h
    refine transGen_of_changedParts (f := Term.binary op) (r := Rewrites rules)
      (s := Rewrites rules) ?_ ?_ ?_ ?_ changed
    · exact fun l l' r => .left op r
    · exact fun l r r' => .right op l
    · rintro l' rfl
      exact ihl hl
    · rintro r' rfl
      exact ihr hr
  | _ =>
    rcases reduceRoot_of_reducePass h with hroot | hroot
    · exact .single (.root hroot)
    · simp [reducePass_of_atom hroot] at h

/-! ### Passes that change nothing and passes that fail -/

theorem reduceOperands_eq_none_iff {ts : List Term} :
    reduceOperands rules ts = .ok none ↔ ∀ t ∈ ts, reducePass rules t = .ok none := by
  induction ts with
  | nil => simp [reduceOperands]
  | cons t ts ih =>
    rw [reduceOperands_cons, List.forall_mem_cons, ← ih]
    simp only [bind_eq_ok, pure_eq_ok, Option.map_eq_none_iff, changedParts_eq_none_iff]
    constructor
    · rintro ⟨t?, ht, ts?, hts, rfl, rfl⟩
      exact ⟨ht, hts⟩
    · rintro ⟨ht, hts⟩
      exact ⟨none, ht, none, hts, rfl, rfl⟩

theorem exists_operand_of_reduceOperands_eq_error {ts : List Term} {error : DomainError}
    (h : reduceOperands rules ts = .error error) :
    ∃ t ∈ ts, reducePass rules t = .error error := by
  induction ts with
  | nil => simp [reduceOperands] at h
  | cons t ts ih =>
    rw [reduceOperands_cons, bind_eq_error] at h
    rcases h with h | ⟨t?, -, h⟩
    · exact ⟨t, List.mem_cons_self, h⟩
    rcases bind_eq_error.1 h with h | ⟨ts?, -, h⟩
    · obtain ⟨u, mem, hu⟩ := ih h
      exact ⟨u, List.mem_cons_of_mem _ mem, hu⟩
    · exact absurd h pure_ne_error

theorem reduceRoot_eq_none_of_reducePass {t : Term} (h : reducePass rules t = .ok none) :
    reduceRoot rules t = .ok none := by
  rcases reduceRoot_of_reducePass h with hroot | hroot
  · exact hroot
  · exact hroot

/-- A pass changes nothing exactly if no rule applies to any subterm. -/
theorem reducePass_eq_none_iff {t : Term} :
    reducePass rules t = .ok none ↔ ∀ u ∈ t.subterms, reduceRoot rules u = .ok none := by
  induction t using Term.induction with
  | variadic op ts ih =>
    have operands : reduceOperands rules ts = .ok none ↔
        ∀ t ∈ ts, ∀ u ∈ t.subterms, reduceRoot rules u = .ok none :=
      reduceOperands_eq_none_iff.trans (forall₂_congr ih)
    constructor
    · intro h u hu
      have hroot := reduceRoot_eq_none_of_reducePass h
      rw [reducePass_variadic hroot] at h
      simp only [bind_eq_ok, pure_eq_ok, Option.map_eq_none_iff, exists_eq_right] at h
      rcases Term.mem_subterms_variadic.1 hu with rfl | ⟨t, mem, hu⟩
      · exact hroot
      · exact operands.1 h t mem u hu
    · intro h
      rw [reducePass_variadic (h _ (Term.mem_subterms_self _)), operands.2 fun t mem u hu =>
        h u (Term.mem_subterms_trans hu (Term.mem_subterms_operand mem))]
      rfl
  | binary op l r ihl ihr =>
    constructor
    · intro h u hu
      have hroot := reduceRoot_eq_none_of_reducePass h
      rw [reducePass_binary hroot] at h
      simp only [bind_eq_ok, pure_eq_ok, Option.map_eq_none_iff, changedParts_eq_none_iff] at h
      obtain ⟨l?, hl, r?, hr, rfl, rfl⟩ := h
      rcases Term.mem_subterms_binary.1 hu with rfl | hu | hu
      · exact hroot
      · exact ihl.1 hl u hu
      · exact ihr.1 hr u hu
    · intro h
      rw [reducePass_binary (h _ (Term.mem_subterms_self _)),
        ihl.2 fun u hu => h u (Term.mem_subterms_trans hu Term.mem_subterms_left),
        ihr.2 fun u hu => h u (Term.mem_subterms_trans hu Term.mem_subterms_right)]
      rfl
  | _ =>
    constructor
    · intro h u hu
      obtain rfl : u = _ := by simpa [Term.subterms] using hu
      exact reduceRoot_eq_none_of_reducePass h
    · intro h
      exact reducePass_of_atom (h _ (Term.mem_subterms_self _)) (by simp) (by simp)

/-- Where a pass changes nothing, it changes nothing in a part either. -/
theorem reducePass_eq_none_of_subterm {t u : Term} (h : reducePass rules t = .ok none)
    (mem : u ∈ t.subterms) : reducePass rules u = .ok none := by
  rw [reducePass_eq_none_iff] at h ⊢
  intro v part
  exact h v (Term.mem_subterms_trans part mem)

/-- An error of a pass is the error of the first rule that applies to some subterm. -/
theorem exists_subterm_of_reducePass_eq_error {t : Term} {error : DomainError}
    (h : reducePass rules t = .error error) :
    ∃ u ∈ t.subterms, reduceRoot rules u = .error error := by
  induction t using Term.induction with
  | variadic op ts ih =>
    rcases reduceRoot_of_reducePass h with failed | hroot
    · exact ⟨_, Term.mem_subterms_self _, failed⟩
    rw [reducePass_variadic hroot] at h
    simp only [bind_eq_error, pure_ne_error, and_false, exists_false, or_false] at h
    obtain ⟨t, mem, ht⟩ := exists_operand_of_reduceOperands_eq_error h
    obtain ⟨u, hu, failed⟩ := ih t mem ht
    exact ⟨u, Term.mem_subterms_trans hu (Term.mem_subterms_operand mem), failed⟩
  | binary op l r ihl ihr =>
    rcases reduceRoot_of_reducePass h with failed | hroot
    · exact ⟨_, Term.mem_subterms_self _, failed⟩
    rw [reducePass_binary hroot] at h
    simp only [bind_eq_error, pure_ne_error, and_false, exists_false, or_false] at h
    -- the right operand is looked at only if the left one does not fail
    rcases h with hl | ⟨l?, -, hr⟩
    · obtain ⟨u, hu, failed⟩ := ihl hl
      exact ⟨u, Term.mem_subterms_trans hu Term.mem_subterms_left, failed⟩
    · obtain ⟨u, hu, failed⟩ := ihr hr
      exact ⟨u, Term.mem_subterms_trans hu Term.mem_subterms_right, failed⟩
  | _ =>
    rcases reduceRoot_of_reducePass h with failed | hroot
    · exact ⟨_, Term.mem_subterms_self _, failed⟩
    · simp [reducePass_of_atom hroot] at h

end Rewritings

/-! ### Any number of passes -/

/-- So many passes lead from one term to another, each of them changing the term. -/
inductive Passes (rules : List ReductionRule) : Nat → Term → Term → Prop where
  | refl (t : Term) : Passes rules 0 t t
  | head {n : Nat} {t u v : Term} (h : reducePass rules t = .ok (some u))
      (rest : Passes rules n u v) : Passes rules (n + 1) t v

section Sequences

variable {rules : List ReductionRule} {t u : Term} {n : Nat}

theorem Passes.reflTransGen (h : Passes rules n t u) : ReflTransGen (Rewrites rules) t u := by
  induction h with
  | refl t => exact .refl
  | head h _ ih => exact (transGen_rewrites_of_reducePass h).to_reflTransGen.trans ih

/-- Passes until none changes the term any more are as many, and lead to the same term. -/
theorem Passes.unique {m : Nat} {v : Term} (h : Passes rules n t u) (h' : Passes rules m t v)
    (stuck : ∀ w, reducePass rules u ≠ .ok (some w))
    (stuck' : ∀ w, reducePass rules v ≠ .ok (some w)) : n = m ∧ u = v := by
  induction h generalizing m with
  | refl t =>
    cases h' with
    | refl => exact ⟨rfl, rfl⟩
    | head step _ => exact absurd step (stuck _)
  | head step _ ih =>
    cases h' with
    | refl => exact absurd step (stuck' _)
    | head step' rest =>
      obtain rfl := Option.some.inj (Except.ok.inj (step.symm.trans step'))
      obtain ⟨rfl, rfl⟩ := ih rest stuck
      exact ⟨rfl, rfl⟩

/-- Passes that fit in the limit may be done first. -/
theorem reduceWithin_of_passes (h : Passes rules n t u) (limit : Nat) :
    reduceWithin rules (n + limit) t = reduceWithin rules limit u := by
  induction h with
  | refl t => rw [Nat.zero_add]
  | @head n t u v h _ ih =>
    rw [Nat.succ_add, reduceWithin.eq_def, h]
    exact ih

theorem reduceWithin_of_none (h : reducePass rules t = .ok none) (limit : Nat) :
    reduceWithin rules limit t = .ok t := by
  rw [reduceWithin.eq_def, h]

theorem reduceWithin_of_error {error : DomainError} (h : reducePass rules t = .error error)
    (limit : Nat) : reduceWithin rules limit t = .error (.domain error) := by
  rw [reduceWithin.eq_def, h]

/-- Passes within a limit end with a term on which a pass changes nothing or fails, or because the
limit is reached. -/
theorem exists_passes_of_limit (rules : List ReductionRule) (limit : Nat) (t : Term) :
    ∃ n u, Passes rules n t u ∧
      ((reducePass rules u = .ok none ∧ reduceWithin rules limit t = .ok u) ∨
        (∃ error, reducePass rules u = .error error ∧
          reduceWithin rules limit t = .error (.domain error)) ∨
        (n = limit ∧ reduceWithin rules limit t = .error .passLimit)) := by
  induction limit generalizing t with
  | zero =>
    refine ⟨0, t, .refl t, ?_⟩
    cases pass : reducePass rules t with
    | error error => exact .inr (.inl ⟨error, rfl, reduceWithin_of_error pass 0⟩)
    | ok u? =>
      cases u? with
      | none => exact .inl ⟨rfl, reduceWithin_of_none pass 0⟩
      | some u =>
        refine .inr (.inr ⟨rfl, ?_⟩)
        rw [reduceWithin.eq_def, pass]
  | succ limit ih =>
    cases pass : reducePass rules t with
    | error error =>
      exact ⟨0, t, .refl t, .inr (.inl ⟨error, pass, reduceWithin_of_error pass _⟩)⟩
    | ok u? =>
      cases u? with
      | none => exact ⟨0, t, .refl t, .inl ⟨pass, reduceWithin_of_none pass _⟩⟩
      | some u =>
        -- the first pass is followed by those that the rest of the limit allows
        have rest : reduceWithin rules (limit + 1) t = reduceWithin rules limit u := by
          rw [reduceWithin.eq_def, pass]
        obtain ⟨n, v, passes, ending⟩ := ih u
        rw [← rest] at ending
        refine ⟨n + 1, v, .head pass passes, ?_⟩
        rcases ending with normal | failed | ⟨reached, limited⟩
        · exact .inl normal
        · exact .inr (.inl failed)
        · exact .inr (.inr ⟨by rw [reached], limited⟩)

/-- What passes within a limit end with is reached by passes, and a pass changes nothing there. -/
theorem exists_passes_of_reduceWithin_eq_ok {limit : Nat}
    (h : reduceWithin rules limit t = .ok u) :
    ∃ n, Passes rules n t u ∧ reducePass rules u = .ok none := by
  obtain ⟨n, v, passes, ⟨normal, result⟩ | ⟨error, -, result⟩ | ⟨-, result⟩⟩ :=
    exists_passes_of_limit rules limit t
  · obtain rfl := Except.ok.inj (result.symm.trans h)
    exact ⟨n, passes, normal⟩
  · cases result.symm.trans h
  · cases result.symm.trans h

/-- What passes end with is a term on which a pass changes nothing. -/
theorem reducePass_of_reduceWithin {limit : Nat} (h : reduceWithin rules limit t = .ok u) :
    reducePass rules u = .ok none := by
  obtain ⟨-, -, normal⟩ := exists_passes_of_reduceWithin_eq_ok h
  exact normal

/-- What passes within a limit end with is reached by passes. -/
theorem exists_passes_of_reduceWithin {limit : Nat} (h : reduceWithin rules limit t = .ok u) :
    ∃ n, Passes rules n t u := by
  obtain ⟨n, passes, -⟩ := exists_passes_of_reduceWithin_eq_ok h
  exact ⟨n, passes⟩

/-- Passes within a limit fail because a pass over a term that passes lead to does. -/
theorem exists_passes_of_reduceWithin_eq_error {limit : Nat} {error : DomainError}
    (h : reduceWithin rules limit t = .error (.domain error)) :
    ∃ n v, Passes rules n t v ∧ reducePass rules v = .error error := by
  obtain ⟨n, v, passes, ⟨-, result⟩ | ⟨error', failed, result⟩ | ⟨-, result⟩⟩ :=
    exists_passes_of_limit rules limit t
  · cases result.symm.trans h
  · obtain rfl : error' = error := by simpa using result.symm.trans h
    exact ⟨n, v, passes, failed⟩
  · cases result.symm.trans h

/-- Repeated passes come to an end if each of them makes a measure smaller. The measure may be
tied to a property that passes preserve. -/
theorem exists_passes_of_measure (rules : List ReductionRule) (measure : Term → Nat)
    (P : Term → Prop)
    (step : ∀ t u, P t → reducePass rules t = .ok (some u) → P u ∧ measure u < measure t)
    (ht : P t) :
    ∃ n ≤ measure t, ∃ u, Passes rules n t u ∧ P u ∧
      (reducePass rules u = .ok none ∨ ∃ error, reducePass rules u = .error error) := by
  -- induction on the measure: a pass either ends the sequence or leads to a smaller term
  induction hm : measure t using Nat.strongRecOn generalizing t with
  | ind m ih =>
    cases hp : reducePass rules t with
    | error e => exact ⟨0, Nat.zero_le m, t, .refl t, ht, .inr ⟨e, hp⟩⟩
    | ok v? =>
      cases v? with
      | none => exact ⟨0, Nat.zero_le m, t, .refl t, ht, .inl hp⟩
      | some v =>
        obtain ⟨hv, lt⟩ := step t v ht hp
        obtain ⟨n, hn, u, passes, hu⟩ := ih (measure v) (hm ▸ lt) hv rfl
        exact ⟨n + 1, by omega, u, .head hp passes, hu⟩

end Sequences

end InequalityChaining

import Mathlib.Data.Multiset.ZeroCons
import Mathlib.Data.Multiset.AddSub
import InequalityChaining.Proofs.Number.ExactOrder
import InequalityChaining.Proofs.Term.Parts

/-!
# The laws of equality

Equality is symmetric and transitive, and on terms without undefined constants it is an equivalence
relation, where two sums or products are equal exactly if their operands, as multisets, are equal
one by one. Taking the first equal operand out of a list is as good as taking out the right one,
because equality is transitive; so the laws of equality and the meaning of pairing off are proved
together, by induction on the size of terms.

## Main definitions

* `Term.isDefined` — whether all constants of a term are defined
* `Term.EquivalenceOn` — equality is an equivalence relation on the terms with a property

## Main results

* `Term.equal_constant_iff` and its kin — what equals a term of a given shape
* `Term.equivalenceOn_isReflexive` — the laws of equality
* `Term.equal_variadic_iff_equalOperands` — sums and products are compared as multisets
-/

namespace InequalityChaining

namespace Term

/-- Whether the term is an undefined constant by itself. -/
def isUndefinedConstant : Term → Bool
  | constant value => !value.isDefined
  | _ => false

/-- Whether all constants in the term are defined. -/
def isDefined (t : Term) : Bool := !t.any isUndefinedConstant

section Defined

variable {op : Variadic} {o : Binary} {ts : List Term} {l r t : Term}

@[simp] theorem isDefined_constant {value : Number} :
    (constant value).isDefined = value.isDefined := by
  simp [isDefined, any, subterms, isUndefinedConstant]

@[simp] theorem isDefined_var {name : String} : (var name).isDefined = true := rfl

@[simp] theorem isDefined_placeholder {name : String} {kind : PlaceholderKind} :
    (placeholder name kind).isDefined = true := rfl

@[simp] theorem isDefined_variadic : (variadic op ts).isDefined ↔ ∀ t ∈ ts, t.isDefined := by
  simp [isDefined, any_variadic, isUndefinedConstant]

@[simp] theorem isDefined_binary : (binary o l r).isDefined ↔ l.isDefined ∧ r.isDefined := by
  simp [isDefined, any_binary, isUndefinedConstant]

theorem isDefined_of_mem_subterms {u : Term} (h : t.isDefined) (mem : u ∈ t.subterms) :
    u.isDefined := by
  simp only [isDefined, any, Bool.not_eq_true', List.any_eq_false] at h ⊢
  exact fun v inner => h v (mem_subterms_trans inner mem)

/-- A term without undefined constants is equal to itself. -/
theorem isReflexive_of_isDefined (h : t.isDefined) : t.isReflexive := by
  induction t using Term.induction with
  | constant value => simpa [isReflexive] using h
  | binary o l r ihl ihr =>
    obtain ⟨hl, hr⟩ := isDefined_binary.1 h
    simp [isReflexive, ihl hl, ihr hr]
  | _ => rfl

end Defined

/-! ### What equals a term of a given shape -/

section Shapes

variable {t : Term}

theorem equal_constant_iff {value : Number} :
    equal (constant value) t ↔ ∃ value', t = constant value' ∧ value == value' := by
  cases t <;> simp [equal]

theorem equal_var_iff {name : String} : equal (var name) t ↔ t = var name := by
  cases t with
  | var name' =>
    simp only [equal, beq_iff_eq, var.injEq]
    exact eq_comm
  | _ => simp [equal]

theorem equal_placeholder_iff {name : String} {kind : PlaceholderKind} :
    equal (placeholder name kind) t ↔ t = placeholder name kind := by
  cases t with
  | placeholder name' kind' =>
    simp only [equal, Bool.and_eq_true, beq_iff_eq, placeholder.injEq]
    exact and_congr eq_comm eq_comm
  | _ => simp [equal]

theorem equal_variadic_iff {op : Variadic} {as : List Term} :
    equal (variadic op as) t ↔
      ∃ bs, t = variadic op bs ∧ as.length = bs.length ∧ pairOff as bs := by
  cases t with
  | variadic op' bs =>
    simp only [equal, Bool.and_eq_true, beq_iff_eq, variadic.injEq]
    constructor
    · rintro ⟨⟨rfl, len⟩, pairs⟩
      exact ⟨bs, ⟨rfl, rfl⟩, len, pairs⟩
    · rintro ⟨bs', ⟨rfl, rfl⟩, len, pairs⟩
      exact ⟨⟨rfl, len⟩, pairs⟩
  | _ => simp [equal]

theorem equal_binary_iff {op : Binary} {l r : Term} :
    equal (binary op l r) t ↔ ∃ l' r', t = binary op l' r' ∧ equal l l' ∧ equal r r' := by
  cases t with
  | binary op' l' r' =>
    simp only [equal, Bool.and_eq_true, beq_iff_eq, binary.injEq]
    constructor
    · rintro ⟨⟨rfl, left⟩, right⟩
      exact ⟨l', r', ⟨rfl, rfl, rfl⟩, left, right⟩
    · rintro ⟨l₁, r₁, ⟨rfl, rfl, rfl⟩, left, right⟩
      exact ⟨⟨rfl, left⟩, right⟩
  | _ => simp [equal]

end Shapes

/-- Terms that are equal to something are equal to themselves. -/
theorem isReflexive_of_equal {a b : Term} (h : equal a b) : a.isReflexive ∧ b.isReflexive := by
  induction a using Term.induction generalizing b with
  | constant value =>
    obtain ⟨value', rfl, same⟩ := equal_constant_iff.1 h
    exact ⟨(Number.beq_iff.1 same).1, (Number.beq_iff.1 (Number.beq_symm same)).1⟩
  | binary op l r ihl ihr =>
    obtain ⟨l', r', rfl, left, right⟩ := equal_binary_iff.1 h
    simp [isReflexive, ihl left, ihr right]
  | var name =>
    obtain rfl := equal_var_iff.1 h
    exact ⟨rfl, rfl⟩
  | placeholder name kind =>
    obtain rfl := equal_placeholder_iff.1 h
    exact ⟨rfl, rfl⟩
  | variadic op as =>
    obtain ⟨bs, rfl, -, -⟩ := equal_variadic_iff.1 h
    exact ⟨rfl, rfl⟩

/-! ### Pairing off -/

/-- Equality is an equivalence relation among the terms with the property, none of which is
ignored when operands are paired off. -/
structure EquivalenceOn (P : Term → Prop) : Prop where
  isReflexive : ∀ {a}, P a → a.isReflexive
  refl : ∀ {a}, P a → equal a a
  symm : ∀ {a b}, P a → P b → equal a b → equal b a
  trans : ∀ {a b c}, P a → P b → P c → equal a b → equal b c → equal a c

/-- The laws hold of a stronger property as well. -/
theorem EquivalenceOn.mono {P Q : Term → Prop} (laws : EquivalenceOn P) (h : ∀ {a}, Q a → P a) :
    EquivalenceOn Q where
  isReflexive ha := laws.isReflexive (h ha)
  refl ha := laws.refl (h ha)
  symm ha hb := laws.symm (h ha) (h hb)
  trans ha hb hc := laws.trans (h ha) (h hb) (h hc)

/-- The operands of two lists are equal one by one, in some order. -/
abbrev EqualOperands (as bs : Multiset Term) : Prop :=
  Multiset.Rel (fun a b => equal a b = true) as bs

section PairOff

variable {P : Term → Prop} {a : Term} {as bs cs : List Term}

/-- Only operands that are equal to themselves are paired off. -/
theorem pairOff_filter (as bs : List Term) :
    pairOff as bs = pairOff (as.filter isReflexive) (bs.filter isReflexive) := by
  induction as generalizing bs with
  | nil =>
    rw [List.filter_nil, pairOff, pairOff, List.all_filter]
    simp
  | cons a as ih =>
    rw [pairOff]
    split
    · next reflexive =>
      -- what equals an operand is not left out of the other list
      have kept : ∀ b, (equal a b && b.isReflexive) = equal a b := by
        intro b
        cases h : equal a b with
        | false => rfl
        | true => exact (isReflexive_of_equal h).2
      rw [List.filter_cons_of_pos reflexive, pairOff, if_pos reflexive, ih, List.any_filter,
        List.eraseP_filter]
      simp only [kept, Bool.and_comm]
    · next irreflexive => rw [List.filter_cons_of_neg irreflexive, ih]

/-- The first equal operand that is taken out of a list is one of its members. -/
theorem exists_cons_eraseP (h : bs.any (equal a)) :
    ∃ b, equal a b ∧ (bs : Multiset Term) = b ::ₘ (bs.eraseP (equal a) : List Term) := by
  obtain ⟨c, mem, hc⟩ := List.any_eq_true.1 h
  obtain ⟨b, before, after, -, hb, rfl, erased⟩ := List.exists_of_eraseP mem hc
  refine ⟨b, hb, ?_⟩
  rw [erased, Multiset.cons_coe, Multiset.coe_eq_coe]
  exact List.perm_middle

theorem equalOperands_of_pairOff (laws : EquivalenceOn P) (has : ∀ a ∈ as, P a)
    (hbs : ∀ b ∈ bs, P b) (h : pairOff as bs) : EqualOperands as bs := by
  induction as generalizing bs with
  | nil =>
    cases bs with
    | nil => exact .zero
    | cons b bs =>
      have reflexive := laws.isReflexive (hbs b List.mem_cons_self)
      simp [pairOff, reflexive] at h
  | cons a as ih =>
    rw [pairOff, if_pos (laws.isReflexive (has a List.mem_cons_self)), Bool.and_eq_true] at h
    obtain ⟨b, hb, split⟩ := exists_cons_eraseP h.1
    rw [← Multiset.cons_coe, split]
    refine .cons hb (ih (fun x mem => has x (List.mem_cons_of_mem _ mem)) (fun x mem => ?_) h.2)
    exact hbs x (List.mem_of_mem_eraseP mem)

/-- If a list can be paired with another that starts with one of two equal operands, then also
with the one that starts with the other. -/
theorem equalOperands_exchange (laws : EquivalenceOn P) {b b' : Term} {cs : Multiset Term}
    (has : ∀ a ∈ as, P a) (hb : P b) (hb' : P b') (same : equal b b')
    (h : EqualOperands as (b ::ₘ cs)) : EqualOperands as (b' ::ₘ cs) := by
  obtain ⟨a, as', hab, rest, split⟩ := Multiset.rel_cons_right.1 h
  have mem : a ∈ (as : Multiset Term) := split ▸ Multiset.mem_cons_self a as'
  have pa : P a := has a (Multiset.mem_coe.1 mem)
  rw [split]
  exact .cons (laws.trans pa hb hb' hab same) rest

theorem pairOff_of_equalOperands (laws : EquivalenceOn P) (has : ∀ a ∈ as, P a)
    (hbs : ∀ b ∈ bs, P b) (h : EqualOperands as bs) : pairOff as bs := by
  induction as generalizing bs with
  | nil =>
    obtain rfl : bs = [] := by simpa using Multiset.rel_zero_left.1 h
    rfl
  | cons a as ih =>
    have pa := has a List.mem_cons_self
    have pas : ∀ x ∈ as, P x := fun x mem => has x (List.mem_cons_of_mem _ mem)
    rw [← Multiset.cons_coe] at h
    obtain ⟨b, bs', hb, rest, split⟩ := Multiset.rel_cons_left.1 h
    have mem : b ∈ bs := Multiset.mem_coe.1 (split ▸ Multiset.mem_cons_self b bs')
    have found : bs.any (equal a) := List.any_eq_true.2 ⟨b, mem, hb⟩
    rw [pairOff, if_pos (laws.isReflexive pa), found, Bool.true_and]
    refine ih pas (fun x hx => hbs x (List.mem_of_mem_eraseP hx)) ?_
    obtain ⟨first, hfirst, split'⟩ := exists_cons_eraseP found
    have memFirst : first ∈ bs := by
      have := Multiset.mem_cons_self first (bs.eraseP (equal a) : List Term)
      rwa [← split', Multiset.mem_coe] at this
    -- the operand that is taken out need not be the one that `a` was paired with
    rcases Multiset.cons_eq_cons.1 (split.symm.trans split') with ⟨-, same⟩ | ⟨-, cs, left, right⟩
    · exact same ▸ rest
    · rw [right]
      refine equalOperands_exchange laws pas (hbs first memFirst) (hbs b mem) ?_ (left ▸ rest)
      exact laws.trans (hbs first memFirst) pa (hbs b mem)
        (laws.symm pa (hbs first memFirst) hfirst) hb

/-- What pairs off are the operands that are equal to themselves, in some order. -/
theorem pairOff_iff_equalOperands_filter (laws : EquivalenceOn P)
    (has : ∀ a ∈ as.filter isReflexive, P a) (hbs : ∀ b ∈ bs.filter isReflexive, P b) :
    pairOff as bs ↔ EqualOperands (as.filter isReflexive) (bs.filter isReflexive) := by
  rw [pairOff_filter]
  exact ⟨equalOperands_of_pairOff laws has hbs, pairOff_of_equalOperands laws has hbs⟩

/-- Operands that pair off with defined ones are defined, if what equals one of these is. -/
theorem isDefined_of_pairOff (has : ∀ a ∈ as, a.isDefined) (len : as.length = bs.length)
    (inherit : ∀ a ∈ as, ∀ b, equal a b → b.isDefined) (h : pairOff as bs) :
    ∀ b ∈ bs, b.isDefined := by
  induction as generalizing bs with
  | nil =>
    obtain rfl : bs = [] := List.eq_nil_of_length_eq_zero len.symm
    simp
  | cons a as ih =>
    have reflexive := isReflexive_of_isDefined (has a List.mem_cons_self)
    rw [pairOff, if_pos reflexive, Bool.and_eq_true] at h
    obtain ⟨first, same, split⟩ := exists_cons_eraseP h.1
    have count := congrArg Multiset.card split
    simp only [Multiset.card_cons, Multiset.coe_card] at count
    intro b mem
    -- the operand that is taken out equals one of the defined ones, the others are left to pair
    have mem : b ∈ first ::ₘ (bs.eraseP (equal a) : List Term) := split ▸ Multiset.mem_coe.2 mem
    rcases Multiset.mem_cons.1 mem with rfl | mem
    · exact inherit a List.mem_cons_self b same
    · refine ih (fun a mem => has a (List.mem_cons_of_mem _ mem)) ?_
        (fun a mem => inherit a (List.mem_cons_of_mem _ mem)) h.2 b (Multiset.mem_coe.1 mem)
      rw [List.length_cons] at len
      omega

/-- What equals a term without undefined constants has none either. -/
theorem isDefined_of_equal {a b : Term} (defined : a.isDefined) (h : equal a b) : b.isDefined := by
  induction a using Term.induction generalizing b with
  | constant value =>
    obtain ⟨value', rfl, same⟩ := equal_constant_iff.1 h
    exact isDefined_constant.trans (Number.beq_iff.1 (Number.beq_symm same)).1
  | var name =>
    obtain rfl := equal_var_iff.1 h
    rfl
  | placeholder name kind =>
    obtain rfl := equal_placeholder_iff.1 h
    rfl
  | variadic op as ih =>
    obtain ⟨bs, rfl, len, pairs⟩ := equal_variadic_iff.1 h
    rw [isDefined_variadic] at defined ⊢
    exact isDefined_of_pairOff defined len (fun a mem b => ih a mem (defined a mem)) pairs
  | binary op l r ihl ihr =>
    obtain ⟨l', r', rfl, left, right⟩ := equal_binary_iff.1 h
    rw [isDefined_binary] at defined ⊢
    exact ⟨ihl defined.1 left, ihr defined.2 right⟩

theorem equalOperands_trans (laws : EquivalenceOn P) {as bs cs : Multiset Term}
    (has : ∀ a ∈ as, P a) (hbs : ∀ b ∈ bs, P b) (hcs : ∀ c ∈ cs, P c)
    (hab : EqualOperands as bs) (hbc : EqualOperands bs cs) : EqualOperands as cs := by
  -- equality of terms with the property is transitive without conditions
  let same : Term → Term → Prop := fun a b => P a ∧ P b ∧ equal a b
  have : IsTrans Term same := ⟨fun _ _ _ h h' => ⟨h.1, h'.2.1, laws.trans h.1 h.2.1 h'.2.1
    h.2.2 h'.2.2⟩⟩
  have left : Multiset.Rel same as bs := hab.mono fun a ha b hb h => ⟨has a ha, hbs b hb, h⟩
  have right : Multiset.Rel same bs cs := hbc.mono fun b hb c hc h => ⟨hbs b hb, hcs c hc, h⟩
  exact (left.trans same right).mono fun _ _ _ _ h => h.2.2

theorem equalOperands_symm (laws : EquivalenceOn P) {as bs : Multiset Term}
    (has : ∀ a ∈ as, P a) (hbs : ∀ b ∈ bs, P b) (h : EqualOperands as bs) :
    EqualOperands bs as :=
  Multiset.rel_flip.1 (h.mono fun a ha b hb => laws.symm (has a ha) (hbs b hb))

end PairOff

/-! ### The laws -/

theorem size_le_sizeOfAll {t : Term} {ts : List Term} (mem : t ∈ ts) : t.size ≤ sizeOfAll ts := by
  obtain ⟨before, after, rfl⟩ := List.append_of_mem mem
  simp only [sizeOfAll_append, sizeOfAll]
  omega

section Succ

variable {n : Nat} {a b c : Term}

/-- Of the operands only those that are equal to themselves count, and they are smaller. -/
theorem isReflexive_and_size_lt_of_mem {op : Variadic} {ts : List Term}
    (small : (variadic op ts).size < n + 1) :
    ∀ t ∈ ts.filter isReflexive, t.isReflexive ∧ t.size < n := by
  intro t mem
  obtain ⟨mem, reflexive⟩ := List.mem_filter.1 mem
  have := size_le_sizeOfAll mem
  simp only [size] at small
  exact ⟨reflexive, by omega⟩

theorem isReflexive_and_size_lt_of_binary {op : Binary} {l r : Term}
    (reflexive : (binary op l r).isReflexive) (small : (binary op l r).size < n + 1) :
    (l.isReflexive ∧ l.size < n) ∧ (r.isReflexive ∧ r.size < n) := by
  obtain ⟨left, right⟩ := (Bool.and_eq_true _ _).mp reflexive
  simp only [size] at small
  exact ⟨⟨left, by omega⟩, ⟨right, by omega⟩⟩

variable (laws : EquivalenceOn fun t => t.isReflexive ∧ t.size < n)

include laws

/-- A term equals itself, if smaller terms satisfy the laws. -/
theorem equal_refl_of_laws (reflexive : a.isReflexive) (small : a.size < n + 1) : equal a a := by
  cases a with
  | constant value => exact equal_constant_iff.2 ⟨value, rfl, Number.beq_self_iff.2 reflexive⟩
  | variadic op ts =>
    have ht := isReflexive_and_size_lt_of_mem small
    refine equal_variadic_iff.2 ⟨ts, rfl, rfl, ?_⟩
    rw [pairOff_iff_equalOperands_filter laws ht ht]
    exact Multiset.rel_refl_of_refl_on fun t mem => laws.refl (ht t mem)
  | binary op l r =>
    obtain ⟨hl, hr⟩ := isReflexive_and_size_lt_of_binary reflexive small
    exact equal_binary_iff.2 ⟨l, r, rfl, laws.refl hl, laws.refl hr⟩
  | _ => simp [equal]

/-- Equality is symmetric, if among smaller terms it satisfies the laws. -/
theorem equal_symm_of_laws (ha : a.isReflexive) (smallA : a.size < n + 1) (hb : b.isReflexive)
    (smallB : b.size < n + 1) (h : equal a b) : equal b a := by
  cases a with
  | constant value =>
    obtain ⟨value', rfl, h⟩ := equal_constant_iff.1 h
    exact equal_constant_iff.2 ⟨value, rfl, Number.beq_symm h⟩
  | variadic op as =>
    obtain ⟨bs, rfl, len, pairs⟩ := equal_variadic_iff.1 h
    have has := isReflexive_and_size_lt_of_mem smallA
    have hbs := isReflexive_and_size_lt_of_mem smallB
    rw [pairOff_iff_equalOperands_filter laws has hbs] at pairs
    refine equal_variadic_iff.2 ⟨as, rfl, len.symm, ?_⟩
    rw [pairOff_iff_equalOperands_filter laws hbs has]
    exact equalOperands_symm laws has hbs pairs
  | binary op l r =>
    obtain ⟨l', r', rfl, left, right⟩ := equal_binary_iff.1 h
    obtain ⟨hl, hr⟩ := isReflexive_and_size_lt_of_binary ha smallA
    obtain ⟨hl', hr'⟩ := isReflexive_and_size_lt_of_binary hb smallB
    exact equal_binary_iff.2 ⟨l, r, rfl, laws.symm hl hl' left, laws.symm hr hr' right⟩
  | var name =>
    obtain rfl := equal_var_iff.1 h
    exact h
  | placeholder name kind =>
    obtain rfl := equal_placeholder_iff.1 h
    exact h

/-- Equality is transitive, if among smaller terms it satisfies the laws. -/
theorem equal_trans_of_laws (ha : a.isReflexive) (smallA : a.size < n + 1) (hb : b.isReflexive)
    (smallB : b.size < n + 1) (hc : c.isReflexive) (smallC : c.size < n + 1) (hab : equal a b)
    (hbc : equal b c) : equal a c := by
  cases a with
  | constant value =>
    obtain ⟨value', rfl, hab⟩ := equal_constant_iff.1 hab
    obtain ⟨value'', rfl, hbc⟩ := equal_constant_iff.1 hbc
    exact equal_constant_iff.2 ⟨value'', rfl, Number.beq_trans hab hbc⟩
  | variadic op as =>
    obtain ⟨bs, rfl, lenLeft, pairsLeft⟩ := equal_variadic_iff.1 hab
    obtain ⟨cs, rfl, lenRight, pairsRight⟩ := equal_variadic_iff.1 hbc
    have has := isReflexive_and_size_lt_of_mem smallA
    have hbs := isReflexive_and_size_lt_of_mem smallB
    have hcs := isReflexive_and_size_lt_of_mem smallC
    rw [pairOff_iff_equalOperands_filter laws has hbs] at pairsLeft
    rw [pairOff_iff_equalOperands_filter laws hbs hcs] at pairsRight
    refine equal_variadic_iff.2 ⟨cs, rfl, lenLeft.trans lenRight, ?_⟩
    rw [pairOff_iff_equalOperands_filter laws has hcs]
    exact equalOperands_trans laws has hbs hcs pairsLeft pairsRight
  | binary op l r =>
    obtain ⟨l', r', rfl, leftLeft, leftRight⟩ := equal_binary_iff.1 hab
    obtain ⟨l'', r'', rfl, rightLeft, rightRight⟩ := equal_binary_iff.1 hbc
    obtain ⟨hl, hr⟩ := isReflexive_and_size_lt_of_binary ha smallA
    obtain ⟨hl', hr'⟩ := isReflexive_and_size_lt_of_binary hb smallB
    obtain ⟨hl'', hr''⟩ := isReflexive_and_size_lt_of_binary hc smallC
    exact equal_binary_iff.2 ⟨l'', r'', rfl, laws.trans hl hl' hl'' leftLeft rightLeft,
      laws.trans hr hr' hr'' leftRight rightRight⟩
  | var name =>
    obtain rfl := equal_var_iff.1 hab
    exact hbc
  | placeholder name kind =>
    obtain rfl := equal_placeholder_iff.1 hab
    exact hbc

/-- If equality is an equivalence relation among smaller terms, it is one also among terms whose
operands are smaller. -/
theorem equivalenceOn_succ : EquivalenceOn fun t => t.isReflexive ∧ t.size < n + 1 where
  isReflexive h := h.1
  refl h := equal_refl_of_laws laws h.1 h.2
  symm ha hb := equal_symm_of_laws laws ha.1 ha.2 hb.1 hb.2
  trans ha hb hc := equal_trans_of_laws laws ha.1 ha.2 hb.1 hb.2 hc.1 hc.2

end Succ

theorem equivalenceOn_size_lt (n : Nat) : EquivalenceOn fun t => t.isReflexive ∧ t.size < n := by
  induction n with
  | zero => refine ⟨?_, ?_, ?_, ?_⟩ <;> simp
  | succ n ih => exact equivalenceOn_succ ih

/-- Equality is an equivalence relation on the terms that are equal to themselves. -/
theorem equivalenceOn_isReflexive : EquivalenceOn fun t => t.isReflexive where
  isReflexive h := h
  refl {a} h := (equivalenceOn_size_lt (a.size + 1)).refl ⟨h, by omega⟩
  symm {a b} ha hb := (equivalenceOn_size_lt (a.size + b.size + 1)).symm ⟨ha, by omega⟩
    ⟨hb, by omega⟩
  trans {a b c} ha hb hc := (equivalenceOn_size_lt (a.size + b.size + c.size + 1)).trans
    ⟨ha, by omega⟩ ⟨hb, by omega⟩ ⟨hc, by omega⟩

/-- Equality is an equivalence relation on terms without undefined constants. -/
theorem equivalenceOn_isDefined : EquivalenceOn fun t => t.isDefined :=
  equivalenceOn_isReflexive.mono isReflexive_of_isDefined

section Laws

variable {a b c : Term} {op : Variadic} {as bs : List Term}

theorem equal_refl (h : a.isDefined) : equal a a := equivalenceOn_isDefined.refl h

/-- Equality is symmetric, also where there are undefined constants. -/
theorem equal_symm (h : equal a b) : equal b a := by
  obtain ⟨ha, hb⟩ := isReflexive_of_equal h
  exact equivalenceOn_isReflexive.symm ha hb h

/-- Equality is transitive, also where there are undefined constants. -/
theorem equal_trans (hab : equal a b) (hbc : equal b c) : equal a c := by
  obtain ⟨ha, hb⟩ := isReflexive_of_equal hab
  exact equivalenceOn_isReflexive.trans ha hb (isReflexive_of_equal hbc).2 hab hbc

/-- Sums and products are equal exactly if their operands are, in some order. -/
theorem equal_variadic_iff_equalOperands (has : ∀ a ∈ as, a.isDefined)
    (hbs : ∀ b ∈ bs, b.isDefined) :
    equal (variadic op as) (variadic op bs) ↔ EqualOperands as bs := by
  rw [equal_variadic_iff]
  constructor
  · rintro ⟨bs', same, -, pairs⟩
    obtain rfl : bs = bs' := by simpa using same
    exact equalOperands_of_pairOff equivalenceOn_isDefined has hbs pairs
  · intro h
    refine ⟨bs, rfl, ?_, pairOff_of_equalOperands equivalenceOn_isDefined has hbs h⟩
    simpa using Multiset.card_eq_card_of_rel h

end Laws

end Term

end InequalityChaining

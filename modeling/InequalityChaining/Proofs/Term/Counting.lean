import Mathlib.Data.Multiset.ZeroCons
import Mathlib.Data.Multiset.Count
import InequalityChaining.Proofs.Term.EqualityLaws

/-!
# Counting operands

Instead of pairing operands off one can count them: a tally lists the operands that equality tells
apart, each with the number of its occurrences, and two lists of operands agree if each tally
covers the other one. A tally is built with the relation that it counts by, and an entry is found
as the first one that the relation cannot tell from the operand. Where the relation is an
equivalence, the amount of an operand is the number of its equals, and both ways of comparing come
to the same.

## Main definitions

* `IsEquivalenceOn` — an equivalence relation among the members of a type with a property
* `Tally.ofList`, `Tally.amount`, `Tally.covers` — counting the entries of a list
* `Tally.agree` — whether two lists have the same tally

## Main results

* `Tally.amount_ofList` — the amount of an entry is the number of its equals
* `Tally.agree_iff_rel` — lists have the same tally if their entries are equal one by one
* `Term.equal_variadic_eq_agree` — sums and products are equal if their operands' tallies agree
-/

namespace InequalityChaining

/-- The relation is an equivalence relation among the members with the property. -/
structure IsEquivalenceOn {α : Type} (P : α → Prop) (r : α → α → Prop) : Prop where
  refl : ∀ {a}, P a → r a a
  symm : ∀ {a b}, P a → P b → r a b → r b a
  trans : ∀ {a b c}, P a → P b → P c → r a b → r b c → r a c

/-- Distinct entries, each with the number of its occurrences. -/
abbrev Tally (α : Type) := List (α × Nat)

namespace Tally

section Definitions

variable {α : Type} (same : α → α → Bool)

/-- One more occurrence of an entry is counted with the first one that is the same. -/
def add (x : α) : Tally α → Tally α
  | [] => [(x, 1)]
  | (y, n) :: rest => if same y x then (y, n + 1) :: rest else (y, n) :: add x rest

/-- The entries of a list are counted from the left to the right. -/
def ofList (xs : List α) : Tally α := xs.foldl (fun tally x => add same x tally) []

/-- The number of occurrences of the first entry that is the same. -/
def amount (x : α) (tally : Tally α) : Nat :=
  match tally.find? fun entry => same entry.1 x with
  | some entry => entry.2
  | none => 0

/-- Whether every entry of the other tally occurs at least as often. -/
def covers (tally other : Tally α) : Bool :=
  other.all fun entry => amount same entry.1 other ≤ amount same entry.1 tally

/-- Whether the lists are equally long and the tally of each covers that of the other. -/
def agree (xs ys : List α) : Bool :=
  xs.length == ys.length && covers same (ofList same ys) (ofList same xs) &&
    covers same (ofList same xs) (ofList same ys)

end Definitions

variable {α : Type} {same : α → α → Bool} {P : α → Prop} {k x : α} {xs ys : List α}
  {tally : Tally α}

/-- Entries that are the same are the same as the same others. -/
theorem same_congr (laws : IsEquivalenceOn P fun a b => same a b) {a b : α} (ha : P a) (hb : P b)
    (hk : P k) (hab : same a b) : same a k = same b k := by
  rw [Bool.eq_iff_iff]
  exact ⟨laws.trans hb ha hk (laws.symm ha hb hab), laws.trans ha hb hk hab⟩

theorem mem_add {entry : α × Nat} (h : entry ∈ add same x tally) :
    entry.1 = x ∨ ∃ entry' ∈ tally, entry.1 = entry'.1 := by
  induction tally with
  | nil => simp_all [add]
  | cons first rest ih =>
    rw [add] at h
    split at h
    · rcases List.mem_cons.1 h with rfl | mem
      · exact .inr ⟨first, List.mem_cons_self, rfl⟩
      · exact .inr ⟨entry, List.mem_cons_of_mem _ mem, rfl⟩
    · rcases List.mem_cons.1 h with rfl | mem
      · exact .inr ⟨first, List.mem_cons_self, rfl⟩
      · rcases ih mem with eq | ⟨entry', mem', eq⟩
        · exact .inl eq
        · exact .inr ⟨entry', List.mem_cons_of_mem _ mem', eq⟩

/-- One more occurrence adds to the amounts of what is the same. -/
theorem amount_add (laws : IsEquivalenceOn P fun a b => same a b)
    (entries : ∀ entry ∈ tally, P entry.1) (hx : P x) (hk : P k) :
    amount same k (add same x tally) = amount same k tally + if same x k then 1 else 0 := by
  induction tally with
  | nil => cases h : same x k <;> simp [add, amount, h]
  | cons first rest ih =>
    obtain ⟨y, n⟩ := first
    have hy : P y := entries (y, n) List.mem_cons_self
    have ih := ih fun entry mem => entries entry (List.mem_cons_of_mem _ mem)
    rw [add]
    cases found : same y x with
    | true =>
      have congr : same y k = same x k := same_congr laws hy hx hk found
      cases h : same x k <;> simp [amount, congr, h]
    | false =>
      cases h : same y k with
      | true =>
        -- `k` is the same as this entry, which is not the same as `x`
        have other : same x k = false := by
          rw [← Bool.not_eq_true]
          intro hxk
          have := laws.trans hy hk hx h (laws.symm hx hk hxk)
          simp [found] at this
        simp [amount, h, other]
      | false => simpa [amount, h] using ih

/-- The entries of a tally are counted members, and their amounts are the numbers of their equals
in the list and in the tally that counting started with. -/
theorem foldl_add (laws : IsEquivalenceOn P fun a b => same a b)
    (entries : ∀ entry ∈ tally, P entry.1) (hxs : ∀ x ∈ xs, P x) :
    (∀ entry ∈ xs.foldl (fun tally x => add same x tally) tally, P entry.1) ∧
      ∀ k, P k → amount same k (xs.foldl (fun tally x => add same x tally) tally) =
        amount same k tally + xs.countP (same · k) := by
  induction xs generalizing tally with
  | nil => exact ⟨entries, fun k _ => rfl⟩
  | cons x xs ih =>
    have hx := hxs x List.mem_cons_self
    have entries' : ∀ entry ∈ add same x tally, P entry.1 := by
      intro entry mem
      rcases mem_add mem with eq | ⟨entry', mem', eq⟩
      · exact eq ▸ hx
      · exact eq ▸ entries entry' mem'
    obtain ⟨members, amounts⟩ := ih entries' fun x mem => hxs x (List.mem_cons_of_mem _ mem)
    refine ⟨members, fun k hk => ?_⟩
    rw [List.foldl_cons, amounts k hk, amount_add laws entries hx hk, List.countP_cons]
    omega

theorem forall_mem_nil : ∀ entry ∈ ([] : Tally α), P entry.1 := by
  simp

theorem amount_ofList (laws : IsEquivalenceOn P fun a b => same a b) (hxs : ∀ x ∈ xs, P x)
    (hk : P k) : amount same k (ofList same xs) = xs.countP (same · k) := by
  have counted := (foldl_add laws forall_mem_nil hxs).2 k hk
  simpa [ofList, amount] using counted

/-- A tally covers another one if nothing occurs more often in the other list. -/
theorem covers_iff (laws : IsEquivalenceOn P fun a b => same a b) (hxs : ∀ x ∈ xs, P x)
    (hys : ∀ y ∈ ys, P y) :
    covers same (ofList same ys) (ofList same xs) ↔
      ∀ k, P k → xs.countP (same · k) ≤ ys.countP (same · k) := by
  have members := (foldl_add laws forall_mem_nil hxs).1
  have atEntries : covers same (ofList same ys) (ofList same xs) ↔
      ∀ entry ∈ ofList same xs, xs.countP (same · entry.1) ≤ ys.countP (same · entry.1) := by
    rw [covers, List.all_eq_true]
    refine forall₂_congr fun entry mem => ?_
    rw [decide_eq_true_iff, amount_ofList laws hxs (members entry mem),
      amount_ofList laws hys (members entry mem)]
  rw [atEntries]
  refine ⟨fun h k hk => ?_, fun h entry mem => h entry.1 (members entry mem)⟩
  -- what occurs at all is the same as an entry of the tally, so both are counted alike
  cases found : (ofList same xs).find? fun entry => same entry.1 k with
  | none =>
    have : xs.countP (same · k) = 0 := by
      rw [← amount_ofList laws hxs hk, amount, found]
    omega
  | some entry =>
    have mem := List.mem_of_find?_eq_some found
    have alike := List.find?_some found
    have congr : ∀ x, P x → same x entry.1 = same x k := by
      intro x hx
      rw [Bool.eq_iff_iff]
      exact ⟨fun h => laws.trans hx (members entry mem) hk h alike,
        fun h => laws.trans hx hk (members entry mem) h (laws.symm (members entry mem) hk alike)⟩
    have counts : ∀ {zs : List α}, (∀ z ∈ zs, P z) →
        zs.countP (same · k) = zs.countP (same · entry.1) := by
      intro zs hzs
      exact List.countP_congr fun z mem => by rw [congr z (hzs z mem)]
    rw [counts hxs, counts hys]
    exact h entry mem

/-- Multisets are equal one by one if and only if everything occurs equally often in both. -/
theorem rel_iff_countP (laws : IsEquivalenceOn P fun a b => same a b) {s t : Multiset α}
    (hs : ∀ a ∈ s, P a) (ht : ∀ b ∈ t, P b) :
    Multiset.Rel (fun a b => same a b) s t ↔
      ∀ k, P k → s.countP (fun a => same a k) = t.countP fun b => same b k := by
  constructor
  · intro h k hk
    induction h with
    | zero => rfl
    | @cons a b s t hab _ ih =>
      have ha := hs a (Multiset.mem_cons_self a s)
      have hb := ht b (Multiset.mem_cons_self b t)
      rw [Multiset.countP_cons, Multiset.countP_cons, same_congr laws ha hb hk hab,
        ih (fun a mem => hs a (Multiset.mem_cons_of_mem mem))
          fun b mem => ht b (Multiset.mem_cons_of_mem mem)]
  · intro h
    induction s using Multiset.induction generalizing t with
    | empty =>
      have : t = 0 := by
        refine Multiset.eq_zero_of_forall_notMem fun b mem => ?_
        have none := h b (ht b mem)
        rw [Multiset.countP_zero, eq_comm, Multiset.countP_eq_zero] at none
        exact none b mem (laws.refl (ht b mem))
      rw [this]
      exact .zero
    | cons a s ih =>
      have ha := hs a (Multiset.mem_cons_self a s)
      -- what is the same as `a` occurs on the other side, too, and both can be taken away
      have occurs : 0 < t.countP fun b => same b a := by
        rw [← h a ha, Multiset.countP_cons, if_pos (laws.refl ha)]
        omega
      obtain ⟨b, mem, hba⟩ := Multiset.countP_pos.1 occurs
      obtain ⟨t, rfl⟩ := Multiset.exists_cons_of_mem mem
      have hb := ht b mem
      refine .cons (laws.symm hb ha hba) (ih (fun a mem => hs a (Multiset.mem_cons_of_mem mem))
        (fun b mem => ht b (Multiset.mem_cons_of_mem mem)) fun k hk => ?_)
      have counts := h k hk
      rw [Multiset.countP_cons, Multiset.countP_cons, same_congr laws hb ha hk hba] at counts
      omega

/-- Two lists have the same tally if their entries are the same one by one, in some order. -/
theorem agree_iff_rel (laws : IsEquivalenceOn P fun a b => same a b) (hxs : ∀ x ∈ xs, P x)
    (hys : ∀ y ∈ ys, P y) :
    agree same xs ys ↔ Multiset.Rel (fun a b => same a b) (xs : Multiset α) ys := by
  rw [agree, Bool.and_eq_true, Bool.and_eq_true, beq_iff_eq, covers_iff laws hxs hys,
    covers_iff laws hys hxs]
  constructor
  · rintro ⟨⟨-, le⟩, ge⟩
    refine (rel_iff_countP laws (by simpa using hxs) (by simpa using hys)).2 fun k hk => ?_
    simpa using Nat.le_antisymm (le k hk) (ge k hk)
  · intro h
    have counts := (rel_iff_countP laws (by simpa using hxs) (by simpa using hys)).1 h
    simp only [Multiset.coe_countP] at counts
    refine ⟨⟨?_, fun k hk => ?_⟩, fun k hk => ?_⟩
    · simpa using Multiset.card_eq_card_of_rel h
    · simpa using (counts k hk).le
    · simpa using (counts k hk).ge

end Tally

namespace Term

theorem isEquivalenceOn_equal :
    IsEquivalenceOn (fun t : Term => t.isDefined = true) fun t u => equal t u :=
  ⟨equal_refl, fun _ _ => equal_symm, fun _ _ _ => equal_trans⟩

/-- Counting operands with equality itself decides the equality of sums and of products. -/
theorem equal_variadic_eq_agree {op : Variadic} {ts us : List Term} (hts : ∀ t ∈ ts, t.isDefined)
    (hus : ∀ u ∈ us, u.isDefined) :
    equal (variadic op ts) (variadic op us) = Tally.agree equal ts us := by
  rw [Bool.eq_iff_iff, equal_variadic_iff_equalOperands hts hus]
  exact (Tally.agree_iff_rel isEquivalenceOn_equal hts hus).symm

end Term

end InequalityChaining

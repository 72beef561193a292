import Mathlib.Data.Multiset.ZeroCons
import InequalityChaining.Proofs.Term.Rearrangement

/-!
# The laws of the order

The order of terms is total, and where all constants are defined it ties exactly the equal terms.
Terms are compared by their kinds first and then by their parts, the operands of sums and products
as sorted lists. Three terms are compared pairwise; a comparison by kinds and then by parts is
transitive if both comparisons are, the second one only where the first one ties. Sorting the
operands loses nothing but their order: sorted lists whose entries tie pairwise in some order tie
position by position.

## Main definitions

* `Chains` — the comparisons among three things agree with each other
* `Term.orderParts` — the comparison of terms of the same kind

## Main results

* `forall₂_of_rel` — sorted lists that tie in some order tie position by position
* `Term.order_variadic` — sums and products are compared as sorted lists of operands
* `Term.order_laws` — the order is total and consistent with equality
-/

namespace InequalityChaining

/-! ### Three comparisons -/

/-- The outcomes of comparing a first thing with a second, the second with a third and the first
with the third agree: a tie can be passed over, and two outcomes of the same kind add up. -/
def Chains (ab bc ac : Ordering) : Prop :=
  (ab = .eq → ac = bc) ∧ (bc = .eq → ac = ab) ∧ (ab = bc → ac = ab)

namespace Chains

variable {ab bc ac ab' bc' ac' : Ordering}

theorem of_transCmp {α : Type} (cmp : α → α → Ordering) [Std.TransCmp cmp] (a b c : α) :
    Chains (cmp a b) (cmp b c) (cmp a c) := by
  refine ⟨Std.TransCmp.congr_left, fun tie => (Std.TransCmp.congr_right tie).symm, fun same => ?_⟩
  cases h : cmp a b with
  | lt => exact Std.TransCmp.lt_trans h (same ▸ h)
  | eq => exact Std.TransCmp.eq_trans h (same ▸ h)
  | gt => exact Std.TransCmp.gt_trans h (same ▸ h)

/-- Comparisons one after the other agree if the first ones do and, where these are ties, the
second ones do. -/
theorem andThen (first : Chains ab bc ac) (second : ab = .eq → bc = .eq → Chains ab' bc' ac') :
    Chains (ab.then ab') (bc.then bc') (ac.then ac') := by
  obtain ⟨left, right, both⟩ := first
  cases ab <;> cases bc <;> simp_all [Chains]
  -- where one of two first comparisons is a tie, its second one counts
  all_goals
    rintro rfl
    rfl

theorem isLE (h : Chains ab bc ac) (hab : ab.isLE) (hbc : bc.isLE) : ac.isLE := by
  obtain ⟨left, right, both⟩ := h
  cases ab with
  | lt =>
    cases bc with
    | lt => rw [both rfl]; rfl
    | eq => rw [right rfl]; rfl
    | gt => cases hbc
  | eq => rwa [left rfl]
  | gt => cases hab

end Chains

/-! ### Sorted lists -/

section Sorted

variable {α : Type} {cmp : α → α → Ordering}

theorem compareLex_eq_eq_iff {as bs : List α} :
    List.compareLex cmp as bs = .eq ↔ List.Forall₂ (fun a b => cmp a b = .eq) as bs := by
  induction as generalizing bs with
  | nil => cases bs <;> simp [List.compareLex_nil_nil, List.compareLex_nil_cons]
  | cons a as ih =>
    cases bs with
    | nil => simp [List.compareLex_cons_nil]
    | cons b bs => rw [List.compareLex_cons_cons, Ordering.then_eq_eq, List.forall₂_cons, ih]

theorem compareLex_map {β : Type} (f : β → α) (as bs : List β) :
    List.compareLex cmp (as.map f) (bs.map f) =
      List.compareLex (fun a b => cmp (f a) (f b)) as bs := by
  induction as generalizing bs with
  | nil => cases bs <;> simp [List.compareLex_nil_nil, List.compareLex_nil_cons]
  | cons a as ih =>
    cases bs with
    | nil => simp [List.compareLex_cons_nil]
    | cons b bs => simp only [List.map_cons, List.compareLex_cons_cons, ih]

theorem compareLex_swap {as bs : List α} (h : ∀ a ∈ as, ∀ b, cmp a b = (cmp b a).swap) :
    List.compareLex cmp as bs = (List.compareLex cmp bs as).swap := by
  induction as generalizing bs with
  | nil =>
    cases bs <;>
      simp [List.compareLex_nil_nil, List.compareLex_nil_cons, List.compareLex_cons_nil]
  | cons a as ih =>
    cases bs with
    | nil => simp [List.compareLex_nil_cons, List.compareLex_cons_nil]
    | cons b bs =>
      rw [List.compareLex_cons_cons, List.compareLex_cons_cons, Ordering.swap_then,
        h a List.mem_cons_self, ih fun a mem => h a (List.mem_cons_of_mem _ mem)]

theorem Chains.compareLex {as bs cs : List α}
    (h : ∀ a ∈ as, ∀ b c, Chains (cmp a b) (cmp b c) (cmp a c)) :
    Chains (List.compareLex cmp as bs) (List.compareLex cmp bs cs)
      (List.compareLex cmp as cs) := by
  induction as generalizing bs cs with
  | nil =>
    cases bs <;> cases cs <;>
      simp [Chains, List.compareLex_nil_nil, List.compareLex_nil_cons, List.compareLex_cons_nil]
  | cons a as ih =>
    cases bs with
    | nil =>
      cases cs <;>
        simp [Chains, List.compareLex_nil_nil, List.compareLex_nil_cons, List.compareLex_cons_nil]
    | cons b bs =>
      cases cs with
      | nil => simp [Chains, List.compareLex_cons_nil, eq_comm]
      | cons c cs =>
        rw [List.compareLex_cons_cons, List.compareLex_cons_cons, List.compareLex_cons_cons]
        exact (h a List.mem_cons_self b c).andThen fun _ _ =>
          ih fun a mem => h a (List.mem_cons_of_mem _ mem)

variable [Std.TransCmp cmp]

/-- Of entries that tie pairwise in some order, two that tie can be left out. -/
theorem rel_of_rel_cons {a b : α} {as bs : Multiset α} (tie : cmp a b = .eq)
    (h : Multiset.Rel (fun a b => cmp a b = .eq) (a ::ₘ as) (b ::ₘ bs)) :
    Multiset.Rel (fun a b => cmp a b = .eq) as bs := by
  obtain ⟨b', rest, tie', related, split⟩ := Multiset.rel_cons_left.1 h
  rcases Multiset.cons_eq_cons.1 split with ⟨rfl, rfl⟩ | ⟨-, cs, rfl, rfl⟩
  · exact related
  · -- the partner of the one left out takes the partner of the other
    obtain ⟨a', as', tie'', related', rfl⟩ := Multiset.rel_cons_right.1 related
    refine .cons ?_ related'
    exact Std.TransCmp.eq_trans tie'' (Std.TransCmp.eq_trans (Std.OrientedCmp.eq_symm tie) tie')

theorem rel_of_forall₂ {r : α → α → Prop} {as bs : List α} (h : List.Forall₂ r as bs) :
    Multiset.Rel r as bs := by
  induction h with
  | nil => exact .zero
  | cons related _ ih => exact .cons related ih

/-- Sorted lists whose entries tie pairwise in some order tie position by position. -/
theorem forall₂_of_rel {as bs : List α} (has : as.Pairwise fun a b => (cmp a b).isLE)
    (hbs : bs.Pairwise fun a b => (cmp a b).isLE)
    (h : Multiset.Rel (fun a b => cmp a b = .eq) as bs) :
    List.Forall₂ (fun a b => cmp a b = .eq) as bs := by
  induction as generalizing bs with
  | nil =>
    obtain rfl : bs = [] := by simpa using Multiset.rel_zero_left.1 h
    exact .nil
  | cons a as ih =>
    cases bs with
    | nil => simpa using Multiset.card_eq_card_of_rel h
    | cons b bs =>
      rw [← Multiset.cons_coe, ← Multiset.cons_coe] at h
      -- each head ties with a member of the other list, of which the other head is the least
      have least : ∀ {x y : α} {xs : List α} {rest : Multiset α},
          (x :: xs).Pairwise (fun a b => (cmp a b).isLE) → x ::ₘ (xs : Multiset α) = y ::ₘ rest →
            (cmp x y).isLE := by
        intro x y xs rest sorted split
        have mem : y ∈ x ::ₘ (xs : Multiset α) := split ▸ Multiset.mem_cons_self y rest
        rcases Multiset.mem_cons.1 mem with rfl | mem
        · exact Std.ReflCmp.isLE_rfl
        · exact List.rel_of_pairwise_cons sorted (Multiset.mem_coe.1 mem)
      have tie : cmp a b = .eq := by
        obtain ⟨b', _, tieLeft, -, splitRight⟩ := Multiset.rel_cons_left.1 h
        obtain ⟨a', _, tieRight, -, splitLeft⟩ := Multiset.rel_cons_right.1 h
        refine Std.OrientedCmp.isLE_antisymm ?_ ?_
        · exact Std.TransCmp.isLE_trans (least has splitLeft) (Ordering.isLE_of_eq_eq tieRight)
        · exact Std.TransCmp.isLE_trans (least hbs splitRight)
            (Ordering.isLE_of_eq_eq (Std.OrientedCmp.eq_symm tieLeft))
      exact .cons tie (ih (List.pairwise_cons.1 has).2 (List.pairwise_cons.1 hbs).2
        (rel_of_rel_cons tie h))

end Sorted

namespace Term

variable {a b c : Term} {as bs cs : List Term}

/-! ### Kinds and parts -/

/-- The comparison of the parts of terms of the same kind. -/
def orderParts : Term → Term → Ordering
  | constant a, constant b => a.order b
  | var a, var b => compare a b
  | placeholder a k, placeholder b l => (compare a b).then (compare k.rank l.rank)
  | variadic _ as, variadic _ bs => orderOperands as bs
  | binary _ a₁ a₂, binary _ b₁ b₂ => (orderByPosition a₁ b₁).then (orderByPosition a₂ b₂)
  | _, _ => .eq

/-- Terms are compared by their kinds and then by their parts. -/
theorem orderByPosition_eq_then (a b : Term) :
    orderByPosition a b = (compare a.rank b.rank).then (orderParts a b) := by
  cases a <;> cases b <;> simp [orderByPosition, orderParts, rank]

theorem orderOperands_eq_compareLex (as bs : List Term) :
    orderOperands as bs = List.compareLex orderByPosition as bs := by
  induction as generalizing bs with
  | nil => cases bs <;> simp [orderOperands, List.compareLex_nil_nil, List.compareLex_nil_cons]
  | cons a as ih =>
    cases bs with
    | nil => simp [orderOperands, List.compareLex_cons_nil]
    | cons b bs => rw [orderOperands, List.compareLex_cons_cons, ih]

/-- Two terms of the same kind: atoms of the same sort, or the same operation. -/
inductive SameKind : Term → Term → Prop where
  | constants (v w : Number) : SameKind (constant v) (constant w)
  | vars (m n : String) : SameKind (var m) (var n)
  | placeholders (m n : String) (k l : PlaceholderKind) :
      SameKind (placeholder m k) (placeholder n l)
  | variadics (op : Variadic) (as bs : List Term) : SameKind (variadic op as) (variadic op bs)
  | binaries (op : Binary) (a₁ a₂ b₁ b₂ : Term) : SameKind (binary op a₁ a₂) (binary op b₁ b₂)

/-- The rank tells the kind. -/
theorem sameKind_of_rank (h : a.rank = b.rank) : SameKind a b := by
  cases a with
  | constant v =>
    cases b with
    | constant w => exact .constants v w
    | variadic op _ => cases op <;> cases h
    | binary op _ _ => cases op <;> cases h
    | _ => cases h
  | var m =>
    cases b with
    | var n => exact .vars m n
    | variadic op _ => cases op <;> cases h
    | binary op _ _ => cases op <;> cases h
    | _ => cases h
  | placeholder m k =>
    cases b with
    | placeholder n l => exact .placeholders m n k l
    | variadic op _ => cases op <;> cases h
    | binary op _ _ => cases op <;> cases h
    | _ => cases h
  | variadic op as =>
    cases b with
    | variadic op' bs =>
      obtain rfl : op = op' := by cases op <;> cases op' <;> first | rfl | cases h
      exact .variadics op as bs
    | binary op' _ _ => cases op <;> cases op' <;> cases h
    | _ => cases op <;> cases h
  | binary op a₁ a₂ =>
    cases b with
    | binary op' b₁ b₂ =>
      obtain rfl : op = op' := by cases op <;> cases op' <;> first | rfl | cases h
      exact .binaries op a₁ a₂ b₁ b₂
    | variadic op' _ => cases op <;> cases op' <;> cases h
    | _ => cases op <;> cases h

/-- A tie of kinds and parts is what it is for terms of the same kind, if it implies the kind. -/
theorem rank_then_eq_eq_iff {tie : Prop} {parts : Ordering} (rank : tie → a.rank = b.rank)
    (h : SameKind a b → (parts = .eq ↔ tie)) :
    (compare a.rank b.rank).then parts = .eq ↔ tie := by
  rw [Ordering.then_eq_eq, compare_eq_iff_eq]
  constructor
  · rintro ⟨same, partsTie⟩
    exact (h (sameKind_of_rank same)).1 partsTie
  · intro ties
    exact ⟨rank ties, (h (sameKind_of_rank (rank ties))).2 ties⟩

/-! ### The order of canonical forms is total -/

theorem orderByPosition_swap (a b : Term) : orderByPosition a b = (orderByPosition b a).swap := by
  -- only terms of the same kind have to be looked at
  have ofParts : ∀ {a b : Term}, (SameKind a b → orderParts a b = (orderParts b a).swap) →
      orderByPosition a b = (orderByPosition b a).swap := by
    intro a b parts
    rw [orderByPosition_eq_then, orderByPosition_eq_then b, Ordering.swap_then,
      ← Std.OrientedCmp.eq_swap (a := a.rank)]
    cases tie : compare a.rank b.rank with
    | eq => exact parts (sameKind_of_rank (compare_eq_iff_eq.1 tie))
    | _ => rfl
  induction a using Term.induction generalizing b with
  | constant v =>
    refine ofParts fun kind => ?_
    cases kind with
    | constants v w =>
      rw [orderParts, orderParts]
      exact Std.OrientedCmp.eq_swap
  | var m =>
    refine ofParts fun kind => ?_
    cases kind with
    | vars m n =>
      rw [orderParts, orderParts]
      exact Std.OrientedCmp.eq_swap
  | placeholder m k =>
    refine ofParts fun kind => ?_
    cases kind with
    | placeholders m n k l =>
      rw [orderParts, orderParts, Ordering.swap_then, ← Std.OrientedCmp.eq_swap (a := m),
        ← Std.OrientedCmp.eq_swap (a := k.rank)]
  | variadic op as ih =>
    refine ofParts fun kind => ?_
    cases kind with
    | variadics op as bs =>
      rw [orderParts, orderParts, orderOperands_eq_compareLex, orderOperands_eq_compareLex]
      exact compareLex_swap ih
  | binary op a₁ a₂ ih₁ ih₂ =>
    refine ofParts fun kind => ?_
    cases kind with
    | binaries op a₁ a₂ b₁ b₂ => rw [orderParts, orderParts, Ordering.swap_then, ih₁, ih₂]

theorem chains_orderByPosition (a b c : Term) :
    Chains (orderByPosition a b) (orderByPosition b c) (orderByPosition a c) := by
  -- terms of different kinds are ordered by their ranks alone
  have ofParts : ∀ {a b c : Term}, (SameKind a b → SameKind b c →
      Chains (orderParts a b) (orderParts b c) (orderParts a c)) →
        Chains (orderByPosition a b) (orderByPosition b c) (orderByPosition a c) := by
    intro a b c parts
    rw [orderByPosition_eq_then, orderByPosition_eq_then b, orderByPosition_eq_then a]
    refine (Chains.of_transCmp compare a.rank b.rank c.rank).andThen fun tie tie' => ?_
    exact parts (sameKind_of_rank (compare_eq_iff_eq.1 tie))
      (sameKind_of_rank (compare_eq_iff_eq.1 tie'))
  induction a using Term.induction generalizing b c with
  | constant v =>
    refine ofParts fun kind kind' => ?_
    cases kind with
    | constants v w =>
      cases kind' with
      | constants w x => exact .of_transCmp Number.order v w x
  | var m =>
    refine ofParts fun kind kind' => ?_
    cases kind with
    | vars m n =>
      cases kind' with
      | vars n o => exact .of_transCmp compare m n o
  | placeholder m k =>
    refine ofParts fun kind kind' => ?_
    cases kind with
    | placeholders m n k l =>
      cases kind' with
      | placeholders n o l j =>
        exact (Chains.of_transCmp compare m n o).andThen fun _ _ =>
          .of_transCmp compare k.rank l.rank j.rank
  | variadic op as ih =>
    refine ofParts fun kind kind' => ?_
    cases kind with
    | variadics op as bs =>
      cases kind' with
      | variadics op bs cs =>
        simp only [orderParts, orderOperands_eq_compareLex]
        exact .compareLex ih
  | binary op a₁ a₂ ih₁ ih₂ =>
    refine ofParts fun kind kind' => ?_
    cases kind with
    | binaries op a₁ a₂ b₁ b₂ =>
      cases kind' with
      | binaries op b₁ b₂ c₁ c₂ => exact (ih₁ b₁ c₁).andThen fun _ _ => ih₂ b₂ c₂

instance : Std.TransCmp orderByPosition where
  eq_swap {a b} := orderByPosition_swap a b
  isLE_trans {a b c} := (chains_orderByPosition a b c).isLE

/-- The order of terms is total. -/
instance : Std.TransCmp order where
  eq_swap {a b} := orderByPosition_swap a.canonical b.canonical
  isLE_trans {a b c} := (chains_orderByPosition a.canonical b.canonical c.canonical).isLE

/-! ### Sorted operands -/

theorem rank_canonical (a : Term) : a.canonical.rank = a.rank := by
  cases a with
  | variadic op as => cases op <;> simp [canonical, rank]
  | binary op l r => cases op <;> simp [canonical, rank]
  | _ => rfl

theorem canonical_variadic (op : Variadic) (as : List Term) :
    (variadic op as).canonical = variadic op ((sort as).map canonical) := by
  have sorted : (sort as).map canonical =
      (as.map canonical).mergeSort fun a b => (orderByPosition a b).isLE :=
    List.map_mergeSort fun _ _ _ _ => rfl
  rw [canonical, canonicalAll_eq_map, sorted]

/-- Sums and products are compared as the sorted lists of their operands. -/
theorem order_variadic (op : Variadic) (as bs : List Term) :
    (variadic op as).order (variadic op bs) = List.compareLex order (sort as) (sort bs) := by
  have parts : ∀ xs ys : List Term,
      orderByPosition (variadic op xs) (variadic op ys) = orderOperands xs ys := by
    intro xs ys
    cases op <;> rfl
  rw [order, canonical_variadic, canonical_variadic, parts, orderOperands_eq_compareLex,
    compareLex_map]
  rfl

theorem coe_sort (as : List Term) : (sort as : Multiset Term) = as :=
  Multiset.coe_eq_coe.2 (List.mergeSort_perm as _)

theorem pairwise_sort (as : List Term) : (sort as).Pairwise fun a b => (order a b).isLE := by
  refine List.pairwise_mergeSort (fun a b c => ?_) (fun a b => ?_) as
  · exact Std.TransCmp.isLE_trans
  · have swap : b.order a = (a.order b).swap := Std.OrientedCmp.eq_swap
    rw [swap]
    cases a.order b <;> rfl

/-- Sums and products tie exactly if their operands tie one by one, in some order. -/
theorem order_variadic_eq_eq_iff {op : Variadic} :
    (variadic op as).order (variadic op bs) = .eq ↔
      Multiset.Rel (fun a b => order a b = .eq) as bs := by
  rw [order_variadic, compareLex_eq_eq_iff, ← coe_sort as, ← coe_sort bs]
  constructor
  · exact rel_of_forall₂
  · exact forall₂_of_rel (pairwise_sort as) (pairwise_sort bs)

/-! ### Ties -/

theorem order_eq_then (a b : Term) :
    a.order b = (compare a.rank b.rank).then (orderParts a.canonical b.canonical) := by
  rw [order, orderByPosition_eq_then, rank_canonical, rank_canonical]

/-- Terms without undefined constants tie exactly if they are equal. -/
theorem order_eq_eq_iff (ha : a.isDefined) (hb : b.isDefined) : a.order b = .eq ↔ equal a b := by
  -- only terms of the same kind have to be looked at
  have ofKind : ∀ {a b : Term}, (SameKind a b →
      (orderParts a.canonical b.canonical = .eq ↔ equal a b)) →
        (a.order b = .eq ↔ equal a b) := by
    intro a b parts
    rw [order_eq_then]
    exact rank_then_eq_eq_iff rank_eq_of_equal parts
  induction a using Term.induction generalizing b with
  | constant v =>
    refine ofKind fun kind => ?_
    cases kind with
    | constants v w => exact (Number.beq_iff_order (by simpa using ha)).symm
  | var m =>
    refine ofKind fun kind => ?_
    cases kind with
    | vars m n => simp [canonical, orderParts, equal]
  | placeholder m k =>
    refine ofKind fun kind => ?_
    cases kind with
    | placeholders m n k l =>
      have kinds : k.rank = l.rank ↔ k = l := by cases k <;> cases l <;> decide
      simp [canonical, orderParts, equal, Ordering.then_eq_eq, kinds]
  | variadic op as ih =>
    refine ofKind fun kind => ?_
    cases kind with
    | variadics op as bs =>
      have has := isDefined_variadic.1 ha
      have hbs := isDefined_variadic.1 hb
      have parts : orderParts (variadic op as).canonical (variadic op bs).canonical =
          (variadic op as).order (variadic op bs) := by
        rw [order_eq_then]
        cases op <;> rfl
      rw [parts, order_variadic_eq_eq_iff, equal_variadic_iff_equalOperands has hbs]
      constructor
      · exact fun h => h.mono fun a hma b hmb tie => (ih a hma (has a hma) (hbs b hmb)).1 tie
      · exact fun h => h.mono fun a hma b hmb same => (ih a hma (has a hma) (hbs b hmb)).2 same
  | binary op a₁ a₂ ih₁ ih₂ =>
    refine ofKind fun kind => ?_
    cases kind with
    | binaries op a₁ a₂ b₁ b₂ =>
      obtain ⟨ha₁, ha₂⟩ := isDefined_binary.1 ha
      obtain ⟨hb₁, hb₂⟩ := isDefined_binary.1 hb
      have parts : orderParts (binary op a₁ a₂).canonical (binary op b₁ b₂).canonical =
          (a₁.order b₁).then (a₂.order b₂) := by simp only [canonical, orderParts, order]
      rw [parts, Ordering.then_eq_eq, equal_binary_binary]
      exact and_congr (ih₁ ha₁ hb₁) (ih₂ ha₂ hb₂)

/-- The order of terms is total, also among terms with undefined constants, and where all constants
are defined it ties exactly the equal terms. -/
theorem order_laws :
    (∀ a b : Term, compare a b = (compare b a).swap) ∧
    (∀ a b c : Term, (compare a b).isLE → (compare b c).isLE → (compare a c).isLE) ∧
    (∀ a b : Term, a.isDefined → b.isDefined → (compare a b = .eq ↔ a == b)) := by
  refine ⟨fun a b => ?_, fun a b c hab hbc => ?_, fun a b ha hb => order_eq_eq_iff ha hb⟩
  · exact orderByPosition_swap a.canonical b.canonical
  · exact (chains_orderByPosition a.canonical b.canonical c.canonical).isLE hab hbc

/-- The order of operands makes no difference, and neither does the kind of a number; the integer
after the last one that the reals tell from its successor stands above it, and a NaN with a sign
stands below all numbers. -/
theorem order_laws_neighbours :
    let bound : Int64 := 9007199254740992
    let asReal := constant (.real (9007199254740992.0 : Float))
    let undefined := constant (.real ⟨0xfff8000000000000⟩)
    let a := sum [var "x", int bound]
    let b := sum [asReal, var "x"]
    a.isDefined ∧ b.isDefined ∧ compare a b = .eq ∧ compare (int (bound + 1)) asReal = .gt ∧
      (compare undefined asReal).isLE ∧ (compare asReal (int (bound + 1))).isLE ∧
      (compare undefined (int (bound + 1))).isLE := by
  intro bound asReal undefined a b
  have definedLeft : a.isDefined := by decide +kernel
  have definedRight : b.isDefined := by decide +kernel
  have same : a == b := by decide +kernel
  have below : (compare undefined asReal).isLE := by decide +kernel
  have above : compare asReal (int (bound + 1)) = .lt := by decide +kernel
  obtain ⟨swap, trans, ties⟩ := order_laws
  refine ⟨definedLeft, definedRight, (ties a b definedLeft definedRight).2 same, ?_, below,
    above ▸ rfl, trans undefined asReal (int (bound + 1)) below (above ▸ rfl)⟩
  rw [swap, above]
  rfl

end Term

end InequalityChaining

import InequalityChaining.Proposition.Basic

/-!
# Bindings

Bindings give terms to the names of placeholders. They are built up while matching and then
substituted, all at once: a term that takes the place of a placeholder is not substituted into.

## Main definitions

* `Bindings` — names with their terms, no name twice
* `Bindings.find?`, `Bindings.insert` — look-up and binding
* `Bindings.equal`, `BEq Bindings` — the same names with equal terms
* `Term.substitute`, `Proposition.substitute` — putting terms in the place of placeholders

## Main results

* `Bindings.find?_insert` — what a look-up finds after a binding
-/

namespace InequalityChaining

/-- Terms for the names of placeholders. -/
structure Bindings where
  entries : List (String × Term)
  nodup : (entries.map Prod.fst).Nodup

namespace Bindings

/-- No bindings. -/
def empty : Bindings := ⟨[], List.nodup_nil⟩

/-- The term that a name is bound to. -/
def find? (b : Bindings) (name : String) : Option Term :=
  (b.entries.find? fun entry => entry.1 == name).map Prod.snd

/-- Binds a name, also if it is bound already. -/
def insert (b : Bindings) (name : String) (t : Term) : Bindings where
  entries := (name, t) :: b.entries.filter fun entry => entry.1 != name
  nodup := by
    refine List.nodup_cons.2 ⟨by simp, ?_⟩
    exact b.nodup.sublist (List.filter_sublist.map _)

/-- The number of bound names. -/
def size (b : Bindings) : Nat := b.entries.length

/-- Whether no name is bound. -/
def isEmpty (b : Bindings) : Bool := b.entries.isEmpty

/-- Binds one name after the other. -/
def insertAll (b : Bindings) (entries : List (String × Term)) : Bindings :=
  entries.foldl (fun b entry => b.insert entry.1 entry.2) b

/-- The same names bound to equal terms. -/
def equal (a b : Bindings) : Bool :=
  a.size == b.size && a.entries.all fun entry => (b.find? entry.1).any (entry.2 == ·)

/-- Bindings are compared as maps. -/
instance : BEq Bindings := ⟨equal⟩

@[simp] theorem find?_empty (name : String) : empty.find? name = none := rfl

theorem find?_insert (b : Bindings) (name : String) (t : Term) (n : String) :
    (b.insert name t).find? n = if n = name then some t else b.find? n := by
  by_cases h : n = name
  · simp [find?, insert, h]
  · have h' : name ≠ n := fun e => h e.symm
    simp only [find?, insert, List.find?_cons, beq_eq_false_iff_ne.2 h', if_neg h,
      List.find?_filter]
    congr 2
    funext entry
    by_cases e : entry.1 = n <;> simp [e, h]

end Bindings

namespace Term

mutual

/-- The term with every bound placeholder replaced by the term that its name is bound to. -/
def substitute (b : Bindings) : Term → Term
  | placeholder name kind => (b.find? name).getD (placeholder name kind)
  | variadic op operands => variadic op (substituteAll b operands)
  | binary op left right => binary op (substitute b left) (substitute b right)
  | t => t

/-- The same for a list of terms. -/
def substituteAll (b : Bindings) : List Term → List Term
  | [] => []
  | t :: ts => substitute b t :: substituteAll b ts

end

@[simp] theorem substituteAll_eq_map (b : Bindings) (ts : List Term) :
    substituteAll b ts = ts.map (substitute b) := by
  induction ts with
  | nil => rfl
  | cons t ts ih => simp [substituteAll, ih]

end Term

/-- The proposition with the bindings substituted on both sides. -/
def Proposition.substitute (b : Bindings) (p : Proposition) : Proposition :=
  ⟨p.relation, p.lhs.substitute b, p.rhs.substitute b⟩

end InequalityChaining

import InequalityChaining.Proofs.Term.Substitution

/-!
# Substitution with stacks

A term can be substituted into without recursion, in two loops. The first takes terms from a stack
of what is pending, puts their operands there instead, and pushes an instruction for every node on
a second stack. The second loop takes the instructions from that stack, so that it comes to the
operands of a node before the node itself, and keeps the terms that have been built on a third one;
the instruction of a node takes as many terms from there as the node has operands.

One invariant relates the stacks. Whatever is pending, the instructions that come of it leave the
pending terms on the stack of results, substituted into and in the same order. So no instruction
ever asks for more results than there are, one result is left in the end, and it is the term that
recursion makes.

## Main definitions

* `Instruction` — what is to be done at a node, with the step `Instruction.run?`
* `Term.schedule`, `Term.execute?` — the two loops
* `Bindings.andThen` — bindings with others substituted into their terms

## Main results

* `Term.run?_ofRoot` — the instruction of a node builds the node out of its operands
* `Term.execute?_schedule` — the invariant
* `substitution_with_stacks` — the loops do what recursion does, and substitutions compose
-/

namespace InequalityChaining

/-- What is to be done at a node: build a leaf, or an operation out of the latest results. -/
inductive Instruction where
  | leaf (t : Term)
  | variadic (op : Variadic) (count : Nat)
  | binary (op : Binary)

namespace Instruction

/-- The instruction for the node at the root of a term. -/
def ofRoot : Term → Instruction
  | .variadic op operands => variadic op operands.length
  | .binary op _ _ => binary op
  | t => leaf t

/-- Carries out an instruction. The latest result is first in the list. There is no outcome where
the instruction takes more results than there are. -/
def run? (b : Bindings) : Instruction → List Term → Option (List Term)
  | leaf (.placeholder name kind), results =>
    some ((b.find? name).getD (.placeholder name kind) :: results)
  | leaf t, results => some (t :: results)
  | variadic op count, results =>
    if count ≤ results.length then
      some (.variadic op (results.take count).reverse :: results.drop count)
    else none
  | binary op, right :: left :: results => some (.binary op left right :: results)
  | binary _, _ => none

end Instruction

namespace Term

/-- The first loop: the operands of the term on top are pending next, the last of them first, and
the instruction for its root is pushed. -/
def schedule (pending : List Term) (instructions : List Instruction) : List Instruction :=
  match pending with
  | [] => instructions
  | t :: pending => schedule (t.operands.reverse ++ pending) (.ofRoot t :: instructions)
termination_by sizeOfAll pending
decreasing_by
  cases t <;> simp only [operands, List.reverse_cons, List.reverse_nil, sizeOfAll, size,
    sizeOfAll_append, sizeOfAll_reverse] <;> omega

/-- The second loop: the instructions are carried out, the latest one first. -/
def execute? (b : Bindings) : List Instruction → List Term → Option (List Term)
  | [], results => some results
  | instruction :: instructions, results =>
    (instruction.run? b results).bind (execute? b instructions)

/-- Substitution with stacks, which are not used where nothing is bound. The latest result is the
outcome, if there is one. -/
def substituteWithStacks? (b : Bindings) (t : Term) : Option Term :=
  if b.isEmpty then some t else (execute? b (schedule [t] []) []).bind List.head?

section Loops

variable {b : Bindings} {t : Term}

/-- The node at the root is built out of the operands that have been substituted into, the last of
which is the latest result. -/
theorem run?_ofRoot (b : Bindings) (t : Term) (results : List Term) :
    (Instruction.ofRoot t).run? b ((t.operands.map (substitute b)).reverse ++ results) =
      some (t.substitute b :: results) := by
  cases t with
  | variadic op ts =>
    have len : ts.length = ((ts.map (substitute b)).reverse).length := by simp
    have enough : ts.length ≤ ((ts.map (substitute b)).reverse ++ results).length := by simp
    rw [Instruction.ofRoot, Instruction.run?, operands, if_pos enough, len, List.take_left,
      List.drop_left, List.reverse_reverse, substitute, substituteAll_eq_map]
  | binary op l r => rfl
  | _ => rfl

/-- What has been scheduled for the pending terms leaves them on the stack of results, substituted
into, and goes on with the instructions from before. -/
theorem execute?_schedule (b : Bindings) (pending : List Term) (instructions : List Instruction)
    (results : List Term) :
    execute? b (schedule pending instructions) results =
      execute? b instructions (pending.map (substitute b) ++ results) := by
  fun_induction schedule pending instructions with
  | case1 instructions => rfl
  | case2 instructions t pending ih =>
    -- the operands of the term on top are built first, and then the term itself
    rw [ih, List.map_append, List.map_reverse, List.append_assoc, execute?, run?_ofRoot,
      Option.bind_some, List.map_cons, List.cons_append]

theorem substitute_of_isEmpty (h : b.isEmpty) : t.substitute b = t := by
  have unbound : ∀ name, b.find? name = none := by
    intro name
    rw [Bindings.find?, List.isEmpty_iff.1 h]
    rfl
  induction t using Term.induction with
  | placeholder name kind => rw [substitute, unbound, Option.getD_none]
  | variadic op ts ih =>
    rw [substitute, substituteAll_eq_map, List.map_congr_left ih, List.map_id']
  | binary op l r ihl ihr => rw [substitute, ihl, ihr]
  | _ => rfl

theorem substituteWithStacks?_eq_some (b : Bindings) (t : Term) :
    t.substituteWithStacks? b = some (t.substitute b) := by
  rw [substituteWithStacks?]
  split
  · next nothing => rw [substitute_of_isEmpty nothing]
  · rw [execute?_schedule]
    rfl

end Loops

end Term

/-! ### One substitution after the other -/

namespace Bindings

/-- The bindings with others substituted into the terms that they bind, and with the other bindings
for the names that they do not bind. -/
def andThen (b c : Bindings) : Bindings :=
  orElse ⟨b.entries.map fun entry => (entry.1, entry.2.substitute c), by
    simpa [List.map_map, Function.comp_def] using b.nodup⟩ c

theorem find?_andThen (b c : Bindings) (name : String) :
    (b.andThen c).find? name =
      ((b.find? name).map (Term.substitute c)).or (c.find? name) := by
  rw [andThen, find?_orElse]
  congr 1
  simp only [find?, List.find?_map, Option.map_map]
  rfl

end Bindings

namespace Term

/-- Substituting into the result of a substitution is one substitution, also where the bound terms
have placeholders. -/
theorem substitute_andThen (b c : Bindings) (t : Term) :
    (t.substitute b).substitute c = t.substitute (b.andThen c) := by
  induction t using Term.induction with
  | placeholder name kind =>
    rw [substitute, substitute, Bindings.find?_andThen]
    cases b.find? name with
    | none => rfl
    | some u => rfl
  | variadic op ts ih =>
    simp only [substitute, substituteAll_eq_map, List.map_map, variadic.injEq, true_and]
    exact List.map_congr_left ih
  | binary op l r ihl ihr => rw [substitute, substitute, substitute, ihl, ihr]
  | _ => rfl

end Term

/-- The two loops build the term in which every bound placeholder is replaced by the term that it
is bound to and nothing else is changed. They never lack a result, and leave exactly one. A second
substitution into the result is the substitution of the bindings with the second ones substituted
into their terms, to which the second ones for other names are added. -/
theorem substitution_with_stacks (b : Bindings) (t : Term) :
    Term.execute? b (Term.schedule [t] []) [] = some [t.substitute b] ∧
    t.substituteWithStacks? b = some (t.substitute b) ∧
    (t.substitute b =
      match t with
      | .placeholder name kind => (b.find? name).getD (.placeholder name kind)
      | .variadic op ts => .variadic op (ts.map (Term.substitute b))
      | .binary op l r => .binary op (l.substitute b) (r.substitute b)
      | .var name => .var name
      | .constant value => .constant value) ∧
    (∀ c : Bindings, (t.substitute b).substitute c = t.substitute (b.andThen c)) ∧
    (∀ (c : Bindings) (p : Proposition),
      (p.substitute b).substitute c = p.substitute (b.andThen c)) ∧
    ∀ (c : Bindings) (name : String), (b.andThen c).find? name =
      ((b.find? name).map (Term.substitute c)).or (c.find? name) := by
  refine ⟨Term.execute?_schedule b [t] [] [], Term.substituteWithStacks?_eq_some b t, ?_,
    fun c => Term.substitute_andThen b c t, fun c p => ?_, b.find?_andThen⟩
  · cases t with
    | variadic op ts => rw [Term.substitute, Term.substituteAll_eq_map]
    | _ => rfl
  · simp only [Proposition.substitute, Term.substitute_andThen]

end InequalityChaining

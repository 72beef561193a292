/-!
# Ascending lists of names

Names are collected in ascending order of their code points, each of them once.

## Main definitions

* `Text.insertName` — adds a name to an ascending list
* `Text.ascending` — the names of any list, in ascending order

## Main results

* `Text.mem_ascending` — no name is lost and none is made up
* `Text.pairwise_ascending` — the order is strict, so no name is repeated
-/

namespace InequalityChaining.Text

/-- Adds a name to an ascending list unless it is there. -/
def insertName (name : String) : List String → List String
  | [] => [name]
  | first :: rest =>
    match compare name first with
    | .lt => name :: first :: rest
    | .eq => first :: rest
    | .gt => first :: insertName name rest

/-- The names of a list in ascending order and without repetition. -/
def ascending (names : List String) : List String := names.foldr insertName []

@[simp] theorem mem_insertName {name n : String} {names : List String} :
    n ∈ insertName name names ↔ n = name ∨ n ∈ names := by
  induction names with
  | nil => simp [insertName]
  | cons first rest ih =>
    cases h : compare name first with
    | lt => simp [insertName, h]
    | eq =>
      have : name = first := by simpa using h
      subst this
      simp [insertName]
    | gt => simp [insertName, h, ih, or_left_comm]

@[simp] theorem mem_ascending {n : String} {names : List String} :
    n ∈ ascending names ↔ n ∈ names := by
  induction names with
  | nil => simp [ascending]
  | cons first rest ih => simpa [ascending] using or_congr_right ih

theorem pairwise_insertName {name : String} {names : List String}
    (h : names.Pairwise fun a b => compare a b = .lt) :
    (insertName name names).Pairwise fun a b => compare a b = .lt := by
  induction names with
  | nil => simp [insertName]
  | cons first rest ih =>
    obtain ⟨above, sorted⟩ := List.pairwise_cons.1 h
    cases c : compare name first with
    | lt =>
      simp only [insertName, c]
      refine List.pairwise_cons.2 ⟨fun n hn => ?_, h⟩
      rcases List.mem_cons.1 hn with rfl | hn
      · exact c
      · exact Std.TransCmp.lt_trans c (above n hn)
    | eq => simpa only [insertName, c] using h
    | gt =>
      simp only [insertName, c]
      refine List.pairwise_cons.2 ⟨fun n hn => ?_, ih sorted⟩
      rcases mem_insertName.1 hn with rfl | hn
      · exact Std.OrientedCmp.lt_of_gt c
      · exact above n hn

theorem pairwise_ascending (names : List String) :
    (ascending names).Pairwise fun a b => compare a b = .lt := by
  induction names with
  | nil => simp [ascending]
  | cons first rest ih => exact pairwise_insertName ih

end InequalityChaining.Text

import Std.Data.ExtTreeSet.Lemmas

/-!
# Ascending lists

The elements of a list in ascending order, each once. Main statements: nothing is lost or added
(`mem_ascending`) and the order is strict (`pairwise_ascending`), which together determine the list.
`without` takes elements out of a list and keeps the order of the others.
-/

namespace BlockDir

variable {α : Type} [Ord α] [Std.TransOrd α]

/-- The elements of `xs` in ascending order, each once. -/
def ascending (xs : List α) : List α := (Std.ExtTreeSet.ofList xs compare).toList

theorem mem_ascending [DecidableEq α] [Std.LawfulEqOrd α] {a : α} {xs : List α} :
    a ∈ ascending xs ↔ a ∈ xs := by
  rw [ascending, Std.ExtTreeSet.mem_toList, Std.ExtTreeSet.mem_ofList, List.contains_iff_mem]

theorem pairwise_ascending (xs : List α) :
    (ascending xs).Pairwise fun a b => compare a b = .lt :=
  Std.ExtTreeSet.ordered_toList

/-- The elements of `xs` that are not in `ys`. -/
def without (xs ys : List α) : List α :=
  let set := Std.ExtTreeSet.ofList ys compare
  xs.filter fun a => !set.contains a

theorem without_eq_filter [DecidableEq α] [Std.LawfulEqOrd α] (xs ys : List α) :
    without xs ys = xs.filter (· ∉ ys) := by
  unfold without
  refine List.filter_congr fun a _ => ?_
  rw [Std.ExtTreeSet.contains_ofList]
  simp

end BlockDir

/-!
# Cutting a list into pieces

`chunks n xs` cuts `xs` into pieces of `n` elements, the last one possibly shorter. A size of zero
counts as one, so that cutting always comes to an end. Blocks of a file and rounds of a pipelined
transfer are both cut this way. Main statements: the pieces put together are the list again
(`flatten_chunks`), and no piece is empty or longer than the size (`mem_chunks`).
-/

namespace BlockDir

variable {α : Type}

/-- The pieces of `n` elements (at least one) that make up `xs`, in order. -/
def chunks (n : Nat) : List α → List (List α)
  | [] => []
  | x :: xs => (x :: xs.take (n - 1)) :: chunks n (xs.drop (n - 1))
termination_by xs => xs.length
decreasing_by
  simp only [List.length_drop, List.length_cons]
  omega

@[simp] theorem chunks_nil (n : Nat) : chunks n ([] : List α) = [] := by
  rw [chunks]

theorem chunks_cons (n : Nat) (x : α) (xs : List α) :
    chunks n (x :: xs) = (x :: xs.take (n - 1)) :: chunks n (xs.drop (n - 1)) := by
  rw [chunks]

/-- Cutting loses nothing and keeps the order. -/
@[simp] theorem flatten_chunks (n : Nat) (xs : List α) : (chunks n xs).flatten = xs := by
  fun_induction chunks n xs with
  | case1 => rfl
  | case2 x xs ih => simp [ih]

/-- A piece is never empty and never longer than the size. -/
theorem mem_chunks {n : Nat} {xs piece : List α} (h : piece ∈ chunks n xs) :
    piece ≠ [] ∧ piece.length ≤ max 1 n := by
  fun_induction chunks n xs with
  | case1 => simp at h
  | case2 x xs ih =>
    rcases List.mem_cons.1 h with rfl | h
    · refine ⟨by simp, ?_⟩
      simp only [List.length_cons, List.length_take]
      omega
    · exact ih h

end BlockDir

import Mathlib

/-!
# Removing from a vector by swapping

Rust's `Vec::swap_remove(i)` removes the element at `i` and moves the last element into its
place. Up to the order of the rest, that is removing the element at `i`
(`swapRemove_perm`); removing an element found by `position` leaves it and the rest together a
permutation of the vector (`perm_cons_swapRemove_idxOf`).
-/

namespace Store

variable {α : Type}

/-- `Vec::swap_remove`, for an index below the length (it panics otherwise). -/
def swapRemove (l : List α) (i : ℕ) : List α :=
  match l.getLast? with
  | some last => (l.set i last).dropLast
  | none => []

theorem swapRemove_perm {l : List α} {i : ℕ} (h : i < l.length) : (swapRemove l i).Perm (l.eraseIdx i) := by
  induction l generalizing i with
  | nil => simp at h
  | cons y ys ih =>
    cases ys with
    | nil =>
      obtain rfl : i = 0 := by simpa using h
      simp [swapRemove]
    | cons z zs =>
      cases i with
      | zero =>
        -- The last element takes the place of the first; the rest keeps its order.
        let w := (z :: zs).getLast (List.cons_ne_nil _ _)
        have last : (y :: z :: zs).getLast? = some w := by simp [w, List.getLast?_eq_some_getLast]
        simp only [swapRemove, last, List.set_cons_zero, List.eraseIdx_cons_zero, List.dropLast_cons_cons]
        exact (List.perm_append_singleton w _).symm.trans (by rw [List.dropLast_append_getLast])
      | succ j =>
        have step : swapRemove (y :: z :: zs) (j + 1) = y :: swapRemove (z :: zs) j := by
          simp only [swapRemove, List.getLast?_cons_cons]
          cases present : (z :: zs).getLast? with
          | none => simp at present
          | some w => simp [List.set_cons_succ, List.dropLast_cons_of_ne_nil]
        rw [step, List.eraseIdx_cons_succ]
        exact (ih (by simpa using h)).cons y

theorem perm_cons_swapRemove_idxOf [DecidableEq α] {x : α} {l : List α} (mem : x ∈ l) :
    (x :: swapRemove l (l.idxOf x)).Perm l := by
  have erased : l.erase x = l.eraseIdx (l.idxOf x) := List.erase_eq_eraseIdx_of_idxOf rfl
  have removed : (swapRemove l (l.idxOf x)).Perm (l.erase x) :=
    erased ▸ swapRemove_perm (List.idxOf_lt_length_of_mem mem)
  exact (removed.cons x).trans (List.perm_cons_erase mem).symm

end Store

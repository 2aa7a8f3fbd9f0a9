import Mathlib

/-!
# Quantities

`quantity.Quantity` of the Go staking code is an unsigned integer of arbitrary size; the
models take quantities as `Nat`. Subtraction fails instead of going below zero and division
fails on a zero divisor, as `checked_sub` and `checked_div` of the runtime's
`common/quantity.rs` do.
-/

namespace Orphiq

namespace Quantity

def sub (q n : ℕ) : Option ℕ := if n ≤ q then some (q - n) else none

def quo (q n : ℕ) : Option ℕ := if n = 0 then none else some (q / n)

/-- `quantity.Move`: `n` out of `src` into `dst`; the new `dst` and `src`. -/
def move (dst src n : ℕ) : Option (ℕ × ℕ) := do
  let src ← sub src n
  pure (dst + n, src)

theorem sub_eq_some {q n : ℕ} (h : n ≤ q) : sub q n = some (q - n) := if_pos h

theorem quo_eq_some {q n : ℕ} (h : n ≠ 0) : quo q n = some (q / n) := if_neg h

theorem move_eq_some {dst src n : ℕ} (h : n ≤ src) : move dst src n = some (dst + n, src - n) := by
  simp [move, sub_eq_some h]

theorem le_of_sub_eq_some {q n r : ℕ} (h : sub q n = some r) : n ≤ q ∧ r = q - n := by
  unfold sub at h
  split_ifs at h with le
  exact ⟨le, (Option.some.inj h).symm⟩

theorem le_of_move_eq_some {dst src n : ℕ} {r : ℕ × ℕ} (h : move dst src n = some r) :
    n ≤ src ∧ r = (dst + n, src - n) := by
  simp only [move, Option.bind_eq_bind, Option.pure_def] at h
  cases subtracted : sub src n with
  | none => simp [subtracted] at h
  | some src' =>
    obtain ⟨le, rfl⟩ := le_of_sub_eq_some subtracted
    simp only [subtracted, Option.bind_some, Option.some.injEq] at h
    exact ⟨le, h.symm⟩

end Quantity

end Orphiq

import Mathlib

/-!
# Pro-rata parts rounded down

A balance `b` shared among holders of `t` shares in all gives the holder of `s` shares the
part `s * b / t`, rounded down. Rounding every part down never pays out more than the
balance (`sum_mul_div_le`), and no single part is more than it (`mul_div_le_of_le`).
`sum_update_add` says how the total of the shares moves when one holder's shares change.
-/

namespace ProRata

open Finset

variable {ι : Type}

/-- A sum of quotients rounded down is at most the quotient of the sum. -/
theorem sum_div_le_div_sum (s : Finset ι) (f : ι → ℕ) (c : ℕ) :
    ∑ i ∈ s, f i / c ≤ (∑ i ∈ s, f i) / c := by
  classical
  induction s using Finset.induction_on with
  | empty => simp
  | insert a s notMem ih =>
    rw [sum_insert notMem, sum_insert notMem]
    calc f a / c + ∑ i ∈ s, f i / c
        ≤ f a / c + (∑ i ∈ s, f i) / c := Nat.add_le_add_left ih _
      _ ≤ (f a + ∑ i ∈ s, f i) / c := Nat.div_add_div_le_add_div

theorem sum_mul_div_le (s : Finset ι) (f : ι → ℕ) (b : ℕ) :
    ∑ i ∈ s, f i * b / ∑ j ∈ s, f j ≤ b :=
  calc ∑ i ∈ s, f i * b / ∑ j ∈ s, f j
      ≤ (∑ i ∈ s, f i * b) / ∑ j ∈ s, f j := sum_div_le_div_sum _ _ _
    _ = (∑ j ∈ s, f j) * b / ∑ j ∈ s, f j := by rw [sum_mul]
    _ ≤ b := Nat.div_le_of_le_mul le_rfl

theorem mul_div_le_of_le {s t : ℕ} (h : s ≤ t) (b : ℕ) : s * b / t ≤ b :=
  Nat.div_le_of_le_mul (Nat.mul_le_mul_right b h)

theorem mul_div_self {t : ℕ} (h : 0 < t) (b : ℕ) : t * b / t = b :=
  Nat.mul_div_cancel_left b h

theorem mul_div_le_of_mul_le {s a b t : ℕ} (h : s * b ≤ a * t) : s * (b + a) / (t + s) ≤ a :=
  Nat.div_le_of_le_mul (calc s * (b + a) = s * b + s * a := Nat.mul_add s b a
    _ ≤ a * t + s * a := Nat.add_le_add_right h _
    _ = (t + s) * a := by ring)

theorem sum_update_add [Fintype ι] [DecidableEq ι] (f : ι → ℕ) (i : ι) (b : ℕ) :
    ∑ j, Function.update f i b j + f i = ∑ j, f j + b := by
  rw [sum_update_of_mem (mem_univ i), sum_eq_add_sum_sdiff_singleton_of_mem (mem_univ i) f]
  omega

end ProRata

import Mathlib

/-!
# Hash chains

A chain folds each link into a running digest, first link first: the digest of links
`a₀, …, aₙ` from `b` is `step aₙ (… (step a₀ b))`. When `step` is injective in both
arguments, a digest determines the links of a chain of given length and the start it began
from (`digest_injective`).
-/

namespace HashChain

variable {α β : Type} (step : α → β → β)

def digest (start : β) (links : List α) : β := links.foldl (fun d a => step a d) start

@[simp] theorem digest_nil (start : β) : digest step start [] = start := rfl

@[simp] theorem digest_cons (start : β) (a : α) (links : List α) :
    digest step start (a :: links) = digest step (step a start) links := rfl

theorem digest_append (start : β) (links links' : List α) :
    digest step start (links ++ links') = digest step (digest step start links) links' := by
  simp [digest]

theorem digest_concat (start : β) (links : List α) (a : α) :
    digest step start (links ++ [a]) = step a (digest step start links) := by
  rw [digest_append]
  rfl

variable {step}

theorem digest_injective (injective : Function.Injective2 step) {start start' : β} {links links' : List α}
    (same : digest step start links = digest step start' links') (length : links.length = links'.length) :
    links = links' ∧ start = start' := by
  -- from the last link back: each step gives its link and the digest before it
  induction links using List.reverseRecOn generalizing links' with
  | nil =>
    obtain rfl : links' = [] := List.eq_nil_of_length_eq_zero length.symm
    exact ⟨rfl, same⟩
  | append_singleton links a ih =>
    rcases List.eq_nil_or_concat links' with rfl | ⟨rest, a', rfl⟩
    · simp at length
    · rw [List.concat_eq_append] at same length ⊢
      rw [digest_concat, digest_concat] at same
      obtain ⟨sameLink, sameDigest⟩ := injective same
      obtain ⟨rfl, rfl⟩ := ih sameDigest (by simpa using length)
      exact ⟨by rw [sameLink], rfl⟩

end HashChain

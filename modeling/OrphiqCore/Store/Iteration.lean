import Mathlib

/-!
# Loops over maps whose result does not depend on the order

Go ranges over a map in an unspecified order. A loop that adds an amount for each entry, and
fails with one fixed error on an entry it rejects, fails when some entry is rejected and
otherwise returns the sum (`foldlM_eq_ite`), so it returns the same in every order
(`foldlM_perm`). A map with distinct keys, as an association list, drops a key by keeping the
other entries (`kerase_eq_filter`).
-/

namespace Store

@[simp] theorem ok_bind {ε α β : Type} (a : α) (f : α → Except ε β) : (Except.ok a >>= f) = f a := rfl

@[simp] theorem error_bind {ε α β : Type} (e : ε) (f : α → Except ε β) :
    (Except.error e >>= f) = Except.error e := rfl

@[simp] theorem throw_eq_error {ε α : Type} (e : ε) : (throw e : Except ε α) = Except.error e := rfl

section Accumulate

variable {α ε M : Type} [AddCommMonoid M] {step : M → α → Except ε M} {p : α → Prop} [DecidablePred p]
  {g : α → M} {e : ε}

/-- `step` adds `g x` for an accepted `x` and fails with `e` otherwise. -/
def Accumulates (step : M → α → Except ε M) (p : α → Prop) [DecidablePred p] (g : α → M) (e : ε) : Prop :=
  ∀ total x, step total x = if p x then .ok (total + g x) else .error e

theorem foldlM_eq_ite (accumulates : Accumulates step p g e) (l : List α) (init : M) :
    l.foldlM step init = if ∀ x ∈ l, p x then .ok (init + (l.map g).sum) else .error e := by
  induction l generalizing init with
  | nil => simp; rfl
  | cons x l ih =>
    rw [List.foldlM_cons, accumulates]
    by_cases accepted : p x
    · rw [if_pos accepted]
      change l.foldlM step (init + g x) = _
      simp [ih, accepted, add_assoc]
    · rw [if_neg accepted, if_neg fun all => accepted (all x List.mem_cons_self)]
      rfl

theorem foldlM_perm (accumulates : Accumulates step p g e) {l l' : List α} (perm : l.Perm l') (init : M) :
    l.foldlM step init = l'.foldlM step init := by
  simp only [foldlM_eq_ite accumulates, (perm.map g).sum_eq, perm.mem_iff]

end Accumulate

theorem kerase_eq_filter {α : Type} {β : α → Type} [DecidableEq α] {l : List (Sigma β)} (nodup : l.NodupKeys)
    (a : α) : l.kerase a = l.filter fun s => a ≠ s.1 := by
  have keep : ∀ l' : List (Sigma β), a ∉ l'.keys → l'.filter (fun s => a ≠ s.1) = l' := by
    intro l' absent
    apply List.filter_eq_self.mpr
    intro s mem
    have other : a ≠ s.1 := fun same => absent (same ▸ List.mem_keys_of_mem mem)
    simpa using other
  by_cases mem : a ∈ l.keys
  · obtain ⟨b, l₁, l₂, notMem, rfl, erased⟩ := List.exists_of_kerase mem
    have distinct : (l₁.keys ++ a :: l₂.keys).Nodup := by
      simpa only [List.NodupKeys, List.keys_append, List.keys_cons] using nodup
    have notMem₂ : a ∉ l₂.keys := (List.nodup_cons.mp distinct.of_append_right).1
    rw [erased, List.filter_append, List.filter_cons, keep l₁ notMem, keep l₂ notMem₂]
    simp
  · rw [List.kerase_of_notMem_keys mem, keep l mem]

end Store

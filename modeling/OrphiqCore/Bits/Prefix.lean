import Mathlib

/-!
# Longest common prefixes

`lcp a b` is the length of the longest common prefix of two lists. A compressed trie places
a node at the longest common prefix of the keys below it, so every split and merge of an
edge label is a statement about `lcp`. `lcp_eq_iff` characterises it, and the other lemmas
say how it meets `take`, `drop` and appending a shared prefix.
-/

namespace Bits

variable {α : Type} [DecidableEq α]

/-- The length of the longest common prefix of two lists. -/
def lcp : List α → List α → Nat
  | a :: as, b :: bs => if a = b then lcp as bs + 1 else 0
  | _, _ => 0

@[simp] theorem lcp_nil_left (b : List α) : lcp [] b = 0 := by
  cases b <;> rfl

@[simp] theorem lcp_nil_right (a : List α) : lcp a [] = 0 := by
  cases a <;> rfl

theorem lcp_cons (x y : α) (a b : List α) :
    lcp (x :: a) (y :: b) = if x = y then lcp a b + 1 else 0 := rfl

@[simp] theorem lcp_cons_self (x : α) (a b : List α) : lcp (x :: a) (x :: b) = lcp a b + 1 := by
  simp [lcp_cons]

theorem lcp_comm (a b : List α) : lcp a b = lcp b a := by
  induction a generalizing b with
  | nil => simp
  | cons x a ih =>
    cases b with
    | nil => simp
    | cons y b =>
      by_cases same : x = y
      · subst same
        simp [ih]
      · simp [lcp_cons, same, Ne.symm same]

theorem lcp_le_left (a b : List α) : lcp a b ≤ a.length := by
  induction a generalizing b with
  | nil => simp
  | cons x a ih =>
    cases b with
    | nil => simp
    | cons y b =>
      rw [lcp_cons]
      split
      · simpa using ih b
      · simp

theorem lcp_le_right (a b : List α) : lcp a b ≤ b.length := by
  rw [lcp_comm]
  exact lcp_le_left b a

theorem take_lcp (a b : List α) : a.take (lcp a b) = b.take (lcp a b) := by
  induction a generalizing b with
  | nil => simp
  | cons x a ih =>
    cases b with
    | nil => simp
    | cons y b =>
      rw [lcp_cons]
      split
      · rename_i same
        subst same
        simp [ih b]
      · simp

theorem getElem_lcp_ne (a b : List α) (ha : lcp a b < a.length) (hb : lcp a b < b.length) :
    a[lcp a b] ≠ b[lcp a b] := by
  induction a generalizing b with
  | nil => simp at ha
  | cons x a ih =>
    cases b with
    | nil => simp at hb
    | cons y b =>
      by_cases same : x = y
      · subst same
        simp only [lcp_cons_self, List.length_cons, Nat.add_lt_add_iff_right] at ha hb
        simpa using ih b ha hb
      · simp [lcp_cons, same]

/-- `lcp a b` is the one length up to which the lists agree and at which they differ or one ends. -/
theorem lcp_eq_iff (a b : List α) (n : Nat) :
    lcp a b = n ↔ n ≤ a.length ∧ n ≤ b.length ∧ a.take n = b.take n ∧
      ∀ (ha : n < a.length) (hb : n < b.length), a[n] ≠ b[n] := by
  constructor
  · rintro rfl
    exact ⟨lcp_le_left a b, lcp_le_right a b, take_lcp a b, getElem_lcp_ne a b⟩
  · rintro ⟨ha, hb, agree, differ⟩
    induction a generalizing b n with
    | nil => simp at ha; simp [ha]
    | cons x a ih =>
      cases b with
      | nil => simp at hb; simp [hb]
      | cons y b =>
        cases n with
        | zero =>
          have : x ≠ y := differ (by simp) (by simp)
          simp [lcp_cons, this]
        | succ n =>
          simp only [List.take_succ_cons, List.cons.injEq] at agree
          obtain ⟨rfl, agree⟩ := agree
          have rest : ∀ (ha' : n < a.length) (hb' : n < b.length), a[n] ≠ b[n] := by
            intro ha' hb'
            have := differ (by simpa using ha') (by simpa using hb')
            simpa using this
          rw [lcp_cons_self, ih b n (by simpa using ha) (by simpa using hb) agree rest]

theorem lcp_append_common (p a b : List α) : lcp (p ++ a) (p ++ b) = p.length + lcp a b := by
  induction p with
  | nil => simp
  | cons x p ih => simp [ih]; omega

theorem lcp_of_prefix {p b : List α} (h : p <+: b) : lcp p b = p.length := by
  obtain ⟨rest, rfl⟩ := h
  simpa using lcp_append_common p [] rest

theorem lcp_eq_length_left_iff (a b : List α) : lcp a b = a.length ↔ a <+: b := by
  constructor
  · intro full
    have agree := take_lcp a b
    rw [full, List.take_length] at agree
    rw [agree]
    exact List.take_prefix _ _
  · exact lcp_of_prefix

theorem lcp_take (a b : List α) (m n : Nat) :
    lcp (a.take m) (b.take n) = min (lcp a b) (min m n) := by
  induction a generalizing b m n with
  | nil => simp
  | cons x a ih =>
    cases b with
    | nil => simp
    | cons y b =>
      cases m with
      | zero => simp
      | succ m =>
        cases n with
        | zero => simp
        | succ n =>
          simp only [List.take_succ_cons, lcp_cons]
          split
          · rw [ih b m n]
            omega
          · simp

theorem lcp_append_of_lt {p q : List α} (s t : List α) (hp : lcp p q < p.length)
    (hq : lcp p q < q.length) : lcp (p ++ s) (q ++ t) = lcp p q := by
  rw [lcp_eq_iff]
  refine ⟨by simp; omega, by simp; omega, ?_, fun _ _ => ?_⟩
  · rw [List.take_append_of_le_length (by omega), List.take_append_of_le_length (by omega),
      take_lcp]
  · rw [List.getElem_append_left hp, List.getElem_append_left hq]
    exact getElem_lcp_ne p q hp hq

theorem lcp_append_min (p q s t : List α) :
    min (lcp (p ++ s) (q ++ t)) (min p.length q.length) = lcp p q := by
  have cut := lcp_take (p ++ s) (q ++ t) p.length q.length
  rw [List.take_left', List.take_left'] at cut
  · exact cut.symm
  · rfl
  · rfl

theorem take_append_getElem_prefix_self {β : Type} (a : List β) {n : Nat} (h : n < a.length) :
    a.take n ++ [a[n]] <+: a := by
  rw [← List.take_succ_eq_append_getElem h]
  exact List.take_prefix _ _

theorem prefix_append_getElem {β : Type} {p a : List β} (hp : p <+: a) (h : p.length < a.length) :
    p ++ [a[p.length]] <+: a := by
  have same : a.take p.length = p := (List.prefix_iff_eq_take.mp hp).symm
  have := take_append_getElem_prefix_self a h
  rwa [same] at this

end Bits

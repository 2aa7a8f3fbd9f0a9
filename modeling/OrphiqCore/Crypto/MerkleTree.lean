import Mathlib

/-!
# Merkle tree hashes of lists

The tree hash of a list over a leaf hash `leaf` and a node hash `node`: a list of two or more
items splits after the largest power of two below its length (`splitPoint`), and its root is the
node hash of the roots of the two parts. `path` lists the roots of the siblings met on the way
from an item up to the root, lowest first, as an inclusion proof carries them; there are at most
as many as the tree is high (`length_path_le`).

`Collision` says the two hashes collide: two leaves, two nodes, or a leaf and a node with one
hash. A root determines its shape unless there is a collision (`root_eq_leaf`, `root_eq_node`);
this is what the soundness of inclusion proofs rests on, without assuming hashes injective,
which no hash into a finite type is.
-/

namespace MerkleTree

/-- The largest power of two below `n`, for `n ≥ 2`. -/
def splitPoint (n : Nat) : Nat := 2 ^ Nat.log 2 (n - 1)

theorem splitPoint_pos (n : Nat) : 0 < splitPoint n := Nat.two_pow_pos _

theorem splitPoint_lt {n : Nat} (h : 2 ≤ n) : splitPoint n < n := by
  have := Nat.pow_log_le_self 2 (show n - 1 ≠ 0 by omega)
  unfold splitPoint
  omega

theorem le_two_mul_splitPoint {n : Nat} (h : 2 ≤ n) : n ≤ 2 * splitPoint n := by
  have := Nat.lt_pow_succ_log_self (by decide : 1 < 2) (n - 1)
  rw [Nat.pow_succ] at this
  unfold splitPoint
  omega

theorem splitPoint_le {n d : Nat} (h : 2 ≤ n) (fits : n ≤ 2 ^ (d + 1)) : splitPoint n ≤ 2 ^ d := by
  have below : Nat.log 2 (n - 1) < d + 1 := Nat.log_lt_of_lt_pow (by omega) (by omega)
  exact Nat.pow_le_pow_right (by decide) (by omega)

theorem two_pow_clog_eq {n : Nat} (h : 2 ≤ n) : 2 ^ Nat.clog 2 n = 2 * splitPoint n := by
  have low : splitPoint n ≤ n - 1 := Nat.pow_log_le_self 2 (by omega)
  have high : n ≤ 2 * splitPoint n := le_two_mul_splitPoint h
  have clog : Nat.clog 2 n = Nat.log 2 (n - 1) + 1 := by
    apply le_antisymm
    · rw [Nat.clog_le_iff_le_pow (by decide), Nat.pow_succ]
      unfold splitPoint at high
      omega
    · rw [Nat.succ_le_iff, Nat.lt_clog_iff_pow_lt (by decide)]
      unfold splitPoint at low
      omega
  rw [clog, Nat.pow_succ, Nat.mul_comm]
  rfl

section Tree

variable {α η : Type} (leaf : α → η) (node : η → η → η) (empty : η)

theorem take_splitPoint_lt {items : List α} (h : 2 ≤ items.length) :
    (items.take (splitPoint items.length)).length < items.length := by
  have := splitPoint_lt h
  simp
  omega

theorem drop_splitPoint_lt {items : List α} (nonempty : items ≠ []) :
    (items.drop (splitPoint items.length)).length < items.length := by
  cases items with
  | nil => contradiction
  | cons x rest =>
    have := splitPoint_pos (rest.length + 1)
    simp
    omega

/-- The root of the tree over `items`: `empty` for no items. -/
def root : List α → η
  | [] => empty
  | [x] => leaf x
  | x :: y :: rest =>
    node (root ((x :: y :: rest).take (splitPoint (x :: y :: rest).length)))
      (root ((x :: y :: rest).drop (splitPoint (x :: y :: rest).length)))
termination_by items => items.length
decreasing_by
  · exact take_splitPoint_lt (by simp)
  · exact drop_splitPoint_lt (List.cons_ne_nil _ _)

@[simp] theorem root_nil : root leaf node empty [] = empty := by
  rw [root]

@[simp] theorem root_singleton (x : α) : root leaf node empty [x] = leaf x := by
  rw [root]

theorem root_of_two_le {items : List α} (h : 2 ≤ items.length) :
    root leaf node empty items = node (root leaf node empty (items.take (splitPoint items.length)))
      (root leaf node empty (items.drop (splitPoint items.length))) := by
  match items, h with
  | _ :: _ :: _, _ => rw [root]

/-- The roots of the siblings from item `i` up to the root, lowest first. -/
def path : List α → Nat → List η
  | [], _ => []
  | [_], _ => []
  | x :: y :: rest, i =>
    if i < splitPoint (x :: y :: rest).length then
      path ((x :: y :: rest).take (splitPoint (x :: y :: rest).length)) i ++
        [root leaf node empty ((x :: y :: rest).drop (splitPoint (x :: y :: rest).length))]
    else
      path ((x :: y :: rest).drop (splitPoint (x :: y :: rest).length)) (i - splitPoint (x :: y :: rest).length) ++
        [root leaf node empty ((x :: y :: rest).take (splitPoint (x :: y :: rest).length))]
termination_by items => items.length
decreasing_by
  · exact take_splitPoint_lt (by simp)
  · exact drop_splitPoint_lt (List.cons_ne_nil _ _)

theorem path_of_two_le {items : List α} (h : 2 ≤ items.length) (i : Nat) :
    path leaf node empty items i =
      if i < splitPoint items.length then
        path leaf node empty (items.take (splitPoint items.length)) i ++
          [root leaf node empty (items.drop (splitPoint items.length))]
      else
        path leaf node empty (items.drop (splitPoint items.length)) (i - splitPoint items.length) ++
          [root leaf node empty (items.take (splitPoint items.length))] := by
  match items, h with
  | _ :: _ :: _, _ => rw [path]

theorem length_path_le {d : Nat} {items : List α} (fits : items.length ≤ 2 ^ d) (i : Nat) :
    (path leaf node empty items i).length ≤ d := by
  induction d generalizing items i with
  | zero =>
    match items, fits with
    | [], _ => simp [path]
    | [_], _ => simp [path]
    | _ :: _ :: _, fits => simp at fits
  | succ d ih =>
    by_cases two : 2 ≤ items.length
    · have left : (items.take (splitPoint items.length)).length ≤ 2 ^ d := by
        have := splitPoint_le two fits
        simp
        omega
      have right : (items.drop (splitPoint items.length)).length ≤ 2 ^ d := by
        have := le_two_mul_splitPoint two
        have := splitPoint_le two fits
        simp
        omega
      rw [path_of_two_le leaf node empty two]
      split
      · simpa using ih left i
      · simpa using ih right _
    · match items, two with
      | [], _ => simp [path]
      | [_], _ => simp [path]
      | _ :: _ :: _, two => simp at two

/-- The hashes collide: two leaves, two nodes, or a leaf and a node have one hash. -/
def Collision : Prop :=
  (∃ x y, x ≠ y ∧ leaf x = leaf y) ∨ (∃ a b c d, (a, b) ≠ (c, d) ∧ node a b = node c d) ∨
    ∃ x a b, leaf x = node a b

variable {leaf node empty}

theorem eq_or_collision_of_leaf_eq {x y : α} (same : leaf x = leaf y) : x = y ∨ Collision leaf node := by
  by_cases h : x = y
  · exact .inl h
  · exact .inr (.inl ⟨x, y, h, same⟩)

theorem eq_or_collision_of_node_eq {a b c d : η} (same : node a b = node c d) :
    (a = c ∧ b = d) ∨ Collision leaf node := by
  by_cases h : (a, b) = (c, d)
  · exact .inl (Prod.mk.inj h)
  · exact .inr (.inr (.inl ⟨a, b, c, d, h, same⟩))

/-- A root that is a leaf hash is the root of that one leaf, unless the hashes collide. -/
theorem root_eq_leaf {items : List α} {x : α} (nonempty : items ≠ []) (rooted : root leaf node empty items = leaf x) :
    items = [x] ∨ Collision leaf node := by
  match items, nonempty with
  | [y], _ =>
    rw [root_singleton] at rooted
    exact (eq_or_collision_of_leaf_eq rooted).imp (fun same => by rw [same]) id
  | y :: z :: rest, _ =>
    rw [root_of_two_le leaf node empty (by simp)] at rooted
    exact .inr (.inr (.inr ⟨x, _, _, rooted.symm⟩))

/-- A root that is a node hash is the node over the roots of the two parts, unless the hashes
collide. -/
theorem root_eq_node {items : List α} {a b : η} (nonempty : items ≠ []) (rooted : root leaf node empty items = node a b) :
    (2 ≤ items.length ∧ a = root leaf node empty (items.take (splitPoint items.length)) ∧
      b = root leaf node empty (items.drop (splitPoint items.length))) ∨ Collision leaf node := by
  match items, nonempty with
  | [y], _ =>
    rw [root_singleton] at rooted
    exact .inr (.inr (.inr ⟨y, a, b, rooted⟩))
  | y :: z :: rest, _ =>
    rw [root_of_two_le leaf node empty (by simp)] at rooted
    exact (eq_or_collision_of_node_eq rooted.symm).imp (fun ⟨left, right⟩ => ⟨by simp, left, right⟩) id

end Tree

end MerkleTree

import OrphiqCore.Crypto.MerkleTree

/-!
# Merkle proofs of Tendermint networks

`consensus/tendermint/merkle.rs`: a proof that an item is in a list whose tree root is known
carries the list's size, the item's index, the item's leaf hash and the aunts, the roots of the
siblings on the way up. Hashes are values of a type `η`: `leaf_hash` and `inner_hash` hash
`0x00 || leaf` and `0x01 || left || right`, and are parameters of the model (`Hasher`).

`computeHashFromAunts` rebuilds a root from a proof the way the Rust code does, taking the aunts
from the end and splitting the size with `get_split_point`. An honest proof (the aunts of
`MerkleTree.path`) rebuilds the root of `MerkleTree.root` (`computeHashFromAunts_path`), and a
proof that rebuilds the root of a list proves an item of the list, at its index when the size is
right, unless the hashes collide (`computeHashFromAunts_sound`), whatever size, index and aunts it
was given.
-/

namespace Orphiq.Runtime.Tendermint

def maxAunts : Nat := 100

/-- The hashes of a tree: `leaf_hash`, `inner_hash`, and the hash of no items, which only the
tree's definition uses. -/
structure Hasher (η : Type) where
  leafHash : η → η
  innerHash : η → η → η
  emptyHash : η

/-- `Proof`: `total` and `index` are `i64`s, which no subtraction of the code overflows. -/
structure Proof (η : Type) where
  total : Int
  index : Int
  leafHash : η
  aunts : List η

/-- The errors of `Proof::verify`, with the values their messages print. -/
inductive VerifyError (η : Type) where
  /-- "proof total must be positive" -/
  | totalNegative
  /-- "proof index cannot be negative" -/
  | indexNegative
  /-- "expected no more than {MAX_AUNTS} aunts, got {len}" -/
  | tooManyAunts (max got : Nat)
  /-- "invalid leaf hash: wanted {leaf_hash} got {self.leaf_hash}" -/
  | invalidLeafHash (wanted got : η)
  /-- "invalid root hash: wanted {root_hash} got None" -/
  | missingRootHash (wanted : η)
  /-- "invalid root hash: wanted {root_hash} got {computed_hash}" -/
  | invalidRootHash (wanted got : η)

/-- `usize::next_power_of_two`: the least power of two at least `n`. The sizes it is given here
are below `2 ^ 63`, so it does not overflow. -/
def nextPowerOfTwo (n : Nat) : Nat := 2 ^ Nat.clog 2 n

/-- `get_split_point`: the largest power of two below `length`. It panics for fewer than two
items. -/
def getSplitPoint (length : Nat) : Option Nat :=
  match length with
  | 0 => none
  | 1 => none
  | 2 => some 1
  | length => some (nextPowerOfTwo length / 2)

theorem getSplitPoint_eq {length : Nat} (h : 2 ≤ length) :
    getSplitPoint length = some (MerkleTree.splitPoint length) := by
  match length, h with
  | 2, _ => rfl
  | n + 3, _ =>
    have large : getSplitPoint (n + 3) = some (nextPowerOfTwo (n + 3) / 2) := rfl
    rw [large, nextPowerOfTwo, MerkleTree.two_pow_clog_eq (by omega), Nat.mul_div_cancel_left _ (by decide)]

section Verify

variable {η : Type} (H : Hasher η)

/-- `Proof::compute_hash_from_aunts`: the last aunt is the sibling of the subtree that holds the
leaf, just below the root, and the others prove the leaf in that subtree. -/
def computeHashFromAunts (index total : Int) (leafHash : η) (innerHashes : List η) : Option η :=
  if index ≥ total ∨ index < 0 ∨ total ≤ 0 then none
  else if total = 1 then
    if !innerHashes.isEmpty then none else some leafHash
  else if empty : innerHashes = [] then none
  else
    let lastHash := innerHashes.getLast empty
    (getSplitPoint total.toNat).bind fun numLeft =>
      if index < numLeft then
        (computeHashFromAunts index numLeft leafHash innerHashes.dropLast).map fun leftHash =>
          H.innerHash leftHash lastHash
      else
        (computeHashFromAunts (index - numLeft) (total - numLeft) leafHash innerHashes.dropLast).map
          fun rightHash => H.innerHash lastHash rightHash
termination_by innerHashes.length
decreasing_by
  all_goals
    have := List.length_pos_iff.mpr empty
    simp only [List.length_dropLast]
    omega

variable {H}

theorem computeHashFromAunts_range {index total : Int} {leafHash h : η} {innerHashes : List η}
    (rebuilt : computeHashFromAunts H index total leafHash innerHashes = some h) : 0 ≤ index ∧ index < total := by
  rw [computeHashFromAunts] at rebuilt
  split at rebuilt
  · cases rebuilt
  · omega

theorem computeHashFromAunts_nil {index total : Int} {leafHash h : η}
    (rebuilt : computeHashFromAunts H index total leafHash [] = some h) : total = 1 ∧ index = 0 ∧ h = leafHash := by
  have range := computeHashFromAunts_range rebuilt
  rw [computeHashFromAunts, if_neg (by omega)] at rebuilt
  split at rebuilt
  · simp only [List.isEmpty_nil, Bool.not_true, Bool.false_eq_true, if_false, Option.some.injEq] at rebuilt
    exact ⟨by assumption, by omega, rebuilt.symm⟩
  · simp at rebuilt

theorem computeHashFromAunts_concat {index total : Int} (leafHash : η) (innerHashes : List η) (lastHash : η)
    (two : 2 ≤ total) (range : 0 ≤ index ∧ index < total) :
    computeHashFromAunts H index total leafHash (innerHashes ++ [lastHash]) =
      if index < MerkleTree.splitPoint total.toNat then
        (computeHashFromAunts H index (MerkleTree.splitPoint total.toNat) leafHash innerHashes).map
          (H.innerHash · lastHash)
      else
        (computeHashFromAunts H (index - MerkleTree.splitPoint total.toNat)
          (total - MerkleTree.splitPoint total.toNat) leafHash innerHashes).map (H.innerHash lastHash ·) := by
  rw [computeHashFromAunts, if_neg (by omega), if_neg (by omega), dif_neg (by simp),
    getSplitPoint_eq (by omega)]
  simp only [List.getLast_concat, List.dropLast_concat, Option.bind_some]

theorem computeHashFromAunts_path (items : List η) (i : Nat) (hi : i < items.length) :
    computeHashFromAunts H i items.length (H.leafHash items[i])
        (MerkleTree.path H.leafHash H.innerHash H.emptyHash items i) =
      some (MerkleTree.root H.leafHash H.innerHash H.emptyHash items) := by
  fun_induction MerkleTree.path H.leafHash H.innerHash H.emptyHash items i with
  | case1 => simp at hi
  | case2 y i =>
    obtain rfl : i = 0 := by simp at hi; omega
    rw [computeHashFromAunts, if_neg (by simp), if_pos (by simp)]
    simp
  | case3 y z rest i left ih =>
    have two : 2 ≤ (y :: z :: rest).length := by simp
    have below := MerkleTree.splitPoint_lt two
    have sized : ((y :: z :: rest).take (MerkleTree.splitPoint (y :: z :: rest).length)).length =
        MerkleTree.splitPoint (y :: z :: rest).length := by
      simp only [List.length_take]
      omega
    have rebuilt := ih (by rw [sized]; exact left)
    simp only [sized, List.getElem_take] at rebuilt
    rw [computeHashFromAunts_concat _ _ _ (by omega) ⟨by omega, by omega⟩, Int.toNat_natCast,
      if_pos (by exact_mod_cast left), rebuilt, Option.map_some, MerkleTree.root_of_two_le _ _ _ two]
  | case4 y z rest i right ih =>
    have two : 2 ≤ (y :: z :: rest).length := by simp
    have below := MerkleTree.splitPoint_lt two
    have sized : ((y :: z :: rest).drop (MerkleTree.splitPoint (y :: z :: rest).length)).length =
        (y :: z :: rest).length - MerkleTree.splitPoint (y :: z :: rest).length := List.length_drop
    have rebuilt := ih (by rw [sized]; omega)
    simp only [sized, List.getElem_drop, Nat.add_sub_cancel' (Nat.le_of_not_lt right)] at rebuilt
    rw [computeHashFromAunts_concat _ _ _ (by omega) ⟨by omega, by omega⟩, Int.toNat_natCast,
      if_neg (by exact_mod_cast right)]
    rw [← Int.ofNat_sub (Nat.le_of_not_lt right), ← Int.ofNat_sub below.le, rebuilt, Option.map_some,
      MerkleTree.root_of_two_le _ _ _ two]

/-- Whatever size, index and aunts a proof gives, if it rebuilds the root of a list from the leaf
hash of `x`, then `x` is in the list, at the index when the size is the list's, unless the hashes
collide. The induction peels the last aunt off against the root's own split. -/
theorem computeHashFromAunts_sound {x : η} (aunts : List η) {index total : Int} {items : List η}
    (nonempty : items ≠ [])
    (rebuilt : computeHashFromAunts H index total (H.leafHash x) aunts =
      some (MerkleTree.root H.leafHash H.innerHash H.emptyHash items)) :
    (x ∈ items ∧ (total = items.length → items[index.toNat]? = some x)) ∨
      MerkleTree.Collision H.leafHash H.innerHash := by
  induction aunts using List.reverseRecOn generalizing index total items with
  | nil =>
    obtain ⟨-, rfl, rooted⟩ := computeHashFromAunts_nil rebuilt
    rcases MerkleTree.root_eq_leaf nonempty rooted with rfl | collision
    · exact .inl ⟨List.mem_singleton_self x, fun _ => rfl⟩
    · exact .inr collision
  | append_singleton init last ih =>
    have range := computeHashFromAunts_range rebuilt
    have two : 2 ≤ total := by
      -- a single item takes no aunts
      by_contra one
      rw [computeHashFromAunts, if_neg (by omega), if_pos (by omega)] at rebuilt
      simp at rebuilt
    rw [computeHashFromAunts_concat _ _ _ two range] at rebuilt
    split at rebuilt
    · rename_i left
      obtain ⟨leftHash, leftRebuilt, rooted⟩ := Option.map_eq_some_iff.mp rebuilt
      rcases MerkleTree.root_eq_node nonempty rooted.symm with ⟨twoItems, rfl, rfl⟩ | collision
      · have takeNonempty : items.take (MerkleTree.splitPoint items.length) ≠ [] := by
          have := MerkleTree.splitPoint_pos items.length
          simp [List.take_eq_nil_iff, nonempty]
          omega
        refine (ih takeNonempty leftRebuilt).imp (fun ⟨mem, positioned⟩ => ⟨List.mem_of_mem_take mem, ?_⟩) id
        -- With the list's size, the proof splits where the tree does.
        rintro rfl
        rw [Int.toNat_natCast] at positioned left
        have below := MerkleTree.splitPoint_lt twoItems
        have sized : (items.take (MerkleTree.splitPoint items.length)).length = MerkleTree.splitPoint items.length := by
          simp only [List.length_take]
          omega
        have found := positioned (by rw [sized])
        rwa [List.getElem?_take, if_pos (by omega)] at found
      · exact .inr collision
    · rename_i right
      obtain ⟨rightHash, rightRebuilt, rooted⟩ := Option.map_eq_some_iff.mp rebuilt
      rcases MerkleTree.root_eq_node nonempty rooted.symm with ⟨twoItems, rfl, rfl⟩ | collision
      · have dropNonempty : items.drop (MerkleTree.splitPoint items.length) ≠ [] := by
          have := MerkleTree.splitPoint_lt twoItems
          simp [List.drop_eq_nil_iff]
          omega
        refine (ih dropNonempty rightRebuilt).imp (fun ⟨mem, positioned⟩ => ⟨List.mem_of_mem_drop mem, ?_⟩) id
        rintro rfl
        rw [Int.toNat_natCast] at positioned right
        have below := MerkleTree.splitPoint_lt twoItems
        have found := positioned (by rw [List.length_drop, Int.ofNat_sub below.le])
        rwa [List.getElem?_drop,
          show MerkleTree.splitPoint items.length + (index - (MerkleTree.splitPoint items.length : Int)).toNat =
            index.toNat by omega] at found
      · exact .inr collision

variable (H)

def Proof.computeRootHash (p : Proof η) : Option η :=
  computeHashFromAunts H p.index p.total p.leafHash p.aunts

variable [DecidableEq η]

def Proof.verify (p : Proof η) (rootHash leaf : η) : Except (VerifyError η) Unit := do
  if p.total < 0 then throw .totalNegative
  if p.index < 0 then throw .indexNegative
  if p.aunts.length > maxAunts then throw (.tooManyAunts maxAunts p.aunts.length)
  let leafHash := H.leafHash leaf
  if p.leafHash ≠ leafHash then throw (.invalidLeafHash leafHash p.leafHash)
  let some computedHash := p.computeRootHash H | throw (.missingRootHash rootHash)
  if computedHash ≠ rootHash then throw (.invalidRootHash rootHash computedHash)

@[simp] theorem except_throw_bind {ε α β : Type} (e : ε) (f : α → Except ε β) :
    (throw e : Except ε α) >>= f = throw e := rfl

theorem Proof.verify_eq_ok_iff {p : Proof η} {rootHash leaf : η} :
    p.verify H rootHash leaf = .ok () ↔ 0 ≤ p.total ∧ 0 ≤ p.index ∧ p.aunts.length ≤ maxAunts ∧
      p.leafHash = H.leafHash leaf ∧ p.computeRootHash H = some rootHash := by
  unfold Proof.verify
  by_cases total : p.total < 0
  · simp [total]
  by_cases index : p.index < 0
  · simp [total, index]
  by_cases aunts : p.aunts.length > maxAunts
  · simp [total, index, aunts]
  have checked : 0 ≤ p.total ∧ 0 ≤ p.index ∧ p.aunts.length ≤ maxAunts := by omega
  simp only [total, index, aunts, if_false, checked, true_and]
  by_cases leafEq : p.leafHash = H.leafHash leaf
  · cases p.computeRootHash H with
    | none => simp [leafEq]
    | some computed =>
      by_cases same : computed = rootHash
      · simp only [leafEq, same, ne_eq, not_true_eq_false, if_false, and_self, iff_true]
        rfl
      · simp [leafEq, same]
  · simp [leafEq]

theorem verify_complete_and_sound (free : ¬ MerkleTree.Collision H.leafHash H.innerHash) :
    (∀ (items : List η) (i : Nat) (hi : i < items.length), items.length < 2 ^ 63 →
      ∃ aunts : List η, aunts.length ≤ 63 ∧
        (⟨items.length, i, H.leafHash items[i], aunts⟩ : Proof η).verify H
          (MerkleTree.root H.leafHash H.innerHash H.emptyHash items) items[i] = .ok ()) ∧
    ∀ (items : List η) (x : η) (p : Proof η), items ≠ [] →
      p.verify H (MerkleTree.root H.leafHash H.innerHash H.emptyHash items) x = .ok () →
      x ∈ items ∧ (p.total = items.length → 0 ≤ p.index ∧ items[p.index.toNat]? = some x) := by
  constructor
  · intro items i hi small
    have short := MerkleTree.length_path_le H.leafHash H.innerHash H.emptyHash
      (show items.length ≤ 2 ^ 63 by omega) i
    refine ⟨_, short, (Proof.verify_eq_ok_iff H).mpr ⟨by simp, by simp, ?_, rfl, computeHashFromAunts_path items i hi⟩⟩
    simp only [maxAunts]
    omega
  · intro items x p nonempty verified
    obtain ⟨-, index, -, leafEq, rebuilt⟩ := (Proof.verify_eq_ok_iff H).mp verified
    rw [Proof.computeRootHash, leafEq] at rebuilt
    rcases computeHashFromAunts_sound p.aunts nonempty rebuilt with ⟨mem, positioned⟩ | collision
    · exact ⟨mem, fun sized => ⟨index, positioned sized⟩⟩
    · exact absurd collision free

end Verify

/-- A hash without collisions, over the numbers: leaves go to the even numbers and nodes, through
`Nat.pair`, to the odd ones. -/
def pairingHasher : Hasher Nat := ⟨fun x => 2 * x, fun a b => 2 * Nat.pair a b + 1, 0⟩

theorem pairingHasher_collisionFree : ¬ MerkleTree.Collision pairingHasher.leafHash pairingHasher.innerHash := by
  rintro (⟨x, y, differ, same⟩ | ⟨a, b, c, d, differ, same⟩ | ⟨x, a, b, same⟩)
  · simp only [pairingHasher] at same
    exact differ (by omega)
  · have paired : Nat.pair a b = Nat.pair c d := by
      simp only [pairingHasher] at same
      omega
    obtain ⟨rfl, rfl⟩ := Nat.pair_eq_pair.mp paired
    exact differ rfl
  · simp only [pairingHasher] at same
    omega

theorem verify_complete_and_sound_pairing :
    ¬ MerkleTree.Collision pairingHasher.leafHash pairingHasher.innerHash ∧
    ∃ aunts : List Nat, aunts.length ≤ 63 ∧
      (⟨3, 2, pairingHasher.leafHash 7, aunts⟩ : Proof Nat).verify pairingHasher
        (MerkleTree.root pairingHasher.leafHash pairingHasher.innerHash pairingHasher.emptyHash [5, 6, 7]) 7 = .ok () :=
  ⟨pairingHasher_collisionFree,
    (verify_complete_and_sound pairingHasher pairingHasher_collisionFree).1 [5, 6, 7] 2 (by decide) (by decide)⟩

end Orphiq.Runtime.Tendermint

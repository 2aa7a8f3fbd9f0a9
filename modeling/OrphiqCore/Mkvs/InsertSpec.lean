import OrphiqCore.Mkvs.Insert
import OrphiqCore.Mkvs.Trie

/-!
# Insertion keeps the trie canonical

`doInsert_spec`: inserting a key that fits a `Depth` below a canonical node succeeds, and the
new node is canonical at the same path, holds the old map updated at the key, and reports
whether the key was there. For the commit code it also returns the input node itself or a
dirty node, and every clean node of the result was already a node of the input, so cached
hashes stay valid.
-/

namespace Orphiq.Mkvs
open Bits Node

/-- What `doInsert` of `key ↦ val` delivers for a node `n`, whose shape `Shape` it keeps:
`Canonical path` for a node of the trie, `LeafSlot path` for a leaf node slot. -/
structure InsertSpec (Shape : Node → Prop) (n : Node) (key : Key) (val : Value) (r : InsertResult) :
    Prop where
  shape : Shape r.newRoot
  contents : r.newRoot.contents = Function.update n.contents key (some val)
  existed : r.existed = (n.contents key).isSome
  unchanged : r.newRoot.isClean = true → r.newRoot = n
  kept : ∀ m ∈ r.newRoot.subtrees, m.isClean = true → m ∈ n.subtrees

section Walk

variable {key : Key} {val : Value} {bitDepth : Depth}

theorem kept_of_dirty {m : Node} (dirty : m.isClean = false) (n : Node)
    (below : ∀ x ∈ m.subtrees, x ≠ m → x.isClean = true → x ∈ n.subtrees) :
    ∀ x ∈ m.subtrees, x.isClean = true → x ∈ n.subtrees := by
  intro x mem clean
  by_cases self : x = m
  · subst self
    simp [dirty] at clean
  · exact below x mem self clean

theorem doInsert_nil_spec {Shape : Node → Prop} {path : List Bool} (shape : Shape (newLeafNode key val))
    (hkey : path <+: ofBytes key) (fits : key.Fits) (depth : bitDepth.toNat = path.length) :
    ∃ r, doInsert .nil bitDepth key val = some r ∧ InsertSpec Shape .nil key val r := by
  obtain ⟨pre, rem, split, _⟩ := remainder_of_prefix hkey fits depth
  refine ⟨⟨newLeafNode key val, false⟩, by simp [doInsert, split], shape, ?_, rfl,
    fun clean => by simp [newLeafNode, isClean] at clean, ?_⟩
  · funext q
    by_cases same : q = key <;> simp [newLeafNode, same]
  · refine kept_of_dirty rfl _ fun x mem other => ?_
    simp [newLeafNode, subtrees] at mem
    exact absurd mem other

theorem doInsert_leaf_self_spec {Shape : Node → Prop} {path : List Bool} {c : Bool} {hash : Hash}
    {v : Value} (shapeOld : Shape (.leaf c hash key v)) (shapeNew : Shape (.leaf false hash key val))
    (hkey : path <+: ofBytes key) (fits : key.Fits) (depth : bitDepth.toNat = path.length) :
    ∃ r, doInsert (.leaf c hash key v) bitDepth key val = some r ∧
      InsertSpec Shape (.leaf c hash key v) key val r := by
  obtain ⟨pre, rem, split, _⟩ := remainder_of_prefix hkey fits depth
  by_cases sameValue : v = val
  · subst sameValue
    refine ⟨⟨.leaf c hash key v, true⟩, by simp [doInsert, split], shapeOld, ?_, by simp,
      fun _ => rfl, fun m mem _ => mem⟩
    funext q
    by_cases same : q = key <;> simp [same]
  · refine ⟨⟨.leaf false hash key val, true⟩, by simp [doInsert, split, sameValue], shapeNew, ?_, by simp,
      fun clean => by simp [isClean] at clean, ?_⟩
    · funext q
      by_cases same : q = key <;> simp [same]
    · refine kept_of_dirty rfl _ fun x mem other => ?_
      simp [subtrees] at mem
      exact absurd mem other

variable (val) in
theorem doInsert_leafSlot_spec {p : List Bool} {m : Node} (slot : LeafSlot p m) (onPath : ofBytes key = p)
    (fits : key.Fits) (depth : bitDepth.toNat = p.length) :
    ∃ r, doInsert m bitDepth key val = some r ∧ InsertSpec (LeafSlot p) m key val r := by
  have hkey : p <+: ofBytes key := onPath ▸ List.prefix_refl _
  cases m with
  | nil => exact doInsert_nil_spec ⟨onPath, fits⟩ hkey fits depth
  | internal => exact slot.elim
  | hashed => exact slot.elim
  | leaf c hash k v =>
    -- The slot's key has the same bits, so it is the same key.
    have same : k = key := ofBytes_injective (slot.1.trans onPath.symm)
    subst same
    exact doInsert_leaf_self_spec slot ⟨slot.1, fits⟩ hkey fits depth

/-! ### Forks

Where the key leaves the trie, a new internal node labelled with the common prefix `c` takes
the new leaf and the node `x` that held the old keys in two of its slots. -/

theorem insertSpec_fork {path c : List Bool} {label : Key} {cp : Depth} {old leafNode left right : Node}
    (enc : label.Encodes c) (len : cp.toNat = c.length) (slot : LeafSlot (path ++ c) leafNode)
    (cLeft : left.Canonical (path ++ c)) (bLeft : Below (path ++ c ++ [false]) left)
    (cRight : right.Canonical (path ++ c)) (bRight : Below (path ++ c ++ [true]) right)
    (branching : 2 ≤ leafNode.present + left.present + right.present)
    (contents : ∀ q, (leafNode.contents q).or ((left.contents q).or (right.contents q)) =
      Function.update old.contents key (some val) q)
    (absent : old.contents key = none)
    (kept : ∀ m, m ∈ leafNode.subtrees ∨ m ∈ left.subtrees ∨ m ∈ right.subtrees →
      m.isClean = true → m ∈ old.subtrees) :
    InsertSpec (Canonical path) old key val ⟨newInternalNode label cp leafNode left right, false⟩ := by
  refine ⟨⟨c, enc, len, slot, cLeft, bLeft, cRight, bRight, branching⟩, funext contents, by simp [absent],
    fun clean => by simp [newInternalNode, isClean] at clean, ?_⟩
  refine kept_of_dirty rfl _ fun m mem other clean => kept m ?_ clean
  simp only [newInternalNode, subtrees, List.mem_cons, List.mem_append] at mem
  rcases mem.resolve_left other with (inLeaf | inLeft) | inRight
  exacts [Or.inl inLeaf, Or.inr (Or.inl inLeft), Or.inr (Or.inr inRight)]

variable {path c : List Bool} {label : Key} {cp : Depth} {old x : Node}

theorem insertSpec_fork_keyEnds (enc : label.Encodes c) (len : cp.toNat = c.length)
    (onPath : ofBytes key = path ++ c) (fits : key.Fits) (b : Bool) (cx : x.Canonical (path ++ c))
    (bx : Below (path ++ c ++ [b]) x) (hasX : x.present = 1) (same : x.contents = old.contents)
    (absent : old.contents key = none) (kept : ∀ m ∈ x.subtrees, m.isClean = true → m ∈ old.subtrees) :
    InsertSpec (Canonical path) old key val
      ⟨if b then newInternalNode label cp (newLeafNode key val) .nil x
        else newInternalNode label cp (newLeafNode key val) x .nil, false⟩ := by
  have leafSlot : LeafSlot (path ++ c) (newLeafNode key val) := ⟨onPath, fits⟩
  have keptX : ∀ m, m ∈ (newLeafNode key val).subtrees ∨ m ∈ x.subtrees ∨ m ∈ Node.nil.subtrees →
      m.isClean = true → m ∈ old.subtrees := by
    intro m mem clean
    simp only [newLeafNode, subtrees, List.mem_singleton, List.not_mem_nil, or_false] at mem
    rcases mem with rfl | inX
    · simp [isClean] at clean
    · exact kept m inX clean
  have contents (q : Key) : ((newLeafNode key val).contents q).or (x.contents q) =
      Function.update old.contents key (some val) q := by
    by_cases atKey : q = key <;> simp [newLeafNode, atKey, same]
  cases b with
  | false =>
    refine insertSpec_fork enc len leafSlot cx bx trivial (fun _ _ found => by simp at found)
      (by simp [newLeafNode, hasX]) (fun q => by simpa using contents q) absent keptX
  | true =>
    refine insertSpec_fork enc len leafSlot trivial (fun _ _ found => by simp at found) cx bx
      (by simp [newLeafNode, hasX]) (fun q => by simpa using contents q) absent
      fun m mem => keptX m (by tauto)

theorem insertSpec_fork_oldEnds (enc : label.Encodes c) (len : cp.toNat = c.length) (b : Bool)
    (onSide : path ++ c ++ [b] <+: ofBytes key) (fits : key.Fits) (slotX : LeafSlot (path ++ c) x)
    (hasX : x.present = 1) (same : x.contents = old.contents) (absent : old.contents key = none)
    (kept : ∀ m ∈ x.subtrees, m.isClean = true → m ∈ old.subtrees) :
    InsertSpec (Canonical path) old key val
      ⟨if b then newInternalNode label cp x .nil (newLeafNode key val)
        else newInternalNode label cp x (newLeafNode key val) .nil, false⟩ := by
  have leafCanonical : (newLeafNode key val).Canonical (path ++ c) :=
    ⟨(List.prefix_append _ _).trans onSide, fits⟩
  have leafBelow : Below (path ++ c ++ [b]) (newLeafNode key val) := by
    intro q v found
    simp only [newLeafNode, contents_leaf, Option.ite_none_right_eq_some] at found
    rw [found.1]
    exact onSide
  have keptX : ∀ m, m ∈ x.subtrees ∨ m ∈ Node.nil.subtrees ∨ m ∈ (newLeafNode key val).subtrees →
      m.isClean = true → m ∈ old.subtrees := by
    intro m mem clean
    simp only [newLeafNode, subtrees, List.mem_singleton, List.not_mem_nil, false_or] at mem
    rcases mem with inX | rfl
    · exact kept m inX clean
    · simp [isClean] at clean
  have contents (q : Key) : (x.contents q).or ((newLeafNode key val).contents q) =
      Function.update old.contents key (some val) q := by
    by_cases atKey : q = key
    · subst atKey
      simp [newLeafNode, same, absent]
    · simp [newLeafNode, atKey, same]
  cases b with
  | false =>
    refine insertSpec_fork enc len slotX leafCanonical leafBelow trivial (fun _ _ found => by simp at found)
      (by simp [newLeafNode, hasX]) (fun q => by simpa using contents q) absent
      fun m mem => keptX m (by tauto)
  | true =>
    refine insertSpec_fork enc len slotX trivial (fun _ _ found => by simp at found) leafCanonical leafBelow
      (by simp [newLeafNode, hasX]) (fun q => by simpa using contents q) absent keptX

theorem insertSpec_fork_apart (enc : label.Encodes c) (len : cp.toNat = c.length) (b : Bool)
    (onSide : path ++ c ++ [b] <+: ofBytes key) (fits : key.Fits) (cx : x.Canonical (path ++ c))
    (bx : Below (path ++ c ++ [!b]) x) (hasX : x.present = 1) (same : x.contents = old.contents)
    (absent : old.contents key = none) (kept : ∀ m ∈ x.subtrees, m.isClean = true → m ∈ old.subtrees) :
    InsertSpec (Canonical path) old key val
      ⟨if b then newInternalNode label cp .nil x (newLeafNode key val)
        else newInternalNode label cp .nil (newLeafNode key val) x, false⟩ := by
  have leafCanonical : (newLeafNode key val).Canonical (path ++ c) :=
    ⟨(List.prefix_append _ _).trans onSide, fits⟩
  have leafBelow : Below (path ++ c ++ [b]) (newLeafNode key val) := by
    intro q v found
    simp only [newLeafNode, contents_leaf, Option.ite_none_right_eq_some] at found
    rw [found.1]
    exact onSide
  have keptX : ∀ m, m ∈ Node.nil.subtrees ∨ m ∈ x.subtrees ∨ m ∈ (newLeafNode key val).subtrees →
      m.isClean = true → m ∈ old.subtrees := by
    intro m mem clean
    simp only [newLeafNode, subtrees, List.mem_singleton, List.not_mem_nil, false_or] at mem
    rcases mem with inX | rfl
    · exact kept m inX clean
    · simp [isClean] at clean
  have contents (q : Key) : (x.contents q).or ((newLeafNode key val).contents q) =
      Function.update old.contents key (some val) q := by
    by_cases atKey : q = key
    · subst atKey
      simp [newLeafNode, same, absent]
    · simp [newLeafNode, atKey, same]
  cases b with
  | false =>
    refine insertSpec_fork enc len trivial leafCanonical leafBelow cx bx
      (by simp [newLeafNode, hasX]) (fun q => ?_) absent fun m mem => keptX m (by tauto)
    by_cases atKey : q = key
    · subst atKey
      simp [newLeafNode, same, absent]
    · simp [newLeafNode, atKey, same]
  | true =>
    refine insertSpec_fork enc len trivial cx bx leafCanonical leafBelow
      (by simp [newLeafNode, hasX]) (fun q => by simpa using contents q) absent keptX

theorem doInsert_leaf_other_spec {path : List Bool} {c : Bool} {hash : Hash} {k : Key} {v : Value}
    (hn : (Node.leaf c hash k v).Canonical path) (other : k ≠ key) (hkey : path <+: ofBytes key)
    (fits : key.Fits) (depth : bitDepth.toNat = path.length) :
    ∃ r, doInsert (.leaf c hash k v) bitDepth key val = some r ∧
      InsertSpec (Canonical path) (.leaf c hash k v) key val r := by
  obtain ⟨_, rem, splitKey, remEnc, remFits, remLen⟩ := remainder_of_prefix hkey fits depth
  obtain ⟨_, lrem, splitLeaf, lremEnc, lremFits, lremLen⟩ := remainder_of_prefix hn.1 hn.2 depth
  set rk := (ofBytes key).drop path.length
  set rl := (ofBytes k).drop path.length
  have keyBits : ofBytes key = path ++ rk := (List.prefix_iff_eq_append.mp hkey).symm
  have leafBits : ofBytes k = path ++ rl := (List.prefix_iff_eq_append.mp hn.1).symm
  have differ : rl ≠ rk := fun same => other (ofBytes_injective (by rw [keyBits, leafBits, same]))
  obtain ⟨cp, cpEq, cpVal⟩ := lremEnc.commonPrefixLen remEnc lremFits remFits _ _ lremLen remLen
  have cpLe := lcp_le_left rl rk
  have cpLe' := lcp_le_right rl rk
  -- The new label: the common prefix, cut from the leaf's remainder.
  obtain ⟨labelPrefix, _, splitPrefix, prefixEnc, _⟩ := (encodes_ofBytes lrem).split lremFits cp
    lrem.bitLength (bitLength_toNat lrem lremFits ▸ (length_ofBytes lrem).symm)
    (UInt16.le_iff_toNat_le.mpr (by rw [bitLength_toNat lrem lremFits, cpVal, lremEnc.1]; omega))
  have bitsOfRem : ofBytes lrem = rl ++ List.replicate (8 * lrem.length - rl.length) false :=
    lremEnc.ofBytes_eq
  rw [bitsOfRem, cpVal, List.take_append_of_le_length cpLe] at prefixEnc
  have common : rk.take (lcp rl rk) = rl.take (lcp rl rk) := (take_lcp rl rk).symm
  have absent : (Node.leaf c hash k v).contents key = none := by simp [Ne.symm other]
  have kept : ∀ m ∈ (Node.leaf c hash k v).subtrees, m.isClean = true →
      m ∈ (Node.leaf c hash k v).subtrees := fun _ mem _ => mem
  simp only [doInsert, splitKey, splitLeaf, cpEq, splitPrefix, if_neg other, Option.bind_eq_bind,
    Option.bind_some]
  by_cases keyEnds : rk.length = lcp rl rk
  · -- The new key ends at the fork; the old leaf goes on with bit `rl[cp]`.
    have keyPrefix : rk <+: rl := (lcp_eq_length_left_iff rk rl).mp (by rw [lcp_comm]; exact keyEnds.symm)
    have longer : lcp rl rk < rl.length := by
      rcases Nat.lt_or_eq_of_le cpLe with lt | eq
      · exact lt
      · exact absurd (keyPrefix.eq_of_length (by omega)).symm differ
    have bit : lrem.getBit cp = some rl[lcp rl rk] := by
      rw [getBit_eq_getElem?, bitsOfRem, cpVal, List.getElem?_append_left longer, List.getElem?_eq_getElem longer]
    rw [if_pos (UInt16.toNat_inj.mp (by rw [remLen, cpVal, keyEnds])), bit]
    refine ⟨_, ?_, insertSpec_fork_keyEnds prefixEnc (by rw [cpVal, List.length_take]; omega)
      ?_ fits rl[lcp rl rk] ?_ ?_ rfl rfl absent kept⟩
    · cases rl[lcp rl rk] <;> rfl
    · rw [keyBits, ← common, ← keyEnds, List.take_length]
    · exact ⟨leafBits ▸ (List.prefix_append_right_inj path).mpr (by exact List.take_prefix _ _), hn.2⟩
    · intro q w found
      simp only [contents_leaf, Option.ite_none_right_eq_some] at found
      rw [found.1, leafBits, List.append_assoc]
      exact (List.prefix_append_right_inj path).mpr (take_append_getElem_prefix_self rl longer)
  by_cases oldEnds : rl.length = lcp rl rk
  · -- The old key ends at the fork; the new one goes on with bit `rk[cp]`.
    have oldPrefix : rl <+: rk := (lcp_eq_length_left_iff rl rk).mp oldEnds.symm
    have longer : lcp rl rk < rk.length := by omega
    have bit : rem.getBit cp = some rk[lcp rl rk] := by
      rw [getBit_eq_getElem?, remEnc.ofBytes_eq, cpVal, List.getElem?_append_left longer,
        List.getElem?_eq_getElem longer]
    rw [if_neg (fun eq => keyEnds (by rw [← cpVal, ← remLen, eq])),
      if_pos (UInt16.toNat_inj.mp (by rw [lremLen, cpVal, oldEnds])), bit]
    refine ⟨_, ?_, insertSpec_fork_oldEnds (x := Node.leaf c hash k v) prefixEnc
      (by rw [cpVal, List.length_take]; omega) rk[lcp rl rk] ?_ fits ⟨?_, hn.2⟩ rfl rfl absent kept⟩
    · cases rk[lcp rl rk] <;> rfl
    · rw [keyBits, ← common, List.append_assoc]
      exact (List.prefix_append_right_inj path).mpr (take_append_getElem_prefix_self rk longer)
    · rw [leafBits, ← oldEnds, List.take_length]
  · -- Both go on past the fork and differ in bit `cp`.
    have longK : lcp rl rk < rk.length := by omega
    have longL : lcp rl rk < rl.length := by omega
    have bit : rem.getBit cp = some rk[lcp rl rk] := by
      rw [getBit_eq_getElem?, remEnc.ofBytes_eq, cpVal, List.getElem?_append_left longK,
        List.getElem?_eq_getElem longK]
    have split : rl[lcp rl rk] = !rk[lcp rl rk] := by
      have := getElem_lcp_ne rl rk longL longK
      cases h : rk[lcp rl rk] <;> simp_all
    rw [if_neg (fun eq => keyEnds (by rw [← cpVal, ← remLen, eq])),
      if_neg (fun eq => oldEnds (by rw [← cpVal, ← lremLen, eq])), bit]
    refine ⟨_, ?_, insertSpec_fork_apart (x := Node.leaf c hash k v) prefixEnc
      (by rw [cpVal, List.length_take]; omega) rk[lcp rl rk] ?_ fits ⟨?_, hn.2⟩ ?_ rfl rfl absent kept⟩
    · cases rk[lcp rl rk] <;> rfl
    · rw [keyBits, ← common, List.append_assoc]
      exact (List.prefix_append_right_inj path).mpr (take_append_getElem_prefix_self rk longK)
    · rw [leafBits]
      exact (List.prefix_append_right_inj path).mpr <| List.take_prefix _ _
    · intro q w found
      simp only [contents_leaf, Option.ite_none_right_eq_some] at found
      rw [found.1, leafBits, List.append_assoc, ← split]
      exact (List.prefix_append_right_inj path).mpr (take_append_getElem_prefix_self rl longL)

theorem suffixNode_canonical {path lbl : List Bool} {label : Key} {l cp : Depth}
    {leafNode left right : Node} (c : Bool) (hash : Hash) (len : l.toNat = lbl.length)
    (slot : LeafSlot (path ++ lbl) leafNode) (cLeft : left.Canonical (path ++ lbl))
    (bLeft : Below (path ++ lbl ++ [false]) left) (cRight : right.Canonical (path ++ lbl))
    (bRight : Below (path ++ lbl ++ [true]) right)
    (branching : 2 ≤ leafNode.present + left.present + right.present)
    (sufEnc : label.Encodes (lbl.drop cp.toNat)) (inside : cp.toNat < lbl.length) :
    (Node.internal c hash label (l - cp) leafNode left right).Canonical (path ++ lbl.take cp.toNat) ∧
      Below (path ++ lbl.take cp.toNat ++ [lbl[cp.toNat]]) (.internal c hash label (l - cp) leafNode left right) := by
  have whole : path ++ lbl.take cp.toNat ++ lbl.drop cp.toNat = path ++ lbl := by
    rw [List.append_assoc, List.take_append_drop]
  refine ⟨⟨lbl.drop cp.toNat, sufEnc, ?_, ?_⟩, fun q v found => ?_⟩
  · rw [depth_sub (by omega), len, List.length_drop]
  · rw [whole]
    exact ⟨slot, cLeft, bLeft, cRight, bRight, branching⟩
  · have onward : path ++ lbl.take cp.toNat ++ [lbl[cp.toNat]] <+: path ++ lbl := by
      rw [List.append_assoc]
      exact (List.prefix_append_right_inj path).mpr (take_append_getElem_prefix_self lbl inside)
    exact onward.trans (Canonical.below_slots slot cLeft.below cRight.below q v found)

/-- Rebuilding an internal node after inserting into one of its slots, with Go's dirty flag:
the node stays clean only if its three slots are. -/
theorem insertSpec_rebuild {path lbl : List Bool} {c : Bool} {hash : Hash} {label : Key} {l : Depth}
    {a b d a' b' d' : Node} (existed : Bool) (enc : label.Encodes lbl) (len : l.toNat = lbl.length)
    (slot : LeafSlot (path ++ lbl) a') (cLeft : b'.Canonical (path ++ lbl))
    (bLeft : Below (path ++ lbl ++ [false]) b') (cRight : d'.Canonical (path ++ lbl))
    (bRight : Below (path ++ lbl ++ [true]) d') (branching : 2 ≤ a'.present + b'.present + d'.present)
    (contents : ∀ q, (a'.contents q).or ((b'.contents q).or (d'.contents q)) =
      Function.update (Node.internal c hash label l a b d).contents key (some val) q)
    (hExisted : existed = ((Node.internal c hash label l a b d).contents key).isSome)
    (unchanged : a'.isClean = true → b'.isClean = true → d'.isClean = true → a' = a ∧ b' = b ∧ d' = d)
    (kept : ∀ m, m ∈ a'.subtrees ∨ m ∈ b'.subtrees ∨ m ∈ d'.subtrees → m.isClean = true →
      m ∈ (Node.internal c hash label l a b d).subtrees) :
    InsertSpec (Canonical path) (.internal c hash label l a b d) key val
      ⟨.internal (if !a'.isClean || !b'.isClean || !d'.isClean then false else c) hash label l a' b' d',
        existed⟩ := by
  have slotsClean : (if !a'.isClean || !b'.isClean || !d'.isClean then false else c) = true →
      a' = a ∧ b' = b ∧ d' = d ∧ c = true := by
    intro clean
    split at clean
    · simp at clean
    · rename_i allClean
      simp only [Bool.or_eq_true, Bool.not_eq_eq_eq_not, Bool.not_true, not_or, Bool.not_eq_false] at allClean
      obtain ⟨⟨ca, cb⟩, cd⟩ := allClean
      obtain ⟨rfl, rfl, rfl⟩ := unchanged ca cb cd
      exact ⟨rfl, rfl, rfl, clean⟩
  refine ⟨⟨lbl, enc, len, slot, cLeft, bLeft, cRight, bRight, branching⟩, funext contents, hExisted,
    fun clean => ?_, fun m mem clean => ?_⟩
  · obtain ⟨rfl, rfl, rfl, rfl⟩ := slotsClean clean
    rw [isClean_internal] at clean
    rw [clean]
  · simp only [subtrees, List.mem_cons, List.mem_append] at mem
    rcases mem with self | (inA | inB) | inD
    · -- The node itself is clean only when nothing below it changed.
      subst self
      obtain ⟨rfl, rfl, rfl, rfl⟩ := slotsClean clean
      rw [isClean_internal] at clean
      rw [clean]
      simp [subtrees]
    · exact kept m (Or.inl inA) clean
    · exact kept m (Or.inr (Or.inl inB)) clean
    · exact kept m (Or.inr (Or.inr inD)) clean

theorem doInsert_internal_spec {path : List Bool} {c : Bool} {hash : Hash} {label : Key} {l : Depth}
    {leafNode left right : Node} (hn : (Node.internal c hash label l leafNode left right).Canonical path)
    (hkey : path <+: ofBytes key) (fits : key.Fits) (depth : bitDepth.toNat = path.length)
    (ihLeft : ∀ {path' : List Bool} {d : Depth}, left.Canonical path' → path' <+: ofBytes key →
      d.toNat = path'.length → ∃ r, doInsert left d key val = some r ∧ InsertSpec (Canonical path') left key val r)
    (ihRight : ∀ {path' : List Bool} {d : Depth}, right.Canonical path' → path' <+: ofBytes key →
      d.toNat = path'.length → ∃ r, doInsert right d key val = some r ∧ InsertSpec (Canonical path') right key val r) :
    ∃ r, doInsert (.internal c hash label l leafNode left right) bitDepth key val = some r ∧
      InsertSpec (Canonical path) (.internal c hash label l leafNode left right) key val r := by
  obtain ⟨_, rem, splitKey, remEnc, remFits, remLen⟩ := remainder_of_prefix hkey fits depth
  set rk := (ofBytes key).drop path.length
  have keyBits : ofBytes key = path ++ rk := (List.prefix_iff_eq_append.mp hkey).symm
  obtain ⟨lbl, enc, len, slot, cLeft, bLeft, cRight, bRight, branching⟩ := id hn
  have bound := hn.fullPath_bound slot cLeft cRight
  have labelFits : label.Fits := by
    unfold Key.Fits
    rw [enc.1]
    simp only [List.length_append] at bound
    omega
  obtain ⟨cp, cpEq, cpVal⟩ := enc.commonPrefixLen remEnc labelFits remFits l _ len remLen
  simp only [doInsert, splitKey, cpEq, Option.bind_eq_bind, Option.bind_some]
  have whole (q : Key) : (Node.internal c hash label l leafNode left right).contents q =
      (leafNode.contents q).or ((left.contents q).or (right.contents q)) := rfl
  by_cases matched : lcp lbl rk = lbl.length
  · -- The key matches the whole label: it goes on below the node.
    have fullPrefix : path ++ lbl <+: ofBytes key := by
      rw [keyBits]
      exact (List.prefix_append_right_inj path).mpr ((lcp_eq_length_left_iff lbl rk).mp matched)
    have bitLength : (bitDepth + l).toNat = (path ++ lbl).length := by
      have := fullPrefix.length_le
      unfold Key.Fits at fits
      rw [length_ofBytes] at this
      rw [depth_add (by simp only [List.length_append] at this; omega), depth, len, List.length_append]
    rw [if_pos (UInt16.toNat_inj.mp (cpVal.trans (matched.trans len.symm)))]
    by_cases ends : ofBytes key = path ++ lbl
    · -- The key ends here: into the leaf node slot.
      have keyLength : key.bitLength = bitDepth + l := by
        apply UInt16.toNat_inj.mp
        rw [bitLength_toNat key fits, bitLength, ← ends, length_ofBytes]
      obtain ⟨r, found, spec⟩ := doInsert_leafSlot_spec val slot ends fits bitLength
      have notLeft : left.contents key = none := bLeft.contents_eq_none fun pre => by
        have := pre.length_le
        rw [ends] at this
        simp at this
      have notRight : right.contents key = none := bRight.contents_eq_none fun pre => by
        have := pre.length_le
        rw [ends] at this
        simp at this
      simp only [if_pos keyLength, found, Option.bind_some, Option.pure_def]
      refine ⟨_, rfl, insertSpec_rebuild r.existed enc len spec.shape cLeft bLeft cRight bRight ?_ ?_ ?_
        ?_ ?_⟩
      · have := present_of_contents (congrFun spec.contents key ▸ by simp : r.newRoot.contents key = some val)
        have := leafNode.present_le_one
        omega
      · intro q
        rw [spec.contents, Function.update_apply, Function.update_apply, whole]
        split
        · rename_i atKey
          subst atKey
          simp
        · rfl
      · rw [spec.existed, whole, notLeft, notRight]
        simp
      · exact fun clean _ _ => ⟨spec.unchanged clean, rfl, rfl⟩
      · intro m mem clean
        rcases mem with inA | inB | inD
        · exact mem_subtrees_internal c hash label l (Or.inl (spec.kept m inA clean))
        · exact mem_subtrees_internal c hash label l (Or.inr (Or.inl inB))
        · exact mem_subtrees_internal c hash label l (Or.inr (Or.inr inD))
    · -- The key goes on: into the child its next bit selects.
      have longer : (path ++ lbl).length < (ofBytes key).length := by
        rcases Nat.lt_or_eq_of_le fullPrefix.length_le with lt | eq
        · exact lt
        · exact absurd (fullPrefix.eq_of_length eq).symm ends
      have keyLength : key.bitLength ≠ bitDepth + l := fun eq => by
        have := congrArg UInt16.toNat eq
        rw [bitLength_toNat key fits, bitLength] at this
        rw [length_ofBytes] at longer
        omega
      have bit : key.getBit (bitDepth + l) = some (ofBytes key)[(path ++ lbl).length] := by
        rw [getBit_eq_getElem?, bitLength, List.getElem?_eq_getElem longer]
      have next := prefix_append_getElem fullPrefix longer
      have notLeaf : leafNode.contents key = none := slot.contents_eq_none ends
      simp only [if_neg keyLength, bit, Option.bind_some]
      cases hb : (ofBytes key)[(path ++ lbl).length]
      · rw [hb] at next
        have notRight : right.contents key = none :=
          bRight.contents_eq_none fun pre => not_prefix_both _ _ next pre
        obtain ⟨r, found, spec⟩ := ihLeft cLeft ((List.prefix_append _ _).trans next) bitLength
        simp only [Bool.false_eq_true, if_false, found, Option.bind_some, Option.pure_def]
        refine ⟨_, rfl, insertSpec_rebuild r.existed enc len slot spec.shape (bLeft.update next spec.contents)
          cRight bRight ?_ ?_ ?_ ?_ ?_⟩
        · have := present_of_contents (congrFun spec.contents key ▸ by simp : r.newRoot.contents key = some val)
          have := left.present_le_one
          omega
        · intro q
          rw [spec.contents, Function.update_apply, Function.update_apply, whole]
          split
          · rename_i atKey
            subst atKey
            simp [notLeaf]
          · rfl
        · rw [spec.existed, whole, notLeaf, notRight]
          simp
        · exact fun _ clean _ => ⟨rfl, spec.unchanged clean, rfl⟩
        · intro m mem clean
          rcases mem with inA | inB | inD
          · exact mem_subtrees_internal c hash label l (Or.inl inA)
          · exact mem_subtrees_internal c hash label l (Or.inr (Or.inl (spec.kept m inB clean)))
          · exact mem_subtrees_internal c hash label l (Or.inr (Or.inr inD))
      · rw [hb] at next
        have notLeft : left.contents key = none :=
          bLeft.contents_eq_none fun pre => not_prefix_both _ _ pre next
        obtain ⟨r, found, spec⟩ := ihRight cRight ((List.prefix_append _ _).trans next) bitLength
        simp only [if_true, found, Option.bind_some, Option.pure_def]
        refine ⟨_, rfl, insertSpec_rebuild r.existed enc len slot cLeft bLeft spec.shape
          (bRight.update next spec.contents) ?_ ?_ ?_ ?_ ?_⟩
        · have := present_of_contents (congrFun spec.contents key ▸ by simp : r.newRoot.contents key = some val)
          have := right.present_le_one
          omega
        · intro q
          rw [spec.contents, Function.update_apply, Function.update_apply, whole]
          split
          · rename_i atKey
            subst atKey
            simp [notLeaf, notLeft]
          · rfl
        · rw [spec.existed, whole, notLeaf, notLeft]
          simp
        · exact fun _ _ clean => ⟨rfl, rfl, spec.unchanged clean⟩
        · intro m mem clean
          rcases mem with inA | inB | inD
          · exact mem_subtrees_internal c hash label l (Or.inl inA)
          · exact mem_subtrees_internal c hash label l (Or.inr (Or.inl inB))
          · exact mem_subtrees_internal c hash label l (Or.inr (Or.inr (spec.kept m inD clean)))
  · -- The key leaves the label inside it: the edge is split at the common prefix.
    have cpLt : lcp lbl rk < lbl.length := lt_of_le_of_ne (lcp_le_left lbl rk) matched
    have cpNe : cp ≠ l := fun eq => matched (by rw [← cpVal, eq, len])
    obtain ⟨pre, suf, splitLabel, preEnc, sufEnc⟩ :=
      enc.split labelFits cp l len (UInt16.le_iff_toNat_le.mpr (by rw [cpVal, len]; omega))
    have common : rk.take (lcp lbl rk) = lbl.take (lcp lbl rk) := (take_lcp lbl rk).symm
    obtain ⟨lower, lowerBelow⟩ := suffixNode_canonical false hash len slot cLeft bLeft cRight bRight
      branching sufEnc (by rw [cpVal]; exact cpLt)
    simp only [cpVal] at preEnc lower lowerBelow
    have belowAll : Below (path ++ lbl) (Node.internal c hash label l leafNode left right) :=
      Canonical.below_slots slot cLeft.below cRight.below
    have absent : (Node.internal c hash label l leafNode left right).contents key = none :=
      belowAll.contents_eq_none fun full => by
        rw [keyBits] at full
        exact matched ((lcp_eq_length_left_iff lbl rk).mpr ((List.prefix_append_right_inj path).mp full))
    have kept : ∀ m ∈ (Node.internal false hash suf (l - cp) leafNode left right).subtrees,
        m.isClean = true → m ∈ (Node.internal c hash label l leafNode left right).subtrees :=
      kept_of_dirty rfl _ fun m mem other _ => by
        simp only [subtrees, List.mem_cons, List.mem_append] at mem
        exact mem_subtrees_internal c hash label l (by tauto)
    simp only [if_neg cpNe, splitLabel, Option.bind_some]
    by_cases keyEnds : rk.length = lcp lbl rk
    · -- The key ends at the split: its leaf takes the leaf node slot.
      have bit : suf.getBit 0 = some lbl[lcp lbl rk] := by
        rw [getBit_eq_getElem?, sufEnc.ofBytes_eq, cpVal, UInt16.toNat_zero,
          List.getElem?_append_left (by simp; omega), List.getElem?_drop, Nat.add_zero,
          List.getElem?_eq_getElem cpLt]
      rw [if_pos (UInt16.toNat_inj.mp (by rw [remLen, cpVal, keyEnds])), bit]
      refine ⟨_, ?_, insertSpec_fork_keyEnds preEnc (by rw [cpVal, List.length_take]; omega) ?_ fits
        lbl[lcp lbl rk] lower lowerBelow rfl rfl absent kept⟩
      · cases lbl[lcp lbl rk] <;> rfl
      · rw [keyBits, ← common, ← keyEnds, List.take_length]
    · -- Both go on past the split and differ in bit `cp`.
      have longK : lcp lbl rk < rk.length := lt_of_le_of_ne (lcp_le_right lbl rk) (Ne.symm keyEnds)
      have bit : rem.getBit cp = some rk[lcp lbl rk] := by
        rw [getBit_eq_getElem?, remEnc.ofBytes_eq, cpVal, List.getElem?_append_left longK,
          List.getElem?_eq_getElem longK]
      have split : lbl[lcp lbl rk] = !rk[lcp lbl rk] := by
        have := getElem_lcp_ne lbl rk cpLt longK
        cases h : rk[lcp lbl rk] <;> simp_all
      rw [if_neg (fun eq => keyEnds (by rw [← cpVal, ← remLen, eq])), bit]
      refine ⟨_, ?_, insertSpec_fork_apart preEnc (by rw [cpVal, List.length_take]; omega)
        rk[lcp lbl rk] ?_ fits lower (by rw [← split]; exact lowerBelow) rfl rfl absent kept⟩
      · cases rk[lcp lbl rk] <;> rfl
      · rw [keyBits, ← common, List.append_assoc]
        exact (List.prefix_append_right_inj path).mpr (take_append_getElem_prefix_self rk longK)

/-- Inserting into a canonical trie a key below the node's path succeeds: the result is the
canonical trie of the updated contents, says whether the key was there, is the old trie
itself when it is clean, and its clean nodes are nodes of the old trie. -/
theorem doInsert_spec {n : Node} {path : List Bool} (hn : n.Canonical path)
    (hkey : path <+: ofBytes key) (fits : key.Fits) (depth : bitDepth.toNat = path.length) :
    ∃ r, doInsert n bitDepth key val = some r ∧ InsertSpec (Canonical path) n key val r := by
  -- On the node; the induction hypotheses are for the children at any path and depth.
  induction n generalizing path bitDepth with
  | hashed => exact hn.elim
  | nil => exact doInsert_nil_spec ⟨hkey, fits⟩ hkey fits depth
  | leaf c hash k v =>
    by_cases same : k = key
    · subst same
      exact doInsert_leaf_self_spec hn ⟨hn.1, hn.2⟩ hkey fits depth
    · exact doInsert_leaf_other_spec hn same hkey fits depth
  | internal c hash label l leafNode left right _ ihLeft ihRight =>
    exact doInsert_internal_spec hn hkey fits depth ihLeft ihRight

end Walk

end Orphiq.Mkvs

import OrphiqCore.Mkvs.Commit

/-!
# The runtime's tree

The MKVS tree of the Rust runtime, `runtime/src/storage/mkvs/tree`: the key operations of
`KeyTrait` (`node.rs`), `Tree::_insert` (`insert.rs`), `Tree::_remove` (`remove.rs`) and
`_commit` (`commit.rs`), over the nodes of the Go model. A `NodePointer` and the node it holds
are one `Node`: the code sets their `clean` flags together, and a pointer with no node and the
empty hash, such as `null_ptr()`, is the nil node.

`get_bit`, `bit_length` and `Depth::to_bytes` compute what Go's `GetBit`, `BitLength` and
`ToBytes` compute, and the loop of `merge` is the loop of Go's `Merge`: they are taken from the
Go model. `split` and `common_prefix_len` index with `usize` where Go uses `Depth`, and `split`
and `merge` slice with `clone_from_slice`, which panics where Go's `copy` copies fewer bytes,
so they have their own definitions. A panic, like a node that would have to be fetched, makes
an operation return `none`; `u16` arithmetic wraps, as in a release build. With one `clean`
flag per node, the pointer check and the node check of `_commit` are the one check of Go's
`doCommit`, which is used for it.
-/

namespace Orphiq.Runtime

open Orphiq.Mkvs (Node Key Depth Value Hash derefNodePtr newLeafNode newInternalNode equalPrefixBytes
  leadingZeros8 doCommit)

namespace KeyTrait

/-- Byte `i` of the suffix in `split`: the left chunk, then the right chunk unless the key
ends. -/
def splitSuffixByte (k : Key) (splitPoint : Depth) (i : Nat) : Option UInt8 := do
  let left := (← k[i + splitPoint.toNat / 8]?) <<< (splitPoint % 8).toUInt8
  if splitPoint % 8 != 0 && i + splitPoint.toNat / 8 + 1 != k.length then
    let right ← k[i + splitPoint.toNat / 8 + 1]?
    pure (left ||| right >>> (8 - splitPoint.toNat % 8).toUInt8)
  else
    pure left

/-- `KeyTrait::split`: the first `splitPoint` bits of a key of `keyLen` bits, and the rest.
The prefix is sliced out of the key, which panics when the key is shorter. -/
def split (k : Key) (splitPoint keyLen : Depth) : Option (Key × Key) :=
  if keyLen < splitPoint then none
  else
    let prefixLen := splitPoint.toBytes
    let suffixLen := (keyLen - splitPoint).toBytes
    if k.length < prefixLen then none
    else do
      -- Clean the remainder of the last prefix byte.
      let pfx := if splitPoint % 8 != 0 then
          (k.take prefixLen).modify (prefixLen - 1) (· &&& ((0xff : UInt8) <<< (8 - splitPoint % 8).toUInt8))
        else k.take prefixLen
      let suffix ← (List.range suffixLen).mapM (splitSuffixByte k splitPoint)
      pure (pfx, suffix)

/-- `KeyTrait::common_prefix_len`: the length of the common bit prefix of a key of
`keyBitLen` bits and a key of `k2BitLen` bits. -/
def commonPrefixLen (k : Key) (keyBitLen : Depth) (k2 : Key) (k2BitLen : Depth) : Option Depth := do
  let i := equalPrefixBytes k k2 (min k.length k2.length)
  -- The prefixes match `i` bytes, and maybe some more bits of the next one.
  let bitLength ← if i != k.length && i != k2.length then do
      pure ((i * 8).toUInt16 + (leadingZeros8 ((← k[i]?) ^^^ (← k2[i]?))).toUInt16)
    else pure (i * 8).toUInt16
  pure (min (min bitLength keyBitLen) k2BitLen)

/-- `KeyTrait::merge`: a key of `keyLen` bits followed by one of `k2Len` bits. Copying the
first key's bytes panics unless both it and the new key are that long. -/
def merge (k : Key) (keyLen : Depth) (k2 : Key) (k2Len : Depth) : Option Key :=
  let keyLenBytes := keyLen.toNat / 8 + (if keyLen % 8 != 0 then 1 else 0)
  let newKey := List.replicate (keyLen + k2Len).toBytes 0
  if newKey.length < keyLenBytes || k.length < keyLenBytes then none
  else Mkvs.Key.mergeLoop keyLen keyLenBytes (k.take keyLenBytes ++ newKey.drop keyLenBytes) 0 k2

end KeyTrait

/-- `NodePointer::hash_ptr`: a pointer to a node known by its hash; with the empty hash it
is `null_ptr()`. -/
def NodePointer.hashPtr (hash : Hash) : Node := if hash = Mkvs.Hash.empty then .nil else .hashed hash

/-- `Tree`, as far as the pending root its cache holds. -/
structure Tree where
  pendingRoot : Node
  deriving Repr, DecidableEq

namespace Tree

/-- `Tree::_insert`: insert `key ↦ val` below the pointer at bit depth `bitDepth`; the new
pointer and the value the key had. -/
def _insert : Node → Depth → Key → Value → Option (Node × Option Value)
  | .nil, bitDepth, key, val => do
    let _ ← KeyTrait.split key bitDepth key.bitLength
    pure (newLeafNode key val, none)
  | .hashed hash, bitDepth, key, val =>
    -- `deref_node_ptr` finds no node behind the null pointer, and fetches no other.
    if hash = Mkvs.Hash.empty then do
      let _ ← KeyTrait.split key bitDepth key.bitLength
      pure (newLeafNode key val, none)
    else none
  | .internal clean hash label labelBitLength leafNode left right, bitDepth, key, val => do
    let (_, keyRemainder) ← KeyTrait.split key bitDepth key.bitLength
    let cpLen ← KeyTrait.commonPrefixLen label labelBitLength keyRemainder (key.bitLength - bitDepth)
    if cpLen = labelBitLength then
      -- The key matches the label: insert below, then mark the node dirty if a child is.
      let bitLength := bitDepth + labelBitLength
      let (leafNode, left, right, oldVal) ← if key.bitLength = bitLength then do
          let (leafNode, oldVal) ← _insert leafNode bitLength key val
          pure (leafNode, left, right, oldVal)
        else do
          if (← key.getBit bitLength) then
            let (right, oldVal) ← _insert right bitLength key val
            pure (leafNode, left, right, oldVal)
          else
            let (left, oldVal) ← _insert left bitLength key val
            pure (leafNode, left, right, oldVal)
      let clean := if !leafNode.isClean || !left.isClean || !right.isClean then false else clean
      pure (.internal clean hash label labelBitLength leafNode left right, oldVal)
    else do
      -- The key leaves the label at `cpLen`: the node keeps the rest of its label.
      let (labelPrefix, labelSuffix) ← KeyTrait.split label cpLen labelBitLength
      let ptr := Node.internal false hash labelSuffix (labelBitLength - cpLen) leafNode left right
      let newLeaf := newLeafNode key val
      if key.bitLength - bitDepth = cpLen then
        if (← labelSuffix.getBit 0) then
          pure (newInternalNode labelPrefix cpLen newLeaf .nil ptr, none)
        else
          pure (newInternalNode labelPrefix cpLen newLeaf ptr .nil, none)
      else if (← keyRemainder.getBit cpLen) then
        pure (newInternalNode labelPrefix cpLen .nil ptr newLeaf, none)
      else
        pure (newInternalNode labelPrefix cpLen .nil newLeaf ptr, none)
  | .leaf clean hash nKey nValue, bitDepth, key, val => do
    let (_, keyRemainder) ← KeyTrait.split key bitDepth key.bitLength
    if nKey = key then
      if nValue = val then
        pure (.leaf clean hash nKey nValue, some val)
      else
        pure (.leaf false hash nKey val, some nValue)
    else do
      -- Another key: branch at the common prefix of the two key remainders.
      let (_, leafKeyRemainder) ← KeyTrait.split nKey bitDepth nKey.bitLength
      let cpLen ← KeyTrait.commonPrefixLen leafKeyRemainder (nKey.bitLength - bitDepth) keyRemainder
        (key.bitLength - bitDepth)
      let (labelPrefix, _) ← KeyTrait.split leafKeyRemainder cpLen leafKeyRemainder.bitLength
      let newLeaf := newLeafNode key val
      let ptr := Node.leaf clean hash nKey nValue
      if key.bitLength - bitDepth = cpLen then
        if (← leafKeyRemainder.getBit cpLen) then
          pure (newInternalNode labelPrefix cpLen newLeaf .nil ptr, none)
        else
          pure (newInternalNode labelPrefix cpLen newLeaf ptr .nil, none)
      else if nKey.bitLength - bitDepth = cpLen then
        if (← keyRemainder.getBit cpLen) then
          pure (newInternalNode labelPrefix cpLen ptr .nil newLeaf, none)
        else
          pure (newInternalNode labelPrefix cpLen ptr newLeaf .nil, none)
      else if (← keyRemainder.getBit cpLen) then
        pure (newInternalNode labelPrefix cpLen .nil ptr newLeaf, none)
      else
        pure (newInternalNode labelPrefix cpLen .nil newLeaf ptr, none)

/-- The end of `Tree::_remove` for an internal node, once the key was removed below it: a
leaf node left alone, or a single child with no leaf node, takes the node's place; otherwise
the node stays, dirty if something changed. Returns the new pointer and `changed`. -/
def collapse (clean : Bool) (hash : Hash) (label : Key) (labelBitLength : Depth) (leafNode left right : Node)
    (changed : Bool) : Option (Node × Bool) := do
  -- The leaf node is always held with the internal node, so it is not fetched.
  let remainingLeaf := leafNode.pointee
  let remainingLeft ← derefNodePtr left
  let remainingRight ← derefNodePtr right
  let kept := if changed then Node.internal false hash label labelBitLength leafNode left right
    else .internal clean hash label labelBitLength leafNode left right
  if remainingLeaf ≠ .nil then
    if remainingLeft = .nil ∧ remainingRight = .nil then pure (leafNode, true) else pure (kept, changed)
  else
    -- `both_children` stays set when two children are left, and also when none is.
    let moved := if remainingLeft ≠ .nil then
        if remainingRight = .nil then some (left, remainingLeft) else none
      else if remainingRight ≠ .nil then some (right, remainingRight) else none
    match moved with
    | none => pure (kept, changed)
    | some (nodePtr, ndChild) =>
      match ndChild with
      | .internal _ childHash childLabel childLabelBitLength childLeaf childLeft childRight => do
        -- The child moves up by the parent's label.
        let merged ← KeyTrait.merge label labelBitLength childLabel childLabelBitLength
        pure (.internal false childHash merged (childLabelBitLength + labelBitLength) childLeaf childLeft
          childRight, true)
      | _ => pure (nodePtr, true)

/-- `Tree::_remove`: remove `key` below the pointer at bit depth `bitDepth`; the new pointer,
whether anything changed, and the removed value. -/
def _remove : Node → Depth → Key → Option (Node × Bool × Option Value)
  | .nil, _, _ => pure (.nil, false, none)
  | .hashed hash, _, _ => if hash = Mkvs.Hash.empty then pure (.nil, false, none) else none
  | .internal clean hash label labelBitLength leafNode left right, bitDepth, key => do
    let bitLength := bitDepth + labelBitLength
    if key.bitLength < bitLength then
      -- The key is too short for the label, so it is not stored here.
      pure (.internal clean hash label labelBitLength leafNode left right, false, none)
    else
      let (leafNode, left, right, changed, oldVal) ← if key.bitLength = bitLength then do
          -- The leaf node is removed from at the node's own depth.
          let (leafNode, changed, oldVal) ← _remove leafNode bitDepth key
          pure (leafNode, left, right, changed, oldVal)
        else do
          if (← key.getBit bitLength) then
            let (right, changed, oldVal) ← _remove right bitLength key
            pure (leafNode, left, right, changed, oldVal)
          else
            let (left, changed, oldVal) ← _remove left bitLength key
            pure (leafNode, left, right, changed, oldVal)
      let (newRoot, changed) ← collapse clean hash label labelBitLength leafNode left right changed
      pure (newRoot, changed, oldVal)
  | .leaf clean hash nKey nValue, _, key =>
    if nKey = key then pure (.nil, true, some nValue)
    else pure (.leaf clean hash nKey nValue, false, none)

/-- `Tree::insert`: the tree after the insertion, and the value the key had. -/
def insert (t : Tree) (key : Key) (value : Value) : Option (Tree × Option Value) := do
  let (newRoot, oldVal) ← _insert t.pendingRoot 0 key value
  pure (⟨newRoot⟩, oldVal)

/-- `Tree::remove`: the tree after the removal, and the value the key had. -/
def remove (t : Tree) (key : Key) : Option (Tree × Option Value) := do
  let (newRoot, _, oldVal) ← _remove t.pendingRoot 0 key
  pure (⟨newRoot⟩, oldVal)

section Commit

variable (digest : List UInt8 → Hash)

/-- `Tree::commit`: the new root hash, and the tree with every node clean. -/
def commit (t : Tree) : Hash × Tree :=
  let (hash, pendingRoot) := doCommit digest t.pendingRoot
  (hash, ⟨pendingRoot⟩)

inductive Op where
  | insert (key : Key) (value : Value)
  | remove (key : Key)
  | commit
  deriving Repr, DecidableEq

def step (t : Tree) : Op → Option Tree
  | .insert key value => (·.1) <$> t.insert key value
  | .remove key => (·.1) <$> t.remove key
  | .commit => some (t.commit digest).2

/-- The tree after a sequence of calls, or `none` if one of them fails. -/
def run (t : Tree) (ops : List Op) : Option Tree := ops.foldlM (step digest) t

end Commit

end Tree

end Orphiq.Runtime

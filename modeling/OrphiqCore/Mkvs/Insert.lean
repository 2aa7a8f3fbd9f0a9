import OrphiqCore.Mkvs.Node

/-!
# Insertion

`tree.doInsert` of `insert.go`. The walk follows the key's bits from the root: an internal
node whose label the key matches passes the key on to its leaf node or to a child, a
mismatch inside a label splits the edge, and a leaf with another key is pushed under a new
internal node labelled with the common prefix of the two keys. A Go panic (`Key.Split` past
the key, an index out of range) makes the insertion return `none`.
-/

namespace Orphiq.Mkvs

/-- `insertResult`, without the inserted leaf pointer that only the write log annotations use. -/
structure InsertResult where
  newRoot : Node
  existed : Bool
  deriving Repr, DecidableEq

/-- `tree.doInsert`: insert `key ↦ val` below the node at bit depth `bitDepth`. -/
def doInsert : Node → Depth → Key → Value → Option InsertResult
  | .nil, bitDepth, key, val => do
    let _ ← key.split bitDepth key.bitLength
    pure ⟨newLeafNode key val, false⟩
  | .internal clean hash label labelBitLength leafNode left right, bitDepth, key, val => do
    let (_, keyRemainder) ← key.split bitDepth key.bitLength
    let cpLength ← label.commonPrefixLen labelBitLength keyRemainder (key.bitLength - bitDepth)
    if cpLength = labelBitLength then
      -- The key matches the label: insert below, then mark the node dirty if a child is.
      let bitLength := bitDepth + labelBitLength
      let (leafNode, left, right, existed) ← if key.bitLength = bitLength then do
          let result ← doInsert leafNode bitLength key val
          pure (result.newRoot, left, right, result.existed)
        else do
          if (← key.getBit bitLength) then
            let result ← doInsert right bitLength key val
            pure (leafNode, left, result.newRoot, result.existed)
          else
            let result ← doInsert left bitLength key val
            pure (leafNode, result.newRoot, right, result.existed)
      let clean := if !leafNode.isClean || !left.isClean || !right.isClean then false else clean
      pure ⟨.internal clean hash label labelBitLength leafNode left right, existed⟩
    else do
      -- The key leaves the label at `cpLength`: split the edge there.
      let (labelPrefix, labelSuffix) ← label.split cpLength labelBitLength
      let suffixNode := Node.internal false hash labelSuffix (labelBitLength - cpLength) leafNode left right
      let newLeaf := newLeafNode key val
      if key.bitLength - bitDepth = cpLength then
        if (← labelSuffix.getBit 0) then
          pure ⟨newInternalNode labelPrefix cpLength newLeaf .nil suffixNode, false⟩
        else
          pure ⟨newInternalNode labelPrefix cpLength newLeaf suffixNode .nil, false⟩
      else if (← keyRemainder.getBit cpLength) then
        pure ⟨newInternalNode labelPrefix cpLength .nil suffixNode newLeaf, false⟩
      else
        pure ⟨newInternalNode labelPrefix cpLength .nil newLeaf suffixNode, false⟩
  | .leaf clean hash nKey nValue, bitDepth, key, val => do
    let (_, keyRemainder) ← key.split bitDepth key.bitLength
    if nKey = key then
      if nValue = val then
        pure ⟨.leaf clean hash nKey nValue, true⟩
      else
        pure ⟨.leaf false hash nKey val, true⟩
    else do
      -- Another key: branch at the common prefix of the two key remainders.
      let (_, leafKeyRemainder) ← nKey.split bitDepth nKey.bitLength
      let cpLength ← leafKeyRemainder.commonPrefixLen (nKey.bitLength - bitDepth) keyRemainder
        (key.bitLength - bitDepth)
      let (labelPrefix, _) ← leafKeyRemainder.split cpLength leafKeyRemainder.bitLength
      let newLeaf := newLeafNode key val
      let old := Node.leaf clean hash nKey nValue
      if key.bitLength - bitDepth = cpLength then
        if (← leafKeyRemainder.getBit cpLength) then
          pure ⟨newInternalNode labelPrefix cpLength newLeaf .nil old, false⟩
        else
          pure ⟨newInternalNode labelPrefix cpLength newLeaf old .nil, false⟩
      else if nKey.bitLength - bitDepth = cpLength then
        if (← keyRemainder.getBit cpLength) then
          pure ⟨newInternalNode labelPrefix cpLength old .nil newLeaf, false⟩
        else
          pure ⟨newInternalNode labelPrefix cpLength old newLeaf .nil, false⟩
      else if (← keyRemainder.getBit cpLength) then
        pure ⟨newInternalNode labelPrefix cpLength .nil old newLeaf, false⟩
      else
        pure ⟨newInternalNode labelPrefix cpLength .nil newLeaf old, false⟩
  | .hashed hash, bitDepth, key, val => do
    -- Only the empty hash dereferences, to a nil node.
    if hash = Hash.empty then
      let _ ← key.split bitDepth key.bitLength
      pure ⟨newLeafNode key val, false⟩
    else none

end Orphiq.Mkvs

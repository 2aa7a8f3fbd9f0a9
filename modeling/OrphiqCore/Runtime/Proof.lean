import OrphiqCore.Mkvs.Proof
import OrphiqCore.Runtime.Tree

/-!
# The runtime's node decoding and proof verifier

`unmarshal_binary` of `runtime/src/storage/mkvs/tree/marshal.rs` and
`ProofVerifier::verify_proof` of `runtime/src/storage/mkvs/sync/proof.rs`, on the nodes of the
Go model. An internal node decoded without child hashes keeps the child pointers of
`InternalNode::default()`, which hold no node and which `deref_node_ptr` reads as nil: they
are nil here, and the verifier replaces both before it hashes the node. The verifier's
recursion through the entries is bounded by a fuel argument, one more than the number of
entries, as in the Go model.
-/

namespace Orphiq.Runtime

open Orphiq.Mkvs (Node Key Hash Proof getUint16 getUint32 hashSize leafNodeHash internalNodeHash
  proofEntryFull proofEntryHash)

/-- `NodeKind`: the byte an encoded node starts with. -/
inductive NodeKind where
  | none
  | internal
  | leaf
  deriving Repr, DecidableEq

/-- `NodeKind as u8`. -/
def NodeKind.byte : NodeKind → UInt8
  | .none => 0x02
  | .internal => 0x01
  | .leaf => 0x00

def NodeKind.unmarshalBinary : List UInt8 → Option (NodeKind × Nat)
  | [] => Option.none
  | b :: _ =>
    if b = NodeKind.none.byte then some (.none, 1)
    else if b = NodeKind.internal.byte then some (.internal, 1)
    else if b = NodeKind.leaf.byte then some (.leaf, 1)
    else Option.none

/-- `u16::unmarshal_binary`, little-endian. -/
def unmarshalU16 (data : List UInt8) : Option (UInt16 × Nat) :=
  if data.length < 2 then none else some (getUint16 data, 2)

/-- `u32::unmarshal_binary`, little-endian. -/
def unmarshalU32 (data : List UInt8) : Option (UInt32 × Nat) :=
  if data.length < 4 then none else some (getUint32 data, 4)

/-- `Key::unmarshal_binary`: the key after its byte length. -/
def keyUnmarshalBinary (data : List UInt8) : Option (Key × Nat) :=
  if data.length < 2 then none
  else do
    let (keyLen, _) ← unmarshalU16 data
    if data.length < 2 + keyLen.toNat then none
    else some ((data.drop 2).take keyLen.toNat, 2 + keyLen.toNat)

section Decoding

variable (digest : List UInt8 → Hash)

def LeafNode.unmarshalBinary (data : List UInt8) : Option (Node × Nat) :=
  if data.length < 1 + 2 + 4 || data[0]? != some NodeKind.leaf.byte then none
  else do
    let (key, keyLen) ← keyUnmarshalBinary (data.drop 1)
    let pos := 1 + keyLen
    if pos + 4 > data.length then none
    else do
      let (valueLen, _) ← unmarshalU32 ((data.drop pos).take 4)
      let pos := pos + 4
      if pos + valueLen.toNat > data.length then none
      else
        let value := (data.drop pos).take valueLen.toNat
        pure (.leaf true (leafNodeHash digest key value) key value, pos + valueLen.toNat)

def InternalNode.unmarshalBinary (data : List UInt8) : Option (Node × Nat) :=
  if data.length < 1 + 2 + 1 || data[0]? != some NodeKind.internal.byte then none
  else do
    let (labelBitLength, size) ← unmarshalU16 (data.drop 1)
    let labelLen := Mkvs.Depth.toBytes labelBitLength
    let pos := 1 + size
    if pos + labelLen > data.length then none
    else
      let label := (data.drop pos).take labelLen
      let pos := pos + labelLen
      if pos ≥ data.length then none
      else do
        let (leafNode, pos) ← if data[pos]? = some NodeKind.none.byte then pure (Node.nil, pos + 1)
          else do
            let (leafNode, size) ← LeafNode.unmarshalBinary digest (data.drop pos)
            pure (leafNode, pos + size)
        -- Hashes are only present in non-compact serialization.
        if data.length ≥ pos + 2 * hashSize then
          let leftHash := (data.drop pos).take hashSize
          let rightHash := (data.drop (pos + hashSize)).take hashSize
          let left := NodePointer.hashPtr leftHash
          let right := NodePointer.hashPtr rightHash
          pure (.internal true (internalNodeHash digest label labelBitLength leafNode.getHash left.getHash
            right.getHash) label labelBitLength leafNode left right, pos + 2 * hashSize)
        else pure (.internal true Mkvs.Hash.zero label labelBitLength leafNode .nil .nil, pos)

/-- `NodeBox::unmarshal_binary`: a node of the kind its first byte names. -/
def NodeBox.unmarshalBinary (data : List UInt8) : Option (Node × Nat) :=
  if data.isEmpty then none
  else do
    let (kind, _) ← NodeKind.unmarshalBinary data
    match kind with
    | .internal => InternalNode.unmarshalBinary digest data
    | .leaf => LeafNode.unmarshalBinary digest data
    | .none => none

/-- `MAX_PROOF_VERSION`; `MIN_PROOF_VERSION` is 0. -/
def maxProofVersion : UInt16 := 1

/-- `ProofVerifier::_verify_proof`: the subtree the entries from `idx` on describe, and the
index after them. -/
def verifyProofAt (proof : Proof) : Nat → Nat → Option (Nat × Node)
  | 0, _ => none
  | fuel + 1, idx =>
    match proof.entries[idx]? with
    | none => none
    | some none => some (idx + 1, .nil)
    | some (some []) => none
    | some (some (tag :: body)) =>
      if tag = proofEntryFull then do
        let (node, _) ← NodeBox.unmarshalBinary digest body
        match node with
        | .internal _ _ label labelBitLength leafNode _ _ => do
          -- In version 0 the leaf node is in the internal node, in version 1 it comes next.
          let (pos, leafNode) ← if proof.v = 0 then pure (idx + 1, leafNode)
            else if proof.v = 1 then verifyProofAt proof fuel (idx + 1)
            else none
          let (pos, left) ← verifyProofAt proof fuel pos
          let (pos, right) ← verifyProofAt proof fuel pos
          -- Recompute the hash, as hashes were not recomputed for compact encoding.
          pure (pos, .internal true (internalNodeHash digest label labelBitLength leafNode.getHash left.getHash
            right.getHash) label labelBitLength leafNode left right)
        | node => pure (idx + 1, node)
      else if tag = proofEntryHash then
        if body.length ≠ hashSize then none else pure (idx + 1, NodePointer.hashPtr body)
      else none

/-- `ProofVerifier::verify_proof`: the subtree a proof for `root` describes. -/
def ProofVerifier.verifyProof (root : Hash) (proof : Proof) : Option Node :=
  if proof.v > maxProofVersion then none
  else if proof.untrustedRoot ≠ root then none
  else if proof.entries = [] then none
  else do
    let (idx, rootNode) ← verifyProofAt digest proof (proof.entries.length + 1) 0
    -- All of the entries in the proof must have been used.
    if idx ≠ proof.entries.length then none
    else if rootNode.getHash ≠ root then none
    else pure rootNode

end Decoding

end Orphiq.Runtime

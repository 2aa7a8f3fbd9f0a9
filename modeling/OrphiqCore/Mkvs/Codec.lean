import OrphiqCore.Mkvs.Node

/-!
# Node encoding

The binary forms of `node/node.go` and `node/key.go`. A leaf is encoded as its key and its
value, each after its length; an internal node as its label bit length, its label and its
leaf node, followed in the full form by the hashes of its two children. The compact forms
of proofs leave the child hashes out, and the version 1 form also the leaf node.

Decoding reads a prefix of its input and returns the number of bytes it read, as Go's
`SizedUnmarshalBinary` does; a decoded node is clean and carries the hash `UpdateHash`
computes from what was decoded. Malformed input makes decoding return `none`, as do the
Go methods that would be called on a nil node.
-/

namespace Orphiq.Mkvs

def depthSize : Nat := 2

def valueLengthSize : Nat := 4

/-- `hash.Size`. -/
def hashSize : Nat := 32

/-- `binary.LittleEndian.Uint16` of the first two bytes. -/
def getUint16 (data : List UInt8) : UInt16 :=
  (data.getD 0 0).toUInt16 ||| (data.getD 1 0).toUInt16 <<< 8

/-- `binary.LittleEndian.Uint32` of the first four bytes. -/
def getUint32 (data : List UInt8) : UInt32 :=
  (data.getD 0 0).toUInt32 ||| (data.getD 1 0).toUInt32 <<< 8 ||| (data.getD 2 0).toUInt32 <<< 16 |||
    (data.getD 3 0).toUInt32 <<< 24

/-- `Key.MarshalBinary`: the key after its byte length. -/
def Key.marshalBinary (k : Key) : List UInt8 := putUint16 k.length.toUInt16 ++ k

def Key.sizedUnmarshalBinary (data : List UInt8) : Option (Key × Nat) :=
  if data.length < depthSize then none
  else
    let keyLen := (getUint16 data).toNat
    if data.length < depthSize + keyLen then none
    else some ((data.drop depthSize).take keyLen, depthSize + keyLen)

def Depth.unmarshalBinary (data : List UInt8) : Option (Depth × Nat) :=
  if data.length < depthSize then none else some (getUint16 data, depthSize)

/-- `LeafNode.CompactMarshalBinaryV1`, which is also the leaf's version 0 and full form. -/
def leafNodeMarshalBinary (key : Key) (value : Value) : List UInt8 :=
  [prefixLeafNode] ++ key.marshalBinary ++ putUint32 value.length.toUInt32 ++ value

namespace Node

/-- `Node.MarshalBinary`: the full form of a node in memory. -/
def marshalBinary : Node → Option (List UInt8)
  | leaf _ _ key value => some (leafNodeMarshalBinary key value)
  | internal _ _ label labelBitLength leafNode left right => do
    -- The leaf node is always marshaled along the internal node.
    let leafNodeBinary ← if leafNode = nil then pure [prefixNilNode] else leafNode.marshalBinary
    pure ([prefixInternalNode] ++ Depth.marshalBinary labelBitLength ++ label ++ leafNodeBinary ++
      left.getHash ++ right.getHash)
  | _ => none

/-- `Node.CompactMarshalBinaryV0`: an internal node without its child hashes. -/
def compactMarshalBinaryV0 : Node → Option (List UInt8)
  | leaf _ _ key value => some (leafNodeMarshalBinary key value)
  | internal _ _ label labelBitLength leafNode _ _ => do
    let leafNodeBinary ← if leafNode = nil then pure [prefixNilNode] else leafNode.marshalBinary
    pure ([prefixInternalNode] ++ Depth.marshalBinary labelBitLength ++ label ++ leafNodeBinary)
  | _ => none

/-- `Node.CompactMarshalBinaryV1`: an internal node without its leaf node and child hashes. -/
def compactMarshalBinaryV1 : Node → Option (List UInt8)
  | leaf _ _ key value => some (leafNodeMarshalBinary key value)
  | internal _ _ label labelBitLength _ _ _ =>
    some ([prefixInternalNode] ++ Depth.marshalBinary labelBitLength ++ label ++ [prefixNilNode])
  | _ => none

end Node

section Decoding

variable (digest : List UInt8 → Hash)

def LeafNode.sizedUnmarshalBinary (data : List UInt8) : Option (Node × Nat) :=
  if data.length < 1 + depthSize + valueLengthSize || data[0]? != some prefixLeafNode then none
  else do
    let (key, keySize) ← Key.sizedUnmarshalBinary (data.drop 1)
    let pos := 1 + keySize
    if pos + valueLengthSize > data.length then none
    else
      let valueSize := (getUint32 (data.drop pos)).toNat
      let pos := pos + valueLengthSize
      if pos + valueSize > data.length then none
      else
        let value := (data.drop pos).take valueSize
        pure (.leaf true (leafNodeHash digest key value) key value, pos + valueSize)

/-- `InternalNode.SizedUnmarshalBinary`. Without the child hashes (the compact forms) the
children are nil and the hash is the zero hash, until a proof verifier fills them in. -/
def InternalNode.sizedUnmarshalBinary (data : List UInt8) : Option (Node × Nat) :=
  if data.length < 1 + depthSize + 1 || data[0]? != some prefixInternalNode then none
  else do
    let (labelBitLength, _) ← Depth.unmarshalBinary (data.drop 1)
    let labelLen := labelBitLength.toBytes
    let pos := 1 + depthSize
    if pos + labelLen > data.length then none
    else
      let label := (data.drop pos).take labelLen
      let pos := pos + labelLen
      if pos ≥ data.length then none
      else do
        let (leafNode, pos) ← if data[pos]? = some prefixNilNode then pure (Node.nil, pos + 1)
          else do
            let (leafNode, leafNodeBinarySize) ← LeafNode.sizedUnmarshalBinary digest (data.drop pos)
            pure (leafNode, pos + leafNodeBinarySize)
        -- Hashes are only present in non-compact serialization.
        if data.length ≥ pos + 2 * hashSize then
          let leftHash := (data.drop pos).take hashSize
          let rightHash := (data.drop (pos + hashSize)).take hashSize
          let left := if leftHash = Hash.empty then Node.nil else .hashed leftHash
          let right := if rightHash = Hash.empty then Node.nil else .hashed rightHash
          pure (.internal true (internalNodeHash digest label labelBitLength leafNode.getHash left.getHash
            right.getHash) label labelBitLength leafNode left right, pos + 2 * hashSize)
        else pure (.internal true Hash.zero label labelBitLength leafNode .nil .nil, pos)

/-- `node.UnmarshalBinary`: a node of either kind, by its first byte. -/
def unmarshalBinary (bytes : List UInt8) : Option Node :=
  if bytes.length > 1 then
    if bytes[0]? = some prefixLeafNode then (LeafNode.sizedUnmarshalBinary digest bytes).map (·.1)
    else if bytes[0]? = some prefixInternalNode then
      (InternalNode.sizedUnmarshalBinary digest bytes).map (·.1)
    else none
  else none

end Decoding

end Orphiq.Mkvs

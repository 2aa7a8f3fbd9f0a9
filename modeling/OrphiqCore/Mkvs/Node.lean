import OrphiqCore.Mkvs.Key

/-!
# Tree nodes

`node/node.go`: a pointer to a node is modelled together with the node it points to, so
`Node.nil` is a nil `*Pointer` and the `clean` and `hash` fields stand for the pointer's
and the node's flags, which the tree sets together. `Node.hashed` is a clean pointer that
holds only a hash, as the proof verifier returns for the subtrees a proof leaves out. The
tree has no node database and no remote syncer, so dereferencing such a pointer fails,
unless its hash is the empty hash, which stands for no node.

Hashes are byte strings produced by a digest function `digest` that the commit code takes
as a parameter; `hash.Hash.FromBytes` hashes the concatenation of its arguments.
-/

namespace Orphiq.Mkvs

/-- `hash.Hash`, as its bytes. -/
abbrev Hash := List UInt8

abbrev Value := List UInt8

/-- The zero `hash.Hash` (`hash.Size` is 32 bytes), held by nodes that were never hashed. -/
def Hash.zero : Hash := List.replicate 32 0

/-- `hash.Hash.Empty`: SHA-512/256 of the empty string, the hash of a nil pointer. -/
def Hash.empty : Hash :=
  [0xc6, 0x72, 0xb8, 0xd1, 0xef, 0x56, 0xed, 0x28, 0xab, 0x87, 0xc3, 0x62, 0x2c, 0x51, 0x14, 0x06,
    0x9b, 0xdd, 0x3a, 0xd7, 0xb8, 0xf9, 0x73, 0x74, 0x98, 0xd0, 0xc0, 0x1e, 0xce, 0xf0, 0x96, 0x7a]

def prefixLeafNode : UInt8 := 0x00

def prefixInternalNode : UInt8 := 0x01

def prefixNilNode : UInt8 := 0x02

/-- A node pointer and its node: nil, an internal node, a leaf, or a clean pointer to a node
that is not in memory. -/
inductive Node where
  | nil
  | internal (clean : Bool) (hash : Hash) (label : Key) (labelBitLength : Depth)
      (leafNode left right : Node)
  | leaf (clean : Bool) (hash : Hash) (key : Key) (value : Value)
  | hashed (hash : Hash)
  deriving Repr, DecidableEq, Inhabited

namespace Node

/-- `Pointer.IsClean`: a nil pointer is clean. -/
def isClean : Node → Bool
  | nil => true
  | internal clean .. => clean
  | leaf clean .. => clean
  | hashed _ => true

/-- `Pointer.GetHash`: the cached hash, or the empty hash for a nil pointer. -/
def getHash : Node → Hash
  | nil => Hash.empty
  | internal _ hash .. => hash
  | leaf _ hash .. => hash
  | hashed hash => hash

/-- The `Node` field of a pointer: nil for a nil pointer and for one that holds only a hash. -/
def pointee : Node → Node
  | hashed _ => nil
  | n => n

end Node

/-- `cache.derefNodePtr` with no node database and no remote syncer: a pointer that holds
only a hash cannot be fetched, unless the hash is the empty hash. -/
def derefNodePtr : Node → Option Node
  | .hashed hash => if hash = Hash.empty then some .nil else none
  | n => some n

/-- `cache.newLeafNode`: a fresh dirty leaf. -/
def newLeafNode (key : Key) (val : Value) : Node := .leaf false Hash.zero key val

/-- `cache.newInternalNode`: a fresh dirty internal node. -/
def newInternalNode (label : Key) (labelBitLength : Depth) (leafNode left right : Node) : Node :=
  .internal false Hash.zero label labelBitLength leafNode left right

def putUint16 (v : UInt16) : List UInt8 := [v.toUInt8, (v >>> 8).toUInt8]

def putUint32 (v : UInt32) : List UInt8 :=
  [v.toUInt8, (v >>> 8).toUInt8, (v >>> 16).toUInt8, (v >>> 24).toUInt8]

def Depth.marshalBinary (dt : Depth) : List UInt8 := putUint16 dt

section Hashing

variable (digest : List UInt8 → Hash)

/-- `LeafNode.UpdateHash`: the key and value, each after its `uint32` byte length. -/
def leafNodeHash (key : Key) (value : Value) : Hash :=
  digest ([prefixLeafNode] ++ putUint32 key.length.toUInt32 ++ key ++
    putUint32 value.length.toUInt32 ++ value)

/-- `InternalNode.UpdateHash`: the label with its bit length, then the hashes of the leaf
node and of the two children. -/
def internalNodeHash (label : Key) (labelBitLength : Depth) (leafHash leftHash rightHash : Hash) :
    Hash :=
  digest ([prefixInternalNode] ++ Depth.marshalBinary labelBitLength ++ label ++ leafHash ++
    leftHash ++ rightHash)

end Hashing

end Orphiq.Mkvs

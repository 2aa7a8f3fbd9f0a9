import OrphiqCore.Mkvs.Node

/-!
# The in-memory node cache

`cache.go`: the nodes of a tree in memory are reached through pointers, here addresses into
`Cache.heap`, and the cache keeps the clean ones in two LRU lists, one of internal nodes and one
of leaves, so that it can evict them when there are too many internal nodes or the leaves hold
too many bytes. `internalNodeCount` and `valueSize` are the counters it keeps for that: a node
adds its share when it is linked into its list (`tryCommitNode`) and takes it away again when it
is unlinked (`rollbackNode`, `tryRemoveNode`), reading the share from the node as it is then.

A list element is identified by the pointer it holds, as each pointer has at most one. A panic of
the Go code is a failure of the `Option` under `CacheM`; so is running out of the fuel that bounds
the walks over the heap, which a heap holding a tree never does. An error carries the cache as
the Go code leaves it, with the nodes removed before the error. Hashes are left out. The cache
reads one only in `derefNodePtr`, which returns no node for a clean pointer holding the empty
hash. The model's trees start from `newCache` with a nil root, so every clean pointer without a
node held a committed node, whose hash is that node's and not the empty hash.
-/

namespace Orphiq.Mkvs

/-- The address of a `node.Pointer`; a field holding `none` is a nil pointer. -/
abbrev Ptr := Nat

/-- `node.InternalNode` and `node.LeafNode` in memory, with pointers to their children. -/
inductive HeapNode where
  | internal (clean : Bool) (label : Key) (labelBitLength : Depth) (leafNode left right : Option Ptr)
  | leaf (clean : Bool) (key : Key) (value : Value)
  deriving DecidableEq, Repr

/-- `node.Pointer`: `node` is its `Node` field when the node is in memory, and `lru` says whether
its `LRU` element is set. -/
structure Pointer where
  clean : Bool
  node : Option HeapNode
  lru : Bool
  deriving DecidableEq, Repr

/-- `errRemoveLocked`. -/
inductive CacheError where
  | removeLocked
  deriving DecidableEq, Repr

/-- `cache`, with the memory its pointers address. -/
structure Cache where
  heap : Array Pointer
  pendingRoot : Option Ptr
  valueSize : UInt64
  internalNodeCount : UInt64
  nodeCapacity : UInt64
  valueCapacity : UInt64
  lruInternal : List Ptr
  lruInternalPos : Option Ptr
  lruLeaf : List Ptr
  lruLeafPos : Option Ptr

/-- A computation on the cache that may return an error with the cache it leaves, or panic. -/
abbrev CacheM := ExceptT (CacheError × Cache) Option

def abort {α : Type} : CacheM α := ExceptT.lift none

/-- `newCache`: an empty cache with the default capacities. -/
def newCache : Cache :=
  ⟨#[], none, 0, 0, 5000, 16 * 1024 * 1024, [], none, [], none⟩

/-- `LeafNodeSize`, `unsafe.Sizeof(LeafNode{})` on a 64-bit platform: a `bool`, a 32-byte hash
and two slices. -/
def leafNodeSize : UInt64 := 88

/-- `LeafNode.Size`. -/
def leafSize (key : Key) (value : Value) : UInt64 :=
  leafNodeSize + key.length.toUInt64 + value.length.toUInt64

namespace Cache

/-- The pointer at an address; only an address the heap never held has none. -/
def deref (c : Cache) (p : Ptr) : CacheM Pointer :=
  match c.heap[p]? with
  | some ptr => pure ptr
  | none => abort

def modify (c : Cache) (p : Ptr) (f : Pointer → Pointer) : Cache := { c with heap := c.heap.modify p f }

/-- A new pointer to a new dirty node, not in any list. -/
def alloc (c : Cache) (n : HeapNode) : Cache × Ptr :=
  ({ c with heap := c.heap.push ⟨false, some n, false⟩ }, c.heap.size)

def newLeafNode (c : Cache) (key : Key) (val : Value) : Cache × Ptr := c.alloc (.leaf false key val)

def newInternalNode (c : Cache) (label : Key) (labelBitLength : Depth) (leafNode left right : Option Ptr) :
    Cache × Ptr :=
  c.alloc (.internal false label labelBitLength leafNode left right)

end Cache

/-- `list.MoveToFront`: no change for an element of another list. -/
def moveToFront (l : List Ptr) (p : Ptr) : List Ptr := if p ∈ l then p :: l.erase p else l

/-- `list.InsertAfter` of a new element right after `mark`. -/
def insertAfter (l : List Ptr) (mark p : Ptr) : List Ptr :=
  match l with
  | [] => []
  | q :: rest => if q = mark then q :: p :: rest else q :: insertAfter rest mark p

/-- Linking a pointer into an LRU list after its marked position, or at the front: the new list,
and whether the `LRU` element was set. `list.InsertAfter` inserts nothing, and returns nil, when the
mark is not in the list. -/
def link (l : List Ptr) (pos : Option Ptr) (p : Ptr) : List Ptr × Bool :=
  match pos with
  | none => (p :: l, true)
  | some mark => if mark ∈ l then (insertAfter l mark p, true) else (l, false)

/-- The position of an LRU list, cleared when its element is removed. -/
def clearPos (pos : Option Ptr) (p : Ptr) : Option Ptr := if pos = some p then none else pos

namespace Cache

/-- `cache.useNode`: moves a linked node to the front of its list. -/
def useNode (c : Cache) (p : Ptr) : Cache :=
  match c.heap[p]? with
  | some ⟨_, some (.internal ..), true⟩ => { c with lruInternal := moveToFront c.lruInternal p }
  | some ⟨_, some (.leaf ..), true⟩ => { c with lruLeaf := moveToFront c.lruLeaf p }
  | _ => c

def markPosition (c : Cache) : Cache :=
  { c with lruInternalPos := c.lruInternal.head?, lruLeafPos := c.lruLeaf.head? }

/-- The end of `tryRemoveNode` and of `rollbackNode`: the node leaves its list and its share
leaves the counter, the share read from the node as it is now. -/
def unlink (c : Cache) (p : Ptr) : HeapNode → Cache
  | .internal .. =>
    { c with lruInternalPos := clearPos c.lruInternalPos p, lruInternal := c.lruInternal.erase p,
             internalNodeCount := c.internalNodeCount - 1 }
  | .leaf _ key value =>
    { c with lruLeafPos := clearPos c.lruLeafPos p, lruLeaf := c.lruLeaf.erase p,
             valueSize := c.valueSize - leafSize key value }

/-- One child of an internal node in `tryRemoveNode`: a child in memory is removed by `remove`,
and the field is cleared. -/
def removeChild (remove : Cache → Ptr → CacheM Cache) (c : Cache) : Option Ptr → CacheM (Cache × Option Ptr)
  | none => pure (c, none)
  | some q => do
    let child ← c.deref q
    if child.node.isSome then return (← remove c q, none) else return (c, some q)

/-- `cache.tryRemoveNode`: removes a linked node and, for an internal node, the linked nodes below
it, leaving their pointers without nodes. -/
def tryRemoveNode : Nat → Cache → Ptr → Option Ptr → CacheM Cache
  | 0, _, _, _ => abort
  | fuel + 1, c, p, lockedPtr => do
    if lockedPtr = some p then throw (.removeLocked, c)
    let ptr ← c.deref p
    if !ptr.lru then return c
    let c ← match ptr.node with
      | some (.internal clean label labelBitLength leafNode left right) => do
        -- Remove leaf node and subtrees first.
        let remove := fun c q => tryRemoveNode fuel c q lockedPtr
        let (c, leafNode) ← removeChild remove c leafNode
        let (c, left) ← removeChild remove c left
        let (c, right) ← removeChild remove c right
        let n := HeapNode.internal clean label labelBitLength leafNode left right
        pure ((c.modify p fun ptr => { ptr with node := some n }).unlink p n)
      | some n => pure (c.unlink p n)
      | none => pure c
    return c.modify p fun ptr => { ptr with node := none, lru := false }

/-- `cache.removeNode`, which ignores the error. -/
def removeNode (fuel : Nat) (c : Cache) (p : Ptr) : Option Cache :=
  match tryRemoveNode fuel c p none with
  | some (.ok c) => some c
  | some (.error (_, c)) => some c
  | none => none

/-- `cache.tryEvictLeaf`: removes the least recently used leaves while the leaves with the new
ones would exceed the capacity. -/
def tryEvictLeaf : Nat → Cache → UInt64 → Option Ptr → CacheM Cache
  | 0, c, targetCapacity, _ =>
    if c.lruLeaf.length > 0 && c.valueSize + targetCapacity > c.valueCapacity then abort else pure c
  | fuel + 1, c, targetCapacity, lockedPtr => do
    if c.lruLeaf.length > 0 && c.valueSize + targetCapacity > c.valueCapacity then
      let some p := c.lruLeaf.getLast? | abort
      let n ← c.deref p
      if !n.clean then abort -- "mkvs: tried to evict dirty node"
      let c ← tryRemoveNode fuel c p lockedPtr
      tryEvictLeaf fuel c targetCapacity lockedPtr
    else pure c

def tryEvictInternal : Nat → Cache → UInt64 → Option Ptr → CacheM Cache
  | 0, c, targetCapacity, _ =>
    if c.lruInternal.length > 0 && c.internalNodeCount + targetCapacity > c.nodeCapacity then abort
    else pure c
  | fuel + 1, c, targetCapacity, lockedPtr => do
    if c.lruInternal.length > 0 && c.internalNodeCount + targetCapacity > c.nodeCapacity then
      let some p := c.lruInternal.getLast? | abort
      let n ← c.deref p
      if !n.clean then abort -- "mkvs: tried to evict dirty node"
      let c ← tryRemoveNode fuel c p lockedPtr
      tryEvictInternal fuel c targetCapacity lockedPtr
    else pure c

/-- `cache.tryCommitNode`: links a clean node into its list after the marked position, evicting
first when the counter would exceed the capacity. -/
def tryCommitNode (fuel : Nat) (c : Cache) (p : Option Ptr) (lockedPtr : Option Ptr) : CacheM Cache := do
  let some p := p | return c
  let ptr ← c.deref p
  if !ptr.clean then abort -- "mkvs: commitNode called on dirty node"
  let some n := ptr.node | return c
  if ptr.lru then return c.useNode p
  match n with
  | .internal .. =>
    let c ← if c.nodeCapacity > 0 && c.internalNodeCount + 1 > c.nodeCapacity then
        tryEvictInternal fuel c 1 lockedPtr
      else pure c
    let (lru, linked) := link c.lruInternal c.lruInternalPos p
    return { c.modify p ({ · with lru := linked }) with
      lruInternal := lru, internalNodeCount := c.internalNodeCount + 1 }
  | .leaf _ key value =>
    let valueSize := leafSize key value
    let c ← if c.valueCapacity > 0 && c.valueSize + valueSize > c.valueCapacity then
        tryEvictLeaf fuel c valueSize lockedPtr
      else pure c
    let (lru, linked) := link c.lruLeaf c.lruLeafPos p
    return { c.modify p ({ · with lru := linked }) with lruLeaf := lru, valueSize := c.valueSize + valueSize }

/-- `cache.commitNode`, which ignores the error. -/
def commitNode (fuel : Nat) (c : Cache) (p : Option Ptr) : Option Cache :=
  match tryCommitNode fuel c p none with
  | some (.ok c) => some c
  | some (.error (_, c)) => some c
  | none => none

/-- `cache.rollbackNode`: a node that became dirty leaves its list. -/
def rollbackNode (c : Cache) (p : Ptr) : Cache :=
  match c.heap[p]? with
  | some ⟨_, some n, true⟩ => (c.unlink p n).modify p ({ · with lru := false })
  | some ⟨_, none, true⟩ => c.modify p ({ · with lru := false })
  | _ => c

end Cache

end Orphiq.Mkvs

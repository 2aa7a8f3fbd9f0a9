import OrphiqCore.Mkvs.Cache

/-!
# Inserting and committing through the cache

`insert.go` and `commit.go` over the pointers of `Cache`: the tree's own work, with the calls into
the cache that make nodes eligible for eviction and take them back. `doInsert` marks the nodes it
changes dirty and rolls them back out of the cache; `doCommit` makes dirty nodes clean again, children
first, and commits each into the cache, as the hooks of the database batch do once the batch is
written. The write log and the node database are the business of the tree model and are left out.
-/

namespace Orphiq.Mkvs

/-- A panic of the Go code when `o` is none, as in the key functions. -/
def liftOpt {α : Type} : Option α → CacheM α
  | some a => pure a
  | none => abort

namespace Cache

/-- `cache.derefNodePtr` over the memory: a pointer whose node is in memory is used, and its node
returned. An internal node whose leaf node was evicted is removed first, and fetched again like a
pointer whose node is not in memory: a dirty one has no node, and Go reads a clean one from the
node database or the remote syncer, which the model does not have, so that fails. Go returns no
node for a clean pointer with the empty hash; in the model a clean pointer without a node held a
committed node, so its hash is that node's. -/
def derefNodePtr (fuel : Nat) (c : Cache) : Option Ptr → CacheM (Cache × Option HeapNode)
  | none => pure (c, none)
  | some p => do
    let c := c.useNode p
    let ptr ← c.deref p
    let fetch := fun c => if !ptr.clean then pure (c, none) else abort
    match ptr.node with
    | some (.internal clean label labelBitLength (some leaf) left right) =>
      if (← c.deref leaf).node.isNone then
        let some c := c.removeNode fuel p | abort
        fetch c
      else pure (c, some (.internal clean label labelBitLength (some leaf) left right))
    | some n => pure (c, some n)
    | none => fetch c

def setNode (c : Cache) (p : Ptr) (n : HeapNode) : Cache := c.modify p ({ · with node := some n })

/-- `Pointer.IsClean`: a nil pointer is clean. -/
def isClean (c : Cache) : Option Ptr → Bool
  | none => true
  | some p => (c.heap[p]?.map (·.clean)).getD true

/-- A node that changed: the node at `p` is stored dirty, the pointer made dirty with
`SetDirty`, and the node rolled back out of the cache, in this order. -/
def markDirty (c : Cache) (p : Ptr) (n : HeapNode) : Cache :=
  ((c.setNode p n).modify p ({ · with clean := false })).rollbackNode p

end Cache

/-- `insertResult`. -/
structure PtrInsertResult where
  newRoot : Option Ptr
  insertedLeaf : Option Ptr
  existed : Bool

namespace Cache

def doInsert : Nat → Cache → Option Ptr → Depth → Key → Value → CacheM (Cache × PtrInsertResult)
  | 0, _, _, _, _, _ => abort
  | fuel + 1, c, ptr, bitDepth, key, val => do
    let (c, nd) ← c.derefNodePtr fuel ptr
    let (_, keyRemainder) ← liftOpt (key.split bitDepth key.bitLength)
    match nd, ptr with
    | some (.internal clean label labelBitLength leafNode left right), some p =>
      let cpLength ← liftOpt (label.commonPrefixLen labelBitLength keyRemainder (key.bitLength - bitDepth))
      if cpLength = labelBitLength then
        -- The current part of key matched the node's Label. Do recursion.
        let bitLength := bitDepth + labelBitLength
        let (c, result, leafNode, left, right) ← if key.bitLength = bitLength then do
            let (c, result) ← c.doInsert fuel leafNode bitLength key val
            pure (c, result, result.newRoot, left, right)
          else if (← liftOpt (key.getBit bitLength)) then do
            let (c, result) ← c.doInsert fuel right bitLength key val
            pure (c, result, leafNode, left, result.newRoot)
          else do
            let (c, result) ← c.doInsert fuel left bitLength key val
            pure (c, result, leafNode, result.newRoot, right)
        let c := c.setNode p (.internal clean label labelBitLength leafNode left right)
        let c := if !c.isClean leafNode || !c.isClean left || !c.isClean right then
            c.markDirty p (.internal false label labelBitLength leafNode left right)
          else c
        pure (c, { result with newRoot := some p })
      else
        -- Key mismatches the label at position cpLength. Split the edge and insert new leaf.
        let (labelPrefix, labelSuffix) ← liftOpt (label.split cpLength labelBitLength)
        let c := c.markDirty p (.internal false labelSuffix (labelBitLength - cpLength) leafNode left right)
        let (c, newLeaf) := c.newLeafNode key val
        let (leafNode, left, right) ← if key.bitLength - bitDepth = cpLength then do
            if (← liftOpt (labelSuffix.getBit 0)) then pure (some newLeaf, none, some p)
            else pure (some newLeaf, some p, none)
          else if (← liftOpt (keyRemainder.getBit cpLength)) then pure (none, some p, some newLeaf)
          else pure (none, some newLeaf, some p)
        let (c, newRoot) := c.newInternalNode labelPrefix cpLength leafNode left right
        pure (c, ⟨some newRoot, some newLeaf, false⟩)
    | some (.leaf _ nKey nValue), some p =>
      -- If the key matches, we can just update the value.
      if nKey = key then
        if nValue = val then pure (c, ⟨some p, some p, true⟩)
        else pure (c.markDirty p (.leaf false nKey val), ⟨some p, some p, true⟩)
      else
        let (_, leafKeyRemainder) ← liftOpt (nKey.split bitDepth nKey.bitLength)
        let cpLength ← liftOpt (leafKeyRemainder.commonPrefixLen (nKey.bitLength - bitDepth) keyRemainder
          (key.bitLength - bitDepth))
        -- Key mismatches the label at position cpLength. Split the edge.
        let (labelPrefix, _) ← liftOpt (leafKeyRemainder.split cpLength leafKeyRemainder.bitLength)
        let (c, newLeaf) := c.newLeafNode key val
        let (leafNode, left, right) ← if key.bitLength - bitDepth = cpLength then do
            -- Inserted key is a prefix of the label.
            if (← liftOpt (leafKeyRemainder.getBit cpLength)) then pure (some newLeaf, none, some p)
            else pure (some newLeaf, some p, none)
          else if nKey.bitLength - bitDepth = cpLength then do
            -- Label is a prefix of the inserted key.
            if (← liftOpt (keyRemainder.getBit cpLength)) then pure (some p, none, some newLeaf)
            else pure (some p, some newLeaf, none)
          else if (← liftOpt (keyRemainder.getBit cpLength)) then pure (none, some p, some newLeaf)
          else pure (none, some newLeaf, some p)
        let (c, newRoot) := c.newInternalNode labelPrefix cpLength leafNode left right
        pure (c, ⟨some newRoot, some newLeaf, false⟩)
    | _, _ =>
      -- Insert into nil node, create a new leaf node.
      let (c, newLeaf) := c.newLeafNode key val
      pure (c, ⟨some newLeaf, some newLeaf, false⟩)

/-- `tree.Insert`, on the cache: the position is marked first, so that the path to the new node
stays in front of the lists. A heap of `n` pointers holds no path longer than `n`. -/
def insert (c : Cache) (key : Key) (value : Value) : CacheM Cache := do
  let c := c.markPosition
  let (c, result) ← c.doInsert (c.heap.size + 1) c.pendingRoot 0 key value
  pure { c with pendingRoot := result.newRoot }

/-- The hooks of `doCommit` for one node: the node and its pointer become clean, and the node
eligible for eviction. -/
def commitHooks (fuel : Nat) (c : Cache) (p : Ptr) (n : Option HeapNode) : Option Cache :=
  let clean : Option HeapNode → Option HeapNode
    | some (.internal _ label labelBitLength leafNode left right) =>
      some (.internal true label labelBitLength leafNode left right)
    | some (.leaf _ key value) => some (.leaf true key value)
    | none => none
  (c.modify p ({ · with node := clean n, clean := true })).commitNode fuel (some p)

/-- `doCommit` over the memory: a dirty node is committed after its children, a clean one is
left as it is. The batch's hooks run in the order `doCommit` queues them, children first, and are
run here as they are queued. -/
def doCommit : Nat → Cache → Option Ptr → Option Cache
  | 0, _, _ => none
  | _ + 1, c, none => some c
  | fuel + 1, c, some p => do
    let ptr ← c.heap[p]?
    if ptr.clean then return c
    match ptr.node with
    | none => c.commitHooks fuel p none -- Dead node.
    | some (.internal clean _ _ leafNode left right) =>
      if clean then none -- "mkvs: non-clean pointer has clean node"
      let c ← c.doCommit fuel leafNode
      let c ← c.doCommit fuel left
      let c ← c.doCommit fuel right
      c.commitHooks fuel p ptr.node
    | some (.leaf clean _ _) =>
      if clean then none -- "mkvs: non-clean pointer has clean node"
      c.commitHooks fuel p ptr.node

/-- `tree.Commit`, on the cache. -/
def commit (c : Cache) : Option Cache := c.doCommit (c.heap.size + 1) c.pendingRoot

end Cache

end Orphiq.Mkvs

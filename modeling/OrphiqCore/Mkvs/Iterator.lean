import OrphiqCore.Mkvs.Tree

/-!
# The tree iterator

`treeIterator` of `go/storage/mkvs/iterator.go`; the runtime's `TreeIterator` of
`runtime/src/storage/mkvs/tree/iterator.rs` is the same algorithm, line for line.

The iterator walks the trie depth first, the leaf node of an internal node before its left
subtree and the left before the right. It is positioned on one leaf and keeps the path to it
as a stack of path atoms, deepest first: each internal node it is inside, with what of it is
done (`at`: its leaf node, `atLeft`: its left subtree too, `after`: all of it). `doNext`
visits a subtree from a given state and key and returns the first leaf at or after the key,
with the atoms of the path down to it; `Next` resumes from the atoms, deepest first, until
one finds a leaf.

A pointer that holds only a hash cannot be fetched, there being no node database and no
remote syncer: `doNext` reports it as an error, unless it is the empty hash. A key operation
on which Go would panic makes the result `none`. The proof builder and the cache's use
tracking do not change what the iterator visits and are not modelled.
-/

namespace Orphiq.Mkvs

inductive VisitState where
  | before
  | at
  | atLeft
  | after
  deriving DecidableEq, Repr

/-- `pathAtom`: an internal node the iterator is inside, as `doNext` was called on it. -/
structure PathAtom where
  path : Key
  ptr : Node
  bitDepth : Depth
  state : VisitState
  deriving DecidableEq, Repr

/-- The iterator's errors: a node that could not be fetched, and `errClosed`. -/
inductive IteratorError where
  | fetch
  | closed
  deriving DecidableEq, Repr

/-- A leaf found by `doNext`, with the path atoms appended on the way back up. -/
abbrev Found := Key × Value × List PathAtom

/-- The outcome of `doNext`: the leaf found, if any, or an error; `none` where Go panics. -/
abbrev Visit := Option (Except IteratorError (Option Found))

/-- Visit one slot of an internal node: a leaf found there is returned with the node pushed
as a path atom in state `atom.state`; if none is, the visit goes on with `rest`. -/
def visitSlot (visit : Visit) (atom : PathAtom) (rest : Visit) : Visit :=
  match visit with
  | some (.ok (some (key, value, atoms))) => some (.ok (some (key, value, atoms ++ [atom])))
  | some (.ok none) => rest
  | outcome => outcome

section Phases

variable (here : VisitState → PathAtom) (newPath : Key) (bitLength : Depth) (takeFirst : Bool)

/-- The leaf node of an internal node, visited before the node's subtrees when the key is no
longer than the node's path or before all its keys; a key no longer than the path is then
extended by a 0 bit, so that it reads as the first key of the left subtree. -/
def leafNodePhase (visitLeafNode : Key → Visit) (key : Key) (state : VisitState)
    (rest : Key → Visit) : Visit :=
  if (state = .before && (key.bitLength ≤ bitLength || takeFirst)) || state = .at then
    let extend : Visit :=
      if key.bitLength ≤ bitLength then (key.appendBit bitLength false).bind rest else rest key
    if state = .before then visitSlot (visitLeafNode key) (here .at) extend else extend
  else rest key

/-- The left subtree, visited when the key's next bit is 0 or the key is before all keys of
the node; the key then becomes the first key of the right subtree. Go reads the key's bit
only in state `at`. -/
def leftPhase (visitLeft : Key → Key → Visit) (key : Key) (state : VisitState)
    (rest : Key → Visit) : Visit :=
  let enter : Option Bool :=
    if state = .at then (key.getBit bitLength).map fun bit => !bit || takeFirst
    else some (state = .atLeft)
  enter.bind fun enter =>
    if enter then
      let next : Visit :=
        ((key.split bitLength key.bitLength).bind fun parts => parts.1.appendBit bitLength true).bind rest
      if state = .at then
        (newPath.appendBit bitLength false).bind fun leftPath =>
          visitSlot (visitLeft leftPath key) (here .atLeft) next
      else next
    else rest key

/-- The right subtree, visited unless the node is done. -/
def rightPhase (visitRight : Key → Key → Visit) (key : Key) (state : VisitState) : Visit :=
  if state = .at || state = .atLeft then
    (newPath.appendBit bitLength true).bind fun rightPath =>
      visitSlot (visitRight rightPath key) (here .after) (some (.ok none))
  else some (.ok none)

end Phases

/-- `treeIterator.doNext`: visit the subtree at `ptr`, at bit depth `bitDepth` below the bit
path `path`, from state `state`, for the first leaf whose key is at or after `key`. A leaf
node and an internal node are fetched as they are; `derefNodePtr` gives nil for the empty
hash and fails for any other hash. -/
def doNext : Node → Depth → Key → Key → VisitState → Visit
  | .nil, _, _, _, _ => some (.ok none)
  | .hashed hash, _, _, _, _ =>
    match derefNodePtr (.hashed hash) with
    | some _ => some (.ok none)
    | none => some (.error .fetch)
  | .leaf _ _ nodeKey value, _, _, key, _ =>
    some (.ok (if Key.compare nodeKey key != .lt then some (nodeKey, value, []) else none))
  | .internal c hash label labelBitLength leafNode left right, bitDepth, path, key, state =>
    let here : VisitState → PathAtom :=
      PathAtom.mk path (.internal c hash label labelBitLength leafNode left right) bitDepth
    let bitLength := bitDepth + labelBitLength
    (path.merge bitDepth label labelBitLength).bind fun newPath =>
      let takeFirst := decide (0 < bitLength) && decide (bitLength ≤ key.bitLength) &&
        Key.compare key newPath == .lt
      leafNodePhase here bitLength takeFirst (fun key => doNext leafNode bitLength path key .before)
        key state fun key =>
      let state := if state = .before then .at else state
      leftPhase here newPath bitLength takeFirst (fun leftPath key => doNext left bitLength leftPath key .before)
        key state fun key =>
      rightPhase here newPath bitLength (fun rightPath key => doNext right bitLength rightPath key .before)
        key state

/-- `treeIterator`, without the context, the prefetch hint and the proof builder. -/
structure TreeIterator where
  tree : Tree
  err : Option IteratorError
  pos : List PathAtom
  key : Option Key
  value : Option Value

def Tree.newIterator (t : Tree) : TreeIterator := ⟨t, none, [], none, none⟩

namespace TreeIterator

def valid (it : TreeIterator) : Bool := it.key.isSome

def reset (it : TreeIterator) : TreeIterator := { it with pos := [], key := none, value := none }

def setError (it : TreeIterator) (err : IteratorError) : TreeIterator := { it.reset with err := some err }

/-- The iterator after a `doNext` from a reset iterator: on the leaf found, or at the end. -/
def settle (it : TreeIterator) : Except IteratorError (Option Found) → TreeIterator
  | .error err => it.setError err
  | .ok none => it.reset
  | .ok (some (key, value, atoms)) => { it.reset with pos := atoms, key := some key, value := some value }

/-- `Seek`: visit the tree's pending root from state `before`. -/
def seek (it : TreeIterator) (key : Key) : Option TreeIterator :=
  if it.err.isSome then some it
  else (doNext it.tree.pendingRoot 0 [] key .before).map it.settle

def rewind (it : TreeIterator) : Option TreeIterator := it.seek []

/-- The loop of `Next`: resume from each path atom in turn, deepest first, with the current
key, until one finds a leaf; past the last atom the iterator is at the end. -/
def nextLoop (it : TreeIterator) (key : Key) : List PathAtom → Option TreeIterator
  | [] => some it.reset
  | atom :: remainder =>
    (doNext atom.ptr atom.bitDepth atom.path key atom.state).bind fun outcome =>
      match outcome with
      | .ok none => nextLoop it key remainder
      | .ok (some (key, value, atoms)) =>
        some { it with pos := atoms ++ remainder, key := some key, value := some value }
      | .error err => some (it.setError err)

/-- `Next`; Go's nil key reads as the empty key. -/
def next (it : TreeIterator) : Option TreeIterator :=
  if it.err.isSome then some it else it.nextLoop (it.key.getD []) it.pos

def close (it : TreeIterator) : TreeIterator := { it.reset with err := some .closed }

/-- The keys and values a caller reads with `for ; it.Valid(); it.Next()`, for at most `fuel`
rounds; `none` if a step panics. -/
def readAll : Nat → TreeIterator → Option (List (Key × Value))
  | 0, _ => some []
  | fuel + 1, it =>
    match it.key with
    | some key => (it.next.bind (readAll fuel)).map ((key, it.value.getD []) :: ·)
    | none => some []

end TreeIterator

end Orphiq.Mkvs

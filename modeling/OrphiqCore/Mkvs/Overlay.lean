import OrphiqCore.Store.SortedMap

/-!
# The tree overlay

`treeOverlay` of `go/storage/mkvs/overlay.go`, with its iterator `treeOverlayIterator`.

The inner tree is its contents, an ordered map; its iterator is the list of entries it still
visits, from its current one on, and `Seek` positions it at the first key at or after the one
sought. Keys are of any linearly ordered type: byte strings under bytewise order are one.
`overlay` is the ordered map of the entries written through the overlay and `dirty` the set of
keys the overlay has changed, whether written or removed.

The runtime's `OverlayTree` (`runtime/src/storage/mkvs/tree/overlay.rs`) is the same
structure: its `remove` is `RemoveExisting`, its `insert` is `Insert` after a `Get`, and its
`commit` applies and returns the write log `commitLog`.
-/

namespace Orphiq.Mkvs

open Store

variable {κ ν : Type} [LinearOrder κ]

structure TreeOverlay (κ ν : Type) [LinearOrder κ] where
  inner : SortedMap κ ν
  overlay : SortedMap κ ν
  dirty : Finset κ

namespace TreeOverlay

/-- `NewOverlay`. -/
def new (inner : SortedMap κ ν) : TreeOverlay κ ν := ⟨inner, .empty, ∅⟩

def insert (o : TreeOverlay κ ν) (key : κ) (value : ν) : TreeOverlay κ ν :=
  { o with
    overlay := o.overlay.insert key value
    dirty := Insert.insert key o.dirty }

/-- `treeOverlay.Get`: a dirty key is read from the overlay, any other from the inner tree. -/
def get (o : TreeOverlay κ ν) (key : κ) : Option ν :=
  if key ∈ o.dirty then o.overlay.get key else o.inner.get key

/-- `treeOverlay.RemoveExisting`: the removed value, and the overlay after. -/
def removeExisting (o : TreeOverlay κ ν) (key : κ) : Option ν × TreeOverlay κ ν :=
  if key ∈ o.dirty then (o.overlay.get key, { o with overlay := o.overlay.erase key })
  else
    let value := o.inner.get key
    -- a key that was not dirty and is not in the inner tree stays clean
    if value.isSome then (value, { o with dirty := Insert.insert key o.dirty }) else (value, o)

def remove (o : TreeOverlay κ ν) (key : κ) : TreeOverlay κ ν :=
  { o with
    dirty := Insert.insert key o.dirty
    overlay := o.overlay.erase key }

/-- The writes `Commit` makes to the inner tree, in order: every entry of the overlay, then a
removal of each dirty key the overlay does not hold, listed in `order`, the order in which the
dirty set is iterated. The runtime's `commit` returns this log. -/
def commitLog (o : TreeOverlay κ ν) (order : List κ) : List (Write κ ν) :=
  o.overlay.entries.map (fun e => ⟨e.1, some e.2⟩) ++ order.map fun key => ⟨key, none⟩

/-- `treeOverlay.Commit`: the writes of `commitLog` made to the inner tree, and the overlay
cleared. -/
def commit (o : TreeOverlay κ ν) (order : List κ) : TreeOverlay κ ν :=
  ⟨(o.commitLog order).foldl SortedMap.write o.inner, .empty, ∅⟩

end TreeOverlay

/-- `treeOverlayIterator`: the overlay iterated, the entries the inner tree's iterator and the
overlay's iterator still visit, and the current key and value. -/
structure TreeOverlayIterator (κ ν : Type) [LinearOrder κ] where
  tree : TreeOverlay κ ν
  inner : List (κ × ν)
  overlay : List (κ × ν)
  entry : Option (κ × ν)

/-- `treeOverlay.NewIterator`: neither iterator positioned yet. -/
def TreeOverlay.newIterator (o : TreeOverlay κ ν) : TreeOverlayIterator κ ν := ⟨o, [], [], none⟩

namespace TreeOverlayIterator

/-- `overlayValid`: whether the overlay's iterator is on an entry, as its `First`, `Seek` and
`Next` report. -/
def overlayValid (it : TreeOverlayIterator κ ν) : Bool := !it.overlay.isEmpty

def valid (it : TreeOverlayIterator κ ν) : Bool := !it.inner.isEmpty || it.overlayValid

def key (it : TreeOverlayIterator κ ν) : Option κ := it.entry.map (·.1)

def value (it : TreeOverlayIterator κ ν) : Option ν := it.entry.map (·.2)

/-- The entry the merged iterator is on: the inner iterator's when its key is the smaller,
else the overlay iterator's. -/
def current : List (κ × ν) → List (κ × ν) → Option (κ × ν)
  | i :: _, [] => some i
  | i :: _, o :: _ => if i.1 < o.1 then some i else some o
  | [], o :: _ => some o
  | [], [] => none

/-- `treeOverlayIterator.updateIteratorPosition`: skip the inner iterator past dirty keys, then
take the current entry. -/
def updateIteratorPosition (it : TreeOverlayIterator κ ν) : TreeOverlayIterator κ ν :=
  let inner := it.inner.dropWhile fun e => e.1 ∈ it.tree.dirty
  { it with
    inner
    entry := current inner it.overlay }

def rewind (it : TreeOverlayIterator κ ν) : TreeOverlayIterator κ ν :=
  updateIteratorPosition
    { it with
      inner := it.tree.inner.entries
      overlay := it.tree.overlay.entries }

def seek (it : TreeOverlayIterator κ ν) (key : κ) : TreeOverlayIterator κ ν :=
  updateIteratorPosition
    { it with
      inner := it.tree.inner.from key
      overlay := it.tree.overlay.from key }

/-- `treeOverlayIterator.Next`: advance the inner iterator when the overlay's is done or its key
is not the smaller, else the overlay's. -/
def next (it : TreeOverlayIterator κ ν) : TreeOverlayIterator κ ν :=
  match it.inner, it.overlay with
  | inner, [] => updateIteratorPosition { it with inner := inner.tail }
  | i :: inner, o :: overlay =>
    updateIteratorPosition (if i.1 ≤ o.1 then { it with inner } else { it with overlay })
  | [], _ :: overlay => updateIteratorPosition { it with overlay }

/-- The entries a caller reads with `for ; it.Valid(); it.Next()`, for at most `fuel` rounds. -/
def readAll : ℕ → TreeOverlayIterator κ ν → List (κ × ν)
  | 0, _ => []
  | fuel + 1, it => if it.valid then it.entry.toList ++ readAll fuel it.next else []

end TreeOverlayIterator

end Orphiq.Mkvs

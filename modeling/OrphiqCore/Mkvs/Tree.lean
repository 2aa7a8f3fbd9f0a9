import OrphiqCore.Mkvs.Commit
import OrphiqCore.Mkvs.Lookup
import OrphiqCore.Mkvs.Insert
import OrphiqCore.Mkvs.Remove

/-!
# The tree

`tree.go` with the tree-level operations of `insert.go`, `remove.go`, `lookup.go` and
`commit.go`. A tree holds its pending root and, unless it was built without one, a pending
write log: one entry per key changed since the last commit, with the key's new value and
whether it existed at the last commit. `Get` answers from the write log when it names the
key, and `Commit` hashes the pending root and turns the write log into a `WriteLog`.

Go keeps the write log in a map; the model keeps it as a list in the order the keys were
first written, which is one of the orders in which Go's `Commit` can list them.

The node database and the read syncer are not modelled. A tree opened at a root holds the
trie the database returns for it, rather than a pointer to be dereferenced through the
database; committing leaves the committed nodes in memory, as Go's cache does.
-/

namespace Orphiq.Mkvs

/-- `common.Namespace`, 32 bytes. -/
abbrev Namespace := List UInt8

abbrev RootType := UInt8

/-- `node.Root`; `ns` is the namespace, under its serialised name. -/
structure Root where
  ns : Namespace
  version : UInt64
  type : RootType
  hash : Hash
  deriving Repr, DecidableEq

def Namespace.empty : Namespace := List.replicate 32 0

/-- `Root.Empty` on a root of the given type. -/
def Root.empty (rootType : RootType) : Root := ⟨Namespace.empty, 0, rootType, Hash.empty⟩

def Root.isEmpty (r : Root) : Bool := r.ns = Namespace.empty && r.version = 0 && r.hash = Hash.empty

/-- `pendingEntry`, without the inserted leaf pointer that only the write log annotations
use; a `none` value is Go's nil value, a removed key. -/
structure PendingEntry where
  key : Key
  value : Option Value
  existed : Bool
  deriving Repr, DecidableEq

/-- `tree`, without the cache's bookkeeping and the removed nodes kept for the database. -/
structure Tree where
  pendingRoot : Node
  syncRoot : Root
  rootType : RootType
  pendingWriteLog : List PendingEntry
  withoutWriteLog : Bool
  deriving Repr, DecidableEq

/-- `t.pendingWriteLog[node.ToMapKey(key)]`. -/
def pendingEntryOf (log : List PendingEntry) (key : Key) : Option PendingEntry :=
  log.find? (·.key = key)

/-- The update of the pending write log that `Insert` and `RemoveExisting` make: a new entry
records whether the key existed, an entry already there only takes the new value. -/
def recordPending (log : List PendingEntry) (key : Key) (value : Option Value) (existed : Bool) :
    List PendingEntry :=
  match pendingEntryOf log key with
  | none => log ++ [⟨key, value, existed⟩]
  | some _ => log.map fun entry => if entry.key = key then { entry with value } else entry

/-- The write log entry `Commit` makes of a pending entry: none for a key that neither exists
after the updates nor existed before. -/
def PendingEntry.logEntry? (entry : PendingEntry) : Option LogEntry :=
  if entry.value = none ∧ entry.existed = false then none else some ⟨entry.key, entry.value⟩

namespace Tree

/-- `New`: an empty tree. -/
def new (rootType : RootType) (withoutWriteLog : Bool) : Tree :=
  ⟨.nil, Root.empty rootType, rootType, [], withoutWriteLog⟩

/-- `NewWithRoot`, where the node database holds the trie `rootNode` under `root.hash`. -/
def newWithRoot (root : Root) (rootNode : Node) (withoutWriteLog : Bool) : Tree :=
  { new root.type withoutWriteLog with pendingRoot := rootNode, syncRoot := root }

/-- The write log entry of a key, if the tree keeps a write log. -/
def pendingEntry (t : Tree) (key : Key) : Option PendingEntry :=
  if t.withoutWriteLog then none else pendingEntryOf t.pendingWriteLog key

def insert (t : Tree) (key : Key) (value : Value) : Option Tree := do
  let result ← doInsert t.pendingRoot 0 key value
  let pendingWriteLog := if t.withoutWriteLog then t.pendingWriteLog
    else recordPending t.pendingWriteLog key (some value) result.existed
  pure { t with pendingRoot := result.newRoot, pendingWriteLog }

/-- `tree.RemoveExisting`: the tree after the removal and the value that was removed. -/
def removeExisting (t : Tree) (key : Key) : Option (Tree × Option Value) :=
  match t.pendingEntry key with
  -- The key has already been removed locally.
  | some ⟨_, none, _⟩ => some (t, none)
  | _ => do
    let (newRoot, changed, existing) ← doRemove t.pendingRoot 0 key
    let pendingWriteLog := if t.withoutWriteLog then t.pendingWriteLog
      else recordPending t.pendingWriteLog key none changed
    pure ({ t with pendingRoot := newRoot, pendingWriteLog }, existing)

def remove (t : Tree) (key : Key) : Option Tree := (·.1) <$> t.removeExisting key

def get (t : Tree) (key : Key) : Option (Option Value) :=
  match t.pendingEntry key with
  | some entry => some entry.value
  | none => (·.1) <$> doGet key t.pendingRoot 0 ⟨none, false⟩ false

section Commit

variable (digest : List UInt8 → Hash)

/-- `tree.Commit`, persisting: the write log, the root hash and the committed tree. -/
def commit (t : Tree) (ns : Namespace) (version : UInt64) : WriteLog × Hash × Tree :=
  let oldRoot := if t.syncRoot.isEmpty then { t.syncRoot with ns, version, type := t.rootType }
    else t.syncRoot
  let (rootHash, pendingRoot) := doCommit digest t.pendingRoot
  let log := t.pendingWriteLog.filterMap PendingEntry.logEntry?
  let root : Root := ⟨ns, version, oldRoot.type, rootHash⟩
  (log, rootHash, { t with pendingRoot, pendingWriteLog := [], syncRoot := root })

/-- `tree.ApplyWriteLog`: a nil value removes the key, any other value is inserted. -/
def applyWriteLog (t : Tree) (wl : WriteLog) : Option Tree :=
  wl.foldlM (fun t entry => match entry.value with
    | none => t.remove entry.key
    | some value => t.insert entry.key value) t

inductive Op where
  | insert (key : Key) (value : Value)
  | remove (key : Key)
  | removeExisting (key : Key)
  | commit (ns : Namespace) (version : UInt64)
  deriving Repr, DecidableEq

def step (t : Tree) : Op → Option Tree
  | .insert key value => t.insert key value
  | .remove key => t.remove key
  | .removeExisting key => (·.1) <$> t.removeExisting key
  | .commit ns version => some (t.commit digest ns version).2.2

/-- The tree after a sequence of calls, or `none` if one of them fails. -/
def run (t : Tree) (ops : List Op) : Option Tree := ops.foldlM (step digest) t

end Commit

end Tree

end Orphiq.Mkvs

import Mathlib

/-!
# Checkpoint restorer

`restorer` of `go/storage/mkvs/checkpoint/restorer.go`, with `restoreChunk` of `chunk.go`.

What a chunk's bytes hash to and what they decode to is abstract: `hashChunk r` is the digest
the hash builder computes over the bytes, and `verifyChunk root r` the nodes of the proof the
bytes decode to, when they decode and the proof verifies against `root`. The node database is
the list of the nodes imported into it, and `committed` says whether the batch that imports a
chunk commits.
-/

namespace Orphiq.Checkpoint

/-- The errors of the checkpoint package that the restorer returns; `nodeImportFailed` stands for
every failure of the node import. -/
inductive Error where
  | chunkNotFound
  | restoreAlreadyInProgress
  | noRestoreInProgress
  | chunkAlreadyRestored
  | chunkProofVerificationFailed
  | chunkCorrupted
  | nodeImportFailed
  deriving DecidableEq, Repr

/-- `Metadata`, with the root's hash only. -/
structure Metadata (Hash : Type) where
  root : Hash
  chunks : List Hash
  deriving DecidableEq, Repr

/-- `ChunkMetadata`, with the root's hash only. -/
structure ChunkMetadata (Hash : Type) where
  root : Hash
  index : ℕ
  digest : Hash
  deriving DecidableEq, Repr

variable {Hash Data Node : Type}

def Metadata.getChunkMetadata (m : Metadata Hash) (idx : ℕ) : Except Error (ChunkMetadata Hash) :=
  match m.chunks[idx]? with
  | none => .error .chunkNotFound
  | some digest => .ok ⟨m.root, idx, digest⟩

section Chunk

variable [DecidableEq Hash] (hashChunk : Data → Hash) (verifyChunk : Hash → Data → Option (List Node))

/-- `restoreChunk`: the digest is checked before anything is decoded or written. -/
def restoreChunk (ndb : List Node) (chunk : ChunkMetadata Hash) (r : Data) (committed : Bool) :
    Except Error (List Node) :=
  if chunk.digest ≠ hashChunk r then .error .chunkCorrupted
  else
    match verifyChunk chunk.root r with
    | none => .error .chunkProofVerificationFailed
    | some nodes => if committed then .ok (ndb ++ nodes) else .error .nodeImportFailed

end Chunk

structure Restorer (Hash Node : Type) where
  ndb : List Node
  currentCheckpoint : Option (Metadata Hash)
  pendingChunks : Finset ℕ

namespace Restorer

/-- `NewRestorer`. -/
def new (ndb : List Node) : Restorer Hash Node := ⟨ndb, none, ∅⟩

def startRestore (rs : Restorer Hash Node) (checkpoint : Metadata Hash) : Except Error (Restorer Hash Node) :=
  if rs.currentCheckpoint.isSome then .error .restoreAlreadyInProgress
  else .ok { rs with currentCheckpoint := some checkpoint, pendingChunks := Finset.range checkpoint.chunks.length }

def abortRestore (rs : Restorer Hash Node) : Restorer Hash Node :=
  { rs with pendingChunks := ∅, currentCheckpoint := none }

/-- The first locked section of `RestoreChunk`. -/
def beginChunk (rs : Restorer Hash Node) (idx : ℕ) : Except Error (ChunkMetadata Hash) :=
  match rs.currentCheckpoint with
  | none => .error .noRestoreInProgress
  | some checkpoint => if idx ∈ rs.pendingChunks then checkpoint.getChunkMetadata idx else .error .chunkAlreadyRestored

/-- The part of `RestoreChunk` outside the lock: `restoreChunk`, and `AbortRestore` when the
proof does not verify. -/
def importChunk [DecidableEq Hash] (hashChunk : Data → Hash) (verifyChunk : Hash → Data → Option (List Node))
    (rs : Restorer Hash Node) (chunk : ChunkMetadata Hash) (r : Data) (committed : Bool) :
    Option Error × Restorer Hash Node :=
  match restoreChunk hashChunk verifyChunk rs.ndb chunk r committed with
  | .ok ndb => (none, { rs with ndb })
  | .error .chunkProofVerificationFailed => (some .chunkProofVerificationFailed, rs.abortRestore)
  | .error e => (some e, rs)

/-- The second locked section of `RestoreChunk`: whether the restore is done. -/
def finishChunk (rs : Restorer Hash Node) (idx : ℕ) : Bool × Restorer Hash Node :=
  let pendingChunks := rs.pendingChunks.erase idx
  if pendingChunks.card = 0 then (true, { rs with pendingChunks := ∅, currentCheckpoint := none })
  else (false, { rs with pendingChunks })

/-- `restorer.RestoreChunk`, run with no other call in between its sections. -/
def restoreChunkCall [DecidableEq Hash] (hashChunk : Data → Hash) (verifyChunk : Hash → Data → Option (List Node))
    (rs : Restorer Hash Node) (idx : ℕ) (r : Data) (committed : Bool) :
    (Bool × Option Error) × Restorer Hash Node :=
  match rs.beginChunk idx with
  | .error e => ((false, some e), rs)
  | .ok chunk =>
    match rs.importChunk hashChunk verifyChunk chunk r committed with
    | (some e, rs) => ((false, some e), rs)
    | (none, rs) => (((rs.finishChunk idx).1, none), (rs.finishChunk idx).2)

end Restorer

end Orphiq.Checkpoint

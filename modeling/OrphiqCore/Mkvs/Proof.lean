import OrphiqCore.Mkvs.Codec

/-!
# Merkle proofs

`syncer/proof.go`. A `ProofBuilder` collects the clean nodes a lookup visits, keyed by their
hashes, and `build` writes them in pre-order from a root hash: a visited node as its compact
encoding followed by its children, a node that was not visited as its hash, and a nil node
as a nil entry. In version 0 the leaf node travels inside its internal node; in version 1 it
is a child of its own.

The verifier reads the entries back in the same order, rebuilds every internal node's hash
from its label and its children's hashes, and accepts when all entries are used and the
hash of what it built is the root it was given.

Go's builder recurses through a map of hashes and the verifier through the entries; the
models carry a fuel argument that the entry points set to one more than the number of
included nodes or entries, which is more than either recursion can use.
-/

namespace Orphiq.Mkvs

def proofEntryFull : UInt8 := 0x01

def proofEntryHash : UInt8 := 0x02

/-- `syncer.LatestProofVersion`; the minimum version is 0. -/
def latestProofVersion : UInt16 := 1

/-- A proof entry: `none` is Go's nil entry, for a nil node. -/
abbrev ProofEntry := Option (List UInt8)

structure Proof where
  v : UInt16
  untrustedRoot : Hash
  entries : List ProofEntry
  deriving Repr, DecidableEq

structure ProofNode where
  serialized : List UInt8
  children : List Hash
  deriving Repr, DecidableEq

/-- `syncer.ProofBuilder`; the map of included nodes is a list keyed by hash. -/
structure ProofBuilder where
  proofVersion : UInt16
  root : Hash
  subtree : Hash
  included : List (Hash × ProofNode)
  size : UInt64
  deriving Repr, DecidableEq

def newProofBuilderForVersion (root subtree : Hash) (proofVersion : UInt16) : Option ProofBuilder :=
  if proofVersion > latestProofVersion then none
  else some ⟨proofVersion, root, subtree, [], 0⟩

namespace ProofBuilder

/-- `ProofBuilder.Include`: add a node, unless it is already there. A dirty node and an
unknown version make Go panic. -/
def includeNode (b : ProofBuilder) : Node → Option ProofBuilder
  | .nil => some b
  | .hashed _ => none
  | n =>
    if !n.isClean then none
    else if (b.included.lookup n.getHash).isSome then some b
    else do
      let serialized ← if b.proofVersion = 0 then n.compactMarshalBinaryV0
        else if b.proofVersion = 1 then n.compactMarshalBinaryV1 else none
      -- For internal nodes, also add the children's hashes.
      let children := match n with
        | .internal _ _ _ _ leafNode left right =>
          (if b.proofVersion = 0 then [left, right] else [leafNode, left, right]).map Node.getHash
        | _ => []
      pure { b with
        included := (n.getHash, ⟨serialized, children⟩) :: b.included
        size := b.size + 1 + serialized.length.toUInt64 }

def hasSubtreeRoot (b : ProofBuilder) : Bool := (b.included.lookup b.subtree).isSome

end ProofBuilder

/-- `ProofBuilder.build`: the entries below hash `h`, in pre-order. -/
def buildEntries (included : List (Hash × ProofNode)) : Nat → Hash → Option (List ProofEntry)
  | 0, _ => none
  | fuel + 1, h =>
    if h = Hash.empty then some [none]
    else match included.lookup h with
      -- Node is not included in this proof, just add hash of subtree.
      | none => some [some (proofEntryHash :: h)]
      | some n => do
        let children ← n.children.mapM (buildEntries included fuel)
        pure (some (proofEntryFull :: n.serialized) :: children.flatten)

/-- `ProofBuilder.Build`: from the subtree root if it was included, else from the root. -/
def ProofBuilder.build (b : ProofBuilder) : Option Proof := do
  let untrustedRoot := if b.hasSubtreeRoot then b.subtree else b.root
  let entries ← buildEntries b.included (b.included.length + 1) untrustedRoot
  pure ⟨b.proofVersion, untrustedRoot, entries⟩

/-- `writelog.LogEntry`: a nil value removes the key. -/
structure LogEntry where
  key : Key
  value : Option Value
  deriving Repr, DecidableEq

abbrev WriteLog := List LogEntry

/-- `verifyResult.addLeafToWriteLog`: only a leaf adds an entry. -/
def addLeafToWriteLog (log : WriteLog) : Node → WriteLog
  | .leaf _ _ key value => log ++ [⟨key, some value⟩]
  | _ => log

/-- `hash.Hash.UnmarshalBinary`. -/
def hashUnmarshalBinary (data : List UInt8) : Option Hash :=
  if data.length = hashSize then some data else none

section Verifier

variable (digest : List UInt8 → Hash)

/-- `ProofVerifier.verifyProof`: the subtree the entries from `idx` on describe, the index
after them, and the write log with the leaves met on the way when `writeLog` is set. -/
def verifyProof (proof : Proof) (writeLog : Bool) : Nat → Nat → WriteLog → Option (Nat × Node × WriteLog)
  | 0, _, _ => none
  | fuel + 1, idx, log =>
    match proof.entries[idx]? with
    | none => none
    | some none => some (idx + 1, .nil, log)
    | some (some []) => none
    | some (some (tag :: body)) =>
      if tag = proofEntryFull then do
        let n ← unmarshalBinary digest body
        match n with
        | .internal _ _ label labelBitLength leafNode _ _ => do
          -- In version 0 the leaf node is in the internal node, in version 1 it comes next.
          let (pos, leafNode, log) ← if proof.v = 0 then
              pure (idx + 1, leafNode, if writeLog then addLeafToWriteLog log leafNode else log)
            else if proof.v = 1 then verifyProof proof writeLog fuel (idx + 1) log
            else none
          let (pos, left, log) ← verifyProof proof writeLog fuel pos log
          let (pos, right, log) ← verifyProof proof writeLog fuel pos log
          -- Recompute the hash, as the compact encoding has no child hashes.
          let hash := internalNodeHash digest label labelBitLength leafNode.getHash left.getHash right.getHash
          pure (pos, .internal true hash label labelBitLength leafNode left right, log)
        | n => pure (idx + 1, n, if writeLog then addLeafToWriteLog log n else log)
      else if tag = proofEntryHash then do
        let h ← hashUnmarshalBinary body
        pure (idx + 1, .hashed h, log)
      else none

structure VerifyResult where
  rootPtr : Node
  writeLog : WriteLog

def verifyProofOpts (root : Hash) (proof : Proof) (writeLog : Bool) : Option VerifyResult :=
  if proof.v > latestProofVersion then none
  else if proof.untrustedRoot ≠ root then none
  else if proof.entries = [] then none
  else do
    let (idx, rootPtr, log) ← verifyProof digest proof writeLog (proof.entries.length + 1) 0 []
    -- All of the entries in the proof must have been used.
    if idx ≠ proof.entries.length then none
    else
      let rootNodeHash := rootPtr.getHash
      if rootNodeHash ≠ root then none
      else pure ⟨if rootNodeHash = Hash.empty then .nil else rootPtr, log⟩

def ProofVerifier.verifyProof (root : Hash) (proof : Proof) : Option Node :=
  (verifyProofOpts digest root proof false).map (·.rootPtr)

def ProofVerifier.verifyProofToWriteLog (root : Hash) (proof : Proof) : Option WriteLog :=
  (verifyProofOpts digest root proof true).map (·.writeLog)

end Verifier

end Orphiq.Mkvs

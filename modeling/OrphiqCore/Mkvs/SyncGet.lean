import OrphiqCore.Mkvs.Tree

/-!
# SyncGet

`tree.SyncGet` of `lookup.go`, what a node answers a remote `Get` with: the lookup of the key
from the tree's root with a proof builder that includes every node the lookup visits, and
the proof built from them. The client verifies the proof against the root it asked for and
looks the key up in the partial tree the proof describes.
-/

namespace Orphiq.Mkvs

structure TreeID where
  root : Root
  position : Hash
  deriving Repr, DecidableEq

structure GetRequest where
  tree : TreeID
  key : Key
  includeSiblings : Bool
  proofVersion : UInt16
  deriving Repr, DecidableEq

/-- `syncer.ErrInvalidRoot`, `syncer.ErrDirtyRoot` and `syncer.ErrUnsupportedProofVersion`. -/
inductive SyncError where
  | invalidRoot
  | dirtyRoot
  | unsupportedProofVersion
  deriving DecidableEq, Repr

namespace Tree

/-- `tree.SyncGet` on a tree that is not closed; `none` where the lookup or `Include` panics or
a node is not in memory. -/
def syncGet (t : Tree) (request : GetRequest) : Option (Except SyncError Proof) :=
  if request.tree.root ≠ t.syncRoot then some (.error .invalidRoot)
  else if !t.pendingRoot.isClean then some (.error .dirtyRoot)
  else
    match newProofBuilderForVersion request.tree.root.hash request.tree.position request.proofVersion with
    | none => some (.error .unsupportedProofVersion)
    | some pb => do
      let (_, pb) ← doGet request.key t.pendingRoot 0 ⟨some pb, request.includeSiblings⟩ false
      let proof ← pb.bind ProofBuilder.build
      pure (.ok proof)

end Tree

end Orphiq.Mkvs

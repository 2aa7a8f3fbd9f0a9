import OrphiqCore.Mkvs.Trie

/-!
# Commit

`doCommit` of `commit.go`, as the tree is once the batch has committed and its on-commit
hooks have run: every dirty node gets the hash `UpdateHash` computes from its fields and
the hashes of its children, and is clean. A clean pointer is not visited; its cached hash
is used as it is.

The hash a node should have, `Node.hashOf`, is computed from the whole subtree. A tree is
`Coherent` when every clean node caches that hash; then `doCommit` returns the hash of the
tree. `hashOf` reads only the shape of the tree, so by `Canonical.erase_eq` the root hash
of a canonical trie depends only on its contents.
-/

namespace Orphiq.Mkvs

open Node

section Hashing

variable (digest : List UInt8 → Hash)

/-- `doCommit` followed by the batch's on-commit hooks: the root hash and the committed
subtree. -/
def doCommit : Node → Hash × Node
  | .nil => (Hash.empty, .nil)
  | .hashed hash => (hash, .hashed hash)
  | .internal clean hash label labelBitLength leafNode left right =>
    if clean then (hash, .internal clean hash label labelBitLength leafNode left right)
    else
      -- The leaf node is committed at the depth of the internal node.
      let (leafHash, leafNode) := doCommit leafNode
      let (leftHash, left) := doCommit left
      let (rightHash, right) := doCommit right
      let hash := internalNodeHash digest label labelBitLength leafHash leftHash rightHash
      (hash, .internal true hash label labelBitLength leafNode left right)
  | .leaf clean hash key value =>
    if clean then (hash, .leaf clean hash key value)
    else
      let hash := leafNodeHash digest key value
      (hash, .leaf true hash key value)

/-- The hash of a subtree, computed from all of it. -/
def Node.hashOf : Node → Hash
  | nil => Hash.empty
  | hashed hash => hash
  | internal _ _ label labelBitLength leafNode left right =>
    internalNodeHash digest label labelBitLength leafNode.hashOf left.hashOf right.hashOf
  | leaf _ _ key value => leafNodeHash digest key value

/-- Every clean node of the subtree caches its hash. -/
def Coherent (n : Node) : Prop :=
  ∀ m ∈ n.subtrees, m.isClean = true → m.getHash = m.hashOf digest

variable {digest}

theorem hashOf_erase (n : Node) : n.erase.hashOf digest = n.hashOf digest := by
  induction n with
  | internal c hash label l leafNode left right ihLeaf ihLeft ihRight =>
    simp only [erase, hashOf, ihLeaf, ihLeft, ihRight]
  | _ => rfl

theorem contents_erase (n : Node) : n.erase.contents = n.contents := by
  induction n with
  | internal c hash label l leafNode left right ihLeaf ihLeft ihRight =>
    funext q
    simp only [erase, contents_internal, ihLeaf, ihLeft, ihRight]
  | _ => rfl

theorem present_erase (n : Node) : n.erase.present = n.present := by
  cases n <;> rfl

theorem leafSlot_erase_iff {path : List Bool} (n : Node) : LeafSlot path n.erase ↔ LeafSlot path n := by
  cases n <;> rfl

theorem canonical_erase_iff {path : List Bool} (n : Node) : n.erase.Canonical path ↔ n.Canonical path := by
  induction n generalizing path with
  | internal c hash label l leafNode left right _ ihLeft ihRight =>
    simp only [erase, Canonical, Below, contents_erase, present_erase, leafSlot_erase_iff, ihLeft, ihRight]
  | _ => rfl

theorem Canonical.of_erase_eq {path : List Bool} {n m : Node} (same : m.erase = n.erase) (h : n.Canonical path) :
    m.Canonical path := by
  rw [← canonical_erase_iff, same, canonical_erase_iff]
  exact h

theorem hashOf_eq_of_erase_eq {n m : Node} (same : m.erase = n.erase) : m.hashOf digest = n.hashOf digest := by
  rw [← hashOf_erase, same, hashOf_erase]

theorem contents_eq_of_erase_eq {n m : Node} (same : m.erase = n.erase) : m.contents = n.contents := by
  rw [← contents_erase, same, contents_erase]

/-- Canonical tries of one map have one hash. -/
theorem Node.Canonical.hashOf_eq {path : List Bool} {n m : Node} (hn : n.Canonical path) (hm : m.Canonical path)
    (same : n.contents = m.contents) : n.hashOf digest = m.hashOf digest :=
  hashOf_eq_of_erase_eq (hn.erase_eq hm same)

theorem Coherent.internal {c : Bool} {hash : Hash} {label : Key} {l : Depth} {a b d : Node}
    (h : Coherent digest (.internal c hash label l a b d)) :
    Coherent digest a ∧ Coherent digest b ∧ Coherent digest d :=
  ⟨fun m mem => h m (mem_subtrees_internal c hash label l (Or.inl mem)),
    fun m mem => h m (mem_subtrees_internal c hash label l (Or.inr (Or.inl mem))),
    fun m mem => h m (mem_subtrees_internal c hash label l (Or.inr (Or.inr mem)))⟩

theorem Coherent.of_kept {n n' : Node} (h : Coherent digest n)
    (kept : ∀ m ∈ n'.subtrees, m.isClean = true → m ∈ n.subtrees) : Coherent digest n' :=
  fun m mem clean => h m (kept m mem clean) clean

/-- Committing a coherent subtree returns its hash, keeps its shape, and leaves every node it
hashed clean with the hash it computed. -/
theorem doCommit_spec {n : Node} (h : Coherent digest n) :
    (doCommit digest n).1 = n.hashOf digest ∧ (doCommit digest n).2.erase = n.erase ∧
      Coherent digest (doCommit digest n).2 := by
  induction n with
  | nil => exact ⟨rfl, rfl, fun m mem => by simp [doCommit] at mem⟩
  | hashed hash => exact ⟨rfl, rfl, fun m mem => by simp [doCommit, subtrees] at mem⟩
  | leaf c hash key value =>
    cases c with
    | true => exact ⟨h (.leaf true hash key value) (by simp [subtrees]) rfl, rfl, h⟩
    | false =>
      refine ⟨rfl, rfl, fun m mem _ => ?_⟩
      simp only [doCommit, Bool.false_eq_true, if_false, subtrees, List.mem_singleton] at mem
      subst mem
      rfl
  | internal c hash label l a b d ihA ihB ihD =>
    cases c with
    | true => exact ⟨h (.internal true hash label l a b d) (by simp [subtrees]) rfl, rfl, h⟩
    | false =>
      -- The children are committed first; the node is hashed from their hashes.
      obtain ⟨ca, cb, cd⟩ := h.internal
      obtain ⟨hashA, shapeA, coherentA⟩ := ihA ca
      obtain ⟨hashB, shapeB, coherentB⟩ := ihB cb
      obtain ⟨hashD, shapeD, coherentD⟩ := ihD cd
      simp only [doCommit, Bool.false_eq_true, if_false, hashA, hashB, hashD]
      refine ⟨rfl, by simp [erase, shapeA, shapeB, shapeD], fun m mem clean => ?_⟩
      simp only [subtrees, List.mem_cons, List.mem_append] at mem
      rcases mem with rfl | (inA | inB) | inD
      · simp only [getHash, hashOf, hashOf_eq_of_erase_eq shapeA, hashOf_eq_of_erase_eq shapeB,
          hashOf_eq_of_erase_eq shapeD]
      · exact coherentA m inA clean
      · exact coherentB m inB clean
      · exact coherentD m inD clean

end Hashing

end Orphiq.Mkvs

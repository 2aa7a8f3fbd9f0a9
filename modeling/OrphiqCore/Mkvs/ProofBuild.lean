import OrphiqCore.Mkvs.ProofSpec

/-!
# Building a proof, and verifying it

`ProofBuilder.Build` writes the nodes a builder included in pre-order from a root hash, and
the hashes of the subtrees it did not include. For a builder whose nodes are nodes of a tree
as the node database stores it (`Faithful`), the verifier accepts what `Build` writes for the
tree's hash and rebuilds the tree with every subtree that was not included replaced by its
hash (`Reveals`), unless the digest maps two of the tree's hash inputs, or one of them and
the empty input, to one hash (`build_verify`).
-/

namespace Orphiq.Mkvs
open Node

section Lookup

variable {α β : Type} [BEq α] [LawfulBEq α] {l : List (α × β)} {a : α}

theorem isSome_lookup_iff : (l.lookup a).isSome ↔ a ∈ l.map Prod.fst := by
  simp [List.lookup_isSome_iff, List.mem_map]

theorem mem_of_lookup_eq_some {b : β} (found : l.lookup a = some b) : (a, b) ∈ l := by
  obtain ⟨l₁, l₂, rfl, -⟩ := List.lookup_eq_some_iff.mp found
  simp

end Lookup

/-- What `Include` records for a node in a builder of version `v`: its compact form and, for an
internal node, the hashes of its children. -/
def Node.proofNode (v : UInt16) (n : Node) : Option ProofNode := do
  let serialized ← if v = 0 then n.compactMarshalBinaryV0 else if v = 1 then n.compactMarshalBinaryV1 else none
  pure ⟨serialized, match n with
    | .internal _ _ _ _ leafNode left right =>
      (if v = 0 then [left, right] else [leafNode, left, right]).map Node.getHash
    | _ => []⟩

theorem version_cases {v : UInt16} (version : v ≤ 1) : v = 0 ∨ v = 1 := by grind

theorem Node.proofNode_leaf (c : Bool) (h : Hash) (key : Key) (value : Value) {v : UInt16} (version : v ≤ 1) :
    (Node.leaf c h key value).proofNode v = some ⟨leafNodeMarshalBinary key value, []⟩ := by
  rcases version_cases version with rfl | rfl <;> rfl

def ProofBuilder.keys (b : ProofBuilder) : List Hash := b.included.map Prod.fst

theorem ProofBuilder.includeNode_eq {b : ProofBuilder} {n : Node} (clean : n.isClean = true)
    (resident : n ≠ .nil ∧ ∀ h, n ≠ .hashed h) :
    b.includeNode n = if n.getHash ∈ b.keys then some b
      else (n.proofNode b.proofVersion).map fun pn =>
        { b with included := (n.getHash, pn) :: b.included, size := b.size + 1 + pn.serialized.length.toUInt64 } := by
  obtain ⟨notNil, notHashed⟩ := resident
  have body : b.includeNode n = if (b.included.lookup n.getHash).isSome then some b
      else (n.proofNode b.proofVersion).map fun pn =>
        { b with included := (n.getHash, pn) :: b.included, size := b.size + 1 + pn.serialized.length.toUInt64 } := by
    cases n with
    | nil => exact absurd rfl notNil
    | hashed h => exact absurd rfl (notHashed h)
    | leaf | internal =>
      simp only [includeNode, clean, proofNode, Bool.not_true, Bool.false_eq_true, if_false]
      split_ifs <;> simp [Option.map_eq_bind, Option.bind_assoc]
  rw [body]
  by_cases mem : n.getHash ∈ b.keys
  · rw [if_pos (isSome_lookup_iff.mpr mem), if_pos mem]
  · rw [if_neg (mt isSome_lookup_iff.mp mem), if_neg mem]

variable (digest : List UInt8 → Hash)

/-- A node as the node database stores it: wholly in memory, clean, with the hashes computed
from what it holds, labels of the bytes their bit lengths need, a leaf or nothing in every leaf
node slot, and keys and values their length fields can describe. -/
def Node.Stored (n : Node) : Prop := n.Decoded digest 0 ∧ n.Full

/-- A builder of version `v` that included only nodes of `t`, as `Include` records them. -/
structure Faithful (v : UInt16) (t : Node) (b : ProofBuilder) : Prop where
  version : b.proofVersion = v
  nodes : ∀ e ∈ b.included, ∃ n ∈ t.subtrees, e.1 = n.hashOf digest ∧ n.proofNode v = some e.2

/-- What the verifier rebuilds of a node from a proof of version `v` whose full entries are the
nodes with hashes in `keys`: those nodes, and the hashes of the others. In version 0 a leaf node
travels inside its internal node. -/
def Node.reveal (v : UInt16) (keys : List Hash) : Node → Node
  | .nil => .nil
  | .hashed h => .hashed h
  | .leaf _ _ key value =>
    if leafNodeHash digest key value ∈ keys then .leaf true (leafNodeHash digest key value) key value
    else .hashed (leafNodeHash digest key value)
  | .internal c h label l leafNode left right =>
    if (Node.internal c h label l leafNode left right).hashOf digest ∈ keys then
      let leafNode' := if v = 0 then leafNode else leafNode.reveal v keys
      .internal true (internalNodeHash digest label l leafNode'.getHash (left.reveal v keys).getHash
        (right.reveal v keys).getHash) label l leafNode' (left.reveal v keys) (right.reveal v keys)
    else .hashed ((Node.internal c h label l leafNode left right).hashOf digest)

/-- The verifier reads the entries `E` of a proof of version `v` as the node `r`, wherever they
stand in the proof, given fuel for each entry. -/
def Verifies (v : UInt16) (E : List ProofEntry) (r : Node) : Prop :=
  ∀ (proof : Proof) (pre rest : List ProofEntry) (wl : Bool) (log : WriteLog) (fuel : Nat),
    proof.v = v → proof.entries = pre ++ E ++ rest → E.length ≤ fuel →
    ∃ log', verifyProof digest proof wl fuel pre.length log = some (pre.length + E.length, r, log')

/-! ### Nodes of a stored tree -/

section Stored

variable {digest}

theorem Node.Stored.internal {c : Bool} {h : Hash} {label : Key} {l : Depth} {leafNode left right : Node}
    (stored : (Node.internal c h label l leafNode left right).Stored digest) :
    leafNode.Stored digest ∧ left.Stored digest ∧ right.Stored digest := by
  obtain ⟨⟨-, -, -, -, leafDecoded, leftDecoded, rightDecoded⟩, -, leafFull, leftFull, rightFull⟩ := stored
  exact ⟨⟨leafDecoded, leafFull⟩, ⟨leftDecoded, leftFull⟩, ⟨rightDecoded, rightFull⟩⟩

theorem Node.Stored.getHash_eq {n : Node} (stored : n.Stored digest) : n.getHash = n.hashOf digest :=
  stored.1.getHash_eq digest

theorem Node.Stored.of_mem {t m : Node} (stored : t.Stored digest) (mem : m ∈ t.subtrees) : m.Stored digest := by
  induction t with
  | nil => simp at mem
  | hashed => simp [subtrees] at mem
  | leaf => simp only [subtrees, List.mem_singleton] at mem; exact mem ▸ stored
  | internal c h label l leafNode left right ihLeaf ihLeft ihRight =>
    obtain ⟨leafStored, leftStored, rightStored⟩ := stored.internal
    simp only [subtrees, List.mem_cons, List.mem_append] at mem
    rcases mem with rfl | (inLeaf | inLeft) | inRight
    · exact stored
    · exact ihLeaf leafStored inLeaf
    · exact ihLeft leftStored inLeft
    · exact ihRight rightStored inRight

theorem Node.Stored.eq_of_prunes {r t : Node} (prunes : Prunes digest r t) :
    r.Stored digest → t.Stored digest → r = t := by
  induction prunes with
  | hashed => exact fun stored _ => stored.2.elim
  | nil => exact fun _ _ => rfl
  | leaf c c' h h' key value =>
    rintro ⟨⟨rfl, rfl, -⟩, -⟩ ⟨⟨rfl, rfl, -⟩, -⟩
    rfl
  | internal c c' h h' label l _ _ _ ihLeaf ihLeft ihRight =>
    intro stored stored'
    obtain ⟨leafStored, leftStored, rightStored⟩ := stored.internal
    obtain ⟨leafStored', leftStored', rightStored'⟩ := stored'.internal
    obtain ⟨⟨rfl, rfl, -⟩, -⟩ := stored
    obtain ⟨⟨rfl, rfl, -⟩, -⟩ := stored'
    rw [ihLeaf leafStored leafStored', ihLeft leftStored leftStored', ihRight rightStored rightStored']

theorem Node.Stored.encodableLeaf {c : Bool} {h : Hash} {label : Key} {l : Depth} {leafNode left right : Node}
    (stored : (Node.internal c h label l leafNode left right).Stored digest) : leafNode.EncodableLeaf digest := by
  obtain ⟨⟨-, -, -, leafOrNil, leafDecoded, -, -⟩, -⟩ := stored
  cases leafNode with
  | nil => trivial
  | leaf => exact leafDecoded
  | hashed | internal => simp [isLeafOrNil] at leafOrNil

theorem Node.Stored.proofNode_internal {c : Bool} {h : Hash} {label : Key} {l : Depth} {leafNode left right : Node}
    (stored : (Node.internal c h label l leafNode left right).Stored digest) {v : UInt16} (version : v ≤ 1) :
    ∃ bytes, (Node.internal c h label l leafNode left right).proofNode v =
        some ⟨bytes, (if v = 0 then [left, right] else [leafNode, left, right]).map Node.getHash⟩ ∧
      unmarshalBinary digest bytes =
        some (.internal true Hash.zero label l (if v = 0 then leafNode else .nil) .nil .nil) := by
  obtain ⟨⟨bytes₀, written₀, read₀⟩, bytes₁, written₁, read₁⟩ :=
    InternalNode.sizedUnmarshalBinary_compactMarshalBinary digest stored.2.1 stored.encodableLeaf c h left right
  rcases version_cases version with rfl | rfl
  · exact ⟨bytes₀, by simp [proofNode, written₀], unmarshalBinary_of_internal digest read₀⟩
  · exact ⟨bytes₁, by simp [proofNode, written₁], unmarshalBinary_of_internal digest read₁⟩

theorem Node.Stored.reveal_prunes {m : Node} (stored : m.Stored digest) (v : UInt16) (keys : List Hash) :
    Prunes digest (m.reveal digest v keys) m := by
  induction m with
  | nil => exact .nil
  | hashed => exact stored.2.elim
  | leaf c h key value =>
    simp only [reveal]
    split_ifs
    · exact .leaf true c _ h key value
    · exact .hashed (.leaf c h key value)
  | internal c h label l leafNode left right ihLeaf ihLeft ihRight =>
    obtain ⟨leafStored, leftStored, rightStored⟩ := stored.internal
    have leafPrunes : Prunes digest (if v = 0 then leafNode else leafNode.reveal digest v keys) leafNode := by
      split_ifs
      · exact Prunes.refl digest leafNode
      · exact ihLeaf leafStored
    by_cases included : (Node.internal c h label l leafNode left right).hashOf digest ∈ keys
    · rw [reveal, if_pos included]
      exact .internal true c _ h label l leafPrunes (ihLeft leftStored) (ihRight rightStored)
    · rw [reveal, if_neg included]
      exact .hashed _

theorem Node.Stored.reveal_getHash {m : Node} (stored : m.Stored digest) (v : UInt16) (keys : List Hash) :
    (m.reveal digest v keys).getHash = m.hashOf digest := by
  induction m with
  | nil => rfl
  | hashed => exact stored.2.elim
  | leaf => simp only [reveal]; split_ifs <;> rfl
  | internal c h label l leafNode left right ihLeaf ihLeft ihRight =>
    obtain ⟨leafStored, leftStored, rightStored⟩ := stored.internal
    have leafHash : (if v = 0 then leafNode else leafNode.reveal digest v keys).getHash = leafNode.hashOf digest := by
      split_ifs
      · exact leafStored.getHash_eq
      · exact ihLeaf leafStored
    by_cases included : (Node.internal c h label l leafNode left right).hashOf digest ∈ keys
    · rw [reveal, if_pos included]
      show internalNodeHash digest label l _ _ _ = internalNodeHash digest label l _ _ _
      rw [leafHash, ihLeft leftStored, ihRight rightStored]
    · rw [reveal, if_neg included]
      rfl

end Stored

section Subtrees

theorem hashInputs_subset_of_mem {t m : Node} (mem : m ∈ t.subtrees) : m.hashInputs digest ⊆ t.hashInputs digest := by
  induction t with
  | nil => simp at mem
  | hashed => simp [subtrees] at mem
  | leaf => simp only [subtrees, List.mem_singleton] at mem; exact mem ▸ subset_rfl
  | internal c h label l leafNode left right ihLeaf ihLeft ihRight =>
    simp only [subtrees, List.mem_cons, List.mem_append] at mem
    rcases mem with rfl | (inLeaf | inLeft) | inRight
    · exact subset_rfl
    · exact (ihLeaf inLeaf).trans (hashInputs_leafNode_subset ..)
    · exact (ihLeft inLeft).trans (hashInputs_left_subset ..)
    · exact (ihRight inRight).trans (hashInputs_right_subset ..)

theorem subtrees_sublist {t m : Node} (mem : m ∈ t.subtrees) : List.Sublist m.subtrees t.subtrees := by
  induction t with
  | nil => simp at mem
  | hashed => simp [subtrees] at mem
  | leaf => simp only [subtrees, List.mem_singleton] at mem; exact mem ▸ List.Sublist.refl _
  | internal c h label l leafNode left right ihLeaf ihLeft ihRight =>
    simp only [subtrees, List.mem_cons, List.mem_append] at mem
    rcases mem with rfl | (inLeaf | inLeft) | inRight
    · exact List.Sublist.refl _
    · exact ((ihLeaf inLeaf).trans (List.sublist_append_left _ _)).trans
        ((List.sublist_append_left _ _).trans (List.sublist_cons_self _ _))
    · exact ((ihLeft inLeft).trans (List.sublist_append_right _ _)).trans
        ((List.sublist_append_left _ _).trans (List.sublist_cons_self _ _))
    · exact ((ihRight inRight).trans (List.sublist_append_right _ _)).trans (List.sublist_cons_self _ _)

theorem mem_subtrees_self_internal (c : Bool) (h : Hash) (label : Key) (l : Depth) (leafNode left right : Node) :
    Node.internal c h label l leafNode left right ∈ (Node.internal c h label l leafNode left right).subtrees := by
  simp [subtrees]

theorem not_nil_mem_subtrees (t : Node) : Node.nil ∉ t.subtrees := by
  induction t with
  | nil | hashed | leaf => simp [subtrees]
  | internal c h label l leafNode left right ihLeaf ihLeft ihRight =>
    simp [subtrees, ihLeaf, ihLeft, ihRight]

theorem not_hashed_mem_subtrees (t : Node) (h : Hash) : Node.hashed h ∉ t.subtrees := by
  induction t with
  | nil | hashed | leaf => simp [subtrees]
  | internal c h' label l leafNode left right ihLeaf ihLeft ihRight =>
    simp [subtrees, ihLeaf, ihLeft, ihRight]

theorem mem_subtrees_self {t m : Node} (mem : m ∈ t.subtrees) : m ∈ m.subtrees := by
  cases m with
  | nil => exact absurd mem (not_nil_mem_subtrees t)
  | hashed h => exact absurd mem (not_hashed_mem_subtrees t h)
  | leaf | internal => simp [subtrees]

theorem root_mem_subtrees {t m : Node} (mem : m ∈ t.subtrees) : t ∈ t.subtrees := by
  cases t with
  | nil | hashed => simp [subtrees] at mem
  | leaf | internal => simp [subtrees]

end Subtrees

section Distinct

variable {digest} (size : ∀ m, (digest m).length = hashSize) (empty : digest [] = Hash.empty)
  {t : Node} (stored : t.Stored digest) (free : Set.InjOn digest (insert [] (t.hashInputs digest)))
include size empty stored free

theorem eq_of_hashOf_eq {m n : Node} (hm : m ∈ t.subtrees) (hn : n ∈ t.subtrees)
    (same : m.hashOf digest = n.hashOf digest) : m = n := by
  have within : Set.InjOn digest (insert [] (m.hashInputs digest ∪ n.hashInputs digest)) :=
    free.mono (Set.insert_subset_insert
      (Set.union_subset (hashInputs_subset_of_mem digest hm) (hashInputs_subset_of_mem digest hn)))
  have mStored := stored.of_mem hm
  exact Node.Stored.eq_of_prunes (prunes_of_hashOf_eq size empty mStored.2.sized
    (stored.of_mem hn).2 within same) mStored (stored.of_mem hn)

omit size in
theorem hashOf_ne_empty {m : Node} (hm : m ∈ t.subtrees) : m.hashOf digest ≠ Hash.empty := by
  intro isEmpty
  have nil := eq_nil_of_hashOf_eq_empty empty (stored.of_mem hm).2
    (free.mono (Set.insert_subset_insert (hashInputs_subset_of_mem digest hm))) isEmpty
  exact not_nil_mem_subtrees t (nil ▸ hm)

end Distinct

/-! ### Reading entries back -/

section Reading

theorem Verifies.nil (v : UInt16) : Verifies digest v [none] .nil := by
  intro proof pre rest wl log fuel _ entries enough
  cases fuel with
  | zero => simp at enough
  | succ fuel => exact ⟨log, by simp [verifyProof, entries]⟩

theorem Verifies.hash (v : UInt16) {h : Hash} (sized : h.length = hashSize) :
    Verifies digest v [some (proofEntryHash :: h)] (.hashed h) := by
  intro proof pre rest wl log fuel _ entries enough
  cases fuel with
  | zero => simp at enough
  | succ fuel =>
    exact ⟨log, by simp [verifyProof, entries, hashUnmarshalBinary, sized, proofEntryHash, proofEntryFull]⟩

theorem Verifies.leaf (v : UInt16) {body : List UInt8} {c : Bool} {h : Hash} {key : Key} {value : Value}
    (read : unmarshalBinary digest body = some (.leaf c h key value)) :
    Verifies digest v [some (proofEntryFull :: body)] (.leaf c h key value) := by
  intro proof pre rest wl log fuel _ entries enough
  cases fuel with
  | zero => simp at enough
  | succ fuel =>
    exact ⟨if wl then addLeafToWriteLog log (.leaf c h key value) else log, by simp [verifyProof, entries, read]⟩

theorem Verifies.internal₀ {body : List UInt8} {c : Bool} {h : Hash} {label : Key} {l : Depth}
    {leafNode x y : Node} (read : unmarshalBinary digest body = some (.internal c h label l leafNode x y))
    {EL ER : List ProofEntry} {left right : Node} (leftRead : Verifies digest 0 EL left)
    (rightRead : Verifies digest 0 ER right) :
    Verifies digest 0 (some (proofEntryFull :: body) :: (EL ++ ER))
      (.internal true (internalNodeHash digest label l leafNode.getHash left.getHash right.getHash)
        label l leafNode left right) := by
  intro proof pre rest wl log fuel version entries enough
  cases fuel with
  | zero => simp at enough
  | succ fuel =>
    simp only [List.length_cons, List.length_append] at enough
    obtain ⟨log₁, leftOk⟩ := leftRead proof (pre ++ [some (proofEntryFull :: body)]) (ER ++ rest) wl
      (if wl then addLeafToWriteLog log leafNode else log) fuel version (by simp [entries]) (by omega)
    obtain ⟨log₂, rightOk⟩ := rightRead proof (pre ++ [some (proofEntryFull :: body)] ++ EL) rest wl log₁ fuel
      version (by simp [entries]) (by omega)
    simp only [List.length_append, List.length_singleton] at leftOk rightOk
    refine ⟨log₂, ?_⟩
    simp [verifyProof, entries, read, version, leftOk, rightOk]
    omega

theorem Verifies.internal₁ {body : List UInt8} {c : Bool} {h : Hash} {label : Key} {l : Depth}
    {n x y : Node} (read : unmarshalBinary digest body = some (.internal c h label l n x y))
    {EN EL ER : List ProofEntry} {leafNode left right : Node} (leafRead : Verifies digest 1 EN leafNode)
    (leftRead : Verifies digest 1 EL left) (rightRead : Verifies digest 1 ER right) :
    Verifies digest 1 (some (proofEntryFull :: body) :: (EN ++ EL ++ ER))
      (.internal true (internalNodeHash digest label l leafNode.getHash left.getHash right.getHash)
        label l leafNode left right) := by
  intro proof pre rest wl log fuel version entries enough
  cases fuel with
  | zero => simp at enough
  | succ fuel =>
    simp only [List.length_cons, List.length_append] at enough
    obtain ⟨log₁, leafOk⟩ := leafRead proof (pre ++ [some (proofEntryFull :: body)]) (EL ++ ER ++ rest) wl log
      fuel version (by simp [entries]) (by omega)
    obtain ⟨log₂, leftOk⟩ := leftRead proof (pre ++ [some (proofEntryFull :: body)] ++ EN) (ER ++ rest) wl log₁
      fuel version (by simp [entries]) (by omega)
    obtain ⟨log₃, rightOk⟩ := rightRead proof (pre ++ [some (proofEntryFull :: body)] ++ EN ++ EL) rest wl log₂
      fuel version (by simp [entries]) (by omega)
    simp only [List.length_append, List.length_singleton] at leafOk leftOk rightOk
    refine ⟨log₃, ?_⟩
    simp [verifyProof, entries, read, version, leafOk, leftOk, rightOk]
    omega

/-- Entries the verifier reads as a node with the root hash make a proof it accepts for that
root, with the node's leaves in pre-order as the write log when one is asked for. -/
theorem verifyProofOpts_of_verifies {v : UInt16} (version : v ≤ 1) {E : List ProofEntry} {r : Node}
    (verifies : Verifies digest v E r) (nonempty : E ≠ []) {root : Hash} (rooted : r.getHash = root)
    (emptyNil : root = Hash.empty → r = .nil) (wl : Bool) :
    verifyProofOpts digest root ⟨v, root, E⟩ wl = some ⟨r, if wl then r.leafEntries else []⟩ := by
  obtain ⟨log, ok⟩ := verifies ⟨v, root, E⟩ [] [] wl [] (E.length + 1) rfl (by simp) (by omega)
  have logged := (verifyProof_spec digest ok).2.2.2
  have notNewer : ¬ v > latestProofVersion := by simpa [latestProofVersion] using version
  simp only [List.length_nil, Nat.zero_add, List.nil_append] at ok logged
  rw [logged] at ok
  have rootPtr : (if root = Hash.empty then Node.nil else r) = r := by
    split_ifs with isEmpty
    · exact (emptyNil isEmpty).symm
    · rfl
  simp [verifyProofOpts, notNewer, nonempty, ok, rooted, rootPtr]

theorem verifyProof_of_verifies {v : UInt16} (version : v ≤ 1) {E : List ProofEntry} {r : Node}
    (verifies : Verifies digest v E r) (nonempty : E ≠ []) {root : Hash} (rooted : r.getHash = root)
    (emptyNil : root = Hash.empty → r = .nil) :
    ProofVerifier.verifyProof digest root ⟨v, root, E⟩ = some r := by
  simp [ProofVerifier.verifyProof, verifyProofOpts_of_verifies digest version verifies nonempty rooted emptyNil]

theorem verifyProofToWriteLog_of_verifies {v : UInt16} (version : v ≤ 1) {E : List ProofEntry} {r : Node}
    (verifies : Verifies digest v E r) (nonempty : E ≠ []) {root : Hash} (rooted : r.getHash = root)
    (emptyNil : root = Hash.empty → r = .nil) :
    ProofVerifier.verifyProofToWriteLog digest root ⟨v, root, E⟩ = some r.leafEntries := by
  simp [ProofVerifier.verifyProofToWriteLog,
    verifyProofOpts_of_verifies digest version verifies nonempty rooted emptyNil]

end Reading

theorem buildEntries_absent {included : List (Hash × ProofNode)} {fuel : Nat} {h : Hash} (nonempty : h ≠ Hash.empty)
    (absent : included.lookup h = none) : buildEntries included (fuel + 1) h = some [some (proofEntryHash :: h)] := by
  simp [buildEntries, nonempty, absent]

theorem buildEntries_found {included : List (Hash × ProofNode)} {fuel : Nat} {h : Hash} {pn : ProofNode}
    (nonempty : h ≠ Hash.empty) (found : included.lookup h = some pn) :
    buildEntries included (fuel + 1) h = (pn.children.mapM (buildEntries included fuel)).map fun children =>
      some (proofEntryFull :: pn.serialized) :: children.flatten := by
  simp [buildEntries, nonempty, found, Option.map_eq_bind]

theorem buildEntries_ne_nil {included : List (Hash × ProofNode)} {fuel : Nat} {h : Hash} {E : List ProofEntry}
    (built : buildEntries included fuel h = some E) : E ≠ [] := by
  cases fuel with
  | zero => simp [buildEntries] at built
  | succ fuel =>
    simp only [buildEntries] at built
    split_ifs at built
    · cases built
      simp
    · split at built
      · cases built
        simp
      · obtain ⟨_, -, built⟩ := Option.bind_eq_some_iff.mp built
        cases built
        simp

/-! ### How deep `build` recurses -/

/-- The most internal nodes with hashes in `keys` on a path down from a node: how deep `build`
recurses below it. -/
def Node.includedDepth (keys : List Hash) : Node → Nat
  | .internal c h label l leafNode left right =>
    if (Node.internal c h label l leafNode left right).hashOf digest ∈ keys then
      max (leafNode.includedDepth keys) (max (left.includedDepth keys) (right.includedDepth keys)) + 1
    else 0
  | _ => 0

def includedHashes (keys : List Hash) (m : Node) : Finset Hash :=
  ((m.subtrees.map (·.hashOf digest)).filter (· ∈ keys)).toFinset

theorem mem_includedHashes {keys : List Hash} {m : Node} {x : Hash} :
    x ∈ includedHashes digest keys m ↔ x ∈ keys ∧ ∃ d ∈ m.subtrees, d.hashOf digest = x := by
  simp [includedHashes, and_comm]

section Build

variable {digest} (size : ∀ m, (digest m).length = hashSize) (empty : digest [] = Hash.empty)
  {t : Node} (stored : t.Stored digest) (free : Set.InjOn digest (insert [] (t.hashInputs digest)))
include size empty stored free

theorem card_includedHashes_lt {keys : List Hash} {m x : Node} (hm : m ∈ t.subtrees)
    (included : m.hashOf digest ∈ keys) (child : ∀ d ∈ x.subtrees, d ∈ m.subtrees)
    (shorter : x.subtrees.length < m.subtrees.length) :
    (includedHashes digest keys x).card < (includedHashes digest keys m).card := by
  apply Finset.card_lt_card
  refine (Finset.ssubset_iff_of_subset fun y mem => ?_).mpr ⟨m.hashOf digest, ?_, fun mem => ?_⟩
  · obtain ⟨inKeys, d, below, rfl⟩ := (mem_includedHashes digest).mp mem
    exact (mem_includedHashes digest).mpr ⟨inKeys, d, child d below, rfl⟩
  · exact (mem_includedHashes digest).mpr ⟨included, m, mem_subtrees_self hm, rfl⟩
  · -- A node below the child with the node's hash would be the node, which is not below it.
    obtain ⟨-, d, below, same⟩ := (mem_includedHashes digest).mp mem
    obtain rfl := eq_of_hashOf_eq size empty stored free ((subtrees_sublist hm).subset (child d below)) hm same
    have longer := (subtrees_sublist below).length_le
    omega

theorem includedDepth_le_card {keys : List Hash} {m : Node} (within : ∀ d ∈ m.subtrees, d ∈ t.subtrees) :
    m.includedDepth digest keys ≤ (includedHashes digest keys m).card := by
  induction m with
  | nil | leaf | hashed => exact Nat.zero_le _
  | internal c h label l leafNode left right ihLeaf ihLeft ihRight =>
    unfold includedDepth
    split_ifs with included
    · have hm := within _ (mem_subtrees_self_internal ..)
      have count : (Node.internal c h label l leafNode left right).subtrees.length =
          leafNode.subtrees.length + left.subtrees.length + right.subtrees.length + 1 := by
        simp [subtrees]; omega
      have below {x : Node} (child : ∀ d ∈ x.subtrees, d ∈ (Node.internal c h label l leafNode left right).subtrees)
          (shorter : x.subtrees.length < (Node.internal c h label l leafNode left right).subtrees.length)
          (depth : x.includedDepth digest keys ≤ (includedHashes digest keys x).card) :
          x.includedDepth digest keys < (includedHashes digest keys (.internal c h label l leafNode left right)).card :=
        lt_of_le_of_lt depth (card_includedHashes_lt size empty stored free hm included child shorter)
      have leafBelow := below (fun d mem => mem_subtrees_internal c h label l (.inl mem))
        (by omega) (ihLeaf fun d mem => within d (mem_subtrees_internal c h label l (.inl mem)))
      have leftBelow := below (fun d mem => mem_subtrees_internal c h label l (.inr (.inl mem)))
        (by omega) (ihLeft fun d mem => within d (mem_subtrees_internal c h label l (.inr (.inl mem))))
      have rightBelow := below (fun d mem => mem_subtrees_internal c h label l (.inr (.inr mem)))
        (by omega) (ihRight fun d mem => within d (mem_subtrees_internal c h label l (.inr (.inr mem))))
      exact max_lt leafBelow (max_lt leftBelow rightBelow)
    · exact Nat.zero_le _

/-- The fuel `Build` gives `build` is enough for a builder that included only nodes of the tree. -/
theorem includedDepth_lt {b : ProofBuilder} {m : Node} (within : ∀ d ∈ m.subtrees, d ∈ t.subtrees) :
    m.includedDepth digest b.keys < b.included.length + 1 := by
  have depth : m.includedDepth digest b.keys ≤ (includedHashes digest b.keys m).card :=
    includedDepth_le_card size empty stored free within
  have bounded : includedHashes digest b.keys m ⊆ b.keys.toFinset := fun x mem =>
    List.mem_toFinset.mpr ((mem_includedHashes digest).mp mem).1
  have count := (Finset.card_le_card bounded).trans (List.toFinset_card_le b.keys)
  have length : b.keys.length = b.included.length := List.length_map _
  omega

/-! ### Building and verifying -/

theorem Faithful.lookup_eq {v : UInt16} {b : ProofBuilder} (faithful : Faithful digest v t b) {m : Node}
    (hm : m ∈ t.subtrees) (included : m.hashOf digest ∈ b.keys) : b.included.lookup (m.hashOf digest) = m.proofNode v := by
  obtain ⟨pn, found⟩ := Option.isSome_iff_exists.mp (isSome_lookup_iff.mpr included)
  obtain ⟨n, hn, same, recorded⟩ := faithful.nodes _ (mem_of_lookup_eq_some found)
  obtain rfl := eq_of_hashOf_eq size empty stored free hm hn same
  rw [found, recorded]

theorem buildEntries_hidden {v : UInt16} {b : ProofBuilder} {m : Node} (hm : m ∈ t.subtrees)
    (hidden : m.hashOf digest ∉ b.keys) (fuel : Nat) :
    buildEntries b.included (fuel + 1) (m.hashOf digest) = some [some (proofEntryHash :: m.hashOf digest)] ∧
      Verifies digest v [some (proofEntryHash :: m.hashOf digest)] (.hashed (m.hashOf digest)) :=
  ⟨buildEntries_absent (hashOf_ne_empty empty stored free hm)
      (Option.not_isSome_iff_eq_none.mp (mt isSome_lookup_iff.mp hidden)),
    Verifies.hash digest v (hashOf_length size (stored.of_mem hm).2.sized)⟩

/-- `build` writes, below the hash of a node of the tree, entries that the verifier reads as the
node with every subtree that was not included replaced by its hash. -/
theorem buildEntries_verify {v : UInt16} (version : v ≤ 1) {b : ProofBuilder} (faithful : Faithful digest v t b)
    {m : Node} (mStored : m.Stored digest) (within : ∀ d ∈ m.subtrees, d ∈ t.subtrees) {fuel : Nat}
    (enough : m.includedDepth digest b.keys < fuel) :
    ∃ E, buildEntries b.included fuel (m.hashOf digest) = some E ∧ Verifies digest v E (m.reveal digest v b.keys) := by
  induction m generalizing fuel with
  | nil =>
    obtain ⟨fuel, rfl⟩ := Nat.exists_eq_succ_of_ne_zero (Nat.ne_zero_of_lt enough)
    exact ⟨[none], by simp [buildEntries, hashOf], Verifies.nil digest v⟩
  | hashed => exact mStored.2.elim
  | leaf c h key value =>
    obtain ⟨fuel, rfl⟩ := Nat.exists_eq_succ_of_ne_zero (Nat.ne_zero_of_lt enough)
    have hm := within (.leaf c h key value) (by simp [subtrees])
    by_cases included : leafNodeHash digest key value ∈ b.keys
    · obtain ⟨⟨-, -, short, small⟩, -⟩ := mStored
      have found := (faithful.lookup_eq size empty stored free hm included).trans (proofNode_leaf c h key value version)
      refine ⟨[some (proofEntryFull :: leafNodeMarshalBinary key value)], ?_, ?_⟩
      · rw [buildEntries_found (hashOf_ne_empty empty stored free hm) found]
        rfl
      · rw [reveal, if_pos included]
        exact Verifies.leaf digest v (unmarshalBinary_leafNodeMarshalBinary digest key value short small)
    · rw [reveal, if_neg included]
      exact ⟨_, buildEntries_hidden size empty stored free hm included fuel⟩
  | internal c h label l leafNode left right ihLeaf ihLeft ihRight =>
    obtain ⟨fuel, rfl⟩ := Nat.exists_eq_succ_of_ne_zero (Nat.ne_zero_of_lt enough)
    have hm := within _ (mem_subtrees_self_internal ..)
    by_cases included : (Node.internal c h label l leafNode left right).hashOf digest ∈ b.keys
    · have nonempty := hashOf_ne_empty empty stored free hm
      obtain ⟨bytes, written, read⟩ := mStored.proofNode_internal version
      have found := (faithful.lookup_eq size empty stored free hm included).trans written
      obtain ⟨leafStored, leftStored, rightStored⟩ := mStored.internal
      simp only [includedDepth, if_pos included] at enough
      -- Each child is built and read back with one unit of fuel less.
      obtain ⟨EL, leftBuilt, leftRead⟩ := ihLeft leftStored
        (fun d mem => within d (mem_subtrees_internal c h label l (.inr (.inl mem))))
        (show left.includedDepth digest b.keys < fuel by omega)
      obtain ⟨ER, rightBuilt, rightRead⟩ := ihRight rightStored
        (fun d mem => within d (mem_subtrees_internal c h label l (.inr (.inr mem))))
        (show right.includedDepth digest b.keys < fuel by omega)
      rcases version_cases version with rfl | rfl
      · refine ⟨some (proofEntryFull :: bytes) :: (EL ++ ER), ?_, ?_⟩
        · rw [buildEntries_found nonempty found]
          simp [leftStored.getHash_eq, rightStored.getHash_eq, leftBuilt, rightBuilt]
        · rw [reveal, if_pos included]
          exact Verifies.internal₀ digest read leftRead rightRead
      · obtain ⟨EN, leafBuilt, leafRead⟩ := ihLeaf leafStored
          (fun d mem => within d (mem_subtrees_internal c h label l (.inl mem)))
          (show leafNode.includedDepth digest b.keys < fuel by omega)
        refine ⟨some (proofEntryFull :: bytes) :: (EN ++ EL ++ ER), ?_, ?_⟩
        · rw [buildEntries_found nonempty found]
          simp [leafStored.getHash_eq, leftStored.getHash_eq, rightStored.getHash_eq, leafBuilt, leftBuilt, rightBuilt]
        · rw [reveal, if_pos included]
          exact Verifies.internal₁ digest read leafRead leftRead rightRead
    · rw [reveal, if_neg included]
      exact ⟨_, buildEntries_hidden size empty stored free hm included fuel⟩

/-- What `Build` writes from a builder that included only nodes of a stored tree is a proof that
the verifier accepts for the hash the proof names as its root: the tree's root, or the subtree
root if the builder included it. The verifier rebuilds the tree below that hash with every node
that was not included replaced by its hash. -/
theorem build_verify {v : UInt16} (version : v ≤ 1) {b : ProofBuilder} (faithful : Faithful digest v t b)
    (rooted : b.root = t.hashOf digest) :
    ∃ proof m, b.build = some proof ∧ (m = t ∨ m ∈ t.subtrees) ∧ proof.untrustedRoot = m.hashOf digest ∧
      (proof.untrustedRoot = b.root ∨ proof.untrustedRoot = b.subtree) ∧
      ProofVerifier.verifyProof digest proof.untrustedRoot proof = some (m.reveal digest v b.keys) ∧
      ProofVerifier.verifyProofToWriteLog digest proof.untrustedRoot proof =
        some (m.reveal digest v b.keys).leafEntries := by
  -- The proof starts from the subtree root if that was included, and from the root if not.
  obtain ⟨m, hm, claimed, named⟩ : ∃ m, (m = t ∨ m ∈ t.subtrees) ∧
      (if b.hasSubtreeRoot then b.subtree else b.root) = m.hashOf digest ∧
      (m.hashOf digest = b.root ∨ m.hashOf digest = b.subtree) := by
    split_ifs with found
    · obtain ⟨pn, found⟩ := Option.isSome_iff_exists.mp found
      obtain ⟨n, hn, same, -⟩ := faithful.nodes _ (mem_of_lookup_eq_some found)
      exact ⟨n, .inr hn, same, .inr same.symm⟩
    · exact ⟨t, .inl rfl, rooted, .inl rooted.symm⟩
  have within : ∀ d ∈ m.subtrees, d ∈ t.subtrees := by
    rcases hm with rfl | hm
    · exact fun _ mem => mem
    · exact (subtrees_sublist hm).subset
  have mStored : m.Stored digest := by
    rcases hm with rfl | hm
    · exact stored
    · exact stored.of_mem hm
  obtain ⟨E, built, verifies⟩ := buildEntries_verify size empty stored free version faithful mStored within
    (includedDepth_lt size empty stored free within)
  -- Only the empty tree has the empty hash.
  have emptyNil : m.hashOf digest = Hash.empty → m.reveal digest v b.keys = .nil := by
    intro isEmpty
    rcases hm with rfl | hm
    · rw [eq_nil_of_hashOf_eq_empty empty stored.2 free isEmpty]
      rfl
    · exact absurd isEmpty (hashOf_ne_empty empty stored free hm)
  refine ⟨⟨v, m.hashOf digest, E⟩, m, ?_, hm, rfl, named,
    verifyProof_of_verifies digest version verifies (buildEntries_ne_nil built) (mStored.reveal_getHash v b.keys)
      emptyNil,
    verifyProofToWriteLog_of_verifies digest version verifies (buildEntries_ne_nil built)
      (mStored.reveal_getHash v b.keys) emptyNil⟩
  simp only [ProofBuilder.build, claimed, built, faithful.version]
  rfl

end Build

theorem build_verify_leaf :
    let digest : List UInt8 → Hash := fun m => if m = [] then Hash.empty else List.replicate 31 0 ++ [m.length.toUInt8]
    let t : Node := .leaf true (leafNodeHash digest [1] [2]) [1] [2]
    let b : ProofBuilder :=
      ⟨0, t.hashOf digest, t.hashOf digest, [(t.hashOf digest, ⟨leafNodeMarshalBinary [1] [2], []⟩)], 0⟩
    ∃ proof m, b.build = some proof ∧ (m = t ∨ m ∈ t.subtrees) ∧ proof.untrustedRoot = m.hashOf digest ∧
      (proof.untrustedRoot = b.root ∨ proof.untrustedRoot = b.subtree) ∧
      ProofVerifier.verifyProof digest proof.untrustedRoot proof = some (m.reveal digest 0 b.keys) ∧
      ProofVerifier.verifyProofToWriteLog digest proof.untrustedRoot proof =
        some (m.reveal digest 0 b.keys).leafEntries := by
  intro digest t b
  have size : ∀ m, (digest m).length = hashSize := by
    intro m
    by_cases m = [] <;> simp_all [digest, Hash.empty, hashSize]
  have stored : t.Stored digest :=
    ⟨⟨rfl, rfl, by decide, by decide⟩, show ([1] : Key).length < 2 ^ 32 by decide⟩
  have free : Set.InjOn digest (insert [] (t.hashInputs digest)) :=
    Set.injOn_pair.mpr fun same => absurd same (by decide)
  have faithful : Faithful digest 0 t b := by
    refine ⟨rfl, fun e mem => ⟨t, by simp [t, subtrees], ?_⟩⟩
    obtain rfl := List.mem_singleton.mp mem
    exact ⟨rfl, proofNode_leaf true _ [1] [2] (by decide)⟩
  exact build_verify size rfl stored free (by decide) faithful rfl

end Orphiq.Mkvs

import OrphiqCore.Mkvs.ProofBuild
import OrphiqCore.Mkvs.SyncGet
import OrphiqCore.Mkvs.TreeSpec

/-!
# What a `SyncGet` proof gives the client

A lookup with a proof builder includes every node it visits on the way to the key, so the tree
the verifier rebuilds from the proof `SyncGet` returns holds the path to the key, with hashes in
place of the rest, and answers a `Get` of the key as the server's tree does (`syncGet_verify`).
-/

namespace Orphiq.Mkvs
open Bits Node

variable (digest : List UInt8 → Hash)

/-- A builder `b'` that kept the nodes, roots and version of `b` and included only nodes of `t`. -/
structure Extends (v : UInt16) (t : Node) (b b' : ProofBuilder) : Prop where
  faithful : Faithful digest v t b'
  keys : b.keys ⊆ b'.keys
  root : b'.root = b.root
  subtree : b'.subtree = b.subtree

/-- What `doGet` of `key` with a builder does below `m`, from any builder faithful to `t`: it
answers with a builder that extends the one it was given, and every tree the verifier rebuilds of
`m` from a proof holding the builder's nodes answers the lookup of `key` as `m` does. -/
def Gets (v : UInt16) (t : Node) (key : Key) (siblings : Bool) (m : Node) : Prop :=
  ∀ (b : ProofBuilder) (bitDepth : Depth) (stop : Bool), Faithful digest v t b →
    ∃ value b', doGet key m bitDepth ⟨some b, siblings⟩ stop = some (value, some b') ∧
      Extends digest v t b b' ∧
      ∀ keys, b'.keys ⊆ keys → lookup key (m.reveal digest v keys) bitDepth false stop = lookup key m bitDepth false stop

variable {digest}

theorem Extends.refl {v : UInt16} {t : Node} {b : ProofBuilder} (faithful : Faithful digest v t b) :
    Extends digest v t b b :=
  ⟨faithful, List.Subset.refl _, rfl, rfl⟩

theorem Extends.trans {v : UInt16} {t : Node} {b₁ b₂ b₃ : ProofBuilder} (first : Extends digest v t b₁ b₂)
    (second : Extends digest v t b₂ b₃) : Extends digest v t b₁ b₃ :=
  ⟨second.faithful, List.Subset.trans first.keys second.keys, second.root.trans first.root, second.subtree.trans first.subtree⟩

theorem Node.Stored.proofNode_isSome {m : Node} (stored : m.Stored digest) {v : UInt16} (version : v ≤ 1)
    (resident : m ≠ .nil ∧ ∀ h, m ≠ .hashed h) : ∃ pn, m.proofNode v = some pn := by
  cases m with
  | nil => exact absurd rfl resident.1
  | hashed h => exact absurd rfl (resident.2 h)
  | leaf c h key value => exact ⟨_, proofNode_leaf c h key value version⟩
  | internal =>
    obtain ⟨_, recorded, -⟩ := stored.proofNode_internal version
    exact ⟨_, recorded⟩

theorem Faithful.includeNode {v : UInt16} (version : v ≤ 1) {t : Node} {b : ProofBuilder}
    (faithful : Faithful digest v t b) {m : Node} (hm : m ∈ t.subtrees) (mStored : m.Stored digest) :
    ∃ b', b.includeNode m = some b' ∧ Extends digest v t b b' ∧ m.hashOf digest ∈ b'.keys := by
  have resident : m ≠ .nil ∧ ∀ h, m ≠ .hashed h :=
    ⟨fun isNil => not_nil_mem_subtrees t (isNil ▸ hm), fun h isHashed => not_hashed_mem_subtrees t h (isHashed ▸ hm)⟩
  obtain ⟨pn, recorded⟩ := mStored.proofNode_isSome version resident
  rw [ProofBuilder.includeNode_eq (mStored.1.isClean digest) resident, mStored.getHash_eq, faithful.version,
    recorded]
  split_ifs with known
  · exact ⟨b, rfl, Extends.refl faithful, known⟩
  · refine ⟨_, rfl, ⟨⟨rfl, fun e mem => ?_⟩, List.subset_cons_self _ _, rfl, rfl⟩, List.mem_cons_self⟩
    rcases List.mem_cons.mp mem with rfl | mem
    · exact ⟨m, hm, rfl, recorded⟩
    · exact faithful.nodes e mem

theorem lookup_leafOrNil {n : Node} (slot : n.isLeafOrNil = true) (key : Key) (d : Depth) (siblings stop : Bool) :
    ∃ value, lookup key n d siblings stop = some value := by
  cases n with
  | nil => exact ⟨none, rfl⟩
  | leaf => exact ⟨_, rfl⟩
  | hashed | internal => simp [isLeafOrNil] at slot

theorem getBit_isSome {key : Key} (fits : key.Fits) {d : Depth} (ends : key.bitLength ≠ d)
    (short : ¬ key.bitLength < d) : ∃ bit, key.getBit d = some bit := by
  have below : d.toNat < (ofBytes key).length := by
    rw [length_ofBytes, ← bitLength_toNat key fits]
    have notAbove : d.toNat ≤ key.bitLength.toNat := by
      rw [UInt16.lt_iff_toNat_lt] at short
      omega
    have differ : d.toNat ≠ key.bitLength.toNat := fun same => ends (UInt16.toNat_inj.mp same.symm)
    omega
  exact ⟨_, (getBit_eq_getElem? key d).trans (List.getElem?_eq_getElem below)⟩

theorem lookup_reveal_internal {v : UInt16} {keys : List Hash} {c : Bool} {h : Hash} {label : Key} {l : Depth}
    {leafNode left right : Node} (present : (Node.internal c h label l leafNode left right).hashOf digest ∈ keys)
    {key : Key} {bitDepth : Depth}
    (leafSame : key.bitLength = bitDepth + l →
      lookup key (if v = 0 then leafNode else leafNode.reveal digest v keys) (bitDepth + l) false false =
        lookup key leafNode (bitDepth + l) false false)
    (leftSame : key.bitLength ≠ bitDepth + l → ¬ key.bitLength < bitDepth + l → key.getBit (bitDepth + l) = some false →
      lookup key (left.reveal digest v keys) (bitDepth + l) false false = lookup key left (bitDepth + l) false false)
    (rightSame : key.bitLength ≠ bitDepth + l → ¬ key.bitLength < bitDepth + l → key.getBit (bitDepth + l) = some true →
      lookup key (right.reveal digest v keys) (bitDepth + l) false false = lookup key right (bitDepth + l) false false) :
    lookup key ((Node.internal c h label l leafNode left right).reveal digest v keys) bitDepth false false =
      lookup key (.internal c h label l leafNode left right) bitDepth false false := by
  rw [reveal, if_pos present]
  simp only [lookup, Bool.false_eq_true, if_false]
  by_cases ends : key.bitLength = bitDepth + l
  · simp only [if_pos ends]
    exact leafSame ends
  by_cases short : key.bitLength < bitDepth + l
  · simp only [if_neg ends, if_pos short]
  simp only [if_neg ends, if_neg short]
  cases bit : key.getBit (bitDepth + l) with
  | none => rfl
  | some b =>
    cases b
    · simp [leftSame ends short bit]
    · simp [rightSame ends short bit]

theorem lookup_mem_leafEntries {key : Key} {r : Node} {d : Depth} {stop : Bool} {value : Value}
    (found : lookup key r d false stop = some (some value)) : ⟨key, some value⟩ ∈ r.leafEntries := by
  induction r generalizing d stop with
  | nil => simp [lookup] at found
  | hashed h =>
    simp only [lookup] at found
    split_ifs at found
    simp at found
  | leaf c h k v =>
    cases stop <;> simp [lookup] at found
    obtain ⟨rfl, rfl⟩ := found
    simp [leafEntries]
  | internal c h label l leafNode left right ihLeaf ihLeft ihRight =>
    cases stop with
    | true => simp [lookup] at found
    | false =>
      simp only [lookup, Bool.false_eq_true, if_false] at found
      simp only [leafEntries, List.mem_append]
      split_ifs at found with ends short
      · exact .inl (.inl (ihLeaf found))
      · simp at found
      · obtain ⟨bit, -, found⟩ := Option.bind_eq_some_iff.mp found
        cases bit
        · exact .inl (.inr (ihLeft (by simpa using found)))
        · exact .inr (ihRight (by simpa using found))

/-! ### A lookup with a proof builder -/

theorem gets_nil {v : UInt16} {t : Node} {key : Key} {siblings : Bool} : Gets digest v t key siblings .nil :=
  fun b _ _ faithful => ⟨none, b, rfl, Extends.refl faithful, fun _ _ => rfl⟩

section Gets

variable {v : UInt16} (version : v ≤ 1) {t : Node} (stored : t.Stored digest) {key : Key} {siblings : Bool}
include version stored

theorem gets_leaf {c : Bool} {h : Hash} {k : Key} {value : Value} (hm : Node.leaf c h k value ∈ t.subtrees) :
    Gets digest v t key siblings (.leaf c h k value) := by
  intro b bitDepth stop faithful
  obtain ⟨b', included, grown, present⟩ := faithful.includeNode version hm (stored.of_mem hm)
  refine ⟨if stop then none else if k = key then some value else none, b', ?_, grown, fun keys wider => ?_⟩
  · cases stop <;> simp [doGet, included]
  · have present' : leafNodeHash digest k value ∈ keys := wider present
    rw [reveal, if_pos present']
    rfl

omit stored in
theorem gets_leafNode {leafNode : Node} (slot : leafNode.isLeafOrNil = true)
    (leafGets : Gets digest v t key siblings leafNode) {d : Depth} {b : ProofBuilder} (faithful : Faithful digest v t b) :
    ∃ value b', (if Option.any (fun x => decide (x.proofVersion = 0)) (some b) = true then
          (doGet key leafNode d ⟨none, siblings⟩ false).bind fun x => pure (x.1, some b)
        else doGet key leafNode d ⟨some b, siblings⟩ false) = some (value, some b') ∧
      Extends digest v t b b' ∧
      ∀ keys, b'.keys ⊆ keys → lookup key (if v = 0 then leafNode else leafNode.reveal digest v keys) d false false =
        lookup key leafNode d false false := by
  rcases version_cases version with rfl | rfl
  · obtain ⟨value, found⟩ := lookup_leafOrNil slot key d siblings false
    refine ⟨value, b, ?_, Extends.refl faithful, fun _ _ => rfl⟩
    simp [faithful.version, doGet_eq_lookup, found]
  · obtain ⟨value, b', run, grown, same⟩ := leafGets b d false faithful
    exact ⟨value, b', by simp [faithful.version, run], grown, same⟩

omit stored in
theorem gets_descend {leafNode next other : Node} (leafGets : Gets digest v t key siblings leafNode)
    (nextGets : Gets digest v t key siblings next) (otherGets : Gets digest v t key siblings other) {d : Depth}
    {b : ProofBuilder} (faithful : Faithful digest v t b) :
    ∃ value b', ((doGet key next d ⟨some b, siblings⟩ false).bind fun x =>
        if siblings = true then
          if Option.any (fun x => decide (x.proofVersion > 0)) x.2 = true then
            ((fun x => x.2) <$> doGet key leafNode d ⟨x.2, siblings⟩ true).bind fun pb =>
              ((fun x => x.2) <$> doGet key other d ⟨pb, siblings⟩ true).bind fun pb => pure (x.1, pb)
          else
            (pure x.2 : Option (Option ProofBuilder)).bind fun pb =>
              ((fun x => x.2) <$> doGet key other d ⟨pb, siblings⟩ true).bind fun pb => pure (x.1, pb)
        else (pure x.2 : Option (Option ProofBuilder)).bind fun pb => pure (x.1, pb)) = some (value, some b') ∧
      Extends digest v t b b' ∧
      ∀ keys, b'.keys ⊆ keys → lookup key (next.reveal digest v keys) d false false = lookup key next d false false := by
  obtain ⟨value, b₁, nextRun, grown₁, nextSame⟩ := nextGets b d false faithful
  cases siblings with
  | false => exact ⟨value, b₁, by simp [nextRun], grown₁, nextSame⟩
  | true =>
    rcases version_cases version with rfl | rfl
    · obtain ⟨_, b₂, otherRun, grown₂, -⟩ := otherGets b₁ d true grown₁.faithful
      exact ⟨value, b₂, by simp [nextRun, otherRun, grown₁.faithful.version], grown₁.trans grown₂,
        fun keys wider => nextSame keys (List.Subset.trans grown₂.keys wider)⟩
    · -- In version 1 the leaf node beside the path is included too.
      obtain ⟨_, b₂, leafRun, grown₂, -⟩ := leafGets b₁ d true grown₁.faithful
      obtain ⟨_, b₃, otherRun, grown₃, -⟩ := otherGets b₂ d true grown₂.faithful
      exact ⟨value, b₃, by simp [nextRun, leafRun, otherRun, grown₁.faithful.version], grown₁.trans (grown₂.trans grown₃),
        fun keys wider => nextSame keys (List.Subset.trans (grown₂.trans grown₃).keys wider)⟩

theorem gets_internal {c : Bool} {h : Hash} {label : Key} {l : Depth} {leafNode left right : Node}
    (hm : Node.internal c h label l leafNode left right ∈ t.subtrees) (fits : key.Fits)
    (leafGets : Gets digest v t key siblings leafNode) (leftGets : Gets digest v t key siblings left)
    (rightGets : Gets digest v t key siblings right) :
    Gets digest v t key siblings (.internal c h label l leafNode left right) := by
  intro b bitDepth stop faithful
  have mStored := stored.of_mem hm
  obtain ⟨b₁, included, grown₁, present⟩ := faithful.includeNode version hm mStored
  have kept {b' : ProofBuilder} (grown : Extends digest v t b₁ b') {keys : List Hash} (wider : b'.keys ⊆ keys) :
      (Node.internal c h label l leafNode left right).hashOf digest ∈ keys := wider (grown.keys present)
  cases stop with
  | true =>
    refine ⟨none, b₁, by simp [doGet, included], grown₁, fun keys wider => ?_⟩
    rw [reveal, if_pos (kept (Extends.refl grown₁.faithful) wider)]
    rfl
  | false =>
    simp only [doGet, Option.mapM_some, included, Option.bind_eq_bind, Bool.false_eq_true, if_false]
    rw [show (some <$> some b₁ : Option (Option ProofBuilder)) = some (some b₁) from rfl, Option.bind_some]
    by_cases ends : key.bitLength = bitDepth + l
    · -- The key ends here: the siblings, then the leaf node.
      rw [if_pos ends]
      have slot : leafNode.isLeafOrNil = true := mStored.1.2.2.2.1 rfl
      cases siblings with
      | false =>
        obtain ⟨value, b₂, run, grown₂, same⟩ := gets_leafNode version slot leafGets grown₁.faithful (d := bitDepth + l)
        refine ⟨value, b₂, by simpa using run, grown₁.trans grown₂, fun keys wider =>
          lookup_reveal_internal (kept grown₂ wider) (fun _ => same keys wider) (absurd ends) (absurd ends)⟩
      | true =>
        obtain ⟨_, b₂, leftRun, grown₂, -⟩ := leftGets b₁ (bitDepth + l) true grown₁.faithful
        obtain ⟨_, b₃, rightRun, grown₃, -⟩ := rightGets b₂ (bitDepth + l) true grown₂.faithful
        obtain ⟨value, b₄, run, grown₄, same⟩ := gets_leafNode version slot leafGets grown₃.faithful (d := bitDepth + l)
        have grown := grown₂.trans (grown₃.trans grown₄)
        refine ⟨value, b₄, by simpa [leftRun, rightRun] using run, grown₁.trans grown, fun keys wider =>
          lookup_reveal_internal (kept grown wider) (fun _ => same keys wider) (absurd ends) (absurd ends)⟩
    rw [if_neg ends]
    by_cases short : key.bitLength < bitDepth + l
    · -- The key is too short for the label: nothing below is visited.
      rw [if_pos short]
      exact ⟨none, b₁, rfl, grown₁, fun keys wider => lookup_reveal_internal
        (kept (Extends.refl grown₁.faithful) wider) (absurd · ends) (fun _ notShort => absurd short notShort)
        (fun _ notShort => absurd short notShort)⟩
    -- The key goes on into the child its bit selects.
    rw [if_neg short]
    obtain ⟨bit, hbit⟩ := getBit_isSome fits ends short
    rw [hbit, Option.bind_some]
    cases bit with
    | false =>
      obtain ⟨value, b₂, run, grown₂, same⟩ := gets_descend version leafGets leftGets rightGets grown₁.faithful
        (d := bitDepth + l)
      exact ⟨value, b₂, run, grown₁.trans grown₂, fun keys wider => lookup_reveal_internal (kept grown₂ wider)
        (absurd · ends) (fun _ _ _ => same keys wider) (fun _ _ other => absurd (hbit.symm.trans other) (by simp))⟩
    | true =>
      obtain ⟨value, b₂, run, grown₂, same⟩ := gets_descend version leafGets rightGets leftGets grown₁.faithful
        (d := bitDepth + l)
      exact ⟨value, b₂, run, grown₁.trans grown₂, fun keys wider => lookup_reveal_internal (kept grown₂ wider)
        (absurd · ends) (fun _ _ other => absurd (hbit.symm.trans other) (by simp)) (fun _ _ _ => same keys wider)⟩

/-- A lookup with a builder below any node of a stored tree. -/
theorem gets {m : Node} (fits : key.Fits) (mStored : m.Stored digest) (within : ∀ d ∈ m.subtrees, d ∈ t.subtrees) :
    Gets digest v t key siblings m := by
  induction m with
  | nil => exact gets_nil
  | hashed => exact mStored.2.elim
  | leaf c h k value => exact gets_leaf version stored (within _ (by simp [subtrees]))
  | internal c h label l leafNode left right ihLeaf ihLeft ihRight =>
    obtain ⟨leafStored, leftStored, rightStored⟩ := mStored.internal
    exact gets_internal version stored (within _ (mem_subtrees_self_internal ..)) fits
      (ihLeaf leafStored fun d mem => within d (mem_subtrees_internal c h label l (.inl mem)))
      (ihLeft leftStored fun d mem => within d (mem_subtrees_internal c h label l (.inr (.inl mem))))
      (ihRight rightStored fun d mem => within d (mem_subtrees_internal c h label l (.inr (.inr mem))))

end Gets

/-! ### The tree a `SyncGet` is answered from -/

/-- A canonical trie whose nodes are clean and cache their hashes, and whose values fit their
length field, is as the node database stores it. -/
theorem Node.Canonical.stored {path : List Bool} {n : Node} (canonical : n.Canonical path)
    (coherent : Coherent digest n) (clean : ∀ m ∈ n.subtrees, m.isClean = true)
    (small : ∀ k value, n.contents k = some value → value.length < 2 ^ 32) : n.Stored digest := by
  induction n generalizing path with
  | nil => exact ⟨trivial, trivial⟩
  | hashed => exact canonical.elim
  | leaf c h key value =>
    have self : Node.leaf c h key value ∈ (Node.leaf c h key value).subtrees := by simp [subtrees]
    obtain rfl : c = true := clean _ self
    have fitsKey := canonical.2
    unfold Key.Fits at fitsKey
    exact ⟨⟨rfl, coherent _ self rfl, by omega, small key value (by simp)⟩, canonical.full⟩
  | internal c h label l leafNode left right ihLeaf ihLeft ihRight =>
    have self := mem_subtrees_self_internal c h label l leafNode left right
    obtain rfl : c = true := clean _ self
    obtain ⟨lbl, -, -, slot, cLeft, bLeft, cRight, bRight, -⟩ := id canonical
    obtain ⟨coherentLeaf, coherentLeft, coherentRight⟩ := coherent.internal
    -- Each slot holds clean nodes and values of the node's map.
    have leafStored : leafNode.Stored digest := ihLeaf slot.canonical coherentLeaf
      (fun m mem => clean m (mem_subtrees_internal true h label l (.inl mem)))
      (fun k value found => small k value (by simp [contents, found]))
    have leftStored : left.Stored digest := ihLeft cLeft coherentLeft
      (fun m mem => clean m (mem_subtrees_internal true h label l (.inr (.inl mem))))
      (fun k value found => small k value (contents_of_left slot bLeft bRight found))
    have rightStored : right.Stored digest := ihRight cRight coherentRight
      (fun m mem => clean m (mem_subtrees_internal true h label l (.inr (.inr mem))))
      (fun k value found => small k value (contents_of_right slot bLeft bRight found))
    have hash : h = internalNodeHash digest label l leafNode.getHash left.getHash right.getHash := by
      rw [leafStored.getHash_eq, leftStored.getHash_eq, rightStored.getHash_eq]
      exact coherent _ self rfl
    have leafOrNil : leafNode.isLeafOrNil = true := by
      cases leafNode with
      | nil | leaf => rfl
      | internal | hashed => exact slot.elim
    exact ⟨⟨rfl, hash, canonical.full.1, fun _ => leafOrNil, leafStored.1, leftStored.1, rightStored.1⟩,
      canonical.full⟩

/-- A `SyncGet` of a key at the root of a committed tree returns a proof that the client's
verifier accepts for the root hash, and a `Get` of the key in the tree the verifier rebuilds
returns the value the server's tree holds for it, unless the digest collides on the tree. -/
theorem syncGet_verify (size : ∀ m, (digest m).length = hashSize) (empty : digest [] = Hash.empty)
    {base : Key → Option Value} {t : Tree} (consistent : t.Consistent digest base)
    (clean : ∀ m ∈ t.pendingRoot.subtrees, m.isClean = true)
    (small : ∀ k value, t.pendingRoot.contents k = some value → value.length < 2 ^ 32)
    (free : Set.InjOn digest (insert [] (t.pendingRoot.hashInputs digest)))
    {request : GetRequest} (synced : request.tree.root = t.syncRoot)
    (rooted : request.tree.root.hash = t.pendingRoot.hashOf digest)
    (positioned : request.tree.position = request.tree.root.hash)
    (version : request.proofVersion ≤ 1) (fits : request.key.Fits) :
    ∃ proof r log, t.syncGet request = some (.ok proof) ∧ proof.untrustedRoot = request.tree.root.hash ∧
      ProofVerifier.verifyProof digest request.tree.root.hash proof = some r ∧
      doGet request.key r 0 ⟨none, false⟩ false = some (t.pendingRoot.contents request.key, none) ∧
      ProofVerifier.verifyProofToWriteLog digest request.tree.root.hash proof = some log ∧
      (∀ value, t.pendingRoot.contents request.key = some value → ⟨request.key, some value⟩ ∈ log) ∧
      ∀ e ∈ log, t.pendingRoot.contents e.key = e.value := by
  have stored := consistent.canonical.stored consistent.coherent clean small
  -- The lookup starts from an empty builder for the request's root and position.
  let b₀ : ProofBuilder := ⟨request.proofVersion, request.tree.root.hash, request.tree.position, [], 0⟩
  have faithful₀ : Faithful digest request.proofVersion t.pendingRoot b₀ :=
    ⟨rfl, fun e mem => by simp [b₀] at mem⟩
  have getsRoot : Gets digest request.proofVersion t.pendingRoot request.key request.includeSiblings t.pendingRoot :=
    gets version stored fits stored fun _ mem => mem
  obtain ⟨value, b, run, grown, same⟩ := getsRoot b₀ 0 false faithful₀
  obtain ⟨proof, m, built, hm, claimed, named, verified, logged⟩ :=
    build_verify size empty stored free version grown.faithful (grown.root.trans rooted)
  -- The proof names the root hash either way, and the root is the only node with that hash.
  have atRoot : proof.untrustedRoot = request.tree.root.hash := by
    rcases named with named | named
    · exact named.trans grown.root
    · exact named.trans (grown.subtree.trans positioned)
  obtain rfl : m = t.pendingRoot := by
    rcases hm with rfl | hm
    · rfl
    · exact eq_of_hashOf_eq size empty stored free hm (root_mem_subtrees hm)
        (claimed.symm.trans (atRoot.trans rooted))
  -- The verifier's tree answers the lookup as the server's tree does.
  have lookedUp : lookup request.key (t.pendingRoot.reveal digest request.proofVersion b.keys) 0 false false =
      some (t.pendingRoot.contents request.key) := by
    rw [same b.keys (List.Subset.refl _)]
    simpa [doGet_eq_lookup] using doGet_spec consistent.canonical fits Tree.depth_root false
  refine ⟨proof, _, _, ?_, atRoot, atRoot ▸ verified, by simp [doGet_eq_lookup, lookedUp], atRoot ▸ logged,
    fun value found => lookup_mem_leafEntries (found ▸ lookedUp), fun e mem => ?_⟩
  · have notNewer : ¬ request.proofVersion > latestProofVersion := by simpa [latestProofVersion] using version
    have started : newProofBuilderForVersion request.tree.root.hash request.tree.position request.proofVersion =
        some b₀ := by simp [newProofBuilderForVersion, notNewer, b₀]
    rw [Tree.syncGet, if_neg (fun differ => differ synced), if_neg (by simp [stored.1.isClean digest]), started]
    simp [run, built]
  · -- Every leaf the verifier meets is a leaf of the server's tree.
    exact consistent.canonical.contents_of_mem_leafEntries
      ((stored.reveal_prunes request.proofVersion b.keys).leafEntries_subset mem)

theorem syncGet_verify_leaf :
    let digest : List UInt8 → Hash := fun m => if m = [] then Hash.empty else List.replicate 31 0 ++ [m.length.toUInt8]
    let rootNode : Node := .leaf true (leafNodeHash digest [1] [2]) [1] [2]
    let root : Root := { Root.empty 0 with hash := rootNode.hashOf digest }
    let t := Tree.newWithRoot root rootNode true
    let request : GetRequest := ⟨⟨root, root.hash⟩, [1], false, 0⟩
    ∃ proof r log, t.syncGet request = some (.ok proof) ∧ proof.untrustedRoot = request.tree.root.hash ∧
      ProofVerifier.verifyProof digest request.tree.root.hash proof = some r ∧
      doGet request.key r 0 ⟨none, false⟩ false = some (t.pendingRoot.contents request.key, none) ∧
      ProofVerifier.verifyProofToWriteLog digest request.tree.root.hash proof = some log ∧
      (∀ value, t.pendingRoot.contents request.key = some value → ⟨request.key, some value⟩ ∈ log) ∧
      ∀ e ∈ log, t.pendingRoot.contents e.key = e.value := by
  intro digest rootNode root t request
  have size : ∀ m, (digest m).length = hashSize := by
    intro m
    by_cases m = [] <;> simp_all [digest, Hash.empty, hashSize]
  have canonical : rootNode.Canonical [] := ⟨List.nil_prefix, by decide⟩
  have coherent : Coherent digest rootNode := fun m mem _ => by
    obtain rfl := List.mem_singleton.mp mem
    rfl
  have small : ∀ k value, rootNode.contents k = some value → value.length < 2 ^ 32 := by
    intro k value found
    obtain ⟨-, rfl⟩ : k = [1] ∧ [2] = value := by simpa [rootNode] using found
    decide
  have free : Set.InjOn digest (insert [] (rootNode.hashInputs digest)) :=
    Set.injOn_pair.mpr fun same => absurd same (by decide)
  exact syncGet_verify size rfl (Tree.consistent_newWithRoot root canonical coherent true)
    (by simp [Tree.newWithRoot, rootNode, subtrees]) small free rfl rfl rfl (by decide) (by decide)

end Orphiq.Mkvs

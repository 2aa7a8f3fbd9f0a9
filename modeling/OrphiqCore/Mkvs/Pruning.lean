import OrphiqCore.Mkvs.Lookup
import OrphiqCore.Mkvs.Commit
import OrphiqCore.Mkvs.CodecSpec

/-!
# Partial trees and what their hashes bind

A proof describes a partial tree: the tree with some subtrees replaced by pointers that hold
only their hashes (`Prunes`). When the digest tells apart the inputs it is applied to, a tree
with the hash of a tree in memory is a partial tree of it (`prunes_of_hashOf_eq`), since the
hash inputs record every length needed to read them back. A lookup without a proof builder
(`lookup`) that succeeds in a partial tree answers what it answers in the whole tree.
-/

namespace Orphiq.Mkvs
open Node

/-- `doGet` without a proof builder: the value found, or `none` when a pointer that holds only a
hash would have to be fetched. -/
def lookup (key : Key) : Node → Depth → Bool → Bool → Option (Option Value)
  | .nil, _, _, _ => some none
  | .hashed hash, _, _, _ => if hash = Hash.empty then some none else none
  | .leaf _ _ nKey nValue, _, _, stop => some (if stop then none else if nKey = key then some nValue else none)
  | .internal _ _ _ labelBitLength leafNode left right, bitDepth, siblings, stop =>
    if stop then some none
    else
      let bitLength := bitDepth + labelBitLength
      if key.bitLength = bitLength then do
        if siblings then
          let _ ← lookup key left bitLength siblings true
          let _ ← lookup key right bitLength siblings true
        lookup key leafNode bitLength siblings false
      else if key.bitLength < bitLength then some none
      else do
        if (← key.getBit bitLength) then
          let value ← lookup key right bitLength siblings false
          if siblings then let _ ← lookup key left bitLength siblings true
          pure value
        else
          let value ← lookup key left bitLength siblings false
          if siblings then let _ ← lookup key right bitLength siblings true
          pure value

theorem doGet_eq_lookup (key : Key) (n : Node) (bitDepth : Depth) (siblings stop : Bool) :
    doGet key n bitDepth ⟨none, siblings⟩ stop = (lookup key n bitDepth siblings stop).map (·, none) := by
  induction n generalizing bitDepth stop with
  | nil => rfl
  | hashed hash => by_cases empty : hash = Hash.empty <;> simp [doGet, lookup, empty]
  | leaf c h nKey nValue => cases stop <;> simp [doGet, lookup]
  | internal c h label l leafNode left right ihLeaf ihLeft ihRight =>
    cases stop
    · simp only [doGet, lookup, Option.mapM_none, Bool.false_eq_true, if_false]
      simp [ihLeaf, ihLeft, ihRight, Option.bind_map]
      split_ifs <;> rcases key.getBit (bitDepth + l) with _ | _ | _ <;>
        simp [Option.map_eq_bind, Option.bind_assoc]
    · simp [doGet, lookup]

/-- The write log entries of the leaves of a tree, in pre-order, each leaf node before the
children of its internal node: the order in which the proof verifier meets them. -/
def Node.leafEntries : Node → WriteLog
  | .leaf _ _ key value => [⟨key, some value⟩]
  | .internal _ _ _ _ leafNode left right => leafNode.leafEntries ++ left.leafEntries ++ right.leafEntries
  | _ => []

theorem Node.isSome_of_mem_leafEntries {n : Node} {e : LogEntry} (mem : e ∈ n.leafEntries) : e.value.isSome := by
  induction n with
  | leaf c h key value =>
    simp only [leafEntries, List.mem_singleton] at mem
    simp [mem]
  | internal c h label l leafNode left right ihLeaf ihLeft ihRight =>
    simp only [leafEntries, List.mem_append] at mem
    rcases mem with (inLeaf | inLeft) | inRight
    · exact ihLeaf inLeaf
    · exact ihLeft inLeft
    · exact ihRight inRight
  | _ => simp [leafEntries] at mem

theorem Node.Canonical.contents_of_mem_leafEntries {path : List Bool} {t : Node} (canonical : t.Canonical path)
    {e : LogEntry} (mem : e ∈ t.leafEntries) : t.contents e.key = e.value := by
  induction t generalizing path with
  | nil => simp [leafEntries] at mem
  | hashed => exact canonical.elim
  | leaf c h key value =>
    simp only [leafEntries, List.mem_singleton] at mem
    subst mem
    simp
  | internal c h label l leafNode left right _ ihLeft ihRight =>
    obtain ⟨lbl, -, -, slot, cLeft, bLeft, cRight, bRight, -⟩ := canonical
    simp only [leafEntries, List.mem_append] at mem
    rcases mem with (inLeaf | inLeft) | inRight
    · cases leafNode with
      | leaf c' h' key value =>
        simp only [leafEntries, List.mem_singleton] at inLeaf
        subst inLeaf
        simp
      | nil => simp [leafEntries] at inLeaf
      | internal => exact slot.elim
      | hashed => exact slot.elim
    · obtain ⟨v, hv⟩ := Option.isSome_iff_exists.mp (isSome_of_mem_leafEntries inLeft)
      have found := ihLeft cLeft inLeft
      rw [hv] at found ⊢
      rw [contents_internal, contents_of_left slot bLeft bRight found]
    · obtain ⟨v, hv⟩ := Option.isSome_iff_exists.mp (isSome_of_mem_leafEntries inRight)
      have found := ihRight cRight inRight
      rw [hv] at found ⊢
      rw [contents_internal, contents_of_right slot bLeft bRight found]

section Binding

variable (digest : List UInt8 → Hash)

/-- The inputs the digest is applied to when a subtree is hashed. -/
def Node.hashInputs : Node → Set (List UInt8)
  | .nil => ∅
  | .hashed _ => ∅
  | .leaf _ _ key value => {leafNodeHash id key value}
  | .internal _ _ label labelBitLength leafNode left right =>
    insert (internalNodeHash id label labelBitLength (leafNode.hashOf digest) (left.hashOf digest) (right.hashOf digest))
      (leafNode.hashInputs ∪ left.hashInputs ∪ right.hashInputs)

/-- `r` is `t` with some of its subtrees replaced by pointers that hold only their hashes: a
partial tree of `t`, as a proof describes it. Cache fields are not compared. -/
inductive Prunes : Node → Node → Prop
  | hashed (t : Node) : Prunes (.hashed (t.hashOf digest)) t
  | nil : Prunes .nil .nil
  | leaf (c c' : Bool) (h h' : Hash) (key : Key) (value : Value) : Prunes (.leaf c h key value) (.leaf c' h' key value)
  | internal {l l' a a' b b' : Node} (c c' : Bool) (h h' : Hash) (label : Key) (labelBitLength : Depth) :
    Prunes l l' → Prunes a a' → Prunes b b' →
    Prunes (.internal c h label labelBitLength l a b) (.internal c' h' label labelBitLength l' a' b')

theorem Prunes.refl (t : Node) : Prunes digest t t := by
  induction t with
  | nil => exact .nil
  | hashed h => exact .hashed (.hashed h)
  | leaf c h key value => exact .leaf c c h h key value
  | internal c h label l _ _ _ ihLeaf ihLeft ihRight => exact .internal c c h h label l ihLeaf ihLeft ihRight

end Binding

/-- The lengths the hash inputs record: keys whose length fits its `uint32`, labels of the bytes
their bit lengths need, and whole hashes in pointers that hold only a hash. -/
def Node.Sized : Node → Prop
  | .nil => True
  | .hashed hash => hash.length = hashSize
  | .leaf _ _ key _ => key.length < 2 ^ 32
  | .internal _ _ label labelBitLength leafNode left right =>
    label.length = labelBitLength.toBytes ∧ leafNode.Sized ∧ left.Sized ∧ right.Sized

def Node.Full : Node → Prop
  | .nil => True
  | .hashed _ => False
  | .leaf _ _ key _ => key.length < 2 ^ 32
  | .internal _ _ label labelBitLength leafNode left right =>
    label.length = labelBitLength.toBytes ∧ leafNode.Full ∧ left.Full ∧ right.Full

theorem Node.Full.sized {n : Node} (full : n.Full) : n.Sized := by
  induction n with
  | nil => trivial
  | hashed => exact full.elim
  | leaf => exact full
  | internal c h label l leafNode left right ihLeaf ihLeft ihRight =>
    exact ⟨full.1, ihLeaf full.2.1, ihLeft full.2.2.1, ihRight full.2.2.2⟩

theorem LeafSlot.full {path : List Bool} {n : Node} (slot : LeafSlot path n) : n.Full := by
  cases n with
  | nil => trivial
  | leaf c h key value => have := slot.2; unfold Key.Fits at this; show key.length < 2 ^ 32; omega
  | internal => exact slot.elim
  | hashed => exact slot.elim

theorem Node.Canonical.full {path : List Bool} {n : Node} (canonical : n.Canonical path) : n.Full := by
  induction n generalizing path with
  | nil => trivial
  | hashed => exact canonical.elim
  | leaf c h key value => have := canonical.2; unfold Key.Fits at this; show key.length < 2 ^ 32; omega
  | internal c h label l leafNode left right _ ihLeft ihRight =>
    obtain ⟨lbl, encodes, len, slot, cLeft, -, cRight, -, -⟩ := canonical
    refine ⟨?_, slot.full, ihLeft cLeft, ihRight cRight⟩
    rw [encodes.1, toBytes_eq, len]

section Inputs

variable {key key' : Key} {value value' : Value}

theorem eq_of_leafNodeHash_id_eq (short : key.length < 2 ^ 32) (short' : key'.length < 2 ^ 32)
    (same : leafNodeHash id key value = leafNodeHash id key' value') : key = key' ∧ value = value' := by
  simp only [leafNodeHash, id, List.append_assoc, List.cons_append, List.nil_append, List.cons.injEq,
    true_and] at same
  obtain ⟨lengths, afterLength⟩ := List.append_inj same rfl
  have keyLength : key.length = key'.length := by
    have := congrArg UInt32.toNat (putUint32_injective lengths)
    rwa [toNat_toUInt32 short, toNat_toUInt32 short'] at this
  obtain ⟨keys, afterKey⟩ := List.append_inj afterLength keyLength
  obtain ⟨-, values⟩ := List.append_inj afterKey rfl
  exact ⟨keys, values⟩

theorem eq_of_internalNodeHash_id_eq {label label' : Key} {l l' : Depth} {x y z x' y' z' : Hash}
    (sized : label.length = l.toBytes) (sized' : label'.length = l'.toBytes)
    (hx : x.length = hashSize) (hy : y.length = hashSize) (hx' : x'.length = hashSize) (hy' : y'.length = hashSize)
    (same : internalNodeHash id label l x y z = internalNodeHash id label' l' x' y' z') :
    label = label' ∧ l = l' ∧ x = x' ∧ y = y' ∧ z = z' := by
  simp only [internalNodeHash, id, Depth.marshalBinary, List.append_assoc, List.cons_append,
    List.nil_append, List.cons.injEq,
    true_and] at same
  obtain ⟨lengths, afterDepth⟩ := List.append_inj same rfl
  have depths := putUint16_injective lengths
  have labelLength : label.length = label'.length := by rw [sized, sized', depths]
  obtain ⟨labels, afterLabel⟩ := List.append_inj afterDepth labelLength
  obtain ⟨xs, afterX⟩ := List.append_inj afterLabel (hx.trans hx'.symm)
  obtain ⟨ys, zs⟩ := List.append_inj afterX (hy.trans hy'.symm)
  exact ⟨labels, depths, xs, ys, zs⟩

theorem leafNodeHash_id_ne_internalNodeHash_id {label : Key} {l : Depth} {x y z : Hash} :
    leafNodeHash id key value ≠ internalNodeHash id label l x y z := by
  simp [leafNodeHash, internalNodeHash, prefixLeafNode, prefixInternalNode]

theorem leafNodeHash_id_ne_nil : leafNodeHash id key value ≠ [] := by
  simp [leafNodeHash]

theorem internalNodeHash_id_ne_nil {label : Key} {l : Depth} {x y z : Hash} :
    internalNodeHash id label l x y z ≠ [] := by
  simp [internalNodeHash]

end Inputs

section Hashes

variable {digest : List UInt8 → Hash}

theorem hashOf_length (size : ∀ m, (digest m).length = hashSize) {n : Node} (sized : n.Sized) :
    (n.hashOf digest).length = hashSize := by
  cases n with
  | nil => rfl
  | hashed => exact sized
  | leaf => exact size _
  | internal => exact size _

theorem hashInputs_leafNode_subset (c : Bool) (h : Hash) (label : Key) (l : Depth) (leafNode left right : Node) :
    leafNode.hashInputs digest ⊆ (Node.internal c h label l leafNode left right).hashInputs digest :=
  fun _ mem => Set.mem_insert_of_mem _ (.inl (.inl mem))

theorem hashInputs_left_subset (c : Bool) (h : Hash) (label : Key) (l : Depth) (leafNode left right : Node) :
    left.hashInputs digest ⊆ (Node.internal c h label l leafNode left right).hashInputs digest :=
  fun _ mem => Set.mem_insert_of_mem _ (.inl (.inr mem))

theorem hashInputs_right_subset (c : Bool) (h : Hash) (label : Key) (l : Depth) (leafNode left right : Node) :
    right.hashInputs digest ⊆ (Node.internal c h label l leafNode left right).hashInputs digest :=
  fun _ mem => Set.mem_insert_of_mem _ (.inr mem)

theorem eq_nil_of_hashOf_eq_empty (empty : digest [] = Hash.empty) {t : Node} (full : t.Full)
    (free : Set.InjOn digest (insert [] (t.hashInputs digest))) (hash : t.hashOf digest = Hash.empty) : t = .nil := by
  cases t with
  | nil => rfl
  | hashed => exact full.elim
  | leaf c h key value =>
    exact absurd (free (Set.mem_insert_of_mem _ rfl) (Set.mem_insert _ _) (hash.trans empty.symm))
      leafNodeHash_id_ne_nil
  | internal c h label l leafNode left right =>
    exact absurd (free (Set.mem_insert_of_mem _ (Set.mem_insert _ _)) (Set.mem_insert _ _) (hash.trans empty.symm))
      internalNodeHash_id_ne_nil

/-- A sized tree with the hash of a tree in memory is a partial tree of it, unless the digest
maps two of the inputs met on the way, or one and the empty input, to one hash. -/
theorem prunes_of_hashOf_eq (size : ∀ m, (digest m).length = hashSize) (empty : digest [] = Hash.empty)
    {r t : Node} (sized : r.Sized) (full : t.Full)
    (free : Set.InjOn digest (insert [] (r.hashInputs digest ∪ t.hashInputs digest)))
    (same : r.hashOf digest = t.hashOf digest) : Prunes digest r t := by
  induction r generalizing t with
  | hashed h =>
    rw [show h = t.hashOf digest from same]
    exact .hashed t
  | nil =>
    have free' : Set.InjOn digest (insert [] (t.hashInputs digest)) := free.mono (by simp [hashInputs])
    rw [eq_nil_of_hashOf_eq_empty empty full free' same.symm]
    exact .nil
  | leaf c h key value =>
    have input : leafNodeHash id key value ∈ insert [] ((Node.leaf c h key value).hashInputs digest ∪ t.hashInputs digest) :=
      Set.mem_insert_of_mem _ (.inl rfl)
    cases t with
    | nil => exact absurd (free input (Set.mem_insert _ _) (same.trans empty.symm)) leafNodeHash_id_ne_nil
    | hashed => exact full.elim
    | leaf c' h' key' value' =>
      obtain ⟨rfl, rfl⟩ := eq_of_leafNodeHash_id_eq sized full (free input (Set.mem_insert_of_mem _ (.inr rfl)) same)
      exact .leaf c c' h h' key value
    | internal c' h' label' l' leafNode' left' right' =>
      exact absurd (free input (Set.mem_insert_of_mem _ (.inr (Set.mem_insert _ _))) same)
        leafNodeHash_id_ne_internalNodeHash_id
  | internal c h label l leafNode left right ihLeaf ihLeft ihRight =>
    have input : internalNodeHash id label l (leafNode.hashOf digest) (left.hashOf digest) (right.hashOf digest) ∈
        insert [] ((Node.internal c h label l leafNode left right).hashInputs digest ∪ t.hashInputs digest) :=
      Set.mem_insert_of_mem _ (.inl (Set.mem_insert _ _))
    cases t with
    | nil => exact absurd (free input (Set.mem_insert _ _) (same.trans empty.symm)) internalNodeHash_id_ne_nil
    | hashed => exact full.elim
    | leaf c' h' key' value' =>
      exact absurd (free (Set.mem_insert_of_mem _ (.inr rfl)) input same.symm)
        leafNodeHash_id_ne_internalNodeHash_id
    | internal c' h' label' l' leafNode' left' right' =>
      obtain ⟨sizedLabel, sizedLeaf, sizedLeft, sizedRight⟩ := sized
      obtain ⟨fullLabel, fullLeaf, fullLeft, fullRight⟩ := full
      obtain ⟨rfl, rfl, leafHash, leftHash, rightHash⟩ := eq_of_internalNodeHash_id_eq sizedLabel fullLabel
        (hashOf_length size sizedLeaf) (hashOf_length size sizedLeft) (hashOf_length size fullLeaf.sized)
        (hashOf_length size fullLeft.sized) (free input (Set.mem_insert_of_mem _ (.inr (Set.mem_insert _ _))) same)
      -- The children's inputs are among the node's.
      have restrict {x y : Node}
          (hx : x.hashInputs digest ⊆ (Node.internal c h label l leafNode left right).hashInputs digest)
          (hy : y.hashInputs digest ⊆ (Node.internal c' h' label l leafNode' left' right').hashInputs digest) :
          Set.InjOn digest (insert [] (x.hashInputs digest ∪ y.hashInputs digest)) :=
        free.mono (Set.insert_subset_insert (Set.union_subset_union hx hy))
      exact .internal c c' h h' label l
        (ihLeaf sizedLeaf fullLeaf (restrict (hashInputs_leafNode_subset ..) (hashInputs_leafNode_subset ..)) leafHash)
        (ihLeft sizedLeft fullLeft (restrict (hashInputs_left_subset ..) (hashInputs_left_subset ..)) leftHash)
        (ihRight sizedRight fullRight (restrict (hashInputs_right_subset ..) (hashInputs_right_subset ..)) rightHash)

end Hashes

namespace Prunes

variable {digest : List UInt8 → Hash}

theorem hashOf_eq {r t : Node} (prunes : Prunes digest r t) : r.hashOf digest = t.hashOf digest := by
  induction prunes with
  | hashed => rfl
  | nil => rfl
  | leaf => rfl
  | internal c c' h h' label l _ _ _ ihLeaf ihLeft ihRight => simp only [hashOf, ihLeaf, ihLeft, ihRight]

theorem erase_eq {r t : Node} (prunes : Prunes digest r t) (full : r.Full) : r.erase = t.erase := by
  induction prunes with
  | hashed => exact full.elim
  | nil => rfl
  | leaf => rfl
  | internal c c' h h' label l _ _ _ ihLeaf ihLeft ihRight =>
    simp only [erase, ihLeaf full.2.1, ihLeft full.2.2.1, ihRight full.2.2.2]

/-- A lookup that succeeds in a partial tree answers what it answers in the whole tree. -/
theorem lookup (empty : digest [] = Hash.empty) {r t : Node} (prunes : Prunes digest r t) (full : t.Full)
    (free : Set.InjOn digest (insert [] (t.hashInputs digest))) {key : Key} {bitDepth : Depth} {siblings stop : Bool}
    {value : Option Value} (found : Mkvs.lookup key r bitDepth siblings stop = some value) :
    Mkvs.lookup key t bitDepth siblings stop = some value := by
  induction prunes generalizing bitDepth stop value with
  | hashed t =>
    simp only [Mkvs.lookup] at found
    split_ifs at found with empty'
    rw [eq_nil_of_hashOf_eq_empty empty full free empty']
    exact found
  | nil => exact found
  | leaf => exact found
  | internal c c' h h' label l _ _ _ ihLeaf ihLeft ihRight =>
    obtain ⟨-, fullLeaf, fullLeft, fullRight⟩ := full
    have restrict {x : Node} (hx : x.hashInputs digest ⊆ (Node.internal c' h' label l _ _ _).hashInputs digest) :
        Set.InjOn digest (insert [] (x.hashInputs digest)) := free.mono (Set.insert_subset_insert hx)
    have leafFound := @ihLeaf fullLeaf (restrict (hashInputs_leafNode_subset ..))
    have leftFound := @ihLeft fullLeft (restrict (hashInputs_left_subset ..))
    have rightFound := @ihRight fullRight (restrict (hashInputs_right_subset ..))
    cases stop with
    | true => exact found
    | false =>
      simp only [Mkvs.lookup, Bool.false_eq_true, if_false] at found ⊢
      by_cases ends : key.bitLength = bitDepth + l
      · -- The key ends here: the siblings, then the leaf node.
        rw [if_pos ends] at found ⊢
        cases siblings with
        | false => exact leafFound found
        | true =>
          obtain ⟨_, inLeft, found⟩ := Option.bind_eq_some_iff.mp found
          obtain ⟨_, inRight, found⟩ := Option.bind_eq_some_iff.mp found
          exact Option.bind_eq_some_iff.mpr ⟨_, leftFound inLeft,
            Option.bind_eq_some_iff.mpr ⟨_, rightFound inRight, leafFound found⟩⟩
      rw [if_neg ends] at found ⊢
      by_cases short : key.bitLength < bitDepth + l
      · rw [if_pos short] at found ⊢
        exact found
      -- The key goes on into the child its bit selects; the other child is a sibling.
      rw [if_neg short] at found ⊢
      obtain ⟨bit, hbit, found⟩ := Option.bind_eq_some_iff.mp found
      refine Option.bind_eq_some_iff.mpr ⟨bit, hbit, ?_⟩
      cases bit <;> cases siblings <;> simp only [Bool.false_eq_true, if_false, if_true, Option.bind_eq_bind,
        Option.pure_def, Option.bind_fun_some] at found ⊢
      · exact leftFound found
      · obtain ⟨_, inLeft, found⟩ := Option.bind_eq_some_iff.mp found
        obtain ⟨_, inRight, found⟩ := Option.bind_eq_some_iff.mp found
        exact Option.bind_eq_some_iff.mpr ⟨_, leftFound inLeft,
          Option.bind_eq_some_iff.mpr ⟨_, rightFound inRight, found⟩⟩
      · exact rightFound found
      · obtain ⟨_, inRight, found⟩ := Option.bind_eq_some_iff.mp found
        obtain ⟨_, inLeft, found⟩ := Option.bind_eq_some_iff.mp found
        exact Option.bind_eq_some_iff.mpr ⟨_, rightFound inRight,
          Option.bind_eq_some_iff.mpr ⟨_, leftFound inLeft, found⟩⟩

theorem leafEntries_subset {r t : Node} (prunes : Prunes digest r t) {e : LogEntry}
    (mem : e ∈ r.leafEntries) : e ∈ t.leafEntries := by
  induction prunes with
  | hashed => simp [leafEntries] at mem
  | nil => exact mem
  | leaf => exact mem
  | internal c c' h h' label l _ _ _ ihLeaf ihLeft ihRight =>
    simp only [leafEntries, List.mem_append] at mem ⊢
    rcases mem with (inLeaf | inLeft) | inRight
    · exact .inl (.inl (ihLeaf inLeaf))
    · exact .inl (.inr (ihLeft inLeft))
    · exact .inr (ihRight inRight)

end Prunes

end Orphiq.Mkvs

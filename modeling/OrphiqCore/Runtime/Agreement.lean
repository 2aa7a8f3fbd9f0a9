import OrphiqCore.Runtime.Proof
import OrphiqCore.Mkvs.TreeSpec
import OrphiqCore.Mkvs.CodecSpec

/-!
# The runtime's tree agrees with the Go tree

The Rust key operations compute what the Go ones do on keys shorter than `2 ^ 16` bytes, where
`usize` and `Depth` indices agree and the slices they copy are long enough. On a canonical trie
with keys that fit, `_insert` and `_remove` then walk and rebuild exactly as `doInsert` and
`doRemove` do: the one branch where `_remove` differs, an internal node with nothing left, never
comes up, as a canonical internal node holds two keys. Runs of calls from a committed root keep
the two trees equal, so they commit to the same root hash. The node decoders agree on every byte
string, and the proof verifiers on every proof, up to the hash pointers to the empty hash that
Rust's pointers cannot tell from nil.

Longer keys break the agreement: with a key of 65537 bytes, whose length is 1 as a `Depth`,
Go's `Split` stops one byte early and the two trees put the key on different sides.
-/

namespace Orphiq.Runtime

open Orphiq.Mkvs Bits Node

theorem mapM_congr {α β : Type} {f g : α → Option β} {l : List α} (h : ∀ x ∈ l, f x = g x) :
    l.mapM f = l.mapM g := by
  induction l with
  | nil => rfl
  | cons x rest ih =>
    simp only [List.mapM_cons, h x List.mem_cons_self, ih fun y mem => h y (List.mem_cons_of_mem x mem)]

section Keys

theorem toBytes_le_toBytes {a b : Depth} (h : a ≤ b) : a.toBytes ≤ b.toBytes := by
  rw [toBytes_eq, toBytes_eq]
  have := UInt16.le_iff_toNat_le.mp h
  omega

theorem toBytes_lt (d : Depth) : d.toBytes ≤ 8192 := by
  rw [toBytes_eq]
  have := d.toNat_lt
  omega

theorem toBytes_bitLength_le (k : Key) : k.bitLength.toBytes ≤ k.length := by
  have bits : k.bitLength.toNat ≤ 8 * k.length := by
    simp only [Key.bitLength, Nat.toUInt16_eq, UInt16.toNat_ofNat']
    have := Nat.mod_le (k.length * 8) (2 ^ 16)
    omega
  rw [toBytes_eq]
  omega

theorem copyInto_replicate_of_le {n : Nat} {k : Key} (h : n ≤ k.length) :
    copyInto (List.replicate n 0) k = k.take n := by
  simp [copyInto, List.drop_eq_nil_of_le (show (List.replicate n (0 : UInt8)).length ≤ k.length by simpa)]

theorem toUInt8_eight_sub (d : Depth) : (8 - d % 8).toUInt8 = (8 - d.toNat % 8).toUInt8 := by
  have low : d % 8 ≤ 8 := UInt16.le_iff_toNat_le.mpr (by simp; omega)
  rw [toUInt8_of_depth, UInt16.toNat_sub_of_le _ _ low]
  simp

theorem splitSuffixByte_eq (k : Key) (splitPoint : Depth) {i : Nat} (short : k.length < 2 ^ 16)
    (index : i + splitPoint.toNat / 8 + 1 < 2 ^ 16) :
    KeyTrait.splitSuffixByte k splitPoint i = Mkvs.Key.splitSuffixByte k splitPoint i.toUInt16 := by
  have low : (i.toUInt16 + splitPoint / 8).toNat = i + splitPoint.toNat / 8 := by
    rw [UInt16.toNat_add, UInt16.toNat_div, toNat_toUInt16 (by omega), show (8 : UInt16).toNat = 8 from rfl]
    omega
  have high : (i.toUInt16 + splitPoint / 8 + 1).toNat = i + splitPoint.toNat / 8 + 1 := by
    rw [UInt16.toNat_add, low, show (1 : UInt16).toNat = 1 from rfl]
    omega
  have ends : (i.toUInt16 + splitPoint / 8 + 1 != k.length.toUInt16) = (i + splitPoint.toNat / 8 + 1 != k.length) := by
    rw [← toUInt16_bne index short]
    congr 1
    apply UInt16.toNat_inj.mp
    rw [high, toNat_toUInt16 index]
  simp only [KeyTrait.splitSuffixByte, Mkvs.Key.splitSuffixByte, low, high, ends, toUInt8_eight_sub]

theorem split_eq_split {k : Key} {splitPoint keyLen : Depth} (short : k.length < 2 ^ 16)
    (long : keyLen.toBytes ≤ k.length) : KeyTrait.split k splitPoint keyLen = k.split splitPoint keyLen := by
  unfold KeyTrait.split Mkvs.Key.split
  by_cases wrong : keyLen < splitPoint
  · simp only [if_pos wrong]
  have order : splitPoint ≤ keyLen := UInt16.not_lt.mp wrong
  have prefixLen : splitPoint.toBytes ≤ k.length := (toBytes_le_toBytes order).trans long
  have suffixLen : (keyLen - splitPoint).toBytes ≤ 8192 := toBytes_lt _
  have loops : (List.range (keyLen - splitPoint).toBytes).mapM (KeyTrait.splitSuffixByte k splitPoint) =
      (List.range (keyLen - splitPoint).toBytes).mapM fun i => Mkvs.Key.splitSuffixByte k splitPoint i.toUInt16 :=
    mapM_congr fun i mem => by
      have := List.mem_range.mp mem
      have := splitPoint.toNat_lt
      exact splitSuffixByte_eq k splitPoint short (by omega)
  simp only [if_neg wrong, if_neg (Nat.not_lt.mpr prefixLen), copyInto_replicate_of_le prefixLen, loops]

theorem commonPrefixLen_eq_commonPrefixLen {k k2 : Key} (keyBitLen k2BitLen : Depth) (short : k.length < 2 ^ 16)
    (short2 : k2.length < 2 ^ 16) :
    KeyTrait.commonPrefixLen k keyBitLen k2 k2BitLen = k.commonPrefixLen keyBitLen k2 k2BitLen := by
  have minLen : (min k.length k2.length).toUInt16.toNat = min k.length k2.length := toNat_toUInt16 (by omega)
  have bytes : equalPrefixBytes k k2 (min k.length k2.length) ≤ min k.length k2.length := by
    rw [equalPrefixBytes_eq]
    omega
  simp only [KeyTrait.commonPrefixLen, Mkvs.Key.commonPrefixLen, minLen]
  -- The byte loop is the same; only the types its count is compared in differ.
  generalize equalPrefixBytes k k2 (min k.length k2.length) = i at bytes ⊢
  have index : i.toUInt16.toNat = i := toNat_toUInt16 (by omega)
  have ends : (i.toUInt16 != k.length.toUInt16) = (i != k.length) := toUInt16_bne (by omega) short
  have ends2 : (i.toUInt16 != k2.length.toUInt16) = (i != k2.length) := toUInt16_bne (by omega) short2
  have times : i.toUInt16 * 8 = (i * 8).toUInt16 := by
    apply UInt16.toNat_inj.mp
    simp [index]
  simp only [ends, ends2, index, times]

theorem merge_eq_merge (k : Key) {keyLen k2Len : Depth} (k2 : Key) (sum : keyLen.toNat + k2Len.toNat < 2 ^ 16) :
    KeyTrait.merge k keyLen k2 k2Len = k.merge keyLen k2 k2Len := by
  have grown : keyLen ≤ keyLen + k2Len := UInt16.le_iff_toNat_le.mpr (by rw [depth_add sum]; omega)
  have bytes : keyLen.toNat / 8 + (if keyLen % 8 != 0 then 1 else 0) = keyLen.toBytes := by
    unfold Depth.toBytes
    have := keyLen.toNat_lt
    split <;> simp
    omega
  have room := toBytes_le_toBytes grown
  unfold KeyTrait.merge Mkvs.Key.merge
  simp only [bytes, List.length_replicate, Nat.not_lt.mpr room, decide_false, Bool.false_or]
  -- With room for the first key's bytes, Go's copy is the slice Rust copies.
  by_cases short : k.length < keyLen.toBytes
  · simp [short]
  · simp [short, copyInto, List.take_take, Nat.min_eq_right room, Nat.min_eq_left (Nat.not_lt.mp short)]

theorem short_of_fits {k : Key} (fits : k.Fits) : k.length < 2 ^ 16 := by
  unfold Key.Fits at fits
  omega

theorem length_of_mapM_eq_some {α β : Type} {f : α → Option β} :
    ∀ {l : List α} {ys : List β}, l.mapM f = some ys → ys.length = l.length
  | [], ys, h => by
    simp only [List.mapM_nil, Option.pure_def, Option.some.injEq] at h
    simp [← h]
  | x :: l, ys, h => by
    simp only [List.mapM_cons, bind, Option.bind_eq_some_iff, Option.pure_def, Option.some.injEq] at h
    obtain ⟨y, -, ys', rest, rfl⟩ := h
    simp [length_of_mapM_eq_some rest]

theorem short_of_split {k pre suf : Key} {splitPoint keyLen : Depth}
    (split : k.split splitPoint keyLen = some (pre, suf)) : suf.length < 2 ^ 16 := by
  unfold Mkvs.Key.split at split
  split at split
  · cases split
  · simp only [bind, Option.bind_eq_some_iff, Option.pure_def, Option.some.injEq, Prod.mk.injEq] at split
    obtain ⟨ys, found, -, rfl⟩ := split
    have := toBytes_lt (keyLen - splitPoint)
    rw [length_of_mapM_eq_some found, List.length_range]
    omega

end Keys

section Walk

variable {key : Key}

theorem map_fst_eq_map {α β γ : Type} {x : Option (α × β)} {y : Option γ} {f : γ → α}
    (h : x.map Prod.fst = y.map f) : (x = none ∧ y = none) ∨ ∃ r o, x = some (f r, o) ∧ y = some r := by
  cases y with
  | none => exact .inl ⟨Option.map_eq_none_iff.mp h, rfl⟩
  | some r =>
    obtain ⟨⟨n, o⟩, found, rfl⟩ := Option.map_eq_some_iff.mp h
    exact .inr ⟨r, o, found, rfl⟩

theorem _insert_eq_doInsert {n : Node} {path : List Bool} (hn : n.Canonical path) (fits : key.Fits)
    (bitDepth : Depth) (val : Value) :
    (Tree._insert n bitDepth key val).map Prod.fst = (doInsert n bitDepth key val).map InsertResult.newRoot := by
  induction n generalizing path bitDepth with
  | nil =>
    simp only [Tree._insert, doInsert, split_eq_split (short_of_fits fits) (toBytes_bitLength_le key)]
    cases key.split bitDepth key.bitLength <;> rfl
  | hashed => exact hn.elim
  | leaf c hash nKey nValue =>
    simp only [Tree._insert, doInsert, split_eq_split (short_of_fits fits) (toBytes_bitLength_le key),
      split_eq_split (short_of_fits hn.2) (toBytes_bitLength_le nKey)]
    cases hk : key.split bitDepth key.bitLength with
    | none => rfl
    | some parts =>
    obtain ⟨pre, rem⟩ := parts
    by_cases same : nKey = key
    · by_cases sameValue : nValue = val <;> simp [same, sameValue]
    cases hl : nKey.split bitDepth nKey.bitLength with
    | none => simp [same]
    | some leafParts =>
    obtain ⟨leafPre, leafRem⟩ := leafParts
    simp only [Option.bind_eq_bind, Option.bind_some, same, if_false,
      commonPrefixLen_eq_commonPrefixLen _ _ (short_of_split hl) (short_of_split hk)]
    cases hc : leafRem.commonPrefixLen (nKey.bitLength - bitDepth) rem (key.bitLength - bitDepth) with
    | none => rfl
    | some cpLen =>
    simp only [Option.bind_some, split_eq_split (short_of_split hl) (toBytes_bitLength_le leafRem)]
    simp only [Option.map_bind, Function.comp_def, apply_ite (Option.map _), Option.pure_def, Option.map_some]
  | internal c hash label l leafNode left right ihLeaf ihLeft ihRight =>
    obtain ⟨lbl, enc, len, slot, cLeft, -, cRight, -, -⟩ := hn
    have labelLength : label.length = l.toBytes := by rw [toBytes_eq, len, enc.1]
    have labelShort : label.length < 2 ^ 16 := by
      have := toBytes_lt l
      omega
    simp only [Tree._insert, doInsert, split_eq_split (short_of_fits fits) (toBytes_bitLength_le key)]
    cases hk : key.split bitDepth key.bitLength with
    | none => rfl
    | some parts =>
    obtain ⟨pre, rem⟩ := parts
    simp only [Option.bind_eq_bind, Option.bind_some,
      commonPrefixLen_eq_commonPrefixLen _ _ labelShort (short_of_split hk)]
    cases hc : label.commonPrefixLen l rem (key.bitLength - bitDepth) with
    | none => rfl
    | some cpLen =>
    simp only [Option.bind_some, split_eq_split labelShort labelLength.ge]
    by_cases matched : cpLen = l
    · -- The label matches: both insert into the same slot.
      simp only [if_pos matched]
      by_cases ends : key.bitLength = bitDepth + l
      · rcases map_fst_eq_map (ihLeaf (LeafSlot.canonical slot) (bitDepth + l)) with ⟨found, found'⟩ | ⟨r, o, found, found'⟩ <;>
          simp [ends, found, found']
      cases hb : key.getBit (bitDepth + l) with
      | none => simp [ends]
      | some b =>
      cases b
      · rcases map_fst_eq_map (ihLeft cLeft (bitDepth + l)) with ⟨found, found'⟩ | ⟨r, o, found, found'⟩ <;>
          simp [ends, found, found']
      · rcases map_fst_eq_map (ihRight cRight (bitDepth + l)) with ⟨found, found'⟩ | ⟨r, o, found, found'⟩ <;>
          simp [ends, found, found']
    · simp only [if_neg matched, Option.map_bind, Function.comp_def, apply_ite (Option.map _), Option.pure_def,
        Option.map_some]

theorem _remove_leafSlot {p : List Bool} {n : Node} (slot : LeafSlot p n) (d d' : Depth) :
    Tree._remove n d key = doRemove n d' key := by
  cases n with
  | nil => rfl
  | leaf c hash k v => simp only [Tree._remove, doRemove]
  | internal => exact slot.elim
  | hashed => exact slot.elim

theorem collapse_eq_collapseInternal {path lbl : List Bool} {c : Bool} {hash : Hash} {label : Key} {l : Depth}
    {a b d a' b' d' : Node} {ca cb cd : Bool} {ea eb ed : Option Value} (changed : Bool)
    (hn : (internal c hash label l a b d).Canonical path) (len : l.toNat = lbl.length)
    (sa : RemoveSpec (LeafSlot (path ++ lbl)) a key (a', ca, ea))
    (sb : RemoveSpec (Canonical (path ++ lbl)) b key (b', cb, eb))
    (sd : RemoveSpec (Canonical (path ++ lbl)) d key (d', cd, ed)) :
    Tree.collapse c hash label l a' b' d' changed = collapseInternal c hash label l a' b' d' changed := by
  have left : ¬ (a' = nil ∧ b' = nil ∧ d' = nil) := by
    rintro ⟨rfl, rfl, rfl⟩
    obtain ⟨q₁, v₁, q₂, v₂, differ, found₁, found₂⟩ := hn.two_keys
    -- One of the two keys is not the removed one, and it is still there.
    obtain ⟨q, v, other, found⟩ : ∃ q v, q ≠ key ∧ (internal c hash label l a b d).contents q = some v := by
      by_cases removed : q₁ = key
      · exact ⟨q₂, v₂, fun same => differ (removed.trans same.symm), found₂⟩
      · exact ⟨q₁, v₁, removed, found₁⟩
    have kept := congrFun sa.contents q
    have keptLeft := congrFun sb.contents q
    have keptRight := congrFun sd.contents q
    simp only [Function.update_of_ne other, contents_nil] at kept keptLeft keptRight
    simp [← kept, ← keptLeft, ← keptRight] at found
  -- A child that moves up is canonical below the node's full path.
  have merged {x : Node} (hx : x.Canonical (path ++ lbl)) {cx : Bool} {hx' : Hash} {childLabel : Key} {cl : Depth}
      {xa xb xd : Node} (shape : x = internal cx hx' childLabel cl xa xb xd) :
      KeyTrait.merge label l childLabel cl = label.merge l childLabel cl := by
    subst shape
    obtain ⟨lblC, -, lenC, slotC, cLeftC, -, cRightC, -, -⟩ := id hx
    have bound := hx.fullPath_bound slotC cLeftC cRightC
    simp only [List.length_append] at bound
    exact merge_eq_merge label childLabel (by omega)
  simp only [Tree.collapse, collapseInternal, LeafSlot.pointee_eq sa.shape, Canonical.derefNodePtr_eq sb.shape,
    Canonical.derefNodePtr_eq sd.shape, Option.bind_eq_bind, Option.bind_some]
  by_cases leafLeft : a' = nil
  swap
  · cases changed <;> simp [leafLeft]
  subst leafLeft
  -- No leaf node is left: at most one child moves up, by the same rule in both.
  by_cases leftGone : b' = nil
  · subst leftGone
    cases d' with
    | nil => exact absurd ⟨rfl, rfl, rfl⟩ left
    | hashed => exact sd.shape.elim
    | leaf => simp
    | internal => simp [merged sd.shape rfl]
  · by_cases rightGone : d' = nil
    · subst rightGone
      cases b' with
      | nil => exact absurd rfl leftGone
      | hashed => exact sb.shape.elim
      | leaf => simp
      | internal => simp [merged sb.shape rfl]
    · cases changed <;> simp [leftGone, rightGone]

/-- `_remove` is `doRemove` on a canonical trie. -/
theorem _remove_eq_doRemove {n : Node} {path : List Bool} (hn : n.Canonical path) (fits : key.Fits)
    {bitDepth : Depth} (depth : bitDepth.toNat = path.length) :
    Tree._remove n bitDepth key = doRemove n bitDepth key := by
  induction n generalizing path bitDepth with
  | nil => rfl
  | hashed => exact hn.elim
  | leaf c hash k v => simp only [Tree._remove, doRemove]
  | internal c hash label l leafNode left right _ ihLeft ihRight =>
    obtain ⟨lbl, enc, len, slot, cLeft, bLeft, cRight, bRight, -⟩ := id hn
    have bound := hn.fullPath_bound slot cLeft cRight
    have bitLength : (bitDepth + l).toNat = (path ++ lbl).length := by
      simp only [List.length_append] at bound ⊢
      rw [depth_add (by omega), depth, len]
    have keyLength : key.bitLength.toNat = (ofBytes key).length := by
      rw [bitLength_toNat key fits, length_ofBytes]
    simp only [Tree._remove, doRemove]
    by_cases short : key.bitLength < bitDepth + l
    · simp only [if_pos short]
    simp only [if_neg short]
    by_cases ends : key.bitLength = bitDepth + l
    · -- The key ends here: both remove it from the leaf node slot.
      have endsHere : (ofBytes key).length = (path ++ lbl).length := by rw [← keyLength, ends, bitLength]
      have notBelow (b : Bool) : ¬ path ++ lbl ++ [b] <+: ofBytes key :=
        not_prefix_of_length_lt (by simp [endsHere])
      obtain ⟨⟨a', ca, ea⟩, found, sa⟩ := doRemove_leafSlot_spec key (bitDepth + l) slot
      simp only [if_pos ends, _remove_leafSlot slot bitDepth (bitDepth + l), found, Option.bind_eq_bind,
        Option.bind_some, Option.pure_def]
      rw [collapse_eq_collapseInternal _ hn len sa
        (removeSpec_absent cLeft (bLeft.contents_eq_none (notBelow false)))
        (removeSpec_absent cRight (bRight.contents_eq_none (notBelow true)))]
    -- The key goes on: both remove it from the child its next bit selects.
    have longer : (path ++ lbl).length < (ofBytes key).length := by
      have notEq : (ofBytes key).length ≠ (path ++ lbl).length := fun eq =>
        ends (UInt16.toNat_inj.mp (by rw [keyLength, eq, bitLength]))
      have notLt : ¬ (ofBytes key).length < (path ++ lbl).length := fun lt =>
        short (UInt16.lt_iff_toNat_lt.mpr (by rw [keyLength, bitLength]; exact lt))
      omega
    have bit : key.getBit (bitDepth + l) = some (ofBytes key)[(path ++ lbl).length] := by
      rw [getBit_eq_getElem?, bitLength, List.getElem?_eq_getElem longer]
    have notLeaf : leafNode.contents key = none :=
      slot.contents_eq_none fun eq => by simp [eq] at longer
    simp only [if_neg ends, bit, Option.bind_eq_bind, Option.bind_some]
    cases hb : (ofBytes key)[(path ++ lbl).length]
    · have notRight : right.contents key = none := bRight.contents_eq_none_of_getElem longer (by rw [hb]; rfl)
      obtain ⟨⟨b', cb, eb⟩, found, sb⟩ := doRemove_spec cLeft fits bitLength
      simp only [Bool.false_eq_true, if_false, ihLeft cLeft bitLength, found, Option.bind_some, Option.pure_def]
      rw [collapse_eq_collapseInternal _ hn len (removeSpec_absent slot notLeaf) sb
        (removeSpec_absent cRight notRight)]
    · have notLeft : left.contents key = none := bLeft.contents_eq_none_of_getElem longer (by rw [hb]; rfl)
      obtain ⟨⟨d', cd, ed⟩, found, sd⟩ := doRemove_spec cRight fits bitLength
      simp only [if_true, ihRight cRight bitLength, found, Option.bind_some, Option.pure_def]
      rw [collapse_eq_collapseInternal _ hn len (removeSpec_absent slot notLeaf)
        (removeSpec_absent cLeft notLeft) sd]

end Walk

section Runs

variable {digest : List UInt8 → Hash}

/-- The Go call a runtime call makes: `remove` returns the removed value, as Go's
`RemoveExisting` does, and a commit is Go's at the given namespace and version. -/
def Tree.Op.toGo (ns : Namespace) (version : UInt64) : Tree.Op → Mkvs.Tree.Op
  | .insert key value => .insert key value
  | .remove key => .removeExisting key
  | .commit => .commit ns version

def Tree.Op.Fits : Tree.Op → Prop
  | .insert key _ => key.Fits
  | .remove key => key.Fits
  | .commit => True

theorem Tree.Op.fits_toGo {op : Tree.Op} (fits : op.Fits) (ns : Namespace) (version : UInt64) :
    (op.toGo ns version).Fits := by
  cases op <;> exact fits

theorem Tree.step_toGo {base : Key → Option Value} {t : Mkvs.Tree} (h : t.Consistent digest base)
    {op : Tree.Op} (fits : op.Fits) (ns : Namespace) (version : UInt64) :
    Tree.step digest ⟨t.pendingRoot⟩ op = (t.step digest (op.toGo ns version)).map fun t' => ⟨t'.pendingRoot⟩ := by
  cases op with
  | insert key value =>
    have same := _insert_eq_doInsert h.canonical fits 0 value
    simp only [Tree.step, Tree.insert, Mkvs.Tree.step, Tree.Op.toGo, Mkvs.Tree.insert, Option.bind_eq_bind,
      Option.map_eq_map, Option.map_bind, Function.comp_def] at same ⊢
    rcases map_fst_eq_map same with ⟨found, found'⟩ | ⟨r, o, found, found'⟩ <;> simp [found, found']
  | remove key =>
    obtain ⟨r, removed, spec⟩ := doRemove_spec h.canonical fits Mkvs.Tree.depth_root
    have same : Tree._remove t.pendingRoot 0 key = some r := by
      rw [_remove_eq_doRemove h.canonical fits Mkvs.Tree.depth_root, removed]
    simp only [Tree.step, Tree.remove, Mkvs.Tree.step, Tree.Op.toGo, same, Option.bind_eq_bind, Option.bind_some,
      Option.pure_def, Option.map_eq_map, Option.map_some]
    cases found : t.pendingEntry key with
    | none => simp [Mkvs.Tree.removeExisting, found, removed]
    | some entry =>
      obtain ⟨k, value, existed⟩ := entry
      cases value with
      | none =>
        -- Removed already: the key is not in the trie, which the removal leaves as it is.
        have gone : none = t.pendingRoot.contents key := h.value_eq found
        have unchanged : r.1 = t.pendingRoot := spec.unchanged (by rw [spec.changed, ← gone]; rfl)
        simp [Mkvs.Tree.removeExisting, found, unchanged]
      | some v => simp [Mkvs.Tree.removeExisting, found, removed]
  | commit => rfl

/-- A run of calls on the runtime's tree from the pending root of a consistent Go tree ends at
the pending root the Go calls end at. -/
theorem Tree.run_toGo {base : Key → Option Value} {t : Mkvs.Tree} (h : t.Consistent digest base)
    {ops : List Tree.Op} (fits : ∀ op ∈ ops, op.Fits) (ns : Namespace) (version : UInt64) :
    Tree.run digest ⟨t.pendingRoot⟩ ops =
      (t.run digest (ops.map (Tree.Op.toGo ns version))).map fun t' => ⟨t'.pendingRoot⟩ := by
  induction ops generalizing t base with
  | nil => rfl
  | cons op ops ih =>
    have first := fits op List.mem_cons_self
    obtain ⟨t₁, stepped, base₁, spec, -⟩ := Mkvs.Tree.step_spec h (Tree.Op.fits_toGo first ns version)
    have rustStep := Tree.step_toGo h first ns version
    rw [stepped, Option.map_some] at rustStep
    have rest := ih spec.consistent fun op' mem => fits op' (List.mem_cons_of_mem _ mem)
    simp only [Tree.run, Mkvs.Tree.run, List.foldlM_cons, List.map_cons, rustStep, stepped,
      Option.bind_eq_bind, Option.bind_some] at rest ⊢
    exact rest

end Runs

section Decoding

variable (digest : List UInt8 → Hash)

theorem keyUnmarshalBinary_eq (data : List UInt8) : keyUnmarshalBinary data = Key.sizedUnmarshalBinary data := by
  unfold keyUnmarshalBinary Key.sizedUnmarshalBinary unmarshalU16 depthSize
  split_ifs <;> simp_all

theorem getUint32_take (data : List UInt8) : getUint32 (data.take 4) = getUint32 data := by
  simp [getUint32, List.getD_eq_getElem?_getD]

theorem LeafNode.unmarshalBinary_eq (data : List UInt8) :
    LeafNode.unmarshalBinary digest data = LeafNode.sizedUnmarshalBinary digest data := by
  unfold LeafNode.unmarshalBinary LeafNode.sizedUnmarshalBinary unmarshalU32
  simp only [keyUnmarshalBinary_eq, getUint32_take, show depthSize = 2 from rfl, show valueLengthSize = 4 from rfl,
    show NodeKind.leaf.byte = prefixLeafNode from rfl]
  split_ifs with bad
  · rfl
  refine Option.bind_congr fun ⟨key, keySize⟩ _ => ?_
  dsimp only
  by_cases room : 1 + keySize + 4 > data.length
  · simp [room]
  -- The four bytes of the value length are there, so Rust's slice of them reads as Go does.
  have long : ¬data.length - (1 + keySize) < 4 := by omega
  simp [room, long]

theorem InternalNode.unmarshalBinary_eq (data : List UInt8) :
    InternalNode.unmarshalBinary digest data = InternalNode.sizedUnmarshalBinary digest data := by
  unfold InternalNode.unmarshalBinary InternalNode.sizedUnmarshalBinary NodePointer.hashPtr
  simp only [LeafNode.unmarshalBinary_eq, show NodeKind.internal.byte = prefixInternalNode from rfl,
    show NodeKind.none.byte = prefixNilNode from rfl, show unmarshalU16 = Depth.unmarshalBinary from rfl,
    show depthSize = 2 from rfl]
  split_ifs with bad
  · rfl
  refine Option.bind_congr fun ⟨labelBitLength, size⟩ read => ?_
  -- The label's bit length takes the two bytes Go skips.
  have two : size = 2 := by
    unfold Depth.unmarshalBinary at read
    split at read
    · cases read
    · cases read
      rfl
  subst two
  rfl

theorem NodeBox.unmarshalBinary_eq (data : List UInt8) :
    (NodeBox.unmarshalBinary digest data).map Prod.fst = Mkvs.unmarshalBinary digest data := by
  rcases data with _ | ⟨b, rest⟩
  · rfl
  unfold NodeBox.unmarshalBinary NodeKind.unmarshalBinary Mkvs.unmarshalBinary
  rw [InternalNode.unmarshalBinary_eq, LeafNode.unmarshalBinary_eq]
  simp only [NodeKind.byte, prefixLeafNode, prefixInternalNode]
  rcases rest with _ | ⟨c, rest⟩
  · -- A single byte, which Go refuses first, is too short for a node of either kind.
    simp [LeafNode.sizedUnmarshalBinary, InternalNode.sizedUnmarshalBinary, depthSize, valueLengthSize]
    intro kind _ _
    cases kind <;> rfl
  by_cases nil : b = 2
  · simp [nil]
  by_cases internal : b = 1
  · simp [internal]
  by_cases leaf : b = 0 <;> simp [nil, internal, leaf]

/-- The node the runtime's pointers hold for a Go node: a pointer to the empty hash is nil. -/
def Node.toRuntime : Node → Node
  | .hashed hash => NodePointer.hashPtr hash
  | .internal clean hash label labelBitLength leafNode left right =>
    .internal clean hash label labelBitLength (Node.toRuntime leafNode) (Node.toRuntime left) (Node.toRuntime right)
  | n => n

@[simp] theorem getHash_toRuntime (n : Node) : (Node.toRuntime n).getHash = n.getHash := by
  cases n with
  | hashed hash => by_cases empty : hash = Hash.empty <;> simp [Node.toRuntime, NodePointer.hashPtr, empty, getHash]
  | _ => rfl

theorem toRuntime_of_isLeafOrNil {n : Node} (h : n.isLeafOrNil = true) : Node.toRuntime n = n := by
  cases n <;> first | rfl | cases h

theorem verifyChildren_eq {proof : Proof} {fuel : Nat}
    (ih : ∀ idx log, verifyProofAt digest proof fuel idx =
      (Mkvs.verifyProof digest proof false fuel idx log).map fun r => (r.1, Node.toRuntime r.2.1))
    (label : Key) (labelBitLength : Depth) {leaf leaf' : Node} (slot : leaf' = Node.toRuntime leaf) (pos : Nat)
    (log : WriteLog) :
    ((verifyProofAt digest proof fuel pos).bind fun l => (verifyProofAt digest proof fuel l.1).bind fun r =>
      some (r.1, .internal true (internalNodeHash digest label labelBitLength leaf'.getHash l.2.getHash r.2.getHash)
        label labelBitLength leaf' l.2 r.2)) =
    ((Mkvs.verifyProof digest proof false fuel pos log).bind fun l =>
      (Mkvs.verifyProof digest proof false fuel l.1 l.2.2).bind fun r =>
        some (r.1, .internal true (internalNodeHash digest label labelBitLength leaf.getHash l.2.1.getHash
          r.2.1.getHash) label labelBitLength leaf l.2.1 r.2.1, r.2.2)).map fun r => (r.1, Node.toRuntime r.2.1) := by
  subst slot
  rw [ih pos log]
  rcases Mkvs.verifyProof digest proof false fuel pos log with _ | ⟨pos, left, log⟩
  · rfl
  simp only [Option.map_some, Option.bind_some]
  rw [ih pos log]
  rcases Mkvs.verifyProof digest proof false fuel pos log with _ | ⟨pos, right, log⟩
  · rfl
  simp [Node.toRuntime]

theorem verifyProofAt_eq (proof : Proof) (fuel idx : Nat) (log : WriteLog) :
    verifyProofAt digest proof fuel idx =
      (Mkvs.verifyProof digest proof false fuel idx log).map fun r => (r.1, Node.toRuntime r.2.1) := by
  induction fuel generalizing idx log with
  | zero => rfl
  | succ fuel ih =>
    unfold verifyProofAt Mkvs.verifyProof
    rcases entry : proof.entries[idx]? with _ | _ | _ | ⟨tag, body⟩
    · rfl
    · rfl
    · rfl
    dsimp only
    by_cases full : tag = proofEntryFull
    · simp only [full, if_true]
      rw [← NodeBox.unmarshalBinary_eq]
      rcases read : NodeBox.unmarshalBinary digest body with _ | ⟨node, size⟩
      · rfl
      have decoded := unmarshalBinary_spec digest proof.v (by rw [← NodeBox.unmarshalBinary_eq, read]; rfl)
      simp only [Option.bind_eq_bind, Option.bind_some, Option.map_some, Option.pure_def, Bool.false_eq_true,
        if_false]
      rcases decoded with ⟨leafOrNil, -⟩ | ⟨hash, label, labelBitLength, leafNode, left, right, rfl, -, slot, -⟩
      · cases node <;> first | rfl | cases leafOrNil
      by_cases v0 : proof.v = 0
      · -- Version 0: the leaf node slot is the decoded one, a leaf or nothing.
        simp only [v0, if_true]
        exact verifyChildren_eq digest ih label labelBitLength (toRuntime_of_isLeafOrNil slot).symm (idx + 1) log
      by_cases v1 : proof.v = 1
      · -- Version 1: the leaf node slot is read from the next entries first.
        simp only [v1, if_true]
        rw [ih (idx + 1) log]
        rcases Mkvs.verifyProof digest proof false fuel (idx + 1) log with _ | ⟨pos, leaf, log⟩
        · rfl
        simp only [Option.map_some, Option.bind_some]
        exact verifyChildren_eq digest ih label labelBitLength rfl pos log
      · simp [v0, v1]
    rw [if_neg full, if_neg full]
    by_cases hashEntry : tag = proofEntryHash
    · rw [if_pos hashEntry, if_pos hashEntry]
      by_cases sized : body.length = hashSize <;> simp [sized, hashUnmarshalBinary, Node.toRuntime]
    · rw [if_neg hashEntry, if_neg hashEntry]
      rfl

/-- The runtime's verifier accepts the proofs Go's does, with the same subtree up to the pointers
to the empty hash; Go also reads a root of the empty hash as nil. -/
theorem ProofVerifier.verifyProof_eq (root : Hash) (proof : Proof) :
    (Runtime.ProofVerifier.verifyProof digest root proof).map (fun n => if n.getHash = Hash.empty then .nil else n) =
      (Mkvs.ProofVerifier.verifyProof digest root proof).map Node.toRuntime := by
  unfold Runtime.ProofVerifier.verifyProof Mkvs.ProofVerifier.verifyProof verifyProofOpts
  rw [show maxProofVersion = latestProofVersion from rfl]
  split_ifs
  · rfl
  · rfl
  · rfl
  rw [verifyProofAt_eq digest proof _ 0 []]
  rcases Mkvs.verifyProof digest proof false (proof.entries.length + 1) 0 [] with _ | ⟨idx, rootPtr, log⟩
  · rfl
  by_cases used : idx = proof.entries.length
  · by_cases rooted : rootPtr.getHash = root
    · subst rooted
      by_cases empty : rootPtr.getHash = Hash.empty <;> simp [used, empty, Node.toRuntime]
    · simp [used, rooted]
  · simp [used]

end Decoding

section Agreement

variable {digest : List UInt8 → Hash}

theorem runtime_agrees_with_go {root : Root} {rootNode : Node} (canonical : rootNode.Canonical [])
    (coherent : Coherent digest rootNode) (withoutWriteLog : Bool) {ops : List Tree.Op}
    (fits : ∀ op ∈ ops, op.Fits) (ns : Namespace) (version : UInt64) :
    (∃ t, (Mkvs.Tree.newWithRoot root rootNode withoutWriteLog).run digest (ops.map (Tree.Op.toGo ns version)) = some t ∧
      Tree.run digest ⟨rootNode⟩ ops = some ⟨t.pendingRoot⟩ ∧
      (Tree.commit digest ⟨t.pendingRoot⟩).1 = (t.commit digest ns version).2.1) ∧
    (∀ data, (NodeBox.unmarshalBinary digest data).map Prod.fst = Mkvs.unmarshalBinary digest data) ∧
    ∀ root' proof, (Runtime.ProofVerifier.verifyProof digest root' proof).map
        (fun n => if n.getHash = Hash.empty then .nil else n) =
      (Mkvs.ProofVerifier.verifyProof digest root' proof).map Node.toRuntime := by
  have consistent := Mkvs.Tree.consistent_newWithRoot root canonical coherent withoutWriteLog
  obtain ⟨t, ran, -⟩ := Mkvs.Tree.run_spec consistent fun op mem => by
    obtain ⟨op', mem', rfl⟩ := List.mem_map.mp mem
    exact Tree.Op.fits_toGo (fits op' mem') ns version
  have same := Tree.run_toGo consistent fits ns version
  rw [ran, Option.map_some] at same
  exact ⟨⟨t, ran, same, rfl⟩, NodeBox.unmarshalBinary_eq digest, ProofVerifier.verifyProof_eq digest⟩

theorem runtime_agrees_with_go_remove_inserted :
    (∃ t, (Mkvs.Tree.newWithRoot (Root.empty 0) .nil false).run id
        ([Tree.Op.insert [1] [2], .remove [1], .commit].map (Tree.Op.toGo Namespace.empty 1)) = some t ∧
      Tree.run id ⟨.nil⟩ [.insert [1] [2], .remove [1], .commit] = some ⟨t.pendingRoot⟩ ∧
      (Tree.commit id ⟨t.pendingRoot⟩).1 = (t.commit id Namespace.empty 1).2.1) ∧
    (∀ data, (NodeBox.unmarshalBinary id data).map Prod.fst = Mkvs.unmarshalBinary id data) ∧
    ∀ root' proof, (Runtime.ProofVerifier.verifyProof id root' proof).map
        (fun n => if n.getHash = Hash.empty then .nil else n) =
      (Mkvs.ProofVerifier.verifyProof id root' proof).map Node.toRuntime :=
  runtime_agrees_with_go (show Node.nil.Canonical [] from trivial) (by simp [Coherent, subtrees]) false
    (by simp [Tree.Op.Fits, Key.Fits]) _ _

/-- With a key of 65537 bytes, whose byte length is 1 as a `Depth`, Go's `Split` cuts the key's
suffix one byte short where Rust's does not, and the two trees commit to different roots. -/
theorem runtime_tree_long_key_hash_ne :
    ∃ t r, (Mkvs.Tree.new 0 false).run id ([Tree.Op.insert (0 :: 255 :: List.replicate 65535 0) [1],
        .insert [0x40] [1], .insert [0] [1]].map (Tree.Op.toGo Namespace.empty 1)) = some t ∧
      Tree.run id ⟨.nil⟩ [.insert (0 :: 255 :: List.replicate 65535 0) [1], .insert [0x40] [1], .insert [0] [1]] =
        some r ∧
      (Tree.commit id r).1 ≠ (t.commit id Namespace.empty 1).2.1 := by
  -- Both runs and their root hashes, evaluated once by the kernel.
  have checked : ((Mkvs.Tree.new 0 false).run id ([Tree.Op.insert (0 :: 255 :: List.replicate 65535 0) [1],
        .insert [0x40] [1], .insert [0] [1]].map (Tree.Op.toGo Namespace.empty 1))).bind (fun t =>
      (Tree.run id ⟨.nil⟩ [.insert (0 :: 255 :: List.replicate 65535 0) [1], .insert [0x40] [1],
        .insert [0] [1]]).map fun r => (Tree.commit id r).1 != (t.commit id Namespace.empty 1).2.1) = some true := by
    decide +kernel
  obtain ⟨t, ran, hashes⟩ := Option.bind_eq_some_iff.mp checked
  obtain ⟨r, rustRun, differ⟩ := Option.map_eq_some_iff.mp hashes
  exact ⟨t, r, ran, rustRun, fun same => by simp [same] at differ⟩

end Agreement

end Orphiq.Runtime

import OrphiqCore.Mkvs.Proof
import OrphiqCore.Mkvs.Trie

/-!
# Lookup

`tree.doGet` of `lookup.go`. The walk follows the key's bits like the other operations; when
a proof is being built, every node it dereferences is included, and with `includeSiblings`
the siblings of the path are included too (and, in version 1, the leaf nodes beside it).

The proof builder is one object that all the recursive calls share through a pointer, so
the model threads it through the calls and returns it. A version 0 builder is not passed to
the leaf node of an internal node, which its internal node already carries.
-/

namespace Orphiq.Mkvs

open Bits Node

structure DoGetOptions where
  proofBuilder : Option ProofBuilder
  includeSiblings : Bool
  deriving Repr, DecidableEq

/-- `tree.doGet`: the value stored under `key` below the node at bit depth `bitDepth`, and
the proof builder after the nodes visited were included. With `stop` the node is only
included. -/
def doGet (key : Key) : Node → Depth → DoGetOptions → Bool → Option (Option Value × Option ProofBuilder)
  | .nil, _, opts, _ => some (none, opts.proofBuilder)
  | .hashed hash, _, opts, _ => if hash = Hash.empty then some (none, opts.proofBuilder) else none
  | .leaf clean h nKey nValue, _, opts, stop => do
    let pb ← opts.proofBuilder.mapM (·.includeNode (.leaf clean h nKey nValue))
    if stop then pure (none, pb)
    else pure (if nKey = key then some nValue else none, pb)
  | .internal clean h label labelBitLength leafNode left right, bitDepth, opts, stop => do
    let pb ← opts.proofBuilder.mapM (·.includeNode (.internal clean h label labelBitLength leafNode left right))
    if stop then pure (none, pb)
    else
      let bitLength := bitDepth + labelBitLength
      if key.bitLength = bitLength then do
        -- Also fetch the left and right siblings.
        let pb ← if opts.includeSiblings then do
            let (_, pb) ← doGet key left bitLength { opts with proofBuilder := pb } true
            let (_, pb) ← doGet key right bitLength { opts with proofBuilder := pb } true
            pure pb
          else pure pb
        -- A version 0 proof carries the leaf node inside the internal node.
        if pb.any (·.proofVersion = 0) then
          let (value, _) ← doGet key leafNode bitLength { opts with proofBuilder := none } false
          pure (value, pb)
        else doGet key leafNode bitLength { opts with proofBuilder := pb } false
      else if key.bitLength < bitLength then pure (none, pb)
      else do
        -- `fn(visit, other, leaf)` of the Go code, for the two values of the bit.
        if (← key.getBit bitLength) then
          let (value, pb) ← doGet key right bitLength { opts with proofBuilder := pb } false
          let pb ← if opts.includeSiblings then do
              let pb ← if pb.any (·.proofVersion > 0) then
                  (·.2) <$> doGet key leafNode bitLength { opts with proofBuilder := pb } true
                else pure pb
              (·.2) <$> doGet key left bitLength { opts with proofBuilder := pb } true
            else pure pb
          pure (value, pb)
        else
          let (value, pb) ← doGet key left bitLength { opts with proofBuilder := pb } false
          let pb ← if opts.includeSiblings then do
              let pb ← if pb.any (·.proofVersion > 0) then
                  (·.2) <$> doGet key leafNode bitLength { opts with proofBuilder := pb } true
                else pure pb
              (·.2) <$> doGet key right bitLength { opts with proofBuilder := pb } true
            else pure pb
          pure (value, pb)

section Walk

variable {key : Key} {bitDepth : Depth}

theorem doGet_stop {path : List Bool} {n : Node} (hn : n.Canonical path) (includeSiblings : Bool) : doGet key n bitDepth ⟨none, includeSiblings⟩ true = some (none, none) := by
  cases n with
  | hashed => exact hn.elim
  | _ => simp [doGet]

theorem doGet_leafSlot {p : List Bool} {m : Node} (slot : LeafSlot p m) (includeSiblings : Bool) : doGet key m bitDepth ⟨none, includeSiblings⟩ false = some (m.contents key, none) := by
  cases m with
  | nil => rfl
  | internal => exact slot.elim
  | hashed => exact slot.elim
  | leaf c h k v =>
    by_cases same : k = key
    · simp [doGet, same]
    · simp [doGet, same, Ne.symm same]

theorem doGet_internal_spec {path : List Bool} {c : Bool} {hash : Hash} {label : Key} {l : Depth}
    {leafNode left right : Node} (hn : (Node.internal c hash label l leafNode left right).Canonical path)
    (fits : key.Fits) (depth : bitDepth.toNat = path.length) (includeSiblings : Bool)
    (ihLeft : ∀ {path' : List Bool} {d : Depth}, left.Canonical path' → d.toNat = path'.length →
      doGet key left d ⟨none, includeSiblings⟩ false = some (left.contents key, none))
    (ihRight : ∀ {path' : List Bool} {d : Depth}, right.Canonical path' → d.toNat = path'.length →
      doGet key right d ⟨none, includeSiblings⟩ false = some (right.contents key, none)) :
    doGet key (.internal c hash label l leafNode left right) bitDepth ⟨none, includeSiblings⟩ false =
      some ((Node.internal c hash label l leafNode left right).contents key, none) := by
  obtain ⟨lbl, enc, len, slot, cLeft, bLeft, cRight, bRight, branching⟩ := id hn
  have bound := hn.fullPath_bound slot cLeft cRight
  have bitLength : (bitDepth + l).toNat = (path ++ lbl).length := by
    simp only [List.length_append] at bound ⊢
    rw [depth_add (by omega), depth, len]
  have keyLength : key.bitLength.toNat = (ofBytes key).length := by
    rw [bitLength_toNat key fits, length_ofBytes]
  simp only [doGet, Option.mapM_none, Bool.false_eq_true, if_false, Option.bind_eq_bind, Option.bind_some,
    Option.pure_def]
  by_cases ends : key.bitLength = bitDepth + l
  · -- The key ends here: only the leaf node can hold it.
    have endsHere : (ofBytes key).length = (path ++ lbl).length := by rw [← keyLength, ends, bitLength]
    have notBelow (b : Bool) : ¬ path ++ lbl ++ [b] <+: ofBytes key :=
      not_prefix_of_length_lt (by simp [endsHere])
    rw [if_pos ends]
    cases includeSiblings <;>
      simp [doGet_stop cLeft, doGet_stop cRight, doGet_leafSlot slot, bLeft.contents_eq_none (notBelow false),
        bRight.contents_eq_none (notBelow true)]
  rw [if_neg ends]
  by_cases short : key.bitLength < bitDepth + l
  · -- The key is too short for the label.
    have belowAll : Below (path ++ lbl) (Node.internal c hash label l leafNode left right) :=
      Canonical.below_slots slot cLeft.below cRight.below
    rw [if_pos short, belowAll.contents_eq_none (not_prefix_of_length_lt ?_)]
    rw [UInt16.lt_iff_toNat_lt, keyLength, bitLength] at short
    exact short
  rw [if_neg short]
  -- The key goes on: into the child its next bit selects.
  have longer : (path ++ lbl).length < (ofBytes key).length := by
    have notEq : (ofBytes key).length ≠ (path ++ lbl).length := fun eq =>
      ends (UInt16.toNat_inj.mp (by rw [keyLength, eq, bitLength]))
    have notLt : ¬ (ofBytes key).length < (path ++ lbl).length := fun lt =>
      short (UInt16.lt_iff_toNat_lt.mpr (by rw [keyLength, bitLength]; exact lt))
    omega
  have bit : key.getBit (bitDepth + l) = some (ofBytes key)[(path ++ lbl).length] := by
    rw [getBit_eq_getElem?, bitLength, List.getElem?_eq_getElem longer]
  have notLeaf : leafNode.contents key = none :=
    slot.contents_eq_none fun eq => by simp [eq] at longer
  rw [bit, Option.bind_some]
  cases hb : (ofBytes key)[(path ++ lbl).length]
  · have notRight : right.contents key = none := bRight.contents_eq_none_of_getElem longer (by rw [hb]; rfl)
    cases includeSiblings <;>
      simp [ihLeft cLeft bitLength, doGet_stop cRight, notLeaf, notRight]
  · have notLeft : left.contents key = none := bLeft.contents_eq_none_of_getElem longer (by rw [hb]; rfl)
    cases includeSiblings <;>
      simp [ihRight cRight bitLength, doGet_stop cLeft, notLeaf, notLeft]

/-- A lookup without a proof builder in a canonical trie returns the value the trie holds
for the key, whatever the key. -/
theorem doGet_spec {n : Node} {path : List Bool} (hn : n.Canonical path) (fits : key.Fits)
    (depth : bitDepth.toNat = path.length) (includeSiblings : Bool) :
    doGet key n bitDepth ⟨none, includeSiblings⟩ false = some (n.contents key, none) := by
  induction n generalizing path bitDepth with
  | hashed => exact hn.elim
  | nil => rfl
  | leaf c h k v => exact doGet_leafSlot (m := .leaf c h k v) (p := ofBytes k) ⟨rfl, hn.2⟩ includeSiblings
  | internal c hash label l leafNode left right _ ihLeft ihRight =>
    exact doGet_internal_spec hn fits depth includeSiblings ihLeft ihRight

end Walk

end Orphiq.Mkvs

import OrphiqCore.Mkvs.Node

/-!
# Removal

`tree.doRemove` of `remove.go`. The key is removed below the node it selects, and an
internal node left with one of its leaf node, left and right children is replaced by that
child; an internal child then takes over the parent's label in front of its own.
-/

namespace Orphiq.Mkvs

/-- The end of `tree.doRemove` for an internal node, once the key was removed below it:
collapse the node if at most one of its leaf node and children remains, or else mark it
dirty if something changed. Returns the new pointer and the `changed` flag. -/
def collapseInternal (clean : Bool) (hash : Hash) (label : Key) (labelBitLength : Depth)
    (leafNode left right : Node) (changed : Bool) : Option (Node × Bool) := do
  -- The leaf node is always held with the internal node, so it is not fetched.
  let remainingLeaf := leafNode.pointee
  let remainingLeft ← derefNodePtr left
  let remainingRight ← derefNodePtr right
  if remainingLeaf ≠ .nil ∧ remainingLeft = .nil ∧ remainingRight = .nil then
    pure (leafNode, true)
  else if remainingLeaf = .nil ∧ (remainingLeft = .nil ∨ remainingRight = .nil) then
    let (nodePtr, ndChild) := if remainingLeft ≠ .nil then (left, remainingLeft) else (right, remainingRight)
    match ndChild with
    | .internal _ childHash childLabel childLabelBitLength childLeaf childLeft childRight => do
      -- The child moves up by the parent's label.
      let merged ← label.merge labelBitLength childLabel childLabelBitLength
      pure (.internal false childHash merged (childLabelBitLength + labelBitLength) childLeaf childLeft
        childRight, true)
    | _ => pure (nodePtr, true)
  else if changed then pure (.internal false hash label labelBitLength leafNode left right, changed)
  else pure (.internal clean hash label labelBitLength leafNode left right, changed)

/-- `tree.doRemove`: remove `key` below the node at bit depth `bitDepth`; returns the new
pointer, whether anything changed, and the removed value. -/
def doRemove : Node → Depth → Key → Option (Node × Bool × Option Value)
  | .nil, _, _ => pure (.nil, false, none)
  | .internal clean hash label labelBitLength leafNode left right, bitDepth, key => do
    let bitLength := bitDepth + labelBitLength
    if key.bitLength < bitLength then
      -- The key is too short for the label, so it is not stored here.
      pure (.internal clean hash label labelBitLength leafNode left right, false, none)
    else
      let (leafNode, left, right, changed, existing) ← if key.bitLength = bitLength then do
          let (leafNode, changed, existing) ← doRemove leafNode bitLength key
          pure (leafNode, left, right, changed, existing)
        else do
          if (← key.getBit bitLength) then
            let (right, changed, existing) ← doRemove right bitLength key
            pure (leafNode, left, right, changed, existing)
          else
            let (left, changed, existing) ← doRemove left bitLength key
            pure (leafNode, left, right, changed, existing)
      let (newRoot, changed) ← collapseInternal clean hash label labelBitLength leafNode left right changed
      pure (newRoot, changed, existing)
  | .leaf clean hash nKey nValue, _, key =>
    if nKey = key then pure (.nil, true, some nValue)
    else pure (.leaf clean hash nKey nValue, false, none)
  | .hashed hash, _, _ =>
    -- Only the empty hash dereferences, to a nil node.
    if hash = Hash.empty then pure (.nil, false, none) else none

end Orphiq.Mkvs

import OrphiqCore.Mkvs.Node
import OrphiqCore.Mkvs.KeyBits

/-!
# Canonical tries

What a tree of nodes means and which shapes the tree operations keep. `Node.contents` is the
key-value map a subtree holds, read off its leaves. `Node.Canonical path` says that a subtree
hanging at bit path `path` is the compressed binary trie of its contents: every internal node
has at least two of its leaf node, left and right children, its label holds the bits all its
keys share, the leaf node holds the key that ends there and the children hold the keys that
go on with bit 0 and bit 1, and every key fits a `Depth`.

`Canonical.erase_eq` is the reason the root hash does not depend on the history: two
canonical tries with the same contents have the same shape.
-/

namespace Orphiq.Mkvs
open Bits

/-- The bit length of the key is a `Depth`: Go's `Key.BitLength` does not wrap. -/
def Key.Fits (k : Key) : Prop := 8 * k.length < 2 ^ 16

instance (k : Key) : Decidable k.Fits := inferInstanceAs (Decidable (_ < _))

namespace Node

/-- The key-value map held below a node. -/
def contents : Node → Key → Option Value
  | nil => fun _ => none
  | internal _ _ _ _ leafNode left right => fun q =>
    (leafNode.contents q).or ((left.contents q).or (right.contents q))
  | leaf _ _ key value => fun q => if q = key then some value else none
  | hashed _ => fun _ => none

def present : Node → Nat
  | nil => 0
  | _ => 1

/-- The node with its cache fields (clean flags and cached hashes) cleared: its shape. -/
def erase : Node → Node
  | nil => nil
  | internal _ _ label labelBitLength leafNode left right =>
    internal false [] label labelBitLength leafNode.erase left.erase right.erase
  | leaf _ _ key value => leaf false [] key value
  | hashed hash => hashed hash

/-- The resident nodes of a subtree, its root first. -/
def subtrees : Node → List Node
  | nil => []
  | internal c hash label l leafNode left right =>
    internal c hash label l leafNode left right :: (leafNode.subtrees ++ left.subtrees ++ right.subtrees)
  | leaf c hash key value => [leaf c hash key value]
  | hashed _ => []

@[simp] theorem contents_nil (q : Key) : nil.contents q = none := rfl

@[simp] theorem contents_leaf (c : Bool) (h : Hash) (key : Key) (value : Value) (q : Key) :
    (leaf c h key value).contents q = if q = key then some value else none := rfl

@[simp] theorem contents_internal (c : Bool) (h : Hash) (label : Key) (l : Depth)
    (leafNode left right : Node) (q : Key) :
    (internal c h label l leafNode left right).contents q =
      (leafNode.contents q).or ((left.contents q).or (right.contents q)) := rfl

@[simp] theorem present_nil : nil.present = 0 := rfl

@[simp] theorem present_leaf (c : Bool) (h : Hash) (key : Key) (value : Value) :
    (leaf c h key value).present = 1 := rfl

@[simp] theorem present_internal (c : Bool) (h : Hash) (label : Key) (l : Depth) (a b d : Node) :
    (internal c h label l a b d).present = 1 := rfl

@[simp] theorem subtrees_nil : nil.subtrees = [] := rfl

@[simp] theorem isClean_nil : nil.isClean = true := rfl

@[simp] theorem isClean_internal (c : Bool) (h : Hash) (label : Key) (l : Depth) (a b d : Node) :
    (internal c h label l a b d).isClean = c := rfl

@[simp] theorem isClean_leaf (c : Bool) (h : Hash) (key : Key) (value : Value) :
    (leaf c h key value).isClean = c := rfl

theorem present_le_one (n : Node) : n.present ≤ 1 := by
  cases n <;> simp [present]

theorem eq_nil_of_present {n : Node} (h : n.present ≠ 1) : n = nil := by
  cases n <;> simp_all [present]

theorem present_of_contents {n : Node} {q : Key} {v : Value} (found : n.contents q = some v) :
    n.present = 1 := by
  cases n with
  | nil => simp at found
  | _ => rfl

theorem mem_subtrees_internal {m : Node} (c : Bool) (h : Hash) (label : Key) (l : Depth) {a b d : Node}
    (mem : m ∈ a.subtrees ∨ m ∈ b.subtrees ∨ m ∈ d.subtrees) : m ∈ (internal c h label l a b d).subtrees := by
  simp only [subtrees, List.mem_cons, List.mem_append]
  tauto

@[simp] theorem erase_nil : nil.erase = nil := rfl

end Node

/-- Every key below `n` begins with the bits `pre`. -/
def Below (pre : List Bool) (n : Node) : Prop :=
  ∀ q v, n.contents q = some v → pre <+: ofBytes q

/-- The leaf node slot of an internal node at full path `path`: empty, or a leaf whose key
is exactly `path`. -/
def LeafSlot (path : List Bool) : Node → Prop
  | .nil => True
  | .leaf _ _ key _ => ofBytes key = path ∧ key.Fits
  | .internal .. => False
  | .hashed _ => False

/-- `n`, hanging at bit path `path`, is the compressed trie of its contents. -/
def Node.Canonical : List Bool → Node → Prop
  | _, .nil => True
  | path, .leaf _ _ key _ => path <+: ofBytes key ∧ key.Fits
  | path, .internal _ _ label labelBitLength leafNode left right =>
    ∃ lbl, label.Encodes lbl ∧ labelBitLength.toNat = lbl.length ∧
      LeafSlot (path ++ lbl) leafNode ∧
      Canonical (path ++ lbl) left ∧ Below (path ++ lbl ++ [false]) left ∧
      Canonical (path ++ lbl) right ∧ Below (path ++ lbl ++ [true]) right ∧
      2 ≤ leafNode.present + left.present + right.present
  | _, .hashed _ => False

theorem LeafSlot.path_eq {path : List Bool} {n : Node} (h : LeafSlot path n) {q : Key} {v : Value}
    (found : n.contents q = some v) : ofBytes q = path := by
  cases n with
  | nil => simp at found
  | internal => exact h.elim
  | hashed => exact h.elim
  | leaf c hash key value =>
    simp only [Node.contents_leaf, Option.ite_none_right_eq_some] at found
    rw [found.1]
    exact h.1

theorem LeafSlot.contents_eq_none {path : List Bool} {n : Node} (h : LeafSlot path n) {q : Key}
    (other : ofBytes q ≠ path) : n.contents q = none := by
  cases found : n.contents q with
  | none => rfl
  | some v => exact absurd (h.path_eq found) other

theorem LeafSlot.fits {path : List Bool} {n : Node} (h : LeafSlot path n) {q : Key} {v : Value}
    (found : n.contents q = some v) : q.Fits := by
  cases n with
  | nil => simp at found
  | internal => exact h.elim
  | hashed => exact h.elim
  | leaf c hash key value =>
    simp only [Node.contents_leaf, Option.ite_none_right_eq_some] at found
    rw [found.1]
    exact h.2

theorem LeafSlot.exists_key {path : List Bool} {n : Node} (h : LeafSlot path n) (present : n.present = 1) :
    ∃ q v, n.contents q = some v := by
  cases n with
  | nil => simp at present
  | internal => exact h.elim
  | hashed => exact h.elim
  | leaf c hash key value => exact ⟨key, value, by simp⟩

theorem LeafSlot.canonical {path : List Bool} {n : Node} (slot : LeafSlot path n) : n.Canonical path := by
  cases n with
  | nil => trivial
  | leaf => exact ⟨slot.1 ▸ List.prefix_refl _, slot.2⟩
  | internal | hashed => exact slot.elim

theorem Below.contents_eq_none {pre : List Bool} {n : Node} (h : Below pre n) {q : Key}
    (other : ¬ pre <+: ofBytes q) : n.contents q = none := by
  cases found : n.contents q with
  | none => rfl
  | some v => exact absurd (h q v found) other

theorem Below.contents_eq_none_of_getElem {p : List Bool} {b : Bool} {n : Node} {q : Key}
    (h : Below (p ++ [b]) n) (longer : p.length < (ofBytes q).length) (bit : (ofBytes q)[p.length] = !b) :
    n.contents q = none := by
  refine h.contents_eq_none fun pre => ?_
  have same := pre.getElem (show p.length < (p ++ [b]).length by simp)
  simp only [List.getElem_append_right (Nat.le_refl _), Nat.sub_self, List.getElem_singleton, bit] at same
  cases b <;> simp at same

theorem Below.update {pre : List Bool} {n n' : Node} {key : Key} {val : Value} (h : Below pre n)
    (hkey : pre <+: ofBytes key) (contents : n'.contents = Function.update n.contents key (some val)) :
    Below pre n' := by
  intro q v found
  rw [contents, Function.update_apply] at found
  split at found
  · rename_i same
    rw [same]
    exact hkey
  · exact h q v found

theorem not_prefix_both (p x : List Bool) (hf : p ++ [false] <+: x) (ht : p ++ [true] <+: x) : False := by
  rcases List.prefix_or_prefix_of_prefix hf ht with h | h
  · have := List.IsPrefix.eq_of_length h (by simp)
    simp at this
  · have := List.IsPrefix.eq_of_length h (by simp)
    simp at this

theorem not_prefix_of_length_lt {a b : List Bool} (h : a.length < b.length) : ¬ b <+: a :=
  fun pre => absurd pre.length_le (by omega)

/-! ### The three slots of an internal node

The keys of the leaf node are exactly the full path `p`, those of the left child go on with
bit 0 and those of the right child with bit 1, so each slot holds the restriction of the
node's map to its keys. -/

section Slots

variable {p : List Bool} {leafNode left right : Node}

theorem leafNode_contents_eq (slot : LeafSlot p leafNode) (belowLeft : Below (p ++ [false]) left)
    (belowRight : Below (p ++ [true]) right) (q : Key) :
    leafNode.contents q =
      if ofBytes q = p then (leafNode.contents q).or ((left.contents q).or (right.contents q))
      else none := by
  by_cases atPath : ofBytes q = p
  · have short : (ofBytes q).length < (p ++ [false]).length := by simp [atPath]
    rw [if_pos atPath, belowLeft.contents_eq_none (not_prefix_of_length_lt short),
      belowRight.contents_eq_none (not_prefix_of_length_lt (by simpa using short))]
    cases leafNode.contents q <;> rfl
  · rw [if_neg atPath]
    cases found : leafNode.contents q with
    | none => rfl
    | some v => exact absurd (slot.path_eq found) atPath

theorem left_contents_eq (slot : LeafSlot p leafNode) (belowLeft : Below (p ++ [false]) left)
    (belowRight : Below (p ++ [true]) right) (q : Key) :
    left.contents q =
      if p ++ [false] <+: ofBytes q then (leafNode.contents q).or ((left.contents q).or (right.contents q))
      else none := by
  by_cases goesLeft : p ++ [false] <+: ofBytes q
  · have notLeaf : leafNode.contents q = none := by
      cases found : leafNode.contents q with
      | none => rfl
      | some v =>
        have := goesLeft.length_le
        rw [slot.path_eq found] at this
        simp at this
    rw [if_pos goesLeft, notLeaf,
      belowRight.contents_eq_none fun goesRight => not_prefix_both p _ goesLeft goesRight]
    cases left.contents q <;> rfl
  · rw [if_neg goesLeft, belowLeft.contents_eq_none goesLeft]

theorem right_contents_eq (slot : LeafSlot p leafNode) (belowLeft : Below (p ++ [false]) left)
    (belowRight : Below (p ++ [true]) right) (q : Key) :
    right.contents q =
      if p ++ [true] <+: ofBytes q then (leafNode.contents q).or ((left.contents q).or (right.contents q))
      else none := by
  by_cases goesRight : p ++ [true] <+: ofBytes q
  · have notLeaf : leafNode.contents q = none := by
      cases found : leafNode.contents q with
      | none => rfl
      | some v =>
        have := goesRight.length_le
        rw [slot.path_eq found] at this
        simp at this
    rw [if_pos goesRight, notLeaf,
      belowLeft.contents_eq_none fun goesLeft => not_prefix_both p _ goesLeft goesRight]
    rfl
  · rw [if_neg goesRight, belowRight.contents_eq_none goesRight]

theorem contents_of_left (slot : LeafSlot p leafNode) (belowLeft : Below (p ++ [false]) left)
    (belowRight : Below (p ++ [true]) right) {q : Key} {v : Value} (found : left.contents q = some v) :
    (leafNode.contents q).or ((left.contents q).or (right.contents q)) = some v := by
  have restricted := left_contents_eq slot belowLeft belowRight q
  split at restricted
  · rw [← restricted]
    exact found
  · rw [found] at restricted
    simp at restricted

theorem contents_of_right (slot : LeafSlot p leafNode) (belowLeft : Below (p ++ [false]) left)
    (belowRight : Below (p ++ [true]) right) {q : Key} {v : Value} (found : right.contents q = some v) :
    (leafNode.contents q).or ((left.contents q).or (right.contents q)) = some v := by
  have restricted := right_contents_eq slot belowLeft belowRight q
  split at restricted
  · rw [← restricted]
    exact found
  · rw [found] at restricted
    simp at restricted

end Slots

theorem LeafSlot.erase_eq {path : List Bool} {a b : Node} (ha : LeafSlot path a) (hb : LeafSlot path b)
    (same : a.contents = b.contents) : a.erase = b.erase := by
  cases a with
  | internal => exact ha.elim
  | hashed => exact ha.elim
  | nil =>
    cases b with
    | internal => exact hb.elim
    | hashed => exact hb.elim
    | nil => rfl
    | leaf c hash key value => simpa using (congrFun same key).symm
  | leaf c hash key value =>
    cases b with
    | internal => exact hb.elim
    | hashed => exact hb.elim
    | nil => simpa using congrFun same key
    | leaf c' hash' key' value' =>
      have atKey := congrFun same key
      simp only [Node.contents_leaf, if_true] at atKey
      split at atKey
      · rename_i sameKey
        simp only [Option.some.injEq] at atKey
        simp [Node.erase, sameKey, atKey]
      · simp at atKey

/-! ### Walking a key down the trie -/

theorem getBit_eq_getElem? (key : Key) (bit : Depth) : key.getBit bit = (ofBytes key)[bit.toNat]? := by
  by_cases inside : bit.toNat < 8 * key.length
  · rw [getBit_eq key bit inside, getElem?_ofBytes, if_pos inside]
  · rw [getBit_of_le key bit (by omega), getElem?_ofBytes, if_neg inside]

theorem depth_add {d l : Depth} (h : d.toNat + l.toNat < 2 ^ 16) : (d + l).toNat = d.toNat + l.toNat := by
  rw [UInt16.toNat_add, Nat.mod_eq_of_lt h]

theorem depth_sub {a b : Depth} (h : b.toNat ≤ a.toNat) : (a - b).toNat = a.toNat - b.toNat :=
  UInt16.toNat_sub_of_le a b (UInt16.le_iff_toNat_le.mpr h)

theorem remainder_of_prefix {path : List Bool} {key : Key} (hkey : path <+: ofBytes key) (fits : key.Fits)
    {d : Depth} (depth : d.toNat = path.length) :
    ∃ pre rem, key.split d key.bitLength = some (pre, rem) ∧ rem.Encodes ((ofBytes key).drop path.length) ∧
      rem.Fits ∧ (key.bitLength - d).toNat = ((ofBytes key).drop path.length).length := by
  have short := hkey.length_le
  rw [length_ofBytes] at short
  obtain ⟨pre, rem, split, enc⟩ := split_remainder key d fits (by omega)
  have bits := bitLength_toNat key fits
  rw [depth] at enc
  refine ⟨pre, rem, split, enc, ?_, ?_⟩
  · unfold Key.Fits
    rw [enc.1, List.length_drop, length_ofBytes]
    unfold Key.Fits at fits
    omega
  · rw [depth_sub (by omega), bits, List.length_drop, length_ofBytes, depth]

namespace Node.Canonical

theorem below_slots {p : List Bool} {leafNode left right : Node} (slot : LeafSlot p leafNode)
    (belowLeft : Below p left) (belowRight : Below p right) (q : Key) (v : Value)
    (found : (leafNode.contents q).or ((left.contents q).or (right.contents q)) = some v) :
    p <+: ofBytes q := by
  simp only [Option.or_eq_some_iff] at found
  rcases found with inLeaf | ⟨_, inLeft | ⟨_, inRight⟩⟩
  · rw [slot.path_eq inLeaf]
  · exact belowLeft q v inLeft
  · exact belowRight q v inRight

theorem below {path : List Bool} {n : Node} (h : n.Canonical path) : Below path n := by
  induction n generalizing path with
  | nil => intro q v found; simp at found
  | hashed => exact h.elim
  | leaf c hash key value =>
    intro q v found
    simp only [contents_leaf, Option.ite_none_right_eq_some] at found
    rw [found.1]
    exact h.1
  | internal c hash label l leafNode left right _ ihLeft ihRight =>
    obtain ⟨lbl, _, _, slot, cLeft, _, cRight, _, _⟩ := h
    intro q v found
    exact (List.prefix_append path lbl).trans
      (below_slots slot (ihLeft cLeft) (ihRight cRight) q v found)

theorem fits {path : List Bool} {n : Node} (h : n.Canonical path) {q : Key} {v : Value}
    (found : n.contents q = some v) : q.Fits := by
  induction n generalizing path with
  | nil => simp at found
  | hashed => exact h.elim
  | leaf c hash key value =>
    simp only [contents_leaf, Option.ite_none_right_eq_some] at found
    rw [found.1]
    exact h.2
  | internal c hash label l leafNode left right _ ihLeft ihRight =>
    obtain ⟨lbl, _, _, slot, cLeft, _, cRight, _, _⟩ := h
    simp only [contents_internal, Option.or_eq_some_iff] at found
    rcases found with inLeaf | ⟨_, inLeft | ⟨_, inRight⟩⟩
    · exact slot.fits inLeaf
    · exact ihLeft cLeft inLeft
    · exact ihRight cRight inRight

theorem exists_key {path : List Bool} {n : Node} (h : n.Canonical path) (present : n.present = 1) :
    ∃ q v, n.contents q = some v := by
  induction n generalizing path with
  | nil => simp at present
  | hashed => exact h.elim
  | leaf c hash key value => exact ⟨key, value, by simp⟩
  | internal c hash label l leafNode left right _ ihLeft ihRight =>
    obtain ⟨lbl, _, _, slot, cLeft, _, cRight, _, branching⟩ := h
    -- One of the three slots is present, and its key is the node's.
    by_cases hasLeaf : leafNode.present = 1
    · obtain ⟨q, v, found⟩ := slot.exists_key hasLeaf
      exact ⟨q, v, by simp [found]⟩
    obtain rfl := eq_nil_of_present hasLeaf
    by_cases hasLeft : left.present = 1
    · obtain ⟨q, v, found⟩ := ihLeft cLeft hasLeft
      exact ⟨q, v, by simp [found]⟩
    obtain rfl := eq_nil_of_present hasLeft
    have hasRight : right.present = 1 := by
      have := right.present_le_one
      simp only [present_nil] at branching
      omega
    obtain ⟨q, v, found⟩ := ihRight cRight hasRight
    exact ⟨q, v, by simp [found]⟩

theorem prefix_of_below {path : List Bool} {c : Bool} {hash : Hash} {label : Key} {l : Depth}
    {leafNode left right : Node} (h : (internal c hash label l leafNode left right).Canonical path)
    {m : List Bool} (below : Below m (internal c hash label l leafNode left right)) :
    ∃ lbl, label.Encodes lbl ∧ l.toNat = lbl.length ∧ m <+: path ++ lbl := by
  obtain ⟨q₀, v₀, found₀⟩ := h.exists_key rfl
  obtain ⟨lbl, enc, len, slot, cLeft, belowLeft, cRight, belowRight, branching⟩ := h
  have all := below_slots slot cLeft.below cRight.below
  refine ⟨lbl, enc, len, ?_⟩
  rcases List.prefix_or_prefix_of_prefix (below q₀ v₀ found₀) (all q₀ v₀ found₀) with done | longer
  · exact done
  by_cases notLonger : m.length ≤ (path ++ lbl).length
  · rw [List.IsPrefix.eq_of_length_le longer notLonger]
  -- Otherwise all keys go on with one bit `b` after the full path: only one slot can hold them.
  obtain ⟨rest, rfl⟩ := longer
  obtain ⟨b, rest, rfl⟩ : ∃ b tail, rest = b :: tail := by
    cases rest with
    | nil => simp at notLonger
    | cons b tail => exact ⟨b, tail, rfl⟩
  have next : ∀ q v, (internal c hash label l leafNode left right).contents q = some v →
      path ++ lbl ++ [b] <+: ofBytes q := fun q v found =>
    (List.prefix_append (path ++ lbl ++ [b]) rest).trans (by simpa using below q v found)
  have noLeaf : leafNode.present ≠ 1 := by
    intro hasLeaf
    obtain ⟨q, v, found⟩ := slot.exists_key hasLeaf
    have onPath := slot.path_eq found
    have := (next q v (by simp [found])).length_le
    rw [onPath] at this
    simp at this
  have noOther : (if b then left else right).present ≠ 1 := by
    cases b with
    | false =>
      intro hasRight
      obtain ⟨q, v, found⟩ := cRight.exists_key hasRight
      have whole := right_contents_eq slot belowLeft belowRight q
      split at whole
      · exact not_prefix_both _ _ (next q v (by rw [contents_internal, ← whole]; exact found))
          (belowRight q v found)
      · rw [found] at whole
        simp at whole
    | true =>
      intro hasLeft
      obtain ⟨q, v, found⟩ := cLeft.exists_key hasLeft
      have whole := left_contents_eq slot belowLeft belowRight q
      split at whole
      · exact not_prefix_both _ _ (belowLeft q v found)
          (next q v (by rw [contents_internal, ← whole]; exact found))
      · rw [found] at whole
        simp at whole
  have := leafNode.present_le_one
  have := left.present_le_one
  have := right.present_le_one
  cases b <;> simp only [Bool.false_eq_true, if_false, if_true] at noOther <;> omega

theorem fullPath_bound {path lbl : List Bool} {c : Bool} {hash : Hash} {label : Key} {l : Depth}
    {leafNode left right : Node} (h : (internal c hash label l leafNode left right).Canonical path)
    (slot : LeafSlot (path ++ lbl) leafNode) (cLeft : left.Canonical (path ++ lbl))
    (cRight : right.Canonical (path ++ lbl)) : (path ++ lbl).length + 8 ≤ 2 ^ 16 := by
  obtain ⟨q, v, found⟩ := h.exists_key rfl
  have short := (below_slots slot cLeft.below cRight.below q v found).length_le
  have fits := h.fits found
  unfold Key.Fits at fits
  rw [length_ofBytes] at short
  omega

/-- A canonical internal node holds two different keys. -/
theorem two_keys {path : List Bool} {c : Bool} {hash : Hash} {label : Key} {l : Depth}
    {leafNode left right : Node} (h : (internal c hash label l leafNode left right).Canonical path) :
    ∃ q₁ v₁ q₂ v₂, q₁ ≠ q₂ ∧ (internal c hash label l leafNode left right).contents q₁ = some v₁ ∧
      (internal c hash label l leafNode left right).contents q₂ = some v₂ := by
  obtain ⟨lbl, _, _, slot, cLeft, belowLeft, cRight, belowRight, branching⟩ := h
  have := leafNode.present_le_one
  have := left.present_le_one
  have := right.present_le_one
  by_cases hasLeaf : leafNode.present = 1
  · -- The key ending here, and a longer one from a child.
    obtain ⟨q₁, v₁, found₁⟩ := slot.exists_key hasLeaf
    have atPath := slot.path_eq found₁
    have first : (internal c hash label l leafNode left right).contents q₁ = some v₁ := by
      simp [found₁]
    by_cases hasLeft : left.present = 1
    · obtain ⟨q₂, v₂, found₂⟩ := cLeft.exists_key hasLeft
      refine ⟨q₁, v₁, q₂, v₂, fun same => ?_, first, contents_of_left slot belowLeft belowRight found₂⟩
      have := (belowLeft q₂ v₂ found₂).length_le
      rw [← same, atPath] at this
      simp at this
    · have hasRight : right.present = 1 := by omega
      obtain ⟨q₂, v₂, found₂⟩ := cRight.exists_key hasRight
      refine ⟨q₁, v₁, q₂, v₂, fun same => ?_, first, contents_of_right slot belowLeft belowRight found₂⟩
      have := (belowRight q₂ v₂ found₂).length_le
      rw [← same, atPath] at this
      simp at this
  · -- One key from each child: they differ in the branching bit.
    obtain ⟨q₁, v₁, found₁⟩ := cLeft.exists_key (by omega)
    obtain ⟨q₂, v₂, found₂⟩ := cRight.exists_key (by omega)
    refine ⟨q₁, v₁, q₂, v₂, fun same => ?_, contents_of_left slot belowLeft belowRight found₁,
      contents_of_right slot belowLeft belowRight found₂⟩
    subst same
    exact not_prefix_both _ _ (belowLeft q₁ v₁ found₁) (belowRight q₁ v₂ found₂)

/-- Canonical tries at the same path with the same contents have the same shape: the
compressed trie of a map is unique. -/
theorem erase_eq {path : List Bool} {n₁ n₂ : Node} (h₁ : n₁.Canonical path) (h₂ : n₂.Canonical path)
    (same : n₁.contents = n₂.contents) : n₁.erase = n₂.erase := by
  induction n₁ generalizing path n₂ with
  | hashed => exact h₁.elim
  | nil =>
    cases n₂ with
    | hashed => exact h₂.elim
    | nil => rfl
    | leaf c hash key value => simpa using congrFun same key
    | internal c hash label l leafNode left right =>
      obtain ⟨q, v, found⟩ := h₂.exists_key rfl
      have atKey := congrFun same q
      rw [found] at atKey
      simp at atKey
  | leaf c hash key value =>
    cases n₂ with
    | hashed => exact h₂.elim
    | nil => simpa using congrFun same key
    | leaf c' hash' key' value' =>
      have atKey := congrFun same key
      simp only [contents_leaf, if_true] at atKey
      split at atKey
      · rename_i sameKey
        simp only [Option.some.injEq] at atKey
        simp [erase, sameKey, atKey]
      · simp at atKey
    | internal c' hash' label' l' leafNode' left' right' =>
      -- A leaf holds one key, a canonical internal node two.
      obtain ⟨q₁, v₁, q₂, v₂, different, found₁, found₂⟩ := h₂.two_keys
      rw [← same] at found₁ found₂
      simp only [contents_leaf, Option.ite_none_right_eq_some] at found₁ found₂
      exact absurd (found₁.1.trans found₂.1.symm) different
  | internal c hash label l leafNode left right _ ihLeft ihRight =>
    cases n₂ with
    | hashed => exact h₂.elim
    | nil =>
      obtain ⟨q, v, found⟩ := h₁.exists_key rfl
      have atKey := congrFun same q
      rw [found] at atKey
      simp at atKey
    | leaf c' hash' key' value' =>
      obtain ⟨q₁, v₁, q₂, v₂, different, found₁, found₂⟩ := h₁.two_keys
      rw [same] at found₁ found₂
      simp only [contents_leaf, Option.ite_none_right_eq_some] at found₁ found₂
      exact absurd (found₁.1.trans found₂.1.symm) different
    | internal c' hash' label' l' leafNode' left' right' =>
      obtain ⟨lbl₁, enc₁, len₁, slot₁, cLeft₁, belowLeft₁, cRight₁, belowRight₁, _⟩ := id h₁
      obtain ⟨lbl₂, enc₂, len₂, slot₂, cLeft₂, belowLeft₂, cRight₂, belowRight₂, _⟩ := id h₂
      -- Each node's keys begin with the other's full path, so the labels agree.
      have prefix₂₁ : path ++ lbl₂ <+: path ++ lbl₁ := by
        obtain ⟨lbl, enc, len, pre⟩ := h₁.prefix_of_below (m := path ++ lbl₂) fun q v found =>
          below_slots slot₂ cLeft₂.below cRight₂.below q v (by rw [← contents_internal, ← same]; exact found)
        rwa [enc.eq_of_length enc₁ (by omega)] at pre
      have prefix₁₂ : path ++ lbl₁ <+: path ++ lbl₂ := by
        obtain ⟨lbl, enc, len, pre⟩ := h₂.prefix_of_below (m := path ++ lbl₁) fun q v found =>
          below_slots slot₁ cLeft₁.below cRight₁.below q v (by rw [← contents_internal, same]; exact found)
        rwa [enc.eq_of_length enc₂ (by omega)] at pre
      have sameLbl : lbl₁ = lbl₂ :=
        List.append_cancel_left (prefix₁₂.eq_of_length (le_antisymm prefix₁₂.length_le prefix₂₁.length_le))
      subst sameLbl
      have sameLabel : label = label' := enc₁.unique enc₂
      have sameLength : l = l' := UInt16.toNat_inj.mp (len₁.trans len₂.symm)
      -- Each slot holds the restriction of the common map.
      have whole (q : Key) := congrFun same q
      simp only [contents_internal] at whole
      have sameLeaf : leafNode.contents = leafNode'.contents := by
        funext q
        rw [leafNode_contents_eq slot₁ belowLeft₁ belowRight₁, leafNode_contents_eq slot₂ belowLeft₂ belowRight₂,
          whole q]
      have sameLeft : left.contents = left'.contents := by
        funext q
        rw [left_contents_eq slot₁ belowLeft₁ belowRight₁, left_contents_eq slot₂ belowLeft₂ belowRight₂,
          whole q]
      have sameRight : right.contents = right'.contents := by
        funext q
        rw [right_contents_eq slot₁ belowLeft₁ belowRight₁, right_contents_eq slot₂ belowLeft₂ belowRight₂,
          whole q]
      simp only [erase, sameLabel, sameLength, slot₁.erase_eq slot₂ sameLeaf, ihLeft cLeft₁ cLeft₂ sameLeft,
        ihRight cRight₁ cRight₂ sameRight]

end Node.Canonical

end Orphiq.Mkvs

import OrphiqCore.Mkvs.Remove
import OrphiqCore.Mkvs.KeyMerge
import OrphiqCore.Mkvs.Trie

/-!
# Removal on canonical tries

`doRemove` on the canonical trie of its contents returns the canonical trie of the contents
without the key, and the value the key had. Go descends by the key's bits without looking
at labels, so the key need not lie below the node: it is then absent there and the node comes
back unchanged.

When at most one of an internal node's leaf node and children is left, `collapseInternal`
replaces the node by it; an internal child takes the parent's label in front of its own
(`Key.Merge`), which keeps the trie canonical at the parent's path.
-/

namespace Orphiq.Mkvs

open Bits Node

/-- What `doRemove` on `n` with `key` returns, for a result `r` of shape `Shape`:
`(newRoot, changed, existing)`. -/
structure RemoveSpec (Shape : Node → Prop) (n : Node) (key : Key) (r : Node × Bool × Option Value) :
    Prop where
  shape : Shape r.1
  contents : r.1.contents = Function.update n.contents key none
  existing : r.2.2 = n.contents key
  changed : r.2.1 = (n.contents key).isSome
  unchanged : r.2.1 = false → r.1 = n
  kept : ∀ m ∈ r.1.subtrees, m.isClean = true → m ∈ n.subtrees

/-- What `collapseInternal` returns for the internal node `n` whose slots are the ones left
after the removal below it. -/
structure CollapseSpec (path : List Bool) (n : Node) (changed : Bool) (r : Node × Bool) : Prop where
  shape : r.1.Canonical path
  contents : r.1.contents = n.contents
  flag : r.2 = changed
  unchanged : changed = false → r.1 = n
  kept : ∀ m ∈ r.1.subtrees, m.isClean = true → m ∈ n.subtrees.tail ∨ changed = false ∧ m ∈ n.subtrees

theorem Below.remove {pre : List Bool} {n n' : Node} {key : Key} (h : Below pre n)
    (contents : n'.contents = Function.update n.contents key none) : Below pre n' := by
  intro q v found
  rw [contents, Function.update_apply] at found
  split at found
  · simp at found
  · exact h q v found

theorem two_le_present {a b d : Node} (ab : a = nil → b = nil → False) (ad : a = nil → d = nil → False)
    (bd : b = nil → d = nil → False) : 2 ≤ a.present + b.present + d.present := by
  have := a.present_le_one
  have := b.present_le_one
  have := d.present_le_one
  by_contra fewer
  -- With at most one slot present, two of them are nil.
  have nils : (a = nil ∧ b = nil) ∨ (a = nil ∧ d = nil) ∨ (b = nil ∧ d = nil) := by
    by_cases ha : a.present = 1 <;> by_cases hb : b.present = 1
    · omega
    · exact Or.inr (Or.inr ⟨eq_nil_of_present hb, eq_nil_of_present (by omega)⟩)
    · exact Or.inr (Or.inl ⟨eq_nil_of_present ha, eq_nil_of_present (by omega)⟩)
    · exact Or.inl ⟨eq_nil_of_present ha, eq_nil_of_present hb⟩
  rcases nils with ⟨h₁, h₂⟩ | ⟨h₁, h₂⟩ | ⟨h₁, h₂⟩
  exacts [ab h₁ h₂, ad h₁ h₂, bd h₁ h₂]

theorem collapseSpec_moved {path : List Bool} {n x : Node} (shape : x.Canonical path)
    (contents : x.contents = n.contents) (kept : ∀ m ∈ x.subtrees, m.isClean = true → m ∈ n.subtrees.tail) :
    CollapseSpec path n true (x, true) :=
  ⟨shape, contents, rfl, fun never => by simp at never, fun m mem clean => Or.inl (kept m mem clean)⟩

theorem collapseSpec_merge {path lbl : List Bool} {label childLabel : Key} {l cl : Depth} {c : Bool}
    {hash : Hash} {a b d n : Node} (enc : label.Encodes lbl) (len : l.toNat = lbl.length)
    (child : (internal c hash childLabel cl a b d).Canonical (path ++ lbl))
    (contents : (internal c hash childLabel cl a b d).contents = n.contents)
    (inside : ∀ m ∈ (internal c hash childLabel cl a b d).subtrees, m ∈ n.subtrees.tail) :
    ∃ merged, label.merge l childLabel cl = some merged ∧
      CollapseSpec path n true (internal false hash merged (cl + l) a b d, true) := by
  obtain ⟨lblC, encC, lenC, slot, cLeft, bLeft, cRight, bRight, branching⟩ := id child
  have bound := child.fullPath_bound slot cLeft cRight
  simp only [List.length_append] at bound
  obtain ⟨merged, eq, mergedEnc⟩ := enc.merge encC l cl len lenC (by omega)
  have shape : (internal false hash merged (cl + l) a b d).Canonical path := by
    refine ⟨lbl ++ lblC, mergedEnc, ?_, ?_⟩
    · rw [depth_add (by omega), len, lenC, List.length_append, Nat.add_comm]
    · rw [← List.append_assoc]
      exact ⟨slot, cLeft, bLeft, cRight, bRight, branching⟩
  refine ⟨merged, eq, collapseSpec_moved shape contents fun m mem clean => inside m ?_⟩
  -- The merged node is dirty, so a clean node below it is a node below the child.
  simp only [subtrees, List.mem_cons, List.mem_append] at mem ⊢
  rcases mem with rfl | below
  · simp at clean
  · exact Or.inr below

theorem collapseSpec_leaf {path lbl : List Bool} {c : Bool} {hash : Hash} {k : Key} {v : Value} {n : Node}
    (child : (leaf c hash k v).Canonical (path ++ lbl)) (contents : (leaf c hash k v).contents = n.contents)
    (inside : leaf c hash k v ∈ n.subtrees.tail) : CollapseSpec path n true (leaf c hash k v, true) :=
  collapseSpec_moved ⟨(List.prefix_append _ _).trans child.1, child.2⟩ contents fun m mem _ => by
    simp only [subtrees, List.mem_singleton] at mem
    rw [mem]
    exact inside

theorem Node.Canonical.derefNodePtr_eq {path : List Bool} {n : Node} (h : n.Canonical path) :
    derefNodePtr n = some n := by
  cases n with
  | hashed => exact h.elim
  | _ => rfl

theorem LeafSlot.pointee_eq {path : List Bool} {n : Node} (h : LeafSlot path n) : n.pointee = n := by
  cases n with
  | hashed => exact h.elim
  | _ => rfl

/-- `collapseInternal` keeps the trie canonical: with at most one slot left the node gives
way to it, and otherwise it stays, dirty if something changed below it. -/
theorem collapseInternal_spec {path lbl : List Bool} (c : Bool) (hash : Hash) {label : Key} {l : Depth}
    {a b d : Node} {changed : Bool} (enc : label.Encodes lbl) (len : l.toNat = lbl.length)
    (slot : LeafSlot (path ++ lbl) a) (cLeft : b.Canonical (path ++ lbl))
    (bLeft : Below (path ++ lbl ++ [false]) b) (cRight : d.Canonical (path ++ lbl))
    (bRight : Below (path ++ lbl ++ [true]) d) (grown : changed = false → 2 ≤ a.present + b.present + d.present) :
    ∃ r, collapseInternal c hash label l a b d changed = some r ∧
      CollapseSpec path (.internal c hash label l a b d) changed r := by
  -- A collapse happens only with fewer than two slots, so only after a change.
  have collapsed (few : a.present + b.present + d.present ≤ 1) : changed = true := by
    cases changed
    · exact absurd (grown rfl) (by omega)
    · rfl
  have := a.present_le_one
  have := b.present_le_one
  have := d.present_le_one
  simp only [collapseInternal, slot.pointee_eq, cLeft.derefNodePtr_eq, cRight.derefNodePtr_eq,
    Option.bind_eq_bind, Option.bind_some]
  by_cases onlyLeaf : a ≠ nil ∧ b = nil ∧ d = nil
  · -- Only the leaf node is left: it moves up.
    rw [if_pos onlyLeaf]
    obtain ⟨notNil, rfl, rfl⟩ := onlyLeaf
    obtain rfl := collapsed (by simp; omega)
    cases a with
    | nil => exact absurd rfl notNil
    | internal => exact slot.elim
    | hashed => exact slot.elim
    | leaf =>
      refine ⟨_, rfl, collapseSpec_moved ⟨?_, slot.2⟩ (by funext q; simp) (by simp [subtrees])⟩
      rw [slot.1]
      exact List.prefix_append _ _
  rw [if_neg onlyLeaf]
  by_cases oneChild : a = nil ∧ (b = nil ∨ d = nil)
  · -- At most one child is left, and no leaf node: the child moves up.
    rw [if_pos oneChild]
    obtain ⟨rfl, someNil⟩ := oneChild
    obtain rfl := collapsed (by rcases someNil with rfl | rfl <;> simp <;> omega)
    obtain ⟨x, pick, cx, contentsX, insideX⟩ : ∃ x, (if b ≠ nil then (b, b) else (d, d)) = (x, x) ∧
        x.Canonical (path ++ lbl) ∧ x.contents = (internal c hash label l nil b d).contents ∧
        ∀ m ∈ x.subtrees, m ∈ (internal c hash label l nil b d).subtrees.tail := by
      by_cases leftNil : b = nil
      · subst leftNil
        exact ⟨d, by simp, cRight, by funext q; simp, fun m mem => by simpa [subtrees] using mem⟩
      · have rightNil : d = nil := someNil.resolve_left leftNil
        subst rightNil
        exact ⟨b, by simp [leftNil], cLeft, by funext q; simp, fun m mem => by simpa [subtrees] using mem⟩
    rw [pick]
    cases x with
    | nil => exact ⟨_, rfl, collapseSpec_moved trivial contentsX (by simp)⟩
    | leaf => exact ⟨_, rfl, collapseSpec_leaf cx contentsX (insideX _ (by simp [subtrees]))⟩
    | internal =>
      obtain ⟨merged, eq, spec⟩ := collapseSpec_merge enc len cx contentsX insideX
      exact ⟨_, by simp [eq], spec⟩
    | hashed => exact cx.elim
  · -- Two or more are left: the node stays.
    rw [if_neg oneChild]
    have branching : 2 ≤ a.present + b.present + d.present :=
      two_le_present (fun ha hb => oneChild ⟨ha, Or.inl hb⟩) (fun ha hd => oneChild ⟨ha, Or.inr hd⟩)
        fun hb hd => by
          by_cases ha : a = nil
          · exact oneChild ⟨ha, Or.inl hb⟩
          · exact onlyLeaf ⟨ha, hb, hd⟩
    have shape (c' : Bool) : (Node.internal c' hash label l a b d).Canonical path :=
      ⟨lbl, enc, len, slot, cLeft, bLeft, cRight, bRight, branching⟩
    cases changed
    · exact ⟨_, rfl, shape c, rfl, rfl, fun _ => rfl, fun m mem _ => Or.inr ⟨rfl, mem⟩⟩
    · refine ⟨_, rfl, shape false, rfl, rfl, fun never => by simp at never, fun m mem clean => Or.inl ?_⟩
      simp only [subtrees, List.mem_cons, List.tail_cons] at mem ⊢
      rcases mem with rfl | below
      · simp at clean
      · exact below

section Walk

variable {key : Key} {bitDepth : Depth}

theorem removeSpec_absent {Shape : Node → Prop} {n : Node} (shape : Shape n) (absent : n.contents key = none) :
    RemoveSpec Shape n key (n, false, none) :=
  ⟨shape, by rw [← absent, Function.update_eq_self], absent.symm, by simp [absent], fun _ => rfl,
    fun _ mem _ => mem⟩

theorem doRemove_leaf_spec {Shape : Node → Prop} {c : Bool} {hash : Hash} {k : Key} {v : Value}
    (shape : Shape (.leaf c hash k v)) (shapeNil : Shape .nil) :
    ∃ r, doRemove (.leaf c hash k v) bitDepth key = some r ∧ RemoveSpec Shape (.leaf c hash k v) key r := by
  by_cases same : k = key
  · subst same
    refine ⟨(.nil, true, some v), by simp [doRemove], shapeNil, ?_, by simp, by simp, by simp, by simp⟩
    funext q
    by_cases atKey : q = k <;> simp [atKey]
  · exact ⟨_, by simp [doRemove, same], removeSpec_absent shape (by simp [Ne.symm same])⟩

variable (bitDepth) (key) in
theorem doRemove_leafSlot_spec {p : List Bool} {m : Node} (slot : LeafSlot p m) :
    ∃ r, doRemove m bitDepth key = some r ∧ RemoveSpec (LeafSlot p) m key r := by
  cases m with
  | nil => exact ⟨_, rfl, removeSpec_absent trivial rfl⟩
  | internal => exact slot.elim
  | hashed => exact slot.elim
  | leaf c hash k v => exact doRemove_leaf_spec slot trivial

theorem removeSpec_rebuild {path lbl : List Bool} (c : Bool) (hash : Hash) {label : Key} {l : Depth}
    {a b d : Node} {ra rb rd : Node × Bool × Option Value} {changed : Bool} {existing : Option Value}
    (enc : label.Encodes lbl) (len : l.toNat = lbl.length) (sa : RemoveSpec (LeafSlot (path ++ lbl)) a key ra)
    (sb : RemoveSpec (Canonical (path ++ lbl)) b key rb) (sd : RemoveSpec (Canonical (path ++ lbl)) d key rd)
    (bLeft : Below (path ++ lbl ++ [false]) b) (bRight : Below (path ++ lbl ++ [true]) d)
    (branching : 2 ≤ a.present + b.present + d.present) (hChanged : changed = (ra.2.1 || rb.2.1 || rd.2.1))
    (hExisting : existing = ra.2.2.or (rb.2.2.or rd.2.2)) :
    ∃ r, collapseInternal c hash label l ra.1 rb.1 rd.1 changed = some r ∧
      RemoveSpec (Canonical path) (.internal c hash label l a b d) key (r.1, r.2, existing) := by
  have slotsUnchanged (flag : changed = false) : ra.1 = a ∧ rb.1 = b ∧ rd.1 = d := by
    rw [hChanged] at flag
    simp only [Bool.or_eq_false_iff] at flag
    exact ⟨sa.unchanged flag.1.1, sb.unchanged flag.1.2, sd.unchanged flag.2⟩
  have grown (flag : changed = false) : 2 ≤ ra.1.present + rb.1.present + rd.1.present := by
    obtain ⟨ha, hb, hd⟩ := slotsUnchanged flag
    rw [ha, hb, hd]
    exact branching
  obtain ⟨r, found, spec⟩ := collapseInternal_spec c hash enc len sa.shape sb.shape
    (bLeft.remove sb.contents) sd.shape (bRight.remove sd.contents) grown
  refine ⟨r, found, spec.shape, ?_, ?_, ?_, fun flag => ?_, fun m mem clean => ?_⟩
  · funext q
    simp only [spec.contents, contents_internal, sa.contents, sb.contents, sd.contents, Function.update_apply]
    split <;> simp
  · rw [hExisting, sa.existing, sb.existing, sd.existing, contents_internal]
  · rw [spec.flag, hChanged, sa.changed, sb.changed, sd.changed, contents_internal, Option.isSome_or,
      Option.isSome_or, Bool.or_assoc]
  · obtain ⟨ha, hb, hd⟩ := slotsUnchanged (spec.flag.symm.trans flag)
    rw [spec.unchanged (spec.flag.symm.trans flag), ha, hb, hd]
  · rcases spec.kept m mem clean with below | ⟨flag, self⟩
    · simp only [subtrees, List.tail_cons, List.mem_append] at below
      rcases below with (inA | inB) | inD
      · exact mem_subtrees_internal c hash label l (Or.inl (sa.kept m inA clean))
      · exact mem_subtrees_internal c hash label l (Or.inr (Or.inl (sb.kept m inB clean)))
      · exact mem_subtrees_internal c hash label l (Or.inr (Or.inr (sd.kept m inD clean)))
    · obtain ⟨ha, hb, hd⟩ := slotsUnchanged flag
      rwa [ha, hb, hd] at self

theorem doRemove_internal_spec {path : List Bool} {c : Bool} {hash : Hash} {label : Key} {l : Depth}
    {leafNode left right : Node} (hn : (Node.internal c hash label l leafNode left right).Canonical path)
    (fits : key.Fits) (depth : bitDepth.toNat = path.length)
    (ihLeft : ∀ {path' : List Bool} {d : Depth}, left.Canonical path' → d.toNat = path'.length →
      ∃ r, doRemove left d key = some r ∧ RemoveSpec (Canonical path') left key r)
    (ihRight : ∀ {path' : List Bool} {d : Depth}, right.Canonical path' → d.toNat = path'.length →
      ∃ r, doRemove right d key = some r ∧ RemoveSpec (Canonical path') right key r) :
    ∃ r, doRemove (.internal c hash label l leafNode left right) bitDepth key = some r ∧
      RemoveSpec (Canonical path) (.internal c hash label l leafNode left right) key r := by
  obtain ⟨lbl, enc, len, slot, cLeft, bLeft, cRight, bRight, branching⟩ := id hn
  have bound := hn.fullPath_bound slot cLeft cRight
  have bitLength : (bitDepth + l).toNat = (path ++ lbl).length := by
    simp only [List.length_append] at bound ⊢
    rw [depth_add (by omega), depth, len]
  have keyLength : key.bitLength.toNat = (ofBytes key).length := by
    rw [bitLength_toNat key fits, length_ofBytes]
  simp only [doRemove]
  by_cases short : key.bitLength < bitDepth + l
  · -- The key is too short for the label: it is not below the node.
    have belowAll : Below (path ++ lbl) (Node.internal c hash label l leafNode left right) :=
      Canonical.below_slots slot cLeft.below cRight.below
    refine ⟨_, by rw [if_pos short]; rfl, removeSpec_absent hn (belowAll.contents_eq_none
      (not_prefix_of_length_lt ?_))⟩
    rw [UInt16.lt_iff_toNat_lt, keyLength, bitLength] at short
    exact short
  by_cases ends : key.bitLength = bitDepth + l
  · -- The key ends here: remove it from the leaf node slot.
    have endsHere : (ofBytes key).length = (path ++ lbl).length := by rw [← keyLength, ends, bitLength]
    have notBelow (b : Bool) : ¬ path ++ lbl ++ [b] <+: ofBytes key :=
      not_prefix_of_length_lt (by simp [endsHere])
    obtain ⟨ra, found, sa⟩ := doRemove_leafSlot_spec key (bitDepth + l) slot
    obtain ⟨r, collapsed, spec⟩ := removeSpec_rebuild c hash enc len sa
      (removeSpec_absent cLeft (bLeft.contents_eq_none (notBelow false)))
      (removeSpec_absent cRight (bRight.contents_eq_none (notBelow true))) bLeft bRight branching rfl rfl
    simp only [Bool.or_false, Option.or_none] at collapsed spec
    refine ⟨_, ?_, spec⟩
    simp only [if_neg short, if_pos ends, found, Option.bind_eq_bind, Option.bind_some, Option.pure_def,
      collapsed]
  -- The key goes on: remove it from the child its next bit selects.
  have longer : (path ++ lbl).length < (ofBytes key).length := by
    have notEq : (ofBytes key).length ≠ (path ++ lbl).length := fun eq =>
      ends (UInt16.toNat_inj.mp (by rw [keyLength, eq, bitLength]))
    have notLt : ¬ (ofBytes key).length < (path ++ lbl).length := fun lt =>
      short (UInt16.lt_iff_toNat_lt.mpr (by rw [keyLength, bitLength]; exact lt))
    omega
  have bit : key.getBit (bitDepth + l) = some (ofBytes key)[(path ++ lbl).length] := by
    rw [getBit_eq_getElem?, bitLength, List.getElem?_eq_getElem longer]
  have notLeaf : leafNode.contents key = none :=
    slot.contents_eq_none fun eq => by simp [eq] at longer
  cases hb : (ofBytes key)[(path ++ lbl).length]
  · have notRight : right.contents key = none := bRight.contents_eq_none_of_getElem longer (by rw [hb]; rfl)
    obtain ⟨rb, found, sb⟩ := ihLeft cLeft bitLength
    obtain ⟨r, collapsed, spec⟩ := removeSpec_rebuild c hash enc len (removeSpec_absent slot notLeaf) sb
      (removeSpec_absent cRight notRight) bLeft bRight branching rfl rfl
    simp only [Bool.false_or, Bool.or_false, Option.none_or, Option.or_none] at collapsed spec
    refine ⟨_, ?_, spec⟩
    simp only [if_neg short, if_neg ends, bit, hb, found, Option.bind_eq_bind, Option.bind_some,
      Option.pure_def, Bool.false_eq_true, if_false, collapsed]
  · have notLeft : left.contents key = none := bLeft.contents_eq_none_of_getElem longer (by rw [hb]; rfl)
    obtain ⟨rd, found, sd⟩ := ihRight cRight bitLength
    obtain ⟨r, collapsed, spec⟩ := removeSpec_rebuild c hash enc len (removeSpec_absent slot notLeaf)
      (removeSpec_absent cLeft notLeft) sd bLeft bRight branching rfl rfl
    simp only [Bool.false_or, Option.none_or] at collapsed spec
    refine ⟨_, ?_, spec⟩
    simp only [if_neg short, if_neg ends, bit, hb, found, Option.bind_eq_bind, Option.bind_some,
      Option.pure_def, if_true, collapsed]

/-- Removing a key from a canonical trie succeeds: the result is the canonical trie of the
contents without the key, with the value the key had; `changed` says whether it was there,
an unchanged trie is returned as it was, and the clean nodes of the result are nodes of the
old trie. -/
theorem doRemove_spec {n : Node} {path : List Bool} (hn : n.Canonical path) (fits : key.Fits)
    (depth : bitDepth.toNat = path.length) :
    ∃ r, doRemove n bitDepth key = some r ∧ RemoveSpec (Canonical path) n key r := by
  induction n generalizing path bitDepth with
  | hashed => exact hn.elim
  | nil => exact ⟨_, rfl, removeSpec_absent trivial rfl⟩
  | leaf c hash k v => exact doRemove_leaf_spec hn trivial
  | internal c hash label l leafNode left right _ ihLeft ihRight =>
    exact doRemove_internal_spec hn fits depth ihLeft ihRight

end Walk

end Orphiq.Mkvs

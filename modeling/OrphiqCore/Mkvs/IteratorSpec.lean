import OrphiqCore.Mkvs.Iterator
import OrphiqCore.Mkvs.TreeSpec
import OrphiqCore.Bits.Order

/-!
# The tree iterator lists the tree in key order

`Node.entries` lists the leaves of a subtree in the order the iterator visits them; on a
canonical trie it is the subtree's map, ascending in Go's key order (`entries_ascending`),
which is the order of the keys' bit strings (`Key.compare_eq_lt_iff`).

The iterator's stack of path atoms stands for the entries it has still to visit, `pending`:
each atom for what is left of its node. `doNext` from state `before` returns the first entry
of a subtree at or after the key it carries, with atoms that stand for the rest
(`doNext_before`); resumed from an atom with the key found last, it returns what is left of
the atom's node (`doNext_resume`). So `Seek` positions the iterator on the entries at or after
the key sought, and each `Next` moves it one entry on (`Positioned`), and for every tree that
the tree's calls reach, `Seek` and then `Next` until the end read exactly the entries of its
map at or after the key, in ascending order (`seek_readAll`).
-/

namespace Orphiq.Mkvs

open Bits Node

/-! ### Go's key order is the order of the bit strings -/

theorem Key.compare_eq_lt_iff_lt (a b : Key) : Key.compare a b = .lt ↔ a < b := by
  induction a generalizing b with
  | nil => cases b <;> simp [Key.compare]
  | cons x a ih =>
    cases b with
    | nil => simp [Key.compare]
    | cons y b =>
      rw [List.cons_lt_cons_iff, ← ih]
      simp only [Key.compare]
      rcases Nat.lt_trichotomy x.toNat y.toNat with before | same | after
      · have before : x < y := UInt8.lt_iff_toNat_lt.mpr before
        simp [before]
      · obtain rfl := UInt8.toNat_inj.mp same
        simp [UInt8.lt_irrefl]
      · have notBefore : ¬ x < y := fun lt => by rw [UInt8.lt_iff_toNat_lt] at lt; omega
        have after : y < x := UInt8.lt_iff_toNat_lt.mpr after
        simp [notBefore, after, show x ≠ y from fun same => notBefore (same ▸ after)]

theorem Key.compare_eq_lt_iff (a b : Key) : Key.compare a b = .lt ↔ ofBytes a < ofBytes b :=
  (compare_eq_lt_iff_lt a b).trans (ofBytes_lt_ofBytes_iff a b).symm

/-! ### The key operations of `doNext`, bit by bit -/

theorem bitLength_le_iff {k : Key} (fits : k.Fits) {L : Depth} :
    k.bitLength ≤ L ↔ 8 * k.length ≤ L.toNat := by
  rw [UInt16.le_iff_toNat_le, bitLength_toNat k fits]

theorem appendBit_false_of_short {k : Key} {L : Depth} (short : 8 * k.length ≤ L.toNat)
    (fits : L.toNat + 1 < 2 ^ 16) :
    ∃ k', k.appendBit L false = some k' ∧ k'.length = (L.toNat + 8) / 8 ∧
      ofBytes k' = ofBytes k ++ List.replicate (8 * k'.length - 8 * k.length) false := by
  have next : (L + 1).toNat = L.toNat + 1 := by
    rw [UInt16.toNat_add]
    simp
    omega
  obtain ⟨k', appended, length, bits⟩ :=
    appendBit_spec k L (by rw [toBytes_eq, next]; omega) fits false
  refine ⟨k', appended, length, List.ext_getElem (by simp; omega) fun i h₁ _ => ?_⟩
  rw [getElem_ofBytes, bits, List.getElem_append]
  rw [length_ofBytes] at h₁
  by_cases inside : i < 8 * k.length
  · rw [dif_pos (by simpa using inside), getElem_ofBytes, if_neg (by omega),
      decide_eq_true (show i < 8 * ((L.toNat + 8) / 8) by omega), Bool.true_and]
  · rw [dif_neg (by simpa using inside)]
    by_cases atL : i = L.toNat
    · simp [atL]
    · simp [atL, Bits.bitAt_of_le k (show 8 * k.length ≤ i by omega)]

theorem split_appendBit_true {k : Key} {L : Depth} (long : L.toNat ≤ 8 * k.length) (fits : k.Fits)
    (fitsL : L.toNat + 1 < 2 ^ 16) :
    ∃ k', ((k.split L k.bitLength).bind fun parts => parts.1.appendBit L true) = some k' ∧
      k'.Encodes ((ofBytes k).take L.toNat ++ [true]) := by
  have bits := bitLength_toNat k fits
  obtain ⟨pre, suf, split, preBits, -, -⟩ :=
    split_spec k L k.bitLength (UInt16.le_iff_toNat_le.mpr (by omega)) (by omega) fits
  obtain ⟨k', appended, encodes⟩ :=
    preBits.appendBit L (by simp; omega) (by simp; omega) true
  exact ⟨k', by simp [split, appended], encodes⟩

/-! ### The entries of a subtree -/

/-- The entries below a node, in the order the iterator visits them: the leaf node, then the
left subtree, then the right. -/
def Node.entries : Node → List (Key × Value)
  | .internal _ _ _ _ leafNode left right => leafNode.entries ++ left.entries ++ right.entries
  | .leaf _ _ key value => [(key, value)]
  | _ => []

@[simp] theorem entries_nil : Node.nil.entries = [] := rfl

@[simp] theorem entries_leaf (c : Bool) (h : Hash) (key : Key) (value : Value) :
    (Node.leaf c h key value).entries = [(key, value)] := rfl

@[simp] theorem entries_internal (c : Bool) (h : Hash) (label : Key) (l : Depth) (leafNode left right : Node) :
    (Node.internal c h label l leafNode left right).entries = leafNode.entries ++ left.entries ++ right.entries :=
  rfl

theorem Node.Canonical.mem_entries_iff {P : List Bool} {n : Node} (h : n.Canonical P) {e : Key × Value} :
    e ∈ n.entries ↔ n.contents e.1 = some e.2 := by
  induction n generalizing P with
  | nil => simp
  | hashed => exact h.elim
  | leaf c hash key value =>
    obtain ⟨q, v⟩ := e
    simp [eq_comm]
  | internal c hash label l leafNode left right ihLeaf ihLeft ihRight =>
    obtain ⟨lbl, -, -, slot, cLeft, belowLeft, cRight, belowRight, -⟩ := h
    rw [entries_internal, List.mem_append, List.mem_append, ihLeaf slot.canonical, ihLeft cLeft,
      ihRight cRight, contents_internal]
    constructor
    · rintro ((inLeaf | inLeft) | inRight)
      · simp [inLeaf]
      · exact contents_of_left slot belowLeft belowRight inLeft
      · exact contents_of_right slot belowLeft belowRight inRight
    · intro found
      simp only [Option.or_eq_some_iff] at found
      rcases found with inLeaf | ⟨-, inLeft | ⟨-, inRight⟩⟩
      · exact .inl (.inl inLeaf)
      · exact .inl (.inr inLeft)
      · exact .inr inRight

theorem Node.Canonical.prefix_of_mem {P Q : List Bool} {n : Node} (h : n.Canonical P) (below : Below Q n)
    {e : Key × Value} (mem : e ∈ n.entries) : Q <+: ofBytes e.1 :=
  below e.1 e.2 (h.mem_entries_iff.mp mem)

theorem Node.Canonical.fits_of_mem {P : List Bool} {n : Node} (h : n.Canonical P) {e : Key × Value}
    (mem : e ∈ n.entries) : e.1.Fits :=
  h.fits (h.mem_entries_iff.mp mem)

theorem lt_of_prefix_of_length_lt {p x : List Bool} (pre : p <+: x) (longer : p.length < x.length) :
    p < x := by
  obtain ⟨u, rfl⟩ := pre
  exact lt_append_of_ne_nil p (by rintro rfl; simp at longer)

theorem lt_of_branch {L x y : List Bool} (left : L ++ [false] <+: x) (right : L ++ [true] <+: y) :
    x < y := by
  obtain ⟨u, rfl⟩ := left
  obtain ⟨v, rfl⟩ := right
  rw [List.append_assoc, List.append_assoc, append_lt_append_left_iff, List.singleton_append,
    List.singleton_append, List.cons_lt_cons_iff]
  exact .inl Bool.false_lt_true

/-- The entries of a canonical trie ascend in the order of their keys' bits. -/
theorem Node.Canonical.entries_ascending {P : List Bool} {n : Node} (h : n.Canonical P) :
    n.entries.Pairwise fun a b => ofBytes a.1 < ofBytes b.1 := by
  induction n generalizing P with
  | nil => simp
  | hashed => exact h.elim
  | leaf => simp
  | internal c hash label l leafNode left right _ ihLeft ihRight =>
    obtain ⟨lbl, -, -, slot, cLeft, belowLeft, cRight, belowRight, -⟩ := h
    have atPath (e : Key × Value) (mem : e ∈ leafNode.entries) : ofBytes e.1 = P ++ lbl :=
      slot.path_eq (slot.canonical.mem_entries_iff.mp mem)
    have inLeft (e : Key × Value) (mem : e ∈ left.entries) := cLeft.prefix_of_mem belowLeft mem
    have inRight (e : Key × Value) (mem : e ∈ right.entries) := cRight.prefix_of_mem belowRight mem
    have leafFirst (e x : Key × Value) (mem : e ∈ leafNode.entries) (longer : (P ++ lbl).length < (ofBytes x.1).length)
        (pre : P ++ lbl <+: ofBytes x.1) : ofBytes e.1 < ofBytes x.1 := by
      rw [atPath e mem]
      exact lt_of_prefix_of_length_lt pre longer
    have leafAscending : leafNode.entries.Pairwise fun a b => ofBytes a.1 < ofBytes b.1 := by
      cases leafNode with
      | nil => simp
      | leaf => simp
      | internal => exact slot.elim
      | hashed => exact slot.elim
    rw [entries_internal, List.pairwise_append, List.pairwise_append]
    refine ⟨⟨leafAscending, ihLeft cLeft, fun e mem x memX => ?_⟩, ihRight cRight, fun e mem x memX => ?_⟩
    · have pre := inLeft x memX
      have longer := pre.length_le
      simp only [List.length_append, List.length_singleton, length_ofBytes] at longer
      exact leafFirst e x mem (by simp; omega) ((List.prefix_append _ _).trans pre)
    · have pre := inRight x memX
      have longer := pre.length_le
      simp only [List.length_append, List.length_singleton, length_ofBytes] at longer
      rcases List.mem_append.mp mem with mem | mem
      · exact leafFirst e x mem (by simp; omega) ((List.prefix_append _ _).trans pre)
      · exact lt_of_branch (inLeft e mem) pre

/-! ### Where a key falls against a subtree

The facts of bit strings that decide which slots of an internal node at full path `L` the
iterator visits: a key that leaves `L` with a smaller bit is below all keys of the node, one
that leaves it with a larger bit is above them, and padding a key with zero bits, or moving
it to the first key of the right subtree, does not change which keys of a slot it is below. -/

section KeyBounds

variable {L s x : List Bool}

theorem lt_of_take_lt_of_extends (long : L.length ≤ s.length) (before : s.take L.length < L)
    (pre : L <+: x) : s < x :=
  lt_of_take_lt (n := L.length) long pre.length_le (by rw [← List.prefix_iff_eq_take.mp pre]; exact before)

theorem lt_of_lt_take_of_extends (long : L.length ≤ s.length) (after : L < s.take L.length)
    (pre : L <+: x) : x < s :=
  lt_of_take_lt (n := L.length) pre.length_le long (by rw [← List.prefix_iff_eq_take.mp pre]; exact after)

theorem prefix_of_take_of_getElem? {b : Bool} (same : s.take L.length = L) (bit : s[L.length]? = some b) :
    L ++ [b] <+: s := by
  have next : s.take (L.length + 1) = L ++ [b] := by rw [List.take_add_one, same, bit]; rfl
  exact next ▸ List.take_prefix _ _

theorem take_lt_of_lt_append_replicate {pad : Nat} (room : L.length + pad ≤ s.length)
    (below : s < L ++ List.replicate pad false) : s.take L.length < L := by
  have split := List.take_append_drop L.length s
  rcases lt_trichotomy (s.take L.length) L with before | same | after
  · exact before
  · rw [← split, same, append_lt_append_left_iff] at below
    exact absurd below (not_lt_replicate_false (by simp; omega))
  · have above := lt_of_lt_take_of_extends (by omega) after (List.prefix_append L (List.replicate pad false))
    exact absurd (below.trans above) (lt_irrefl s)

theorem lt_of_not_lt_append {u : List Bool} (longer : L.length < s.length) (notBelow : ¬ s < L ++ u) :
    L < s := by
  have split := List.take_append_drop L.length s
  rcases lt_trichotomy (s.take L.length) L with before | same | after
  · exact absurd (lt_of_take_lt_of_extends (by omega) before (List.prefix_append L u)) notBelow
  · rw [← split, same]
    exact lt_append_of_ne_nil L (by simp; omega)
  · simpa using lt_of_lt_take_of_extends (by omega) after (List.prefix_refl L)

theorem lt_of_not_take_lt (longer : L.length < s.length) (notBefore : ¬ s.take L.length < L) : L < s :=
  lt_of_not_lt_append (u := []) longer fun below =>
    notBefore (take_lt_of_lt_append_replicate (by omega) (show s < L ++ List.replicate 0 false by simpa using below))

theorem lt_of_bit_true (notBefore : ¬ s.take L.length < L) (bit : s[L.length]? = some true)
    (left : L ++ [false] <+: x) : x < s := by
  have long : L.length < s.length := by
    by_contra short
    rw [List.getElem?_eq_none (by omega)] at bit
    simp at bit
  rcases lt_trichotomy (s.take L.length) L with before | same | after
  · exact absurd before notBefore
  · exact lt_of_branch left (prefix_of_take_of_getElem? same bit)
  · exact lt_of_lt_take_of_extends (by omega) after ((List.prefix_append L [false]).trans left)

theorem lt_right_key_iff {z : Nat} (longer : L.length < s.length)
    (branch : s.take L.length = L → s[L.length]? = some false) (right : L ++ [true] <+: x)
    (room : L.length + 1 + z ≤ x.length) :
    x < s.take L.length ++ [true] ++ List.replicate z false ↔ x < s := by
  have onPath : L <+: x := (List.prefix_append L [true]).trans right
  have takeLength : (s.take L.length).length = L.length := by simp; omega
  have moved : (s.take L.length ++ [true] ++ List.replicate z false).take L.length = s.take L.length := by
    rw [List.append_assoc, List.take_append_of_le_length (by omega), List.take_of_length_le (by omega)]
  rcases lt_trichotomy (s.take L.length) L with before | same | after
  · have notMoved : s.take L.length ++ [true] ++ List.replicate z false < x :=
      lt_of_take_lt_of_extends (by simp; omega) (by rw [moved]; exact before) onPath
    exact iff_of_false (not_lt_of_gt notMoved) (not_lt_of_gt (lt_of_take_lt_of_extends longer.le before onPath))
  · -- The key goes on from `L` with 0: it is before the right subtree, and so is the moved key.
    have goesLeft : L ++ [false] <+: s := prefix_of_take_of_getElem? same (branch same)
    refine iff_of_false (fun below => ?_) (not_lt_of_gt (lt_of_branch goesLeft right))
    obtain ⟨t, rfl⟩ := right
    rw [same, List.append_assoc, List.append_assoc, append_lt_append_left_iff, List.singleton_append,
      List.singleton_append, List.cons_lt_cons_iff] at below
    rcases below with below | ⟨-, below⟩
    · exact absurd below (by decide)
    · exact not_lt_replicate_false (by simp at room; omega) below
  · have aboveMoved : x < s.take L.length ++ [true] ++ List.replicate z false :=
      lt_of_lt_take_of_extends (by simp; omega) (by rw [moved]; exact after) onPath
    exact iff_of_true aboveMoved (lt_of_lt_take_of_extends longer.le after onPath)

end KeyBounds

/-! ### The entries at or after a key -/

def atOrAfter (s : List Bool) (entries : List (Key × Value)) : List (Key × Value) :=
  entries.filter fun e => ¬ ofBytes e.1 < s

theorem atOrAfter_append (s : List Bool) (a b : List (Key × Value)) :
    atOrAfter s (a ++ b) = atOrAfter s a ++ atOrAfter s b :=
  List.filter_append _ _

theorem atOrAfter_eq_self {s : List Bool} {entries : List (Key × Value)}
    (after : ∀ e ∈ entries, ¬ ofBytes e.1 < s) : atOrAfter s entries = entries :=
  List.filter_eq_self.mpr fun e mem => by simpa using after e mem

theorem atOrAfter_eq_nil {s : List Bool} {entries : List (Key × Value)}
    (before : ∀ e ∈ entries, ofBytes e.1 < s) : atOrAfter s entries = [] :=
  List.filter_eq_nil_iff.mpr fun e mem => by simpa using before e mem

theorem atOrAfter_congr {s s' : List Bool} {entries : List (Key × Value)}
    (same : ∀ e ∈ entries, (ofBytes e.1 < s ↔ ofBytes e.1 < s')) :
    atOrAfter s entries = atOrAfter s' entries :=
  List.filter_congr fun e mem => by simp [same e mem]

theorem mem_of_mem_atOrAfter {s : List Bool} {entries : List (Key × Value)} {e : Key × Value}
    (mem : e ∈ atOrAfter s entries) : e ∈ entries ∧ ¬ ofBytes e.1 < s := by
  simpa [atOrAfter] using mem

/-! ### What the iterator's stack stands for -/

/-- The entries of an atom's node that the iterator has still to visit. -/
def PathAtom.remaining (a : PathAtom) : List (Key × Value) :=
  match a.ptr, a.state with
  | .internal _ _ _ _ _ left right, .at => left.entries ++ right.entries
  | .internal _ _ _ _ _ _ right, .atLeft => right.entries
  | _, _ => []

/-- The entries the iterator has still to visit past its current one, deepest atom first. -/
def pending (atoms : List PathAtom) : List (Key × Value) := atoms.flatMap PathAtom.remaining

/-- What the outcome of a visit stands for: the entry found, then the rest its atoms hold. -/
def visited : Option Found → List (Key × Value)
  | none => []
  | some (key, value, atoms) => (key, value) :: pending atoms

/-- The full bit path of an atom's node: the bits of its path to the node's depth, then those
of its label, as `doNext` merges them. -/
def PathAtom.fullPath (a : PathAtom) : List Bool :=
  match a.ptr with
  | .internal _ _ label l _ _ _ => (ofBytes a.path).take a.bitDepth.toNat ++ (ofBytes label).take l.toNat
  | _ => []

@[simp] theorem pending_nil : pending [] = [] := rfl

@[simp] theorem pending_append (as bs : List PathAtom) : pending (as ++ bs) = pending as ++ pending bs :=
  List.flatMap_append

@[simp] theorem pending_cons (a : PathAtom) (as : List PathAtom) : pending (a :: as) = a.remaining ++ pending as :=
  List.flatMap_cons

/-- A node of a canonical trie hanging at bit path `P`, visited at bit depth `P.length` with a
path key whose bits are those of `P`, followed, if at all, by the first bits of the node's
label. -/
structure Placed (n : Node) (P : List Bool) (d : Depth) (path : Key) : Prop where
  canonical : n.Canonical P
  depth : d.toNat = P.length
  agrees : ∀ c hash label l leafNode left right, n = .internal c hash label l leafNode left right →
    ∃ Q, path.Encodes Q ∧ P <+: Q ∧ Q <+: P ++ (ofBytes label).take l.toNat

/-- An atom the iterator may resume with `key`: an internal node placed in a canonical trie,
with `key` the key of its leaf node in state `at` and a key of its left subtree in state
`atLeft`; in state `after` the node is done. -/
structure AtomOk (key : Key) (a : PathAtom) : Prop where
  placed : ∃ P, Placed a.ptr P a.bitDepth a.path
  internal : ∃ c hash label l leafNode left right, a.ptr = .internal c hash label l leafNode left right
  fits : key.Fits
  resumes : a.state = .at ∧ ofBytes key = a.fullPath ∨
    a.state = .atLeft ∧ a.fullPath ++ [false] <+: ofBytes key ∨ a.state = .after

/-- The atom `outer` is visiting the subtree that holds the node of `inner`: its left subtree in
state `atLeft`, its right subtree in state `after`. -/
def Encloses (inner outer : PathAtom) : Prop :=
  outer.state = .atLeft ∧ outer.fullPath ++ [false] <+: inner.fullPath ∨
    outer.state = .after ∧ outer.fullPath ++ [true] <+: inner.fullPath

/-- A stack of atoms, deepest first, that the iterator may resume with `key`. -/
structure StackOk (key : Key) (atoms : List PathAtom) : Prop where
  ok : ∀ a ∈ atoms, AtomOk key a
  nested : atoms.Pairwise Encloses

/-- `visit` succeeds with the first of `out`, with atoms that stand for the rest of `out`, may
be resumed with the key found and whose full paths all begin with `Q`. -/
def Yields (Q : List Bool) (visit : Visit) (out : List (Key × Value)) : Prop :=
  ∃ r, visit = some (.ok r) ∧ visited r = out ∧
    ∀ key value atoms, r = some (key, value, atoms) → StackOk key atoms ∧ ∀ a ∈ atoms, Q <+: a.fullPath

theorem Encloses.extend {inner inner' outer : PathAtom} (h : Encloses inner outer)
    (deeper : inner.fullPath <+: inner'.fullPath) : Encloses inner' outer := by
  rcases h with ⟨state, pre⟩ | ⟨state, pre⟩
  · exact .inl ⟨state, pre.trans deeper⟩
  · exact .inr ⟨state, pre.trans deeper⟩

theorem yields_none (Q : List Bool) : Yields Q (some (.ok none)) [] :=
  ⟨none, rfl, rfl, fun _ _ _ found => by cases found⟩

theorem doNext_leaf_yields (Q : List Bool) (c : Bool) (hash : Hash) (nodeKey : Key) (value : Value)
    (d : Depth) (path key : Key) (state : VisitState) :
    Yields Q (doNext (.leaf c hash nodeKey value) d path key state) (atOrAfter (ofBytes key) [(nodeKey, value)]) := by
  refine ⟨_, rfl, ?_, ?_⟩
  · by_cases before : ofBytes nodeKey < ofBytes key
    · have less := (Key.compare_eq_lt_iff nodeKey key).mpr before
      rw [atOrAfter_eq_nil (by simpa using before)]
      simp [visited, less]
    · have notLess : Key.compare nodeKey key ≠ .lt := fun less => before ((Key.compare_eq_lt_iff _ _).mp less)
      rw [atOrAfter_eq_self (by simpa using before)]
      simp [visited, notLess]
  · intro k v atoms found
    split at found
    · cases found
      exact ⟨⟨by simp, by simp⟩, by simp⟩
    · cases found

theorem Yields.visitSlot {Q Q' : List Bool} {visit rest : Visit} {atom : PathAtom}
    {out total : List (Key × Value)} (slot : Yields Q' visit out)
    (resumes : ∀ key value, (key, value) ∈ out → AtomOk key atom)
    (encloses : ∀ a : PathAtom, Q' <+: a.fullPath → Encloses a atom)
    (outer : Q <+: atom.fullPath) (inner : Q <+: Q')
    (whole : out ≠ [] → out ++ atom.remaining = total) (next : out = [] → Yields Q rest total) :
    Yields Q (Orphiq.Mkvs.visitSlot visit atom rest) total := by
  obtain ⟨r, rfl, outcome, stack⟩ := slot
  cases r with
  | none => exact next outcome.symm
  | some found =>
    obtain ⟨key, value, atoms⟩ := found
    obtain ⟨stack, paths⟩ := stack key value atoms rfl
    have mem : (key, value) ∈ out := by rw [← outcome]; exact List.mem_cons_self
    refine ⟨some (key, value, atoms ++ [atom]), rfl, ?_, ?_⟩
    · rw [← whole (by rw [← outcome]; simp [visited]), ← outcome]
      simp [visited]
    · rintro k v as ⟨⟩
      refine ⟨⟨fun a mem' => ?_, ?_⟩, fun a mem' => ?_⟩
      · rcases List.mem_append.mp mem' with mem' | mem'
        · exact stack.ok a mem'
        · obtain rfl := List.mem_singleton.mp mem'
          exact resumes key value mem
      · exact List.pairwise_append.mpr ⟨stack.nested, List.pairwise_singleton _ _,
          fun a mem' b memB => (List.mem_singleton.mp memB) ▸ encloses a (paths a mem')⟩
      · rcases List.mem_append.mp mem' with mem' | mem'
        · exact inner.trans (paths a mem')
        · exact (List.mem_singleton.mp mem') ▸ outer

/-! ### The steps of a visit of an internal node -/

section Phases

variable {here : VisitState → PathAtom} {newPath : Key} {bitLength : Depth} {takeFirst : Bool}

theorem leafNodePhase_before_visit {visit : Key → Visit} {key : Key} {rest : Key → Visit}
    (enter : (decide (key.bitLength ≤ bitLength) || takeFirst) = true) :
    leafNodePhase here bitLength takeFirst visit key .before rest =
      visitSlot (visit key) (here .at)
        (if key.bitLength ≤ bitLength then (key.appendBit bitLength false).bind rest else rest key) := by
  simp [leafNodePhase, enter]

theorem leafNodePhase_before_skip {visit : Key → Visit} {key : Key} {rest : Key → Visit}
    (skip : (decide (key.bitLength ≤ bitLength) || takeFirst) = false) :
    leafNodePhase here bitLength takeFirst visit key .before rest = rest key := by
  simp [leafNodePhase, skip]

theorem leafNodePhase_at {visit : Key → Visit} {key : Key} {rest : Key → Visit} :
    leafNodePhase here bitLength takeFirst visit key .at rest =
      if key.bitLength ≤ bitLength then (key.appendBit bitLength false).bind rest else rest key := by
  simp [leafNodePhase]

theorem leafNodePhase_atLeft {visit : Key → Visit} {key : Key} {rest : Key → Visit} :
    leafNodePhase here bitLength takeFirst visit key .atLeft rest = rest key := by
  simp [leafNodePhase]

theorem leafNodePhase_after {visit : Key → Visit} {key : Key} {rest : Key → Visit} :
    leafNodePhase here bitLength takeFirst visit key .after rest = rest key := by
  simp [leafNodePhase]

theorem leftPhase_at {visit : Key → Key → Visit} {key : Key} {rest : Key → Visit} {bit : Bool}
    (read : key.getBit bitLength = some bit) :
    leftPhase here newPath bitLength takeFirst visit key .at rest =
      if (!bit || takeFirst) = true then
        (newPath.appendBit bitLength false).bind fun leftPath =>
          visitSlot (visit leftPath key) (here .atLeft)
            (((key.split bitLength key.bitLength).bind fun parts => parts.1.appendBit bitLength true).bind rest)
      else rest key := by
  simp [leftPhase, read]

theorem leftPhase_atLeft {visit : Key → Key → Visit} {key : Key} {rest : Key → Visit} :
    leftPhase here newPath bitLength takeFirst visit key .atLeft rest =
      ((key.split bitLength key.bitLength).bind fun parts => parts.1.appendBit bitLength true).bind rest := by
  simp [leftPhase]

theorem leftPhase_after {visit : Key → Key → Visit} {key : Key} {rest : Key → Visit} :
    leftPhase here newPath bitLength takeFirst visit key .after rest = rest key := by
  simp [leftPhase]

theorem rightPhase_active {visit : Key → Key → Visit} {key : Key} {state : VisitState}
    (active : state = .at ∨ state = .atLeft) :
    rightPhase here newPath bitLength visit key state =
      (newPath.appendBit bitLength true).bind fun rightPath =>
        visitSlot (visit rightPath key) (here .after) (some (.ok none)) := by
  rcases active with rfl | rfl <;> simp [rightPhase]

theorem rightPhase_after {visit : Key → Key → Visit} {key : Key} :
    rightPhase here newPath bitLength visit key .after = some (.ok none) := by
  simp [rightPhase]

end Phases

theorem doNext_internal (c : Bool) (hash : Hash) (label : Key) (l : Depth) (leafNode left right : Node)
    (d : Depth) (path key : Key) (state : VisitState) :
    doNext (.internal c hash label l leafNode left right) d path key state =
      (path.merge d label l).bind fun newPath =>
        let here := PathAtom.mk path (.internal c hash label l leafNode left right) d
        let takeFirst := decide (0 < d + l) && decide (d + l ≤ key.bitLength) &&
          Key.compare key newPath == .lt
        leafNodePhase here (d + l) takeFirst (fun key => doNext leafNode (d + l) path key .before)
          key state fun key =>
        leftPhase here newPath (d + l) takeFirst (fun leftPath key => doNext left (d + l) leftPath key .before)
          key (if state = .before then .at else state) fun key =>
        rightPhase here newPath (d + l) (fun rightPath key => doNext right (d + l) rightPath key .before)
          key (if state = .before then .at else state) := by
  rw [doNext]

/-! ### An internal node and its slots -/

section Atoms

variable (c : Bool) (hash : Hash) (label : Key) (l : Depth) (leafNode left right : Node) (d : Depth) (path : Key)

@[simp] theorem remaining_at :
    (PathAtom.mk path (.internal c hash label l leafNode left right) d .at).remaining =
      left.entries ++ right.entries := rfl

@[simp] theorem remaining_atLeft :
    (PathAtom.mk path (.internal c hash label l leafNode left right) d .atLeft).remaining = right.entries := rfl

@[simp] theorem remaining_after :
    (PathAtom.mk path (.internal c hash label l leafNode left right) d .after).remaining = [] := rfl

end Atoms

theorem doNext_leaf (c : Bool) (hash : Hash) (nodeKey : Key) (value : Value) (d : Depth) (path key : Key)
    (state : VisitState) :
    doNext (.leaf c hash nodeKey value) d path key state =
      some (.ok (if Key.compare nodeKey key != .lt then some (nodeKey, value, []) else none)) := rfl

/-- What a visit of the subtree at `n` from state `before` does, wherever `n` is placed: it
yields the entries of `n` at or after the key. -/
def VisitsBefore (n : Node) : Prop :=
  ∀ {P Q : List Bool} {d : Depth} {path key : Key}, Placed n P d path → Below Q n → key.Fits →
    Yields Q (doNext n d path key .before) (atOrAfter (ofBytes key) n.entries)

/-- An internal node of a canonical trie placed at `P`, with label bits `lbl`, and what each
step of a visit there uses of it. -/
structure InternalAt (c : Bool) (hash : Hash) (label : Key) (l : Depth) (leafNode left right : Node)
    (P lbl : List Bool) (d : Depth) (path : Key) : Prop where
  placed : Placed (.internal c hash label l leafNode left right) P d path
  encodes : label.Encodes lbl
  labelLength : l.toNat = lbl.length
  slot : LeafSlot (P ++ lbl) leafNode
  canonicalLeft : left.Canonical (P ++ lbl)
  belowLeft : Below (P ++ lbl ++ [false]) left
  canonicalRight : right.Canonical (P ++ lbl)
  belowRight : Below (P ++ lbl ++ [true]) right

theorem Placed.internalAt {c : Bool} {hash : Hash} {label : Key} {l : Depth} {leafNode left right : Node}
    {P : List Bool} {d : Depth} {path : Key}
    (placed : Placed (.internal c hash label l leafNode left right) P d path) :
    ∃ lbl, InternalAt c hash label l leafNode left right P lbl d path := by
  obtain ⟨lbl, encodes, length, slot, cLeft, belowLeft, cRight, belowRight, -⟩ := placed.canonical
  exact ⟨lbl, placed, encodes, length, slot, cLeft, belowLeft, cRight, belowRight⟩

namespace InternalAt

variable {c : Bool} {hash : Hash} {label : Key} {l : Depth} {leafNode left right : Node}
  {P lbl : List Bool} {d : Depth} {path : Key}
  (h : InternalAt c hash label l leafNode left right P lbl d path)
include h

theorem bound : (P ++ lbl).length + 8 ≤ 2 ^ 16 :=
  h.placed.canonical.fullPath_bound h.slot h.canonicalLeft h.canonicalRight

theorem depth : (d + l).toNat = (P ++ lbl).length := by
  have bound := h.bound
  rw [List.length_append] at bound ⊢
  rw [depth_add (by rw [h.placed.depth, h.labelLength]; omega), h.placed.depth, h.labelLength]

theorem labelBits : (ofBytes label).take l.toNat = lbl := by
  rw [h.labelLength, h.encodes.take_ofBytes]

theorem merge : ∃ newPath, path.merge d label l = some newPath ∧ newPath.Encodes (P ++ lbl) := by
  obtain ⟨Q, encodes, ⟨r, rfl⟩, within⟩ := h.placed.agrees c hash label l leafNode left right rfl
  rw [h.labelBits] at within
  have bound := h.bound
  rw [List.length_append] at bound
  exact encodes.merge_of_prefix ((List.prefix_append_right_inj P).mp within) h.encodes d l h.placed.depth
    h.labelLength (by omega)

theorem fullPath (state : VisitState) :
    (PathAtom.mk path (.internal c hash label l leafNode left right) d state).fullPath = P ++ lbl := by
  obtain ⟨Q, encodes, pre, -⟩ := h.placed.agrees c hash label l leafNode left right rfl
  simp only [PathAtom.fullPath]
  rw [h.labelBits, h.placed.depth, encodes.ofBytes_eq, List.take_append_of_le_length pre.length_le,
    ← List.prefix_iff_eq_take.mp pre]

theorem atomOk {key : Key} {state : VisitState} (fits : key.Fits)
    (resumes : state = .at ∧ ofBytes key = P ++ lbl ∨ state = .atLeft ∧ P ++ lbl ++ [false] <+: ofBytes key ∨
      state = .after) :
    AtomOk key ⟨path, .internal c hash label l leafNode left right, d, state⟩ :=
  ⟨⟨P, h.placed⟩, ⟨c, hash, label, l, leafNode, left, right, rfl⟩, fits, by rw [h.fullPath]; exact resumes⟩

theorem leafKey {e : Key × Value} (mem : e ∈ leafNode.entries) : ofBytes e.1 = P ++ lbl :=
  h.slot.path_eq (h.slot.canonical.mem_entries_iff.mp mem)

theorem leftKey {e : Key × Value} (mem : e ∈ left.entries) : P ++ lbl ++ [false] <+: ofBytes e.1 :=
  h.canonicalLeft.prefix_of_mem h.belowLeft mem

theorem rightKey {e : Key × Value} (mem : e ∈ right.entries) : P ++ lbl ++ [true] <+: ofBytes e.1 :=
  h.canonicalRight.prefix_of_mem h.belowRight mem

theorem fits_of_mem {e : Key × Value} (mem : e ∈ (Node.internal c hash label l leafNode left right).entries) :
    e.1.Fits :=
  h.placed.canonical.fits_of_mem mem

theorem placedLeft {leftPath : Key} (encodes : leftPath.Encodes (P ++ lbl ++ [false])) :
    Placed left (P ++ lbl) (d + l) leftPath :=
  ⟨h.canonicalLeft, h.depth, fun c' hash' label' l' a b e internal => by
    subst internal
    obtain ⟨lbl', encodes', length', pre⟩ := h.canonicalLeft.prefix_of_below h.belowLeft
    refine ⟨P ++ lbl ++ [false], encodes, List.prefix_append _ _, ?_⟩
    rw [length', encodes'.take_ofBytes]
    exact pre⟩

theorem placedRight {rightPath : Key} (encodes : rightPath.Encodes (P ++ lbl ++ [true])) :
    Placed right (P ++ lbl) (d + l) rightPath :=
  ⟨h.canonicalRight, h.depth, fun c' hash' label' l' a b e internal => by
    subst internal
    obtain ⟨lbl', encodes', length', pre⟩ := h.canonicalRight.prefix_of_below h.belowRight
    refine ⟨P ++ lbl ++ [true], encodes, List.prefix_append _ _, ?_⟩
    rw [length', encodes'.take_ofBytes]
    exact pre⟩

/-! #### Where the keys of the slots fall -/

omit h in
theorem lt_subtree_key {b : Bool} {e : Key × Value} (pre : P ++ lbl ++ [b] <+: ofBytes e.1) :
    P ++ lbl < ofBytes e.1 :=
  lt_of_prefix_of_length_lt ((List.prefix_append _ _).trans pre) (by have := pre.length_le; simp at this ⊢; omega)

omit h in
theorem subtree_length {b : Bool} {e : Key × Value} (pre : P ++ lbl ++ [b] <+: ofBytes e.1) :
    8 * (((P ++ lbl).length + 8) / 8) ≤ (ofBytes e.1).length := by
  have := pre.length_le
  simp only [List.length_append, List.length_singleton, length_ofBytes] at this ⊢
  omega

theorem subtree_bound : 8 * (((P ++ lbl).length + 8) / 8) < 2 ^ 16 := by
  obtain ⟨q₁, v₁, q₂, v₂, distinct, found₁, found₂⟩ := h.placed.canonical.two_keys
  have slotOrDeeper (q : Key) (v : Value)
      (found : (Node.internal c hash label l leafNode left right).contents q = some v) :
      ofBytes q = P ++ lbl ∨ 8 * (((P ++ lbl).length + 8) / 8) < 2 ^ 16 := by
    have mem := (h.placed.canonical.mem_entries_iff (e := (q, v))).mpr found
    have fits := h.fits_of_mem mem
    unfold Key.Fits at fits
    rw [entries_internal, List.mem_append, List.mem_append] at mem
    rcases mem with (inLeaf | inLeft) | inRight
    · exact .inl (h.leafKey inLeaf)
    · have deeper := subtree_length (h.leftKey inLeft)
      rw [length_ofBytes] at deeper
      exact .inr (by omega)
    · have deeper := subtree_length (h.rightKey inRight)
      rw [length_ofBytes] at deeper
      exact .inr (by omega)
  rcases slotOrDeeper q₁ v₁ found₁ with same₁ | bound
  · rcases slotOrDeeper q₂ v₂ found₂ with same₂ | bound
    · exact absurd (ofBytes_injective (same₁.trans same₂.symm)) distinct
    · exact bound
  · exact bound

theorem right_atOrAfter_of_left {s : List Bool} {e : Key × Value} (mem : e ∈ left.entries)
    (after : ¬ ofBytes e.1 < s) : atOrAfter s right.entries = right.entries :=
  atOrAfter_eq_self fun _ memX below => after ((lt_of_branch (h.leftKey mem) (h.rightKey memX)).trans below)

theorem subtrees_atOrAfter {s : List Bool} (notAfter : ¬ P ++ lbl < s) :
    atOrAfter s left.entries = left.entries ∧ atOrAfter s right.entries = right.entries :=
  ⟨atOrAfter_eq_self fun _ mem below => notAfter ((lt_subtree_key (h.leftKey mem)).trans below),
    atOrAfter_eq_self fun _ mem below => notAfter ((lt_subtree_key (h.rightKey mem)).trans below)⟩

theorem leafNode_atOrAfter_of_lt {s : List Bool} (after : P ++ lbl < s) : atOrAfter s leafNode.entries = [] :=
  atOrAfter_eq_nil fun _ mem => by rw [h.leafKey mem]; exact after

theorem left_atOrAfter_of_bit {s : List Bool} (notBefore : ¬ s.take (P ++ lbl).length < P ++ lbl)
    (bit : s[(P ++ lbl).length]? = some true) : atOrAfter s left.entries = [] :=
  atOrAfter_eq_nil fun _ mem => lt_of_bit_true notBefore bit (h.leftKey mem)

theorem atOrAfter_padded {s : List Bool} {m : Nat} (room : s.length + m ≤ 8 * (((P ++ lbl).length + 8) / 8)) :
    atOrAfter (s ++ List.replicate m false) left.entries = atOrAfter s left.entries ∧
      atOrAfter (s ++ List.replicate m false) right.entries = atOrAfter s right.entries :=
  ⟨atOrAfter_congr fun _ mem => lt_append_replicate_false_iff (room.trans (subtree_length (h.leftKey mem))),
    atOrAfter_congr fun _ mem => lt_append_replicate_false_iff (room.trans (subtree_length (h.rightKey mem)))⟩

theorem right_atOrAfter_moved {s : List Bool} {z : Nat} (longer : (P ++ lbl).length < s.length)
    (branch : s.take (P ++ lbl).length = P ++ lbl → s[(P ++ lbl).length]? = some false)
    (room : (P ++ lbl).length + 1 + z ≤ 8 * (((P ++ lbl).length + 8) / 8)) :
    atOrAfter (s.take (P ++ lbl).length ++ [true] ++ List.replicate z false) right.entries =
      atOrAfter s right.entries :=
  atOrAfter_congr fun _ mem =>
    lt_right_key_iff longer branch (h.rightKey mem) (room.trans (subtree_length (h.rightKey mem)))

/-! #### `takeFirst` -/

theorem takeFirst_iff {newPath key : Key} (newBits : newPath.Encodes (P ++ lbl)) (fits : key.Fits) :
    (decide (0 < d + l) && decide (d + l ≤ key.bitLength) && Key.compare key newPath == .lt) = true ↔
      0 < (P ++ lbl).length ∧ (P ++ lbl).length ≤ 8 * key.length ∧
        ofBytes key < P ++ lbl ++ List.replicate (8 * newPath.length - (P ++ lbl).length) false := by
  rw [← newBits.ofBytes_eq, ← Key.compare_eq_lt_iff, ← bitLength_toNat key fits, ← h.depth]
  simp [UInt16.lt_iff_toNat_lt, UInt16.le_iff_toNat_le, and_assoc]

theorem take_lt_of_takeFirst {newPath key : Key} (newBits : newPath.Encodes (P ++ lbl)) (fits : key.Fits)
    (first : (decide (0 < d + l) && decide (d + l ≤ key.bitLength) && Key.compare key newPath == .lt) = true) :
    (P ++ lbl).length ≤ 8 * key.length ∧ (ofBytes key).take (P ++ lbl).length < P ++ lbl := by
  obtain ⟨-, long, below⟩ := (h.takeFirst_iff newBits fits).mp first
  refine ⟨long, take_lt_of_lt_append_replicate ?_ below⟩
  rw [length_ofBytes, newBits.1]
  omega

theorem not_take_lt_of_not_takeFirst {newPath key : Key} (newBits : newPath.Encodes (P ++ lbl)) (fits : key.Fits)
    (long : (P ++ lbl).length ≤ 8 * key.length)
    (notFirst : (decide (0 < d + l) && decide (d + l ≤ key.bitLength) && Key.compare key newPath == .lt) = false) :
    ¬ (ofBytes key).take (P ++ lbl).length < P ++ lbl := by
  intro before
  by_cases empty : (P ++ lbl).length = 0
  · rw [empty, List.take_zero, List.eq_nil_of_length_eq_zero empty] at before
    exact lt_irrefl _ before
  · have first := (h.takeFirst_iff newBits fits).mpr ⟨by omega, long,
      lt_of_take_lt_of_extends (by simpa using long) before (List.prefix_append _ _)⟩
    rw [first] at notFirst
    cases notFirst

/-! #### The phases -/

theorem leafNode_visitSlot {Q : List Bool} (outer : Q <+: P ++ lbl) {key : Key} {rest : Visit}
    {total : List (Key × Value)}
    (whole : atOrAfter (ofBytes key) leafNode.entries ≠ [] →
      atOrAfter (ofBytes key) leafNode.entries ++ left.entries ++ right.entries = total)
    (next : atOrAfter (ofBytes key) leafNode.entries = [] → Yields Q rest total) :
    Yields Q (visitSlot (doNext leafNode (d + l) path key .before)
      (PathAtom.mk path (.internal c hash label l leafNode left right) d .at) rest) total := by
  have slot := h.slot
  cases leafNode with
  | nil => exact next rfl
  | leaf c' hash' nodeKey value =>
    obtain ⟨onPath, fits⟩ := slot
    rw [doNext_leaf]
    by_cases before : ofBytes nodeKey < ofBytes key
    · have less := (Key.compare_eq_lt_iff nodeKey key).mpr before
      simpa [visitSlot, less] using next (atOrAfter_eq_nil (by simpa using before))
    · have notLess : Key.compare nodeKey key ≠ .lt := fun less => before ((Key.compare_eq_lt_iff _ _).mp less)
      have found : atOrAfter (ofBytes key) [(nodeKey, value)] = [(nodeKey, value)] :=
        atOrAfter_eq_self (by simpa using before)
      refine ⟨some (nodeKey, value, [PathAtom.mk path (.internal c hash label l (.leaf c' hash' nodeKey value) left right) d .at]),
        by simp [visitSlot, notLess], ?_, ?_⟩
      · rw [← whole (by simp [found]), entries_leaf, found]
        simp [visited]
      · rintro k v atoms ⟨⟩
        refine ⟨⟨fun a mem => ?_, List.pairwise_singleton _ _⟩, fun a mem => ?_⟩
        · rw [List.mem_singleton.mp mem]
          exact h.atomOk fits (.inl ⟨rfl, onPath⟩)
        · rw [List.mem_singleton.mp mem, h.fullPath]
          exact outer
  | internal => exact slot.elim
  | hashed => exact slot.elim

theorem rightPhase_yields (ihRight : VisitsBefore right) {Q : List Bool} (outer : Q <+: P ++ lbl)
    {newPath : Key} (newBits : newPath.Encodes (P ++ lbl)) {key : Key} (fits : key.Fits)
    {state : VisitState} (active : state = .at ∨ state = .atLeft) :
    Yields Q (rightPhase (PathAtom.mk path (.internal c hash label l leafNode left right) d) newPath (d + l)
      (fun rightPath key => doNext right (d + l) rightPath key .before) key state)
      (atOrAfter (ofBytes key) right.entries) := by
  have bound := h.bound
  obtain ⟨rightPath, appended, rightBits⟩ := newBits.appendBit (d + l) h.depth (by omega) true
  rw [rightPhase_active active, appended, Option.bind_some]
  refine (ihRight (h.placedRight rightBits) h.belowRight fits).visitSlot (fun k v mem => ?_)
    (fun a pre => .inr ⟨rfl, by rw [h.fullPath]; exact pre⟩) (by rw [h.fullPath]; exact outer)
    (outer.trans (List.prefix_append _ _)) (fun _ => by simp) (fun none => by rw [none]; exact yields_none Q)
  exact h.atomOk (h.fits_of_mem (e := (k, v)) (by simp [(mem_of_mem_atOrAfter mem).1])) (.inr (.inr rfl))

theorem moved_yields (ihRight : VisitsBefore right) {Q : List Bool} (outer : Q <+: P ++ lbl)
    {newPath : Key} (newBits : newPath.Encodes (P ++ lbl)) {key : Key} (fits : key.Fits)
    (longer : (P ++ lbl).length < 8 * key.length)
    (branch : (ofBytes key).take (P ++ lbl).length = P ++ lbl → (ofBytes key)[(P ++ lbl).length]? = some false)
    {state : VisitState} (active : state = .at ∨ state = .atLeft) :
    Yields Q (((key.split (d + l) key.bitLength).bind fun parts => parts.1.appendBit (d + l) true).bind
      fun key => rightPhase (PathAtom.mk path (.internal c hash label l leafNode left right) d) newPath (d + l)
        (fun rightPath key => doNext right (d + l) rightPath key .before) key state)
      (atOrAfter (ofBytes key) right.entries) := by
  have bound := h.bound
  obtain ⟨moved, split, movedBits⟩ := split_appendBit_true (by rw [h.depth]; omega) fits (by rw [h.depth]; omega)
  rw [split, Option.bind_some]
  rw [h.depth] at movedBits
  have takeLength : ((ofBytes key).take (P ++ lbl).length).length = (P ++ lbl).length :=
    List.length_take_of_le (by rw [length_ofBytes]; omega)
  have movedLength : moved.length = ((P ++ lbl).length + 8) / 8 := by
    have := movedBits.1
    rw [List.length_append, takeLength, List.length_singleton] at this
    omega
  have movedFits : moved.Fits := by
    have := h.subtree_bound
    unfold Key.Fits
    omega
  have same := h.right_atOrAfter_moved (s := ofBytes key)
    (z := 8 * moved.length - ((P ++ lbl).length + 1)) (by rw [length_ofBytes]; exact longer) branch (by omega)
  have movedPath := movedBits.ofBytes_eq
  rw [@List.length_append _ ((ofBytes key).take (P ++ lbl).length) [true], takeLength,
    List.length_singleton] at movedPath
  rw [← same, ← movedPath]
  exact h.rightPhase_yields ihRight outer newBits movedFits active

theorem leftRight_yields (ihLeft : VisitsBefore left) (ihRight : VisitsBefore right) {Q : List Bool}
    (outer : Q <+: P ++ lbl) {newPath : Key} (newBits : newPath.Encodes (P ++ lbl)) {takeFirst : Bool}
    {key : Key} (fits : key.Fits) (longer : (P ++ lbl).length < 8 * key.length) {bit : Bool}
    (read : (ofBytes key)[(P ++ lbl).length]? = some bit)
    (branch : (!bit || takeFirst) = true → (ofBytes key).take (P ++ lbl).length = P ++ lbl → bit = false)
    (notBefore : (!bit || takeFirst) = false → ¬ (ofBytes key).take (P ++ lbl).length < P ++ lbl) :
    Yields Q (leftPhase (PathAtom.mk path (.internal c hash label l leafNode left right) d) newPath (d + l)
      takeFirst (fun leftPath key => doNext left (d + l) leftPath key .before) key .at
      fun key => rightPhase (PathAtom.mk path (.internal c hash label l leafNode left right) d) newPath (d + l)
        (fun rightPath key => doNext right (d + l) rightPath key .before) key .at)
      (atOrAfter (ofBytes key) left.entries ++ atOrAfter (ofBytes key) right.entries) := by
  have bound := h.bound
  have getBit : key.getBit (d + l) = some bit := by rw [getBit_eq_getElem?, h.depth]; exact read
  rw [leftPhase_at getBit]
  split
  · rename_i enter
    obtain ⟨leftPath, appended, leftBits⟩ := newBits.appendBit (d + l) h.depth (by omega) false
    rw [appended, Option.bind_some]
    refine (ihLeft (h.placedLeft leftBits) h.belowLeft fits).visitSlot (fun k v mem => ?_)
      (fun a pre => .inl ⟨rfl, by rw [h.fullPath]; exact pre⟩) (by rw [h.fullPath]; exact outer)
      (outer.trans (List.prefix_append _ _)) (fun nonempty => ?_) (fun none => ?_)
    · exact h.atomOk (h.fits_of_mem (e := (k, v)) (by simp [(mem_of_mem_atOrAfter mem).1]))
        (.inr (.inl ⟨rfl, h.leftKey (mem_of_mem_atOrAfter mem).1⟩))
    · -- A key found in the left subtree: the whole right subtree follows it.
      obtain ⟨e, mem⟩ := List.exists_mem_of_ne_nil _ nonempty
      obtain ⟨inLeft, after⟩ := mem_of_mem_atOrAfter mem
      rw [remaining_atLeft, h.right_atOrAfter_of_left inLeft after]
    · -- None there: the key moves to the first key of the right subtree.
      rw [none, List.nil_append]
      exact h.moved_yields ihRight outer newBits fits longer
        (fun take => by rw [branch enter take] at read; exact read) (.inl rfl)
  · rename_i skip
    -- The left subtree is skipped: the key goes on with 1 past the node's path.
    have one : bit = true := by cases bit <;> simp_all
    rw [h.left_atOrAfter_of_bit (notBefore (by simpa using skip)) (by rw [← one]; exact read), List.nil_append]
    exact h.rightPhase_yields ihRight outer newBits fits (.inl rfl)

theorem padded_yields (ihLeft : VisitsBefore left) (ihRight : VisitsBefore right) {Q : List Bool}
    (outer : Q <+: P ++ lbl) {newPath : Key} (newBits : newPath.Encodes (P ++ lbl)) {takeFirst : Bool}
    {key : Key} (short : 8 * key.length ≤ (P ++ lbl).length) :
    Yields Q ((key.appendBit (d + l) false).bind fun key =>
      leftPhase (PathAtom.mk path (.internal c hash label l leafNode left right) d) newPath (d + l)
        takeFirst (fun leftPath key => doNext left (d + l) leftPath key .before) key .at
        fun key => rightPhase (PathAtom.mk path (.internal c hash label l leafNode left right) d) newPath (d + l)
          (fun rightPath key => doNext right (d + l) rightPath key .before) key .at)
      (atOrAfter (ofBytes key) left.entries ++ atOrAfter (ofBytes key) right.entries) := by
  have bound := h.bound
  have room := h.subtree_bound
  obtain ⟨padded, appended, paddedLength, paddedBits⟩ :=
    appendBit_false_of_short (by rw [h.depth]; exact short) (by rw [h.depth]; omega)
  rw [h.depth] at paddedLength
  rw [appended, Option.bind_some]
  have read : (ofBytes padded)[(P ++ lbl).length]? = some false := by
    rw [paddedBits, List.getElem?_append_right (by rw [length_ofBytes]; exact short), List.getElem?_replicate,
      if_pos (by rw [length_ofBytes, paddedLength]; omega)]
  -- Below the subtrees, the zeros of the padding change nothing.
  obtain ⟨sameLeft, sameRight⟩ := h.atOrAfter_padded (s := ofBytes key)
    (m := 8 * padded.length - 8 * key.length) (by rw [length_ofBytes, paddedLength]; omega)
  rw [← sameLeft, ← sameRight, ← paddedBits]
  exact h.leftRight_yields ihLeft ihRight outer newBits (by unfold Key.Fits; rw [paddedLength]; exact room)
    (by rw [paddedLength]; omega) read (fun _ _ => rfl) (fun never => by simp at never)

theorem before_yields (ihLeft : VisitsBefore left) (ihRight : VisitsBefore right) {Q : List Bool}
    (below : Below Q (.internal c hash label l leafNode left right)) {key : Key} (fits : key.Fits) :
    Yields Q (doNext (.internal c hash label l leafNode left right) d path key .before)
      (atOrAfter (ofBytes key) (Node.internal c hash label l leafNode left right).entries) := by
  have outer : Q <+: P ++ lbl := by
    obtain ⟨lbl', encodes', length', pre⟩ := h.placed.canonical.prefix_of_below below
    rwa [encodes'.eq_of_length h.encodes (by rw [← length', h.labelLength])] at pre
  have bound := h.bound
  have room := h.subtree_bound
  obtain ⟨newPath, merged, newBits⟩ := h.merge
  rw [doNext_internal, merged, Option.bind_some]
  dsimp only
  rw [if_pos rfl, entries_internal, atOrAfter_append, atOrAfter_append]
  generalize named : (decide (0 < d + l) && decide (d + l ≤ key.bitLength) && Key.compare key newPath == .lt) =
    takeFirst
  -- Past a leaf found in the leaf node's slot, both subtrees follow whole.
  have whole : atOrAfter (ofBytes key) leafNode.entries ≠ [] →
      atOrAfter (ofBytes key) leafNode.entries ++ left.entries ++ right.entries =
        atOrAfter (ofBytes key) leafNode.entries ++ atOrAfter (ofBytes key) left.entries ++
          atOrAfter (ofBytes key) right.entries := by
    intro nonempty
    obtain ⟨e, mem⟩ := List.exists_mem_of_ne_nil _ nonempty
    obtain ⟨inLeafNode, after⟩ := mem_of_mem_atOrAfter mem
    obtain ⟨sameLeft, sameRight⟩ := h.subtrees_atOrAfter (by rw [← h.leafKey inLeafNode]; exact after)
    rw [sameLeft, sameRight]
  by_cases short : 8 * key.length ≤ (P ++ lbl).length
  · -- A short key: the leaf node, then the key padded with zeros goes left.
    have le : key.bitLength ≤ d + l := (bitLength_le_iff fits).mpr (by rw [h.depth]; exact short)
    rw [leafNodePhase_before_visit (by simp [le]), if_pos le]
    refine h.leafNode_visitSlot outer whole fun none => ?_
    rw [none, List.nil_append]
    exact h.padded_yields ihLeft ihRight outer newBits short
  · have notLe : ¬ key.bitLength ≤ d + l := by
      rw [bitLength_le_iff fits, h.depth]
      exact short
    obtain ⟨bit, read⟩ : ∃ bit, (ofBytes key)[(P ++ lbl).length]? = some bit :=
      ⟨_, List.getElem?_eq_getElem (by rw [length_ofBytes]; omega)⟩
    cases takeFirst with
    | true =>
      -- A key before the whole node: the leaf node, then the subtrees.
      obtain ⟨-, before⟩ := h.take_lt_of_takeFirst newBits fits named
      rw [leafNodePhase_before_visit (by simp), if_neg notLe]
      refine h.leafNode_visitSlot outer whole fun none => ?_
      rw [none, List.nil_append]
      exact h.leftRight_yields ihLeft ihRight outer newBits fits (by omega) read
        (fun _ same => absurd (same ▸ before) (lt_irrefl _)) (fun never => by simp at never)
    | false =>
      -- A key past the leaf node: the subtrees alone.
      have notBefore := h.not_take_lt_of_not_takeFirst newBits fits (by omega) named
      have after := lt_of_not_take_lt (by rw [length_ofBytes]; omega) notBefore
      rw [leafNodePhase_before_skip (by simp [notLe]), h.leafNode_atOrAfter_of_lt after, List.nil_append]
      exact h.leftRight_yields ihLeft ihRight outer newBits fits (by omega) read
        (fun enter _ => by simpa using enter) (fun _ => notBefore)

end InternalAt

/-- `doNext` from state `before` yields the entries of the subtree at or after the key, in the
order of the trie. -/
theorem doNext_before (n : Node) : VisitsBefore n := by
  induction n with
  | nil => exact fun _ _ _ => yields_none _
  | leaf c hash nodeKey value => exact fun _ _ _ => doNext_leaf_yields _ c hash nodeKey value _ _ _ _
  | internal c hash label l leafNode left right _ ihLeft ihRight =>
    intro P Q d path key placed below fits
    obtain ⟨lbl, h⟩ := placed.internalAt
    exact h.before_yields ihLeft ihRight below fits
  | hashed => exact fun placed _ _ => placed.canonical.elim

/-! ### Resuming from the stack -/

namespace InternalAt

variable {c : Bool} {hash : Hash} {label : Key} {l : Depth} {leafNode left right : Node}
  {P lbl : List Bool} {d : Depth} {path : Key}
  (h : InternalAt c hash label l leafNode left right P lbl d path)
include h

theorem resume_at {key : Key} (onPath : ofBytes key = P ++ lbl) :
    Yields (P ++ lbl) (doNext (.internal c hash label l leafNode left right) d path key .at)
      (left.entries ++ right.entries) := by
  obtain ⟨newPath, merged, newBits⟩ := h.merge
  have short : 8 * key.length ≤ (P ++ lbl).length := by rw [← onPath, length_ofBytes]
  have fits : key.Fits := by
    have := h.bound
    unfold Key.Fits
    omega
  have le : key.bitLength ≤ d + l := (bitLength_le_iff fits).mpr (by rw [h.depth]; exact short)
  obtain ⟨sameLeft, sameRight⟩ := h.subtrees_atOrAfter (lt_irrefl (P ++ lbl))
  rw [doNext_internal, merged, Option.bind_some]
  dsimp only
  rw [if_neg (by decide), leafNodePhase_at, if_pos le, ← sameLeft, ← sameRight, ← onPath]
  exact h.padded_yields (doNext_before left) (doNext_before right) (by rw [onPath]) newBits short

theorem resume_atLeft {key : Key} (fits : key.Fits) (goesLeft : P ++ lbl ++ [false] <+: ofBytes key) :
    Yields (P ++ lbl) (doNext (.internal c hash label l leafNode left right) d path key .atLeft)
      right.entries := by
  obtain ⟨newPath, merged, newBits⟩ := h.merge
  obtain ⟨rest, keyBits⟩ := goesLeft
  have longer : (P ++ lbl).length < 8 * key.length := by
    have := congrArg List.length keyBits
    rw [length_ofBytes] at this
    simp only [List.length_append, List.length_singleton] at this ⊢
    omega
  have read : (ofBytes key)[(P ++ lbl).length]? = some false := by simp [← keyBits]
  have whole : atOrAfter (ofBytes key) right.entries = right.entries :=
    atOrAfter_eq_self fun _ mem => not_lt_of_gt (lt_of_branch ⟨rest, keyBits⟩ (h.rightKey mem))
  rw [doNext_internal, merged, Option.bind_some]
  dsimp only
  rw [if_neg (by decide), leafNodePhase_atLeft, leftPhase_atLeft, ← whole]
  exact h.moved_yields (doNext_before right) (List.prefix_refl _) newBits fits longer (fun _ => read) (.inr rfl)

theorem resume_after (key : Key) :
    Yields (P ++ lbl) (doNext (.internal c hash label l leafNode left right) d path key .after) [] := by
  obtain ⟨newPath, merged, -⟩ := h.merge
  rw [doNext_internal, merged, Option.bind_some]
  dsimp only
  rw [if_neg (by decide), leafNodePhase_after, leftPhase_after, rightPhase_after]
  exact yields_none _

end InternalAt

/-- Resuming an atom that the iterator may resume with `key` yields what the atom has still to
visit. -/
theorem doNext_resume {key : Key} {a : PathAtom} (ok : AtomOk key a) :
    Yields a.fullPath (doNext a.ptr a.bitDepth a.path key a.state) a.remaining := by
  obtain ⟨path, ptr, d, state⟩ := a
  obtain ⟨c, hash, label, l, leafNode, left, right, internal⟩ := ok.internal
  obtain ⟨P, placed⟩ := ok.placed
  have resumes := ok.resumes
  dsimp only at internal placed resumes ⊢
  subst internal
  obtain ⟨lbl, h⟩ := placed.internalAt
  rw [h.fullPath] at resumes ⊢
  rcases resumes with ⟨rfl, onPath⟩ | ⟨rfl, goesLeft⟩ | rfl
  · rw [remaining_at]
    exact h.resume_at onPath
  · rw [remaining_atLeft]
    exact h.resume_atLeft ok.fits goesLeft
  · rw [remaining_after]
    exact h.resume_after key

theorem AtomOk.prefix_of_mem {key : Key} {a : PathAtom} (ok : AtomOk key a) {e : Key × Value}
    (mem : e ∈ a.remaining) : a.fullPath <+: ofBytes e.1 ∧ e.1.Fits := by
  obtain ⟨path, ptr, d, state⟩ := a
  obtain ⟨c, hash, label, l, leafNode, left, right, internal⟩ := ok.internal
  obtain ⟨P, placed⟩ := ok.placed
  dsimp only at internal placed mem ⊢
  subst internal
  obtain ⟨lbl, h⟩ := placed.internalAt
  rw [h.fullPath]
  have deeper (inLeft : e ∈ left.entries ∨ e ∈ right.entries) : P ++ lbl <+: ofBytes e.1 ∧ e.1.Fits := by
    refine ⟨?_, h.fits_of_mem (by simp only [entries_internal, List.mem_append]; tauto)⟩
    rcases inLeft with inLeft | inRight
    · exact (List.prefix_append _ _).trans (h.leftKey inLeft)
    · exact (List.prefix_append _ _).trans (h.rightKey inRight)
  -- One case for each state: `before` and `after` have nothing left.
  cases state
  · exact absurd mem List.not_mem_nil
  · rw [remaining_at] at mem
    exact deeper (List.mem_append.mp mem)
  · rw [remaining_atLeft] at mem
    exact deeper (.inr mem)
  · rw [remaining_after] at mem
    exact absurd mem List.not_mem_nil

theorem AtomOk.of_encloses {key key' : Key} {a b : PathAtom} (ok : AtomOk key b) (encloses : Encloses a b)
    (fits : key'.Fits) (inside : a.fullPath <+: ofBytes key') : AtomOk key' b := by
  refine ⟨ok.placed, ok.internal, fits, ?_⟩
  rcases encloses with ⟨state, pre⟩ | ⟨state, -⟩
  · exact .inr (.inl ⟨state, pre.trans inside⟩)
  · exact .inr (.inr state)

theorem StackOk.push {key k : Key} {atom : PathAtom} {remainder atoms : List PathAtom}
    (stack : StackOk key (atom :: remainder)) (deeper : StackOk k atoms)
    (paths : ∀ a ∈ atoms, atom.fullPath <+: a.fullPath) (fits : k.Fits) (inside : atom.fullPath <+: ofBytes k) :
    StackOk k (atoms ++ remainder) := by
  obtain ⟨enclosed, nested⟩ := List.pairwise_cons.mp stack.nested
  refine ⟨fun a mem => ?_, List.pairwise_append.mpr ⟨deeper.nested, nested, fun a memA b memB => ?_⟩⟩
  · rcases List.mem_append.mp mem with mem | mem
    · exact deeper.ok a mem
    · exact (stack.ok a (List.mem_cons_of_mem _ mem)).of_encloses (enclosed a mem) fits inside
  · exact (enclosed b memB).extend (paths a memA)

/-! ### The iterator -/

namespace TreeIterator

/-- What the iterator has still to give: its current entry, then what its stack holds. -/
def upcoming (it : TreeIterator) : List (Key × Value) :=
  match it.key with
  | some key => (key, it.value.getD []) :: pending it.pos
  | none => []

/-- A live iterator: no error, and either on an entry, with a stack it may resume with the
entry's key, or at the end with an empty stack. -/
structure Positioned (it : TreeIterator) : Prop where
  noError : it.err = none
  stack : ∀ key, it.key = some key → StackOk key it.pos
  ended : it.key = none → it.pos = []

theorem positioned_reset {it : TreeIterator} (noError : it.err = none) : it.reset.Positioned :=
  ⟨noError, fun _ found => by simp [reset] at found, fun _ => rfl⟩

theorem nextLoop_spec {it : TreeIterator} (noError : it.err = none) {key : Key} {atoms : List PathAtom}
    (stack : StackOk key atoms) :
    ∃ it', it.nextLoop key atoms = some it' ∧ it'.Positioned ∧ it'.upcoming = pending atoms := by
  induction atoms with
  | nil => exact ⟨it.reset, rfl, positioned_reset noError, rfl⟩
  | cons atom remainder ih =>
    have ok := stack.ok atom List.mem_cons_self
    obtain ⟨r, resumed, outcome, found⟩ := doNext_resume ok
    cases r with
    | none =>
      -- The atom is done: the loop goes on with the rest of the stack.
      obtain ⟨it', loop, positioned, rest⟩ :=
        ih ⟨fun a mem => stack.ok a (List.mem_cons_of_mem _ mem), (List.pairwise_cons.mp stack.nested).2⟩
      refine ⟨it', by simpa [nextLoop, resumed] using loop, positioned, ?_⟩
      rw [rest, pending_cons, ← outcome]
      rfl
    | some r =>
      obtain ⟨k, v, atoms⟩ := r
      obtain ⟨deeper, paths⟩ := found k v atoms rfl
      have entry : (k, v) ∈ atom.remaining := by
        rw [← outcome]
        exact List.mem_cons_self
      obtain ⟨inside, fits⟩ := ok.prefix_of_mem entry
      refine ⟨{ it with pos := atoms ++ remainder, key := some k, value := some v }, by simp [nextLoop, resumed],
        ⟨noError, fun key' same => ?_, fun ended => by simp at ended⟩, ?_⟩
      · obtain rfl := Option.some.inj same
        exact stack.push deeper paths fits inside
      · simp [upcoming, ← outcome, visited]

/-- `Next` moves a positioned iterator on by one entry. -/
theorem next_spec {it : TreeIterator} (positioned : it.Positioned) :
    ∃ it', it.next = some it' ∧ it'.Positioned ∧ it'.upcoming = it.upcoming.tail := by
  unfold next
  rw [if_neg (by simp [positioned.noError])]
  cases current : it.key with
  | none =>
    rw [positioned.ended current]
    exact ⟨it.reset, rfl, positioned_reset positioned.noError, by simp [upcoming, reset, current]⟩
  | some key =>
    obtain ⟨it', loop, moved, rest⟩ := nextLoop_spec positioned.noError (positioned.stack key current)
    refine ⟨it', by simpa using loop, moved, ?_⟩
    rw [rest]
    simp [upcoming, current]

theorem placed_root {n : Node} (canonical : n.Canonical []) : Placed n [] 0 [] :=
  ⟨canonical, rfl, fun _ _ _ _ _ _ _ _ => ⟨[], encodes_ofBytes [], List.prefix_refl _, List.nil_prefix⟩⟩

/-- `Seek` on a live iterator of a canonical tree positions it on the first entry at or after
the key: it has still to give every entry at or after the key, in the trie's order. -/
theorem seek_spec {it : TreeIterator} (noError : it.err = none) (canonical : it.tree.pendingRoot.Canonical [])
    {key : Key} (fits : key.Fits) :
    ∃ it', it.seek key = some it' ∧ it'.Positioned ∧
      it'.upcoming = atOrAfter (ofBytes key) it.tree.pendingRoot.entries := by
  obtain ⟨r, visit, outcome, found⟩ :=
    doNext_before it.tree.pendingRoot (placed_root canonical) (Q := []) (fun _ _ _ => List.nil_prefix) fits
  rw [seek, if_neg (by simp [noError]), visit, Option.map_some]
  refine ⟨_, rfl, ?_, ?_⟩
  · cases r with
    | none => exact positioned_reset noError
    | some r =>
      obtain ⟨k, v, atoms⟩ := r
      refine ⟨noError, fun key' same => Option.some.inj same ▸ (found k v atoms rfl).1, fun ended => ?_⟩
      simp [settle] at ended
  · rw [← outcome]
    cases r with
    | none => rfl
    | some r => rfl

/-- With enough rounds, reading on with `Next` from a positioned iterator gives what it has
still to give. -/
theorem readAll_spec (fuel : Nat) {it : TreeIterator} (positioned : it.Positioned)
    (enough : it.upcoming.length ≤ fuel) : it.readAll fuel = some it.upcoming := by
  induction fuel generalizing it with
  | zero =>
    have empty : it.upcoming = [] := List.eq_nil_of_length_eq_zero (by omega)
    rw [empty]
    rfl
  | succ fuel ih =>
    cases current : it.key with
    | none => simp [readAll, current, upcoming]
    | some key =>
      obtain ⟨it', next, moved, rest⟩ := next_spec positioned
      have shorter : it'.upcoming.length ≤ fuel := by
        rw [rest, List.length_tail]
        omega
      simp only [readAll, current, next, Option.bind_some, ih moved shorter, rest, Option.map_some]
      simp [upcoming, current]

end TreeIterator

/-! ### Iterating a tree -/

namespace Tree

/-- Seeking `key` with a new iterator of a consistent tree, then reading on with `Next`, gives
exactly the tree's entries whose keys are at or after `key`, each once, in strictly ascending
key order. -/
theorem seek_readAll {digest : List UInt8 → Hash} {base : Key → Option Value} {t : Tree}
    (consistent : t.Consistent digest base) {key : Key} (fits : key.Fits) :
    ∃ it out, t.newIterator.seek key = some it ∧ (∀ fuel, out.length ≤ fuel → it.readAll fuel = some out) ∧
      out.Pairwise (fun a b => Key.compare a.1 b.1 = .lt) ∧
      ∀ k v, (k, v) ∈ out ↔ t.pendingRoot.contents k = some v ∧ Key.compare k key ≠ .lt := by
  obtain ⟨it, sought, positioned, upcoming⟩ :=
    TreeIterator.seek_spec (rfl : t.newIterator.err = none) consistent.canonical fits
  change it.upcoming = atOrAfter (ofBytes key) t.pendingRoot.entries at upcoming
  refine ⟨it, it.upcoming, sought, fun fuel enough => TreeIterator.readAll_spec fuel positioned enough, ?_,
    fun k v => ?_⟩
  · rw [upcoming]
    exact (consistent.canonical.entries_ascending.filter _).imp fun lt => (Key.compare_eq_lt_iff _ _).mpr lt
  · rw [upcoming, atOrAfter, List.mem_filter, consistent.canonical.mem_entries_iff, ne_eq, Key.compare_eq_lt_iff]
    simp

end Tree

end Orphiq.Mkvs

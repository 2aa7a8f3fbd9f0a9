import OrphiqCore.Mkvs.CacheTree

/-!
# The accounting of the cache

`Cache.Accounted` is what the counters of the cache are meant to say: `valueSize` is the sum of
`LeafNode.Size` over the leaves linked in `lruLeaf`, without wrapping, `internalNodeCount` is the
length of `lruInternal`, the lists hold distinct clean nodes of their kind, a pointer is linked
exactly when it is in a list, and the marked positions are in their lists.

Each operation of the cache keeps it: using a node, marking the positions, allocating a node,
changing a node that is not linked, rolling a node back and removing a leaf. What does not is
changing the value of a linked leaf before it is rolled back, as `doInsert` does when it updates
the value under an existing key: `rollbackNode` then subtracts the size of the new value where the
old one was added (`markDirty_leaf_accounted_iff`). From a new cache, inserting a key, committing
and inserting it again with a longer value leaves `valueSize` wrapped below zero.
-/

namespace Orphiq.Mkvs

/-- `LeafNode.Size` as a natural number. -/
def leafBytes (key : Key) (value : Value) : Nat := 88 + key.length + value.length

theorem leafSize_toNat {key : Key} {value : Value} (fits : leafBytes key value < 2 ^ 64) :
    (leafSize key value).toNat = leafBytes key value := by
  have base : (88 : UInt64).toNat = 88 := rfl
  unfold leafBytes at *
  simp only [leafSize, leafNodeSize, UInt64.toNat_add, Nat.toUInt64_eq, UInt64.toNat_ofNat', base]
  omega

/-- The share of the pointer at `p` in `valueSize`: the size of its node when that is a leaf. -/
def leafShare (heap : Array Pointer) (p : Ptr) : Nat :=
  match heap[p]? with
  | some ⟨_, some (.leaf _ key value), _⟩ => leafBytes key value
  | _ => 0

theorem leafShare_congr {heap heap' : Array Pointer} {p : Ptr} (same : heap'[p]? = heap[p]?) :
    leafShare heap' p = leafShare heap p := by
  unfold leafShare
  rw [same]

theorem sum_leafShare_congr {heap heap' : Array Pointer} {l : List Ptr}
    (same : ∀ q ∈ l, heap'[q]? = heap[q]?) :
    (l.map (leafShare heap')).sum = (l.map (leafShare heap)).sum := by
  rw [List.map_congr_left fun q member => leafShare_congr (same q member)]

theorem moveToFront_perm (l : List Ptr) (p : Ptr) : (moveToFront l p).Perm l := by
  unfold moveToFront
  split
  · exact (List.perm_cons_erase ‹_›).symm
  · exact List.Perm.refl l

namespace Cache

/-- The bytes of the leaves linked in `lruLeaf`, summed without wrapping. -/
def linkedBytes (c : Cache) : Nat := (c.lruLeaf.map (leafShare c.heap)).sum

/-- The accounting the cache keeps for its eviction. -/
structure Accounted (c : Cache) : Prop where
  /-- `valueSize` is the size of the linked leaves, and never wrapped. -/
  valueSize : c.valueSize.toNat = c.linkedBytes
  /-- `internalNodeCount` counts the linked internal nodes. -/
  internalNodeCount : c.internalNodeCount.toNat = c.lruInternal.length
  leafNodup : c.lruLeaf.Nodup
  internalNodup : c.lruInternal.Nodup
  /-- A pointer in `lruLeaf` is linked, and it and its leaf are clean. -/
  linkedLeaf : ∀ p ∈ c.lruLeaf, ∃ key value, c.heap[p]? = some ⟨true, some (.leaf true key value), true⟩
  /-- A pointer in `lruInternal` is linked, and it and its internal node are clean. -/
  linkedInternal : ∀ p ∈ c.lruInternal, ∃ label labelBitLength leafNode left right,
    c.heap[p]? = some ⟨true, some (.internal true label labelBitLength leafNode left right), true⟩
  /-- A linked pointer is in a list. -/
  inList : ∀ p ptr, c.heap[p]? = some ptr → ptr.lru = true → p ∈ c.lruLeaf ∨ p ∈ c.lruInternal
  leafPos : ∀ p, c.lruLeafPos = some p → p ∈ c.lruLeaf
  internalPos : ∀ p, c.lruInternalPos = some p → p ∈ c.lruInternal

@[simp] theorem modify_heap (c : Cache) (p : Ptr) (f : Pointer → Pointer) :
    (c.modify p f).heap = c.heap.modify p f := rfl

@[simp] theorem modify_lruLeaf (c : Cache) (p : Ptr) (f : Pointer → Pointer) :
    (c.modify p f).lruLeaf = c.lruLeaf := rfl

@[simp] theorem modify_lruInternal (c : Cache) (p : Ptr) (f : Pointer → Pointer) :
    (c.modify p f).lruInternal = c.lruInternal := rfl

@[simp] theorem unlink_heap (c : Cache) (p : Ptr) (n : HeapNode) : (c.unlink p n).heap = c.heap := by
  cases n <;> rfl

theorem newCache_accounted : newCache.Accounted where
  valueSize := rfl
  internalNodeCount := rfl
  leafNodup := List.nodup_nil
  internalNodup := List.nodup_nil
  linkedLeaf := by simp [newCache]
  linkedInternal := by simp [newCache]
  inList := by simp [newCache]
  leafPos := by simp [newCache]
  internalPos := by simp [newCache]

section Accounted

variable {c : Cache}

theorem Accounted.lru_of_mem_leaf (acc : c.Accounted) {p : Ptr} (member : p ∈ c.lruLeaf) :
    ∃ ptr, c.heap[p]? = some ptr ∧ ptr.lru = true := by
  obtain ⟨key, value, found⟩ := acc.linkedLeaf p member
  exact ⟨_, found, rfl⟩

theorem Accounted.lru_of_mem_internal (acc : c.Accounted) {p : Ptr} (member : p ∈ c.lruInternal) :
    ∃ ptr, c.heap[p]? = some ptr ∧ ptr.lru = true := by
  obtain ⟨label, labelBitLength, leafNode, left, right, found⟩ := acc.linkedInternal p member
  exact ⟨_, found, rfl⟩

theorem Accounted.lt_of_mem (acc : c.Accounted) {p : Ptr} (member : p ∈ c.lruLeaf ∨ p ∈ c.lruInternal) :
    p < c.heap.size := by
  obtain ⟨ptr, found, -⟩ := member.elim acc.lru_of_mem_leaf acc.lru_of_mem_internal
  exact (Array.getElem?_eq_some_iff.mp found).1

theorem Accounted.perm_leaf (acc : c.Accounted) {l : List Ptr} (perm : l.Perm c.lruLeaf) :
    { c with lruLeaf := l }.Accounted where
  valueSize := by
    rw [acc.valueSize]
    exact (perm.map _).sum_eq.symm
  internalNodeCount := acc.internalNodeCount
  leafNodup := perm.nodup_iff.mpr acc.leafNodup
  internalNodup := acc.internalNodup
  linkedLeaf p member := acc.linkedLeaf p (perm.mem_iff.mp member)
  linkedInternal := acc.linkedInternal
  inList p ptr found lru := (acc.inList p ptr found lru).imp_left perm.mem_iff.mpr
  leafPos p pos := perm.mem_iff.mpr (acc.leafPos p pos)
  internalPos := acc.internalPos

theorem Accounted.perm_internal (acc : c.Accounted) {l : List Ptr} (perm : l.Perm c.lruInternal) :
    { c with lruInternal := l }.Accounted where
  valueSize := acc.valueSize
  internalNodeCount := by
    rw [acc.internalNodeCount]
    exact perm.length_eq.symm
  leafNodup := acc.leafNodup
  internalNodup := perm.nodup_iff.mpr acc.internalNodup
  linkedLeaf := acc.linkedLeaf
  linkedInternal p member := acc.linkedInternal p (perm.mem_iff.mp member)
  inList p ptr found lru := (acc.inList p ptr found lru).imp_right perm.mem_iff.mpr
  leafPos := acc.leafPos
  internalPos p pos := perm.mem_iff.mpr (acc.internalPos p pos)

theorem Accounted.useNode (acc : c.Accounted) (p : Ptr) : (c.useNode p).Accounted := by
  unfold Cache.useNode
  split
  · exact acc.perm_internal (moveToFront_perm _ _)
  · exact acc.perm_leaf (moveToFront_perm _ _)
  · exact acc

theorem Accounted.markPosition (acc : c.Accounted) : c.markPosition.Accounted where
  valueSize := acc.valueSize
  internalNodeCount := acc.internalNodeCount
  leafNodup := acc.leafNodup
  internalNodup := acc.internalNodup
  linkedLeaf := acc.linkedLeaf
  linkedInternal := acc.linkedInternal
  inList := acc.inList
  leafPos _ pos := List.mem_of_head? pos
  internalPos _ pos := List.mem_of_head? pos

theorem Accounted.heap_congr (acc : c.Accounted) {heap : Array Pointer} {p : Ptr}
    (notLeaf : p ∉ c.lruLeaf) (notInternal : p ∉ c.lruInternal)
    (same : ∀ q, q ≠ p → heap[q]? = c.heap[q]?) (unlinked : ∀ ptr, heap[p]? = some ptr → ptr.lru = false) :
    { c with heap := heap }.Accounted := by
  have listed : ∀ q ∈ c.lruLeaf ++ c.lruInternal, heap[q]? = c.heap[q]? := by
    intro q member
    apply same q
    rintro rfl
    simp only [List.mem_append] at member
    exact member.elim notLeaf notInternal
  have leafSame : ∀ q ∈ c.lruLeaf, heap[q]? = c.heap[q]? := fun q member =>
    listed q (List.mem_append_left _ member)
  have internalSame : ∀ q ∈ c.lruInternal, heap[q]? = c.heap[q]? := fun q member =>
    listed q (List.mem_append_right _ member)
  exact {
    valueSize := by
      rw [acc.valueSize]
      exact (sum_leafShare_congr leafSame).symm
    internalNodeCount := acc.internalNodeCount
    leafNodup := acc.leafNodup
    internalNodup := acc.internalNodup
    linkedLeaf := fun q member => by
      rw [show heap[q]? = c.heap[q]? from leafSame q member]
      exact acc.linkedLeaf q member
    linkedInternal := fun q member => by
      rw [show heap[q]? = c.heap[q]? from internalSame q member]
      exact acc.linkedInternal q member
    inList := fun q ptr found lru => by
      by_cases here : q = p
      · subst here
        rw [unlinked ptr found] at lru
        contradiction
      · rw [same q here] at found
        exact acc.inList q ptr found lru
    leafPos := acc.leafPos
    internalPos := acc.internalPos }

theorem Accounted.not_mem_of_unlinked (acc : c.Accounted) {p : Ptr} {ptr : Pointer}
    (found : c.heap[p]? = some ptr) (unlinked : ptr.lru = false) :
    p ∉ c.lruLeaf ∧ p ∉ c.lruInternal := by
  constructor
  · intro member
    obtain ⟨ptr', found', lru⟩ := acc.lru_of_mem_leaf member
    rw [found] at found'
    cases found'
    simp_all
  · intro member
    obtain ⟨ptr', found', lru⟩ := acc.lru_of_mem_internal member
    rw [found] at found'
    cases found'
    simp_all

theorem Accounted.modify (acc : c.Accounted) {p : Ptr} {f : Pointer → Pointer}
    (unlinked : ∀ ptr, c.heap[p]? = some ptr → ptr.lru = false) (keeps : ∀ ptr, (f ptr).lru = ptr.lru) :
    (c.modify p f).Accounted := by
  cases found : c.heap[p]? with
  | none =>
    have same : c.heap.modify p f = c.heap := by
      apply Array.ext_getElem?
      intro q
      rw [Array.getElem?_modify]
      split
      · subst p
        rw [found, Option.map_none]
      · rfl
    simpa [Cache.modify, same] using acc
  | some ptr =>
    obtain ⟨notLeaf, notInternal⟩ := acc.not_mem_of_unlinked found (unlinked ptr found)
    apply acc.heap_congr notLeaf notInternal
    · intro q other
      rw [Array.getElem?_modify, if_neg (Ne.symm other)]
    · intro ptr' found'
      rw [Array.getElem?_modify, if_pos rfl, found, Option.map_some, Option.some.injEq] at found'
      rw [← found', keeps, unlinked ptr found]

theorem Accounted.alloc (acc : c.Accounted) (n : HeapNode) : (c.alloc n).1.Accounted := by
  have fresh : c.heap.size ∉ c.lruLeaf ∧ c.heap.size ∉ c.lruInternal :=
    ⟨fun member => Nat.lt_irrefl _ (acc.lt_of_mem (.inl member)),
      fun member => Nat.lt_irrefl _ (acc.lt_of_mem (.inr member))⟩
  apply acc.heap_congr fresh.1 fresh.2
  · intro q other
    rw [Array.getElem?_push, if_neg other]
  · intro ptr found
    rw [Array.getElem?_push, if_pos rfl, Option.some.injEq] at found
    rw [← found]

theorem Accounted.linked_leaf (acc : c.Accounted) {p : Ptr} {clean leafClean : Bool} {key : Key}
    {value : Value} (found : c.heap[p]? = some ⟨clean, some (.leaf leafClean key value), true⟩) :
    p ∈ c.lruLeaf ∧ clean = true ∧ leafClean = true := by
  rcases acc.inList p _ found rfl with member | member
  · obtain ⟨key', value', found'⟩ := acc.linkedLeaf p member
    rw [found] at found'
    simp only [Option.some.injEq, Pointer.mk.injEq, HeapNode.leaf.injEq] at found'
    exact ⟨member, found'.1, found'.2.1.1⟩
  · obtain ⟨label, labelBitLength, leafNode, left, right, found'⟩ := acc.linkedInternal p member
    rw [found] at found'
    simp at found'

theorem Accounted.linked_internal (acc : c.Accounted) {p : Ptr} {clean nodeClean : Bool} {label : Key}
    {labelBitLength : Depth} {leafNode left right : Option Ptr}
    (found : c.heap[p]? = some ⟨clean, some (.internal nodeClean label labelBitLength leafNode left right), true⟩) :
    p ∈ c.lruInternal ∧ clean = true ∧ nodeClean = true := by
  rcases acc.inList p _ found rfl with member | member
  · obtain ⟨key, value, found'⟩ := acc.linkedLeaf p member
    rw [found] at found'
    simp at found'
  · obtain ⟨label', labelBitLength', leafNode', left', right', found'⟩ := acc.linkedInternal p member
    rw [found] at found'
    simp only [Option.some.injEq, Pointer.mk.injEq, HeapNode.internal.injEq] at found'
    exact ⟨member, found'.1, found'.2.1.1⟩

theorem Accounted.node_of_linked (acc : c.Accounted) {p : Ptr} {clean : Bool}
    (found : c.heap[p]? = some ⟨clean, none, true⟩) : False := by
  rcases acc.inList p _ found rfl with member | member
  · obtain ⟨key, value, found'⟩ := acc.linkedLeaf p member
    rw [found] at found'
    simp at found'
  · obtain ⟨label, labelBitLength, leafNode, left, right, found'⟩ := acc.linkedInternal p member
    rw [found] at found'
    simp at found'

theorem Accounted.not_mem_internal_of_leaf (acc : c.Accounted) {p : Ptr} (member : p ∈ c.lruLeaf) :
    p ∉ c.lruInternal := by
  intro internal
  obtain ⟨key, value, found⟩ := acc.linkedLeaf p member
  obtain ⟨label, labelBitLength, leafNode, left, right, found'⟩ := acc.linkedInternal p internal
  rw [found] at found'
  simp at found'

theorem clearPos_mem {l : List Ptr} {pos : Option Ptr} {p : Ptr} (nodup : l.Nodup)
    (inside : ∀ q, pos = some q → q ∈ l) : ∀ q, clearPos pos p = some q → q ∈ l.erase p := by
  intro q cleared
  unfold clearPos at cleared
  split at cleared
  · contradiction
  · rename_i other
    have different : q ≠ p := by
      rintro rfl
      exact other cleared
    exact nodup.mem_erase_iff.mpr ⟨different, inside q cleared⟩

theorem Accounted.unlink_leaf (acc : c.Accounted) {p : Ptr} {key : Key} {value : Value}
    (found : c.heap[p]? = some ⟨true, some (.leaf true key value), true⟩) {heap : Array Pointer}
    (same : ∀ q, q ≠ p → heap[q]? = c.heap[q]?) (unlinked : ∀ ptr, heap[p]? = some ptr → ptr.lru = false) :
    { c with heap := heap, lruLeafPos := clearPos c.lruLeafPos p, lruLeaf := c.lruLeaf.erase p,
             valueSize := c.valueSize - leafSize key value }.Accounted := by
  have member := (acc.linked_leaf found).1
  have notInternal := acc.not_mem_internal_of_leaf member
  have erased : ∀ q, q ∈ c.lruLeaf.erase p ↔ q ≠ p ∧ q ∈ c.lruLeaf := fun q => acc.leafNodup.mem_erase_iff
  have share : leafShare c.heap p = leafBytes key value := by
    unfold leafShare
    rw [found]
  -- The leaf's share comes out of the sum the counter holds.
  have split := List.sum_map_erase (leafShare c.heap) member
  have fits : leafBytes key value < 2 ^ 64 := by
    have := c.valueSize.toNat_lt
    rw [acc.valueSize] at this
    unfold linkedBytes at this
    omega
  have below : leafSize key value ≤ c.valueSize := by
    rw [UInt64.le_iff_toNat_le, leafSize_toNat fits, acc.valueSize]
    unfold linkedBytes
    omega
  have rest : ((c.lruLeaf.erase p).map (leafShare heap)).sum = ((c.lruLeaf.erase p).map (leafShare c.heap)).sum :=
    sum_leafShare_congr fun q inside => same q ((erased q).mp inside).1
  exact {
    valueSize := by
      simp only [linkedBytes]
      rw [UInt64.toNat_sub_of_le _ _ below, leafSize_toNat fits, acc.valueSize, rest]
      unfold linkedBytes
      omega
    internalNodeCount := acc.internalNodeCount
    leafNodup := acc.leafNodup.erase p
    internalNodup := acc.internalNodup
    linkedLeaf := fun q inside => by
      obtain ⟨other, member⟩ := (erased q).mp inside
      rw [show heap[q]? = c.heap[q]? from same q other]
      exact acc.linkedLeaf q member
    linkedInternal := fun q inside => by
      have other : q ≠ p := by
        rintro rfl
        exact notInternal inside
      rw [show heap[q]? = c.heap[q]? from same q other]
      exact acc.linkedInternal q inside
    inList := fun q ptr found' lru => by
      by_cases here : q = p
      · subst here
        rw [unlinked ptr found'] at lru
        contradiction
      · rw [same q here] at found'
        exact (acc.inList q ptr found' lru).imp_left fun member => (erased q).mpr ⟨here, member⟩
    leafPos := clearPos_mem acc.leafNodup acc.leafPos
    internalPos := acc.internalPos }

theorem Accounted.unlink_internal (acc : c.Accounted) {p : Ptr} {label : Key} {labelBitLength : Depth}
    {leafNode left right : Option Ptr}
    (found : c.heap[p]? = some ⟨true, some (.internal true label labelBitLength leafNode left right), true⟩)
    {heap : Array Pointer} (same : ∀ q, q ≠ p → heap[q]? = c.heap[q]?)
    (unlinked : ∀ ptr, heap[p]? = some ptr → ptr.lru = false) :
    { c with heap := heap, lruInternalPos := clearPos c.lruInternalPos p,
             lruInternal := c.lruInternal.erase p, internalNodeCount := c.internalNodeCount - 1 }.Accounted := by
  have member := (acc.linked_internal found).1
  have notLeaf : p ∉ c.lruLeaf := fun leaf => acc.not_mem_internal_of_leaf leaf member
  have erased : ∀ q, q ∈ c.lruInternal.erase p ↔ q ≠ p ∧ q ∈ c.lruInternal := fun q =>
    acc.internalNodup.mem_erase_iff
  have counted : (1 : UInt64) ≤ c.internalNodeCount := by
    rw [UInt64.le_iff_toNat_le, UInt64.toNat_one, acc.internalNodeCount]
    exact List.length_pos_of_mem member
  exact {
    valueSize := by
      simp only [linkedBytes]
      rw [acc.valueSize]
      exact (sum_leafShare_congr fun q inside => same q fun here => notLeaf (here ▸ inside)).symm
    internalNodeCount := by
      show (c.internalNodeCount - 1).toNat = (c.lruInternal.erase p).length
      rw [UInt64.toNat_sub_of_le _ _ counted, UInt64.toNat_one, acc.internalNodeCount,
        List.length_erase_of_mem member]
    leafNodup := acc.leafNodup
    internalNodup := acc.internalNodup.erase p
    linkedLeaf := fun q inside => by
      have other : q ≠ p := fun here => notLeaf (here ▸ inside)
      rw [show heap[q]? = c.heap[q]? from same q other]
      exact acc.linkedLeaf q inside
    linkedInternal := fun q inside => by
      obtain ⟨other, member⟩ := (erased q).mp inside
      rw [show heap[q]? = c.heap[q]? from same q other]
      exact acc.linkedInternal q member
    inList := fun q ptr found' lru => by
      by_cases here : q = p
      · subst here
        rw [unlinked ptr found'] at lru
        contradiction
      · rw [same q here] at found'
        exact (acc.inList q ptr found' lru).imp_right fun member => (erased q).mpr ⟨here, member⟩
    leafPos := acc.leafPos
    internalPos := clearPos_mem acc.internalNodup acc.internalPos }

theorem getElem?_modify_ne {heap : Array Pointer} {p q : Ptr} {f : Pointer → Pointer} (other : q ≠ p) :
    (heap.modify p f)[q]? = heap[q]? := by
  rw [Array.getElem?_modify, if_neg (Ne.symm other)]

theorem getElem?_modify_self {heap : Array Pointer} {p : Ptr} {f : Pointer → Pointer} :
    (heap.modify p f)[p]? = heap[p]?.map f := by
  rw [Array.getElem?_modify, if_pos rfl]

theorem Accounted.rollbackNode (acc : c.Accounted) (p : Ptr) : (c.rollbackNode p).Accounted := by
  unfold Cache.rollbackNode
  split
  · rename_i clean n found
    cases n with
    | internal nodeClean label labelBitLength leafNode left right =>
      obtain ⟨-, rfl, rfl⟩ := acc.linked_internal found
      apply acc.unlink_internal found
      · exact fun q other => getElem?_modify_ne other
      · intro ptr found'
        rw [getElem?_modify_self, unlink_heap, found, Option.map_some, Option.some.injEq] at found'
        rw [← found']
    | leaf leafClean key value =>
      obtain ⟨-, rfl, rfl⟩ := acc.linked_leaf found
      apply acc.unlink_leaf found
      · exact fun q other => getElem?_modify_ne other
      · intro ptr found'
        rw [getElem?_modify_self, unlink_heap, found, Option.map_some, Option.some.injEq] at found'
        rw [← found']
  · exact (acc.node_of_linked ‹_›).elim
  · exact acc

end Accounted

end Cache

theorem CacheM.bind_eq_some {α β : Type} {x : CacheM α} {f : α → CacheM β} {r : Except (CacheError × Cache) β}
    (h : (x >>= f) = some r) :
    (∃ a, x = some (.ok a) ∧ f a = some r) ∨ (∃ e, x = some (.error e) ∧ r = .error e) := by
  match x, h with
  | some (.ok a), h => exact .inl ⟨a, rfl, h⟩
  | some (.error e), h =>
    simp only [bind, ExceptT.bind, ExceptT.mk, ExceptT.bindCont, Option.bind_some] at h
    exact .inr ⟨e, rfl, (Option.some.inj h).symm⟩
  | none, h => simp [bind, ExceptT.bind, ExceptT.mk] at h

/-- The cache that a result leaves: the new one, or the one its error carries. -/
def leftCache : Except (CacheError × Cache) Cache → Cache
  | .ok c => c
  | .error (_, c) => c

theorem insertAfter_perm {l : List Ptr} {mark : Ptr} (p : Ptr) (marked : mark ∈ l) :
    (insertAfter l mark p).Perm (p :: l) := by
  induction l with
  | nil => contradiction
  | cons q rest ih =>
    unfold insertAfter
    split
    · exact List.Perm.swap p q rest
    · rename_i other
      have inRest : mark ∈ rest := by
        rcases List.mem_cons.mp marked with same | inside
        · exact absurd same.symm other
        · exact inside
      exact ((ih inRest).cons q).trans (List.Perm.swap p q rest)

theorem link_perm {l : List Ptr} {pos : Option Ptr} (p : Ptr) (marked : ∀ q, pos = some q → q ∈ l) :
    (link l pos p).1.Perm (p :: l) ∧ (link l pos p).2 = true := by
  unfold link
  split
  · exact ⟨List.Perm.refl _, rfl⟩
  · rename_i mark
    rw [if_pos (marked mark rfl)]
    exact ⟨insertAfter_perm p (marked mark rfl), rfl⟩

namespace Cache

/-- What removing linked leaves does to the cache: it keeps the accounting, the bytes of the
linked leaves do not grow, no leaf is linked anew, and a pointer that was not in `lruLeaf` is
left as it was. -/
structure EvictsLeaves (c c' : Cache) : Prop where
  accounted : c'.Accounted
  linkedBytes_le : c'.linkedBytes ≤ c.linkedBytes
  subset : ∀ q ∈ c'.lruLeaf, q ∈ c.lruLeaf
  frame : ∀ q, q ∉ c.lruLeaf → c'.heap[q]? = c.heap[q]?
  valueCapacity : c'.valueCapacity = c.valueCapacity

theorem EvictsLeaves.refl {c : Cache} (acc : c.Accounted) : EvictsLeaves c c :=
  ⟨acc, le_refl _, fun _ member => member, fun _ _ => rfl, rfl⟩

theorem EvictsLeaves.trans {c c' c'' : Cache} (first : EvictsLeaves c c') (second : EvictsLeaves c' c'') :
    EvictsLeaves c c'' where
  accounted := second.accounted
  linkedBytes_le := second.linkedBytes_le.trans first.linkedBytes_le
  subset q member := first.subset q (second.subset q member)
  frame q outside := (second.frame q fun member => outside (first.subset q member)).trans (first.frame q outside)
  valueCapacity := second.valueCapacity.trans first.valueCapacity

section Accounted

variable {c : Cache}

/-- Removing a linked leaf: the only error is the locked pointer, which leaves the cache as it was. -/
theorem Accounted.tryRemoveNode_leaf (acc : c.Accounted) {p : Ptr} (member : p ∈ c.lruLeaf) {fuel : Nat}
    {lockedPtr : Option Ptr} {r : Except (CacheError × Cache) Cache}
    (removed : c.tryRemoveNode fuel p lockedPtr = some r) : EvictsLeaves c (leftCache r) := by
  obtain ⟨key, value, found⟩ := acc.linkedLeaf p member
  cases fuel with
  | zero => cases removed
  | succ fuel =>
    by_cases locked : lockedPtr = some p
    · simp only [tryRemoveNode, locked, if_true] at removed
      cases removed
      exact EvictsLeaves.refl acc
    · simp only [tryRemoveNode, locked, if_false, deref, found] at removed
      cases removed
      have same : ∀ q, q ≠ p → (c.heap.modify p fun ptr => { ptr with node := none, lru := false })[q]? =
          c.heap[q]? := fun q other => getElem?_modify_ne other
      have rolled := acc.unlink_leaf found same fun ptr stored => by
        rw [getElem?_modify_self, found, Option.map_some, Option.some.injEq] at stored
        rw [← stored]
      refine ⟨rolled, ?_, fun q inside => List.mem_of_mem_erase inside, fun q outside => ?_, rfl⟩
      · -- The removed leaf's share leaves the sum.
        have split := List.sum_map_erase (leafShare c.heap) member
        have rest : ((c.lruLeaf.erase p).map (leafShare (c.heap.modify p fun ptr =>
            { ptr with node := none, lru := false }))).sum = ((c.lruLeaf.erase p).map (leafShare c.heap)).sum :=
          sum_leafShare_congr fun q inside => same q (acc.leafNodup.mem_erase_iff.mp inside).1
        simp only [leftCache, linkedBytes, Cache.unlink, Cache.modify] at rest ⊢
        omega
      · exact same q fun here => outside (here ▸ member)

theorem Accounted.tryEvictLeaf (acc : c.Accounted) {fuel : Nat} {targetCapacity : UInt64}
    {lockedPtr : Option Ptr} {r : Except (CacheError × Cache) Cache}
    (evicted : c.tryEvictLeaf fuel targetCapacity lockedPtr = some r) : EvictsLeaves c (leftCache r) := by
  induction fuel generalizing c r with
  | zero =>
    simp only [Cache.tryEvictLeaf] at evicted
    split at evicted
    · cases evicted
    · cases evicted
      exact EvictsLeaves.refl acc
  | succ fuel ih =>
    simp only [Cache.tryEvictLeaf] at evicted
    split at evicted
    · -- The least recently used leaf goes, then the loop goes on.
      cases last : c.lruLeaf.getLast? with
      | none => simp [last, abort, ExceptT.lift, ExceptT.mk] at evicted
      | some p =>
        have member : p ∈ c.lruLeaf := List.mem_of_getLast? last
        obtain ⟨key, value, found⟩ := acc.linkedLeaf p member
        simp only [last, deref, found, pure_bind, Bool.not_true, Bool.false_eq_true, if_false] at evicted
        rcases CacheM.bind_eq_some evicted with ⟨c', removed, rest⟩ | ⟨e, removed, rfl⟩
        · have first := acc.tryRemoveNode_leaf member removed
          exact first.trans (ih first.accounted rest)
        · exact acc.tryRemoveNode_leaf member removed
    · cases evicted
      exact EvictsLeaves.refl acc

theorem Accounted.link_leaf (acc : c.Accounted) {p : Ptr} {key : Key} {value : Value}
    (found : c.heap[p]? = some ⟨true, some (.leaf true key value), false⟩)
    (fits : c.linkedBytes + leafBytes key value < 2 ^ 64) :
    { c with heap := c.heap.modify p ({ · with lru := true }), lruLeaf := (link c.lruLeaf c.lruLeafPos p).1,
             valueSize := c.valueSize + leafSize key value }.Accounted := by
  obtain ⟨perm, -⟩ := link_perm p acc.leafPos
  obtain ⟨notLeaf, notInternal⟩ := acc.not_mem_of_unlinked found rfl
  have same : ∀ q, q ≠ p → (c.heap.modify p ({ · with lru := true }))[q]? = c.heap[q]? :=
    fun q other => getElem?_modify_ne other
  have stored : (c.heap.modify p ({ · with lru := true }))[p]? = some ⟨true, some (.leaf true key value), true⟩ := by
    rw [getElem?_modify_self, found, Option.map_some]
  have listed : ∀ q, q ∈ (link c.lruLeaf c.lruLeafPos p).1 ↔ q = p ∨ q ∈ c.lruLeaf := fun q => by
    rw [perm.mem_iff, List.mem_cons]
  have share : leafShare (c.heap.modify p ({ · with lru := true })) p = leafBytes key value := by
    unfold leafShare
    rw [stored]
  have counted : (c.valueSize + leafSize key value).toNat = c.linkedBytes + leafBytes key value := by
    rw [UInt64.toNat_add, leafSize_toNat (by omega), acc.valueSize]
    exact Nat.mod_eq_of_lt fits
  have others : (c.lruLeaf.map (leafShare (c.heap.modify p ({ · with lru := true })))).sum = c.linkedBytes :=
    sum_leafShare_congr fun q member => same q fun here => notLeaf (here ▸ member)
  exact {
    valueSize := by
      show (c.valueSize + leafSize key value).toNat =
        ((link c.lruLeaf c.lruLeafPos p).1.map (leafShare (c.heap.modify p ({ · with lru := true })))).sum
      rw [counted, (perm.map _).sum_eq, List.map_cons, List.sum_cons, share, others]
      omega
    internalNodeCount := acc.internalNodeCount
    leafNodup := perm.nodup_iff.mpr (List.nodup_cons.mpr ⟨notLeaf, acc.leafNodup⟩)
    internalNodup := acc.internalNodup
    linkedLeaf := fun q member => by
      rcases (listed q).mp member with rfl | member
      · exact ⟨key, value, stored⟩
      · rw [show (c.heap.modify p ({ · with lru := true }))[q]? = c.heap[q]? from
          same q fun here => notLeaf (here ▸ member)]
        exact acc.linkedLeaf q member
    linkedInternal := fun q member => by
      rw [show (c.heap.modify p ({ · with lru := true }))[q]? = c.heap[q]? from
        same q fun here => notInternal (here ▸ member)]
      exact acc.linkedInternal q member
    inList := fun q ptr found' lru => by
      by_cases here : q = p
      · exact .inl ((listed q).mpr (.inl here))
      · rw [same q here] at found'
        exact (acc.inList q ptr found' lru).imp_left fun member => (listed q).mpr (.inr member)
    leafPos := fun q pos => (listed q).mpr (.inr (acc.leafPos q pos))
    internalPos := acc.internalPos }

/-- Committing a clean leaf to the cache, evicting leaves first when they would exceed the
capacity, keeps the accounting when its size fits beside the linked leaves; so does the error. -/
theorem Accounted.tryCommitNode_leaf (acc : c.Accounted) {p : Ptr} {key : Key} {value : Value} {lru : Bool}
    (found : c.heap[p]? = some ⟨true, some (.leaf true key value), lru⟩)
    (fits : c.linkedBytes + leafBytes key value < 2 ^ 64) {fuel : Nat} {lockedPtr : Option Ptr}
    {r : Except (CacheError × Cache) Cache} (committed : c.tryCommitNode fuel (some p) lockedPtr = some r) :
    (leftCache r).Accounted := by
  cases lru with
  | true =>
    -- A linked leaf is only moved to the front.
    simp only [tryCommitNode, deref, found, pure_bind, Bool.not_true, Bool.false_eq_true, ↓reduceIte] at committed
    cases Option.some.inj committed
    exact acc.useNode p
  | false =>
    simp only [tryCommitNode, deref, found, pure_bind, Bool.not_true, Bool.false_eq_true, ↓reduceIte] at committed
    obtain ⟨notLeaf, -⟩ := acc.not_mem_of_unlinked found rfl
    -- After any eviction the leaf is still unlinked and still fits, and is linked.
    have linkAfter : ∀ c', EvictsLeaves c c' → ∀ r', some (.ok { c' with
        heap := c'.heap.modify p ({ · with lru := true }), lruLeaf := (link c'.lruLeaf c'.lruLeafPos p).1,
        valueSize := c'.valueSize + leafSize key value }) = some r' → (leftCache r').Accounted := by
      intro c' evicts r' linked
      cases Option.some.inj linked
      exact evicts.accounted.link_leaf ((evicts.frame p notLeaf).trans found)
        (Nat.lt_of_le_of_lt (Nat.add_le_add_right evicts.linkedBytes_le _) fits)
    split at committed
    · rcases CacheM.bind_eq_some committed with ⟨c', evicted, linked⟩ | ⟨e, evicted, rfl⟩
      · have evicts : EvictsLeaves c c' := acc.tryEvictLeaf evicted
        obtain ⟨-, marked⟩ := link_perm p evicts.accounted.leafPos
        simp only [marked] at linked
        exact linkAfter c' evicts r linked
      · exact (acc.tryEvictLeaf evicted).accounted
    · obtain ⟨-, marked⟩ := link_perm p acc.leafPos
      simp only [marked] at committed
      exact linkAfter c (EvictsLeaves.refl acc) r committed

theorem Accounted.commitNode_leaf (acc : c.Accounted) {p : Ptr} {key : Key} {value : Value} {lru : Bool}
    (found : c.heap[p]? = some ⟨true, some (.leaf true key value), lru⟩)
    (fits : c.linkedBytes + leafBytes key value < 2 ^ 64) {fuel : Nat} {c' : Cache}
    (committed : c.commitNode fuel (some p) = some c') : c'.Accounted := by
  unfold Cache.commitNode at committed
  split at committed
  · rename_i result
    cases committed
    exact acc.tryCommitNode_leaf found fits result
  · rename_i result
    cases committed
    exact acc.tryCommitNode_leaf found fits result
  · contradiction

theorem markDirty_heap_self {p : Ptr} {n : HeapNode} {ptr : Pointer} (found : c.heap[p]? = some ptr) :
    ((c.setNode p n).modify p ({ · with clean := false })).heap[p]? = some ⟨false, some n, ptr.lru⟩ := by
  simp only [setNode, modify_heap, getElem?_modify_self, found, Option.map_some]

theorem markDirty_of_linked {p : Ptr} {n : HeapNode} {clean : Bool} {node : Option HeapNode}
    (found : c.heap[p]? = some ⟨clean, node, true⟩) :
    c.markDirty p n = (((c.setNode p n).modify p ({ · with clean := false })).unlink p n).modify p
      ({ · with lru := false }) := by
  unfold markDirty rollbackNode
  rw [markDirty_heap_self found]

/-- Storing a new value in a linked leaf and then rolling it back, as `doInsert` does when it
updates the value under an existing key, keeps the accounting exactly when the two values give
the leaf the same size: `rollbackNode` subtracts the size of the new value where `tryCommitNode`
added the size of the old one. -/
theorem Accounted.markDirty_leaf_accounted_iff (acc : c.Accounted) {p : Ptr} {key : Key} {value val : Value}
    (found : c.heap[p]? = some ⟨true, some (.leaf true key value), true⟩) :
    (c.markDirty p (.leaf false key val)).Accounted ↔ leafSize key val = leafSize key value := by
  rw [markDirty_of_linked found]
  have same : ∀ q, q ≠ p → ((((c.setNode p (.leaf false key val)).modify p ({ · with clean := false })).unlink p
      (.leaf false key val)).modify p ({ · with lru := false })).heap[q]? = c.heap[q]? := by
    intro q other
    simp only [setNode, modify_heap, unlink_heap, getElem?_modify_ne other]
  have unlinked : ∀ ptr, ((((c.setNode p (.leaf false key val)).modify p ({ · with clean := false })).unlink p
      (.leaf false key val)).modify p ({ · with lru := false })).heap[p]? = some ptr → ptr.lru = false := by
    intro ptr stored
    simp only [setNode, modify_heap, unlink_heap, getElem?_modify_self, found, Option.map_some,
      Option.some.injEq] at stored
    rw [← stored]
  -- The same unlinking, with the size of the old value, is the one that keeps the accounting.
  have rolled := acc.unlink_leaf found same unlinked
  constructor
  · intro dirty
    have sizes : c.valueSize - leafSize key val = c.valueSize - leafSize key value :=
      UInt64.toNat_inj.mp (dirty.valueSize.trans rolled.valueSize.symm)
    exact sub_right_inj.mp sizes
  · intro sizes
    simp only [Cache.unlink, Cache.modify, sizes]
    exact rolled

end Accounted

theorem insert_update_wraps_valueSize :
    ∃ c₁ c₂ c₃, newCache.insert [1] [] = some (.ok c₁) ∧ c₁.commit = some c₂ ∧
      c₂.insert [1] [1, 2] = some (.ok c₃) ∧ c₂.Accounted ∧ c₃.lruLeaf = [] ∧
      c₃.valueSize.toNat = 2 ^ 64 - 2 ∧ ¬ c₃.Accounted := by
  -- The first insert makes a dirty leaf, and the commit links it: 89 bytes.
  refine ⟨_, ⟨#[⟨true, some (.leaf true [1] []), true⟩], some 0, 89, 0, 5000, 16 * 1024 * 1024, [], none, [0], none⟩,
    _, rfl, rfl, rfl, ?_, rfl, rfl, ?_⟩
  · exact {
      valueSize := rfl
      internalNodeCount := rfl
      leafNodup := List.nodup_singleton 0
      internalNodup := List.nodup_nil
      linkedLeaf := by simp
      linkedInternal := by simp
      inList := by
        intro p ptr found lru
        obtain ⟨bound, -⟩ := Array.getElem?_eq_some_iff.mp found
        simp at bound ⊢
        exact bound
      leafPos := by simp
      internalPos := by simp }
  · -- The second insert rolls the leaf back with the size of its new value, 91 bytes.
    intro acc
    have wrapped := acc.valueSize
    revert wrapped
    decide

end Cache

end Orphiq.Mkvs

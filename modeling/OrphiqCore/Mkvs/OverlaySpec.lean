import OrphiqCore.Mkvs.Overlay

/-!
# The overlay refines the map it stands for

An overlay stands for the map `get`: dirty keys as the overlay holds them, every other key as
in the inner tree. It stays meaningful while every key the overlay holds is dirty (`Covered`),
which every update keeps. Each update then changes `get` as the matching write changes a map,
so a run of updates from a fresh overlay gives the map that the writes give from the inner
tree's contents (`get_run`).

The iterator visits `pending`: the inner iterator's clean entries merged by key with the
overlay iterator's. Between calls it is `Positioned`: the current entry is the first pending
one, and `Next` drops exactly that entry. From `Seek s` a caller therefore reads, in ascending
order, the entries of the map at or after `s`. `Commit` writes a log that takes the inner tree
to the overlay's map.
-/

namespace Orphiq.Mkvs

open Store

variable {κ ν : Type} [LinearOrder κ]

namespace TreeOverlay

variable (o : TreeOverlay κ ν)

/-- Every key the overlay holds is dirty. -/
def Covered : Prop := ∀ e ∈ o.overlay.entries, e.1 ∈ o.dirty

variable {o}

theorem Covered.new (inner : SortedMap κ ν) : (new inner).Covered :=
  fun _ mem => absurd mem List.not_mem_nil

theorem Covered.get_overlay (covered : o.Covered) {k : κ} (clean : k ∉ o.dirty) : o.overlay.get k = none := by
  cases found : o.overlay.get k with
  | none => rfl
  | some v => exact absurd (covered _ ((o.overlay.get_eq_some_iff).mp found)) clean

theorem Covered.insert (covered : o.Covered) (k : κ) (v : ν) : (o.insert k v).Covered := by
  intro e mem
  rcases mem_insertEntry_keys mem with rfl | mem
  · exact Finset.mem_insert_self _ _
  · exact Finset.mem_insert_of_mem (covered e mem)

theorem Covered.remove (covered : o.Covered) (k : κ) : (o.remove k).Covered :=
  fun e mem => Finset.mem_insert_of_mem (covered e (List.mem_of_mem_filter mem))

theorem Covered.removeExisting (covered : o.Covered) (k : κ) : (o.removeExisting k).2.Covered := by
  unfold TreeOverlay.removeExisting
  by_cases dirty : k ∈ o.dirty
  · rw [if_pos dirty]
    exact fun e mem => covered e (List.mem_of_mem_filter mem)
  rw [if_neg dirty]
  dsimp only
  split_ifs
  · exact fun e mem => Finset.mem_insert_of_mem (covered e mem)
  · exact covered

omit [LinearOrder κ] in
theorem update_of_eq {m : κ → Option ν} {k : κ} {v : Option ν} [DecidableEq κ] (same : m k = v) :
    Function.update m k v = m := by
  rw [← same]
  exact Function.update_eq_self k m

theorem get_new (inner : SortedMap κ ν) : (new inner).get = inner.get := by
  funext k
  simp [get, new]

theorem get_insert (k : κ) (v : ν) : (o.insert k v).get = Function.update o.get k (some v) := by
  funext k'
  by_cases same : k' = k <;> simp [get, insert, same, SortedMap.get_insert]

theorem get_remove (k : κ) : (o.remove k).get = Function.update o.get k none := by
  funext k'
  by_cases same : k' = k <;> simp [get, remove, same, SortedMap.get_erase]

theorem removeExisting_fst (k : κ) : (o.removeExisting k).1 = o.get k := by
  unfold removeExisting get
  dsimp only
  split_ifs <;> rfl

theorem get_removeExisting (covered : o.Covered) (k : κ) :
    (o.removeExisting k).2.get = Function.update o.get k none := by
  unfold removeExisting
  by_cases dirty : k ∈ o.dirty
  · rw [if_pos dirty]
    funext k'
    by_cases same : k' = k
    · simp [get, same, dirty, SortedMap.get_erase]
    · simp [get, SortedMap.get_erase, same]
  rw [if_neg dirty]
  dsimp only
  by_cases present : (o.inner.get k).isSome
  · rw [if_pos present]
    funext k'
    by_cases same : k' = k
    · -- a clean key that becomes dirty reads from the overlay, which does not hold it
      simp [get, same, covered.get_overlay dirty]
    · simp [get, same]
  · rw [if_neg present]
    have absent : o.get k = none := by simpa [get, dirty] using present
    exact (update_of_eq absent).symm

theorem inner_removeExisting (k : κ) : (o.removeExisting k).2.inner = o.inner := by
  unfold removeExisting
  dsimp only
  split_ifs <;> rfl

inductive Op (κ ν : Type) where
  | insert (key : κ) (value : ν)
  | remove (key : κ)
  | removeExisting (key : κ)

/-- What an update does to the map the overlay stands for. -/
def Op.write : Op κ ν → Write κ ν
  | .insert key value => ⟨key, some value⟩
  | .remove key => ⟨key, none⟩
  | .removeExisting key => ⟨key, none⟩

def apply (o : TreeOverlay κ ν) : Op κ ν → TreeOverlay κ ν
  | .insert key value => o.insert key value
  | .remove key => o.remove key
  | .removeExisting key => (o.removeExisting key).2

def run (o : TreeOverlay κ ν) (ops : List (Op κ ν)) : TreeOverlay κ ν := ops.foldl apply o

theorem inner_apply : ∀ op : Op κ ν, (o.apply op).inner = o.inner
  | .insert _ _ => rfl
  | .remove _ => rfl
  | .removeExisting k => inner_removeExisting k

theorem inner_run (ops : List (Op κ ν)) : (o.run ops).inner = o.inner := by
  induction ops generalizing o with
  | nil => rfl
  | cons op ops ih => exact ih.trans (inner_apply op)

theorem Covered.apply (covered : o.Covered) : ∀ op : Op κ ν, (o.apply op).Covered
  | .insert k v => covered.insert k v
  | .remove k => covered.remove k
  | .removeExisting k => covered.removeExisting k

theorem get_apply (covered : o.Covered) : ∀ op : Op κ ν, (o.apply op).get = op.write.apply o.get
  | .insert k v => get_insert k v
  | .remove k => get_remove k
  | .removeExisting k => get_removeExisting covered k

/-- A run of updates keeps the overlay covered and changes its map as the writes do. -/
theorem Covered.run (covered : o.Covered) (ops : List (Op κ ν)) :
    (o.run ops).Covered ∧ (o.run ops).get = Store.run o.get (ops.map Op.write) := by
  induction ops generalizing o with
  | nil => exact ⟨covered, rfl⟩
  | cons op ops ih =>
    obtain ⟨covered', get'⟩ := ih (covered.apply op)
    refine ⟨covered', ?_⟩
    rw [List.map_cons, Store.run_cons, ← Write.apply, ← get_apply covered op]
    exact get'

theorem get_run (inner : SortedMap κ ν) (ops : List (Op κ ν)) :
    ((new inner).run ops).get = Store.run inner.get (ops.map Op.write) := by
  rw [((Covered.new inner).run ops).2, get_new]

section Commit

variable {order : List κ}

/-- The commit log names each key once, holds the overlay's value of each key it names, and
names every key whose value the overlay changed. -/
theorem commitLog_summary (covered : o.Covered) (nodup : order.Nodup)
    (listed : ∀ k, k ∈ order ↔ k ∈ o.dirty ∧ o.overlay.get k = none) :
    Summary o.inner.get o.get (o.commitLog order) := by
  have keys : (o.commitLog order).map (·.key) = o.overlay.entries.map (·.1) ++ order := by
    simp [commitLog, Function.comp_def]
  refine ⟨?_, fun w mem => ?_, fun k absent => ?_⟩
  · rw [keys]
    refine List.nodup_append.mpr ⟨o.overlay.ascending.nodup_keys, nodup, fun a inOverlay b inOrder same => ?_⟩
    obtain ⟨e, mem, rfl⟩ := List.mem_map.mp inOverlay
    have written : o.overlay.get e.1 = some e.2 := (o.overlay.get_eq_some_iff).mpr mem
    have removed : o.overlay.get b = none := ((listed b).mp inOrder).2
    rw [← same, written] at removed
    cases removed
  · rcases List.mem_append.mp mem with mem | mem
    · obtain ⟨e, inOverlay, rfl⟩ := List.mem_map.mp mem
      simp [get, covered e inOverlay, (o.overlay.get_eq_some_iff).mpr inOverlay]
    · obtain ⟨k, inOrder, rfl⟩ := List.mem_map.mp mem
      obtain ⟨dirty, removed⟩ := (listed k).mp inOrder
      simp [get, dirty, removed]
  · -- a key the log does not name is clean, or dirty with nothing to remove
    rw [keys, List.mem_append, not_or] at absent
    have clean : k ∉ o.dirty := by
      intro dirty
      refine absent.2 ((listed k).mpr ⟨dirty, ?_⟩)
      cases found : o.overlay.get k with
      | none => rfl
      | some v => exact absurd (List.mem_map_of_mem ((o.overlay.get_eq_some_iff).mp found)) absent.1
    simp [get, clean]

theorem run_commitLog (covered : o.Covered) (nodup : order.Nodup)
    (listed : ∀ k, k ∈ order ↔ k ∈ o.dirty ∧ o.overlay.get k = none) :
    Store.run o.inner.get (o.commitLog order) = o.get :=
  (commitLog_summary covered nodup listed).run_eq

theorem get_commit (covered : o.Covered) (nodup : order.Nodup)
    (listed : ∀ k, k ∈ order ↔ k ∈ o.dirty ∧ o.overlay.get k = none) :
    (o.commit order).inner.get = o.get := by
  rw [commit, SortedMap.get_foldl_write, run_commitLog covered nodup listed]

end Commit

end TreeOverlay

namespace TreeOverlayIterator

variable (it : TreeOverlayIterator κ ν)

/-- The entries still to be visited: the inner iterator's clean ones merged by key with the
overlay iterator's. -/
def pending : List (κ × ν) :=
  (it.inner.filter fun e => e.1 ∉ it.tree.dirty).merge it.overlay fun a b => a.1 < b.1

/-- What holds between calls: both iterators' entries ascending, the overlay iterator's
entries dirty, the inner iterator on a clean key, and the current entry the first pending one. -/
structure Positioned : Prop where
  innerAscending : Ascending it.inner
  overlayAscending : Ascending it.overlay
  overlayDirty : ∀ e ∈ it.overlay, e.1 ∈ it.tree.dirty
  clean : ∀ e ∈ it.inner.head?, e.1 ∉ it.tree.dirty
  entry : it.entry = it.pending.head?

variable {it}

theorem filter_dropWhile_dirty (dirty : Finset κ) (l : List (κ × ν)) :
    ((l.dropWhile fun e => e.1 ∈ dirty).filter fun e => e.1 ∉ dirty) = l.filter fun e => e.1 ∉ dirty := by
  induction l with
  | nil => rfl
  | cons e l ih =>
    by_cases dirtyKey : e.1 ∈ dirty
    · rw [List.dropWhile_cons_of_pos (by simpa using dirtyKey), ih,
        List.filter_cons_of_neg (by simpa using dirtyKey)]
    · rw [List.dropWhile_cons_of_neg (by simpa using dirtyKey)]

theorem clean_dropWhile_dirty (dirty : Finset κ) (l : List (κ × ν)) :
    ∀ e ∈ (l.dropWhile fun e => e.1 ∈ dirty).head?, e.1 ∉ dirty := by
  induction l with
  | nil => simp
  | cons e l ih =>
    by_cases dirtyKey : e.1 ∈ dirty
    · rwa [List.dropWhile_cons_of_pos (by simpa using dirtyKey)]
    · rw [List.dropWhile_cons_of_neg (by simpa using dirtyKey)]
      simpa using dirtyKey

omit [LinearOrder κ] in
theorem isEmpty_merge {α : Type} (l r : List α) (s : α → α → Bool) :
    (l.merge r s).isEmpty = (l.isEmpty && r.isEmpty) := by
  rw [Bool.eq_iff_iff, List.isEmpty_iff, Bool.and_eq_true, List.isEmpty_iff, List.isEmpty_iff,
    ← List.length_eq_zero_iff, List.length_merge, ← List.length_eq_zero_iff, ← List.length_eq_zero_iff]
  omega

theorem filter_cons_clean {dirty : Finset κ} {e : κ × ν} {l : List (κ × ν)} (clean : e.1 ∉ dirty) :
    ((e :: l).filter fun e => e.1 ∉ dirty) = e :: l.filter fun e => e.1 ∉ dirty :=
  List.filter_cons_of_pos (by simpa using clean)

theorem current_eq_head? {dirty : Finset κ} {inner overlay : List (κ × ν)}
    (clean : ∀ e ∈ inner.head?, e.1 ∉ dirty) :
    current inner overlay = ((inner.filter fun e => e.1 ∉ dirty).merge overlay fun a b => a.1 < b.1).head? := by
  cases inner with
  | nil => cases overlay <;> simp [current]
  | cons i inner =>
    rw [filter_cons_clean (clean i rfl)]
    cases overlay with
    | nil => simp [current]
    | cons o overlay =>
      by_cases first : i.1 < o.1
      · rw [List.cons_merge_cons_pos _ _ _ (decide_eq_true first), current, if_pos first]; rfl
      · rw [List.cons_merge_cons_neg _ _ _ (by simpa using first), current, if_neg first]; rfl

theorem pending_updateIteratorPosition : it.updateIteratorPosition.pending = it.pending := by
  unfold pending updateIteratorPosition
  dsimp only
  rw [filter_dropWhile_dirty]

theorem positioned_updateIteratorPosition (innerAscending : Ascending it.inner)
    (overlayAscending : Ascending it.overlay) (overlayDirty : ∀ e ∈ it.overlay, e.1 ∈ it.tree.dirty) :
    it.updateIteratorPosition.Positioned where
  innerAscending := innerAscending.sublist (List.dropWhile_sublist _)
  overlayAscending := overlayAscending
  overlayDirty := overlayDirty
  clean := clean_dropWhile_dirty _ _
  entry := by
    rw [pending_updateIteratorPosition]
    simp only [updateIteratorPosition]
    rw [current_eq_head? (clean_dropWhile_dirty _ _), filter_dropWhile_dirty]
    rfl

theorem Positioned.ascending (positioned : it.Positioned) : Ascending it.pending :=
  (positioned.innerAscending.sublist List.filter_sublist).merge positioned.overlayAscending
    fun a mem b mem' same => by
      have clean : a.1 ∉ it.tree.dirty := by simpa using (List.mem_filter.mp mem).2
      exact clean (same ▸ positioned.overlayDirty b mem')

theorem Positioned.valid_eq (positioned : it.Positioned) : it.valid = !it.pending.isEmpty := by
  obtain ⟨tree, inner, overlay, entry⟩ := it
  cases inner with
  | nil => simp [valid, overlayValid, pending]
  | cons i inner =>
    simp only [valid, pending]
    rw [filter_cons_clean (positioned.clean i rfl), isEmpty_merge]
    rfl

theorem next_overlay_nil (tree : TreeOverlay κ ν) (inner : List (κ × ν)) (entry : Option (κ × ν)) :
    (⟨tree, inner, [], entry⟩ : TreeOverlayIterator κ ν).next = updateIteratorPosition ⟨tree, inner.tail, [], entry⟩ := by
  cases inner <;> rfl

theorem next_inner_nil (tree : TreeOverlay κ ν) (o : κ × ν) (overlay : List (κ × ν)) (entry : Option (κ × ν)) :
    (⟨tree, [], o :: overlay, entry⟩ : TreeOverlayIterator κ ν).next = updateIteratorPosition ⟨tree, [], overlay, entry⟩ :=
  rfl

theorem next_cons_cons (tree : TreeOverlay κ ν) (i o : κ × ν) (inner overlay : List (κ × ν)) (entry : Option (κ × ν)) :
    (⟨tree, i :: inner, o :: overlay, entry⟩ : TreeOverlayIterator κ ν).next = updateIteratorPosition
      (if i.1 ≤ o.1 then ⟨tree, inner, o :: overlay, entry⟩ else ⟨tree, i :: inner, overlay, entry⟩) :=
  rfl

theorem Positioned.next (positioned : it.Positioned) :
    it.next.Positioned ∧ it.next.pending = it.pending.tail := by
  obtain ⟨tree, inner, overlay, entry⟩ := it
  obtain ⟨innerAscending, overlayAscending, overlayDirty, clean, -⟩ := positioned
  dsimp only at innerAscending overlayAscending overlayDirty clean
  cases overlay with
  | nil =>
    rw [next_overlay_nil, pending_updateIteratorPosition]
    refine ⟨positioned_updateIteratorPosition (innerAscending.sublist (List.tail_sublist _))
      List.Pairwise.nil overlayDirty, ?_⟩
    simp only [pending, List.merge_right]
    cases inner with
    | nil => rfl
    | cons i inner =>
      rw [filter_cons_clean (clean i rfl)]
      rfl
  | cons o overlay =>
    have overlayDirty' : ∀ e ∈ overlay, e.1 ∈ tree.dirty := fun e mem => overlayDirty e (List.mem_cons_of_mem o mem)
    cases inner with
    | nil =>
      rw [next_inner_nil, pending_updateIteratorPosition]
      refine ⟨positioned_updateIteratorPosition List.Pairwise.nil overlayAscending.of_cons overlayDirty', ?_⟩
      simp [pending]
    | cons i inner =>
      -- the clean inner key is not the dirty overlay key, so `≤` is `<`
      have differ : i.1 ≠ o.1 := fun same => clean i rfl (same ▸ overlayDirty o List.mem_cons_self)
      rw [next_cons_cons, pending_updateIteratorPosition]
      by_cases first : i.1 ≤ o.1
      · have before : i.1 < o.1 := lt_of_le_of_ne first differ
        rw [if_pos first]
        refine ⟨positioned_updateIteratorPosition innerAscending.of_cons overlayAscending overlayDirty, ?_⟩
        simp only [pending, filter_cons_clean (clean i rfl)]
        rw [List.cons_merge_cons_pos _ _ _ (decide_eq_true before)]
        rfl
      · rw [if_neg first]
        refine ⟨positioned_updateIteratorPosition innerAscending overlayAscending.of_cons overlayDirty', ?_⟩
        simp only [pending, filter_cons_clean (clean i rfl)]
        rw [List.cons_merge_cons_neg _ _ _ (by simpa using (not_le.mp first).not_gt)]
        rfl

theorem Positioned.readAll (positioned : it.Positioned) {fuel : ℕ} (enough : it.pending.length ≤ fuel) :
    it.readAll fuel = it.pending := by
  induction fuel generalizing it with
  | zero =>
    rw [TreeOverlayIterator.readAll, List.eq_nil_of_length_eq_zero (Nat.le_zero.mp enough)]
  | succ fuel ih =>
    rw [TreeOverlayIterator.readAll, positioned.valid_eq, positioned.entry]
    obtain ⟨next, pending⟩ := positioned.next
    cases h : it.pending with
    | nil => rfl
    | cons e rest =>
      rw [h] at pending enough
      simp [ih next (by rw [pending]; simpa using enough), pending]

variable (o : TreeOverlay κ ν)

theorem positioned_of_sublist {it : TreeOverlayIterator κ ν} (covered : it.tree.Covered)
    (innerSub : it.inner.Sublist it.tree.inner.entries) (overlaySub : it.overlay.Sublist it.tree.overlay.entries) :
    it.updateIteratorPosition.Positioned :=
  positioned_updateIteratorPosition (it.tree.inner.ascending.sublist innerSub)
    (it.tree.overlay.ascending.sublist overlaySub) fun e mem => covered e (overlaySub.subset mem)

theorem mem_pending_iff {tree : TreeOverlay κ ν} {inner overlay : List (κ × ν)} {entry : Option (κ × ν)}
    (covered : tree.Covered) {inRange : κ × ν → Prop}
    (innerRange : ∀ x, x ∈ inner ↔ x ∈ tree.inner.entries ∧ inRange x)
    (overlayRange : ∀ x, x ∈ overlay ↔ x ∈ tree.overlay.entries ∧ inRange x) {x : κ × ν} :
    x ∈ (⟨tree, inner, overlay, entry⟩ : TreeOverlayIterator κ ν).pending ↔ inRange x ∧ tree.get x.1 = some x.2 := by
  rw [pending, List.mem_merge, List.mem_filter, innerRange, overlayRange]
  by_cases dirty : x.1 ∈ tree.dirty
  · simp [TreeOverlay.get, dirty, SortedMap.get_eq_some_iff, and_comm]
  · have notInOverlay : x ∉ tree.overlay.entries := fun mem => dirty (covered x mem)
    simp [TreeOverlay.get, dirty, SortedMap.get_eq_some_iff, notInOverlay, and_comm]

/-- From a positioned iterator a caller reads the pending entries, in ascending order, and
then stops. -/
theorem Positioned.reads (positioned : it.Positioned) :
    Ascending it.pending ∧ ∀ fuel, it.pending.length ≤ fuel → it.readAll fuel = it.pending :=
  ⟨positioned.ascending, fun _ enough => positioned.readAll enough⟩

variable {o : TreeOverlay κ ν}

theorem positioned_seek (covered : o.Covered) (s : κ) : (o.newIterator.seek s).Positioned :=
  positioned_of_sublist covered (List.dropWhile_sublist _) (List.dropWhile_sublist _)

theorem positioned_rewind (covered : o.Covered) : o.newIterator.rewind.Positioned :=
  positioned_of_sublist covered (List.Sublist.refl _) (List.Sublist.refl _)

theorem mem_pending_seek (covered : o.Covered) (s : κ) {x : κ × ν} :
    x ∈ (o.newIterator.seek s).pending ↔ s ≤ x.1 ∧ o.get x.1 = some x.2 := by
  rw [seek, pending_updateIteratorPosition]
  exact mem_pending_iff covered (fun _ => o.inner.mem_from) (fun _ => o.overlay.mem_from)

example : (((TreeOverlay.new ⟨[(1, 10), (3, 30)], by decide⟩ : TreeOverlay ℕ ℕ).run
    [.insert 2 20, .remove 3, .insert 0 5]).newIterator.seek 1).readAll 5 = [(1, 10), (2, 20)] := by decide

theorem mem_pending_rewind (covered : o.Covered) {x : κ × ν} :
    x ∈ o.newIterator.rewind.pending ↔ o.get x.1 = some x.2 := by
  rw [rewind, pending_updateIteratorPosition]
  exact (mem_pending_iff covered (fun _ => (and_iff_left trivial).symm) (fun _ => (and_iff_left trivial).symm)).trans
    (Iff.of_eq (true_and _))

end TreeOverlayIterator

end Orphiq.Mkvs

namespace Orphiq.Mkvs

open Store

variable {κ ν : Type} [LinearOrder κ]

/-- Over any inner tree, after any updates: `Get` reads the map the same writes give from the
inner tree's contents, `RemoveExisting` returns what that map holds, an iterator from `Seek s`
or `Rewind` reads that map's entries (at or after `s`) in ascending order and stops, and
`Commit`, for any order of its dirty-set iteration, leaves the inner tree with that map and
returns a log that gives it from the inner tree's contents. -/
theorem treeOverlay_refines_map (inner : SortedMap κ ν) (ops : List (TreeOverlay.Op κ ν)) :
    ∃ o m, o = (TreeOverlay.new inner).run ops ∧ m = Store.run inner.get (ops.map TreeOverlay.Op.write) ∧
      o.get = m ∧ (∀ k, (o.removeExisting k).1 = m k) ∧
      (∀ s, ∃ out, Ascending out ∧ (∀ k v, (k, v) ∈ out ↔ s ≤ k ∧ m k = some v) ∧
        ∀ fuel, out.length ≤ fuel → (o.newIterator.seek s).readAll fuel = out) ∧
      (∃ out, Ascending out ∧ (∀ k v, (k, v) ∈ out ↔ m k = some v) ∧
        ∀ fuel, out.length ≤ fuel → o.newIterator.rewind.readAll fuel = out) ∧
      ∀ order : List κ, order.Nodup → (∀ k, k ∈ order ↔ k ∈ o.dirty ∧ o.overlay.get k = none) →
        (o.commit order).inner.get = m ∧ Store.run inner.get (o.commitLog order) = m := by
  obtain ⟨covered, get⟩ := (TreeOverlay.Covered.new inner).run ops
  rw [TreeOverlay.get_new] at get
  refine ⟨_, _, rfl, rfl, get, fun k => get ▸ TreeOverlay.removeExisting_fst k, fun s => ?_, ?_,
    fun order nodup listed => ?_⟩
  · refine ⟨_, (TreeOverlayIterator.positioned_seek covered s).reads.1, fun k v => ?_,
      (TreeOverlayIterator.positioned_seek covered s).reads.2⟩
    rw [TreeOverlayIterator.mem_pending_seek covered, get]
  · refine ⟨_, (TreeOverlayIterator.positioned_rewind covered).reads.1, fun k v => ?_,
      (TreeOverlayIterator.positioned_rewind covered).reads.2⟩
    rw [TreeOverlayIterator.mem_pending_rewind covered, get]
  · refine ⟨by rw [TreeOverlay.get_commit covered nodup listed, get], ?_⟩
    rw [← get, ← TreeOverlay.run_commitLog covered nodup listed, TreeOverlay.inner_run]
    rfl

/-- Over the inner tree `{1 ↦ 10, 3 ↦ 30}`, inserting 2 and removing 3 leave the dirty key 3
out of the overlay; the commit that removes it leaves the inner tree with the updated map. -/
theorem treeOverlay_refines_map_commit :
    (((TreeOverlay.new ⟨[(1, 10), (3, 30)], by decide⟩ : TreeOverlay ℕ ℕ).run [.insert 2 20, .remove 3]).commit
      [3]).inner.get = Store.run (SortedMap.get ⟨[(1, 10), (3, 30)], by decide⟩)
        (List.map TreeOverlay.Op.write [.insert 2 20, .remove 3]) := by
  obtain ⟨o, m, rfl, rfl, -, -, -, -, commit⟩ :=
    treeOverlay_refines_map (⟨[(1, 10), (3, 30)], by decide⟩ : SortedMap ℕ ℕ) [.insert 2 20, .remove 3]
  refine (commit [3] (by decide) fun k => ?_).1
  by_cases three : k = 3
  · simp [three, TreeOverlay.run, TreeOverlay.apply, TreeOverlay.insert, TreeOverlay.remove, TreeOverlay.new,
      SortedMap.get_erase]
  · simp [three, TreeOverlay.run, TreeOverlay.apply, TreeOverlay.insert, TreeOverlay.remove, TreeOverlay.new,
      SortedMap.get_erase, SortedMap.get_insert]

end Orphiq.Mkvs

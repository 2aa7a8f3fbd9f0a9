import OrphiqCore.Mkvs.TreeSpec

/-!
# Runs of the tree

What a client of the tree sees over whole runs of calls, from a tree opened at a committed
root (the empty tree is the one opened at the empty root): `Get` returns what the last write
to the key left; the committed root hash depends only on the map (history independence);
and the write log of a commit, replayed in any order on the committed root, gives the same
root again.

All three need the keys to be shorter than 8192 bytes, so that their bit lengths fit the
trie's 16-bit depth; the counterexamples show what goes wrong with longer ones.
-/

namespace Orphiq.Mkvs

open Node

namespace Tree

variable {digest : List UInt8 → Hash}

theorem fits_of_isSome {path : List Bool} {n : Node} (h : n.Canonical path) {key : Key}
    (found : (n.contents key).isSome) : key.Fits := by
  obtain ⟨v, hv⟩ := Option.isSome_iff_exists.mp found
  exact h.fits hv

theorem get_run_eq_lastWrite {root : Root} {rootNode : Node} (canonical : rootNode.Canonical [])
    (coherent : Coherent digest rootNode) (withoutWriteLog : Bool) {ops : List Op}
    (fits : ∀ op ∈ ops, op.Fits) {key : Key} (keyFits : key.Fits) :
    ∃ t, (newWithRoot root rootNode withoutWriteLog).run digest ops = some t ∧
      t.get key = some ((Store.lastWrite (ops.filterMap Op.write?) key).getD (rootNode.contents key)) ∧
      (·.1) <$> doGet key t.pendingRoot 0 ⟨none, false⟩ false = t.get key ∧
      (·.2) <$> t.removeExisting key = t.get key := by
  obtain ⟨t, ran, base, spec, -⟩ :=
    run_spec (consistent_newWithRoot root canonical coherent withoutWriteLog) fits
  have value : t.pendingRoot.contents key =
      (Store.lastWrite (ops.filterMap Op.write?) key).getD (rootNode.contents key) := by
    rw [spec.contents, Store.run_eq_lastWrite]
    rfl
  have got := get_spec spec.consistent keyFits
  obtain ⟨t', removed, -⟩ := removeExisting_spec spec.consistent keyFits
  refine ⟨t, ran, by rw [got, value], ?_, ?_⟩
  · rw [got, doGet_spec spec.consistent.canonical keyFits depth_root false]
    rfl
  · rw [got, removed]
    rfl

theorem get_run_eq_lastWrite_insert :
    ∃ t, (newWithRoot (Root.empty 0) .nil false).run id [.insert [1] [2]] = some t ∧
      t.get [1] = some ((Store.lastWrite ([Op.insert [1] [2]].filterMap Op.write?) [1]).getD
        (Node.nil.contents [1])) ∧
      (·.1) <$> doGet [1] t.pendingRoot 0 ⟨none, false⟩ false = t.get [1] ∧
      (·.2) <$> t.removeExisting [1] = t.get [1] :=
  get_run_eq_lastWrite (show Node.nil.Canonical [] from trivial) (by simp [Coherent, subtrees]) false (by simp [Op.Fits, Key.Fits])
    (by decide)

set_option maxRecDepth 100000 in
/-- Two inserts whose second panics: an 8192-byte key has bit length 0 as a `Depth`, like the
empty key, and the walk reads a bit past the end of the leaf's key. -/
theorem run_long_key_empty_key_fails :
    (Tree.new 0 false).run id [.insert (List.replicate 8192 0) [1], .insert [] [2]] = none :=
  rfl

theorem commit_hash_eq_of_run {root₁ root₂ : Root} {n₁ n₂ : Node} (canonical₁ : n₁.Canonical [])
    (coherent₁ : Coherent digest n₁) (canonical₂ : n₂.Canonical []) (coherent₂ : Coherent digest n₂)
    (withoutWriteLog₁ withoutWriteLog₂ : Bool) {ops₁ ops₂ : List Op} (fits₁ : ∀ op ∈ ops₁, op.Fits)
    (fits₂ : ∀ op ∈ ops₂, op.Fits)
    (sameEnd : Store.run n₁.contents (ops₁.filterMap Op.write?) = Store.run n₂.contents (ops₂.filterMap Op.write?))
    (ns₁ ns₂ : Namespace) (version₁ version₂ : UInt64) :
    ∃ t₁ t₂, (newWithRoot root₁ n₁ withoutWriteLog₁).run digest ops₁ = some t₁ ∧
      (newWithRoot root₂ n₂ withoutWriteLog₂).run digest ops₂ = some t₂ ∧
      (t₁.commit digest ns₁ version₁).2.1 = (t₂.commit digest ns₂ version₂).2.1 := by
  obtain ⟨t₁, ran₁, base₁, spec₁, -⟩ :=
    run_spec (consistent_newWithRoot root₁ canonical₁ coherent₁ withoutWriteLog₁) fits₁
  obtain ⟨t₂, ran₂, base₂, spec₂, -⟩ :=
    run_spec (consistent_newWithRoot root₂ canonical₂ coherent₂ withoutWriteLog₂) fits₂
  -- Both pending roots are canonical tries of one map, so they hash alike.
  have same : t₁.pendingRoot.contents = t₂.pendingRoot.contents := by
    rw [spec₁.contents, spec₂.contents]
    exact sameEnd
  refine ⟨t₁, t₂, ran₁, ran₂, ?_⟩
  rw [(commit_spec spec₁.consistent ns₁ version₁).1, (commit_spec spec₂.consistent ns₂ version₂).1]
  exact spec₁.consistent.canonical.hashOf_eq spec₂.consistent.canonical same

theorem commit_hash_eq_of_run_remove_inserted :
    ∃ t₁ t₂, (newWithRoot (Root.empty 0) .nil false).run id [.insert [1] [2], .remove [1]] = some t₁ ∧
      (newWithRoot (Root.empty 0) .nil false).run id [] = some t₂ ∧
      (t₁.commit id Namespace.empty 1).2.1 = (t₂.commit id Namespace.empty 1).2.1 :=
  commit_hash_eq_of_run (show Node.nil.Canonical [] from trivial) (by simp [Coherent, subtrees])
    (show Node.nil.Canonical [] from trivial) (by simp [Coherent, subtrees])
    false false (by simp [Op.Fits, Key.Fits]) (by simp) (by funext k; simp [Op.write?, Function.update_apply]) _ _ _ _

set_option maxRecDepth 100000 in
/-- History independence fails in two ways. With a key of 8193 bytes, whose bit length is 8
as a `Depth`, the same three inserts in two orders give two root hashes. And removing the
last inserted key does not give back the root committed before that insertion when the key
was there already. -/
theorem commit_hash_history_dependent :
    (∃ t₁ t₂, (Tree.new 0 false).run id
        [.insert (List.replicate 8193 0) [1], .insert [5] [1], .insert [0] [1]] = some t₁ ∧
      (Tree.new 0 false).run id [.insert [5] [1], .insert [0] [1], .insert (List.replicate 8193 0) [1]] =
        some t₂ ∧
      (t₁.commit id Namespace.empty 1).2.1 ≠ (t₂.commit id Namespace.empty 1).2.1) ∧
    ∃ t t', (Tree.new 0 false).run id [.insert [1] [1]] = some t ∧
      (t.commit id Namespace.empty 1).2.2.run id [.insert [1] [2], .remove [1]] = some t' ∧
      (t'.commit id Namespace.empty 2).2.1 ≠ (t.commit id Namespace.empty 1).2.1 :=
  ⟨⟨_, _, rfl, rfl, by decide +kernel⟩, ⟨_, _, rfl, rfl, by decide +kernel⟩⟩

theorem applyWriteLog_commit_hash_eq {root : Root} {rootNode : Node} (canonical : rootNode.Canonical [])
    (coherent : Coherent digest rootNode) {ops : List Op} (fits : ∀ op ∈ ops, op.Fits)
    (writes : ∀ op ∈ ops, op.write?.isSome = true) (ns : Namespace) (version : UInt64) :
    ∃ t, (newWithRoot root rootNode false).run digest ops = some t ∧
      Store.Summary rootNode.contents (Store.run rootNode.contents (ops.filterMap Op.write?))
        ((t.commit digest ns version).1.map LogEntry.write) ∧
      (∀ entry ∈ (t.commit digest ns version).1, (rootNode.contents entry.key).isSome ∨ entry.value.isSome) ∧
      ∀ wl : WriteLog, wl.Perm (t.commit digest ns version).1 → ∀ (withoutWriteLog : Bool) (ns' : Namespace)
        (version' : UInt64), ∃ t', (newWithRoot root rootNode withoutWriteLog).applyWriteLog wl = some t' ∧
          (t'.commit digest ns' version').2.1 = (t.commit digest ns version).2.1 := by
  obtain ⟨t, ran, base, spec, keep⟩ := run_spec (consistent_newWithRoot root canonical coherent false) fits
  obtain rfl : base = rootNode.contents := keep writes
  obtain ⟨hash, -, summarised⟩ := commit_spec spec.consistent ns version
  have logged : t.withoutWriteLog = false := spec.withoutWriteLog
  have summary := summarised logged
  have existing (entry : LogEntry) (mem : entry ∈ (t.commit digest ns version).1) :
      (rootNode.contents entry.key).isSome ∨ entry.value.isSome := by
    have value : t.pendingRoot.contents entry.key = entry.value :=
      summary.written entry.write (List.mem_map_of_mem mem)
    rw [← value]
    exact isSome_of_mem_log_commit spec.consistent logged mem
  refine ⟨t, ran, spec.contents ▸ summary, existing, fun wl perm withoutWriteLog ns' version' => ?_⟩
  -- Every key of the log is in the map before or after, so it fits.
  have fitsLog (entry : LogEntry) (mem : entry ∈ wl) : entry.key.Fits := by
    have value : t.pendingRoot.contents entry.key = entry.value :=
      summary.written entry.write (List.mem_map_of_mem (perm.subset mem))
    rcases existing entry (perm.subset mem) with before | after
    · exact fits_of_isSome canonical before
    · exact fits_of_isSome spec.consistent.canonical (value ▸ after)
  obtain ⟨t', applied, replay⟩ :=
    applyWriteLog_spec (consistent_newWithRoot root canonical coherent withoutWriteLog) fitsLog
  have same : t'.pendingRoot.contents = t.pendingRoot.contents := by
    rw [replay.contents]
    exact (summary.perm (perm.map LogEntry.write).symm).run_eq
  refine ⟨t', applied, ?_⟩
  rw [(commit_spec replay.consistent ns' version').1, hash]
  exact replay.consistent.canonical.hashOf_eq spec.consistent.canonical same

theorem applyWriteLog_commit_hash_eq_insert :
    ∃ t, (newWithRoot (Root.empty 0) .nil false).run id [.insert [1] [2]] = some t ∧
      Store.Summary Node.nil.contents (Store.run Node.nil.contents ([Op.insert [1] [2]].filterMap Op.write?))
        ((t.commit id Namespace.empty 1).1.map LogEntry.write) ∧
      (∀ entry ∈ (t.commit id Namespace.empty 1).1, (Node.nil.contents entry.key).isSome ∨ entry.value.isSome) ∧
      ∀ wl : WriteLog, wl.Perm (t.commit id Namespace.empty 1).1 → ∀ (withoutWriteLog : Bool) (ns' : Namespace)
        (version' : UInt64), ∃ t', (newWithRoot (Root.empty 0) .nil withoutWriteLog).applyWriteLog wl = some t' ∧
          (t'.commit id ns' version').2.1 = (t.commit id Namespace.empty 1).2.1 :=
  applyWriteLog_commit_hash_eq (show Node.nil.Canonical [] from trivial) (by simp [Coherent, subtrees]) (by simp [Op.Fits, Key.Fits])
    (by simp [Op.write?]) _ _

set_option maxRecDepth 100000 in
/-- With a key of 8193 bytes, replaying a commit's write log in another order commits to
another root. -/
theorem applyWriteLog_long_key_hash_ne :
    ∃ t t', (Tree.new 0 false).run id
        [.insert (List.replicate 8193 0) [1], .insert [5] [1], .insert [0] [1]] = some t ∧
      List.Perm [⟨[5], some [1]⟩, ⟨[0], some [1]⟩, ⟨List.replicate 8193 0, some [1]⟩]
        (t.commit id Namespace.empty 1).1 ∧
      (Tree.new 0 false).applyWriteLog
        [⟨[5], some [1]⟩, ⟨[0], some [1]⟩, ⟨List.replicate 8193 0, some [1]⟩] = some t' ∧
      (t'.commit id Namespace.empty 1).2.1 ≠ (t.commit id Namespace.empty 1).2.1 :=
  ⟨_, _, rfl, by decide +kernel, rfl, by decide +kernel⟩

end Tree

end Orphiq.Mkvs

import OrphiqCore.Mkvs.Tree
import OrphiqCore.Mkvs.InsertSpec
import OrphiqCore.Mkvs.RemoveSpec
import OrphiqCore.Store.Log

/-!
# The tree as a map

A tree denotes the map its pending root holds. `Tree.Consistent digest base t` is what every
tree reached from an opened root keeps: the pending root is the canonical trie of the map,
its clean nodes cache their hashes, and the pending write log is a `Store.Summary` of the
change from `base`, the map at the last commit, whose entries say whether their key was in
`base`.

Every call keeps the invariant and acts on the map as the write it stands for
(`insert_spec`, `removeExisting_spec`, `commit_spec`), so a whole run does (`run_spec`); a
`Get` reads the map (`get_spec`).
-/

namespace Orphiq.Mkvs

open Node

def PendingEntry.write (entry : PendingEntry) : Store.Write Key Value := ⟨entry.key, entry.value⟩

def LogEntry.write (entry : LogEntry) : Store.Write Key Value := ⟨entry.key, entry.value⟩

theorem keys_map_write (log : List PendingEntry) :
    (log.map PendingEntry.write).map (·.key) = log.map (·.key) := by
  simp [PendingEntry.write, Function.comp_def]

theorem pendingEntryOf_eq_none {log : List PendingEntry} {key : Key} :
    pendingEntryOf log key = none ↔ key ∉ log.map (·.key) := by
  simp [pendingEntryOf]

theorem pendingEntryOf_eq_some {log : List PendingEntry} {key : Key} {entry : PendingEntry}
    (found : pendingEntryOf log key = some entry) : entry ∈ log ∧ entry.key = key :=
  ⟨List.mem_of_find?_eq_some found, by simpa using List.find?_some found⟩

theorem map_write_recordPending_of_mem (log : List PendingEntry) (key : Key) (value : Option Value) :
    (log.map fun entry => if entry.key = key then { entry with value } else entry).map PendingEntry.write =
      (log.map PendingEntry.write).map fun w => if w.key = key then { w with value } else w := by
  simp only [List.map_map]
  exact List.map_congr_left fun entry _ => by by_cases same : entry.key = key <;> simp [same, PendingEntry.write]

theorem summary_recordPending {base after : Key → Option Value} {log : List PendingEntry}
    (h : Store.Summary base after (log.map PendingEntry.write)) (key : Key) (value : Option Value)
    (existed : Bool) :
    Store.Summary base (Function.update after key value)
      ((recordPending log key value existed).map PendingEntry.write) := by
  unfold recordPending
  cases found : pendingEntryOf log key with
  | none =>
    have absent : key ∉ (log.map PendingEntry.write).map (·.key) := by
      rw [keys_map_write]
      exact pendingEntryOf_eq_none.mp found
    simpa [PendingEntry.write] using h.update_append absent value
  | some entry =>
    obtain ⟨mem, rfl⟩ := pendingEntryOf_eq_some found
    have present : entry.key ∈ (log.map PendingEntry.write).map (·.key) := by
      rw [keys_map_write]
      exact List.mem_map_of_mem mem
    dsimp only
    rw [map_write_recordPending_of_mem]
    exact h.update_mem present value

theorem existed_recordPending {base : Key → Option Value} {log : List PendingEntry}
    (h : ∀ entry ∈ log, entry.existed = (base entry.key).isSome) {key : Key} {value : Option Value}
    {existed : Bool} (fresh : key ∉ log.map (·.key) → existed = (base key).isSome) :
    ∀ entry ∈ recordPending log key value existed, entry.existed = (base entry.key).isSome := by
  unfold recordPending
  cases found : pendingEntryOf log key with
  | none =>
    intro entry mem
    rcases List.mem_append.mp mem with old | new
    · exact h entry old
    · obtain rfl := List.mem_singleton.mp new
      exact fresh (pendingEntryOf_eq_none.mp found)
  | some _ =>
    intro entry mem
    obtain ⟨old, inLog, rfl⟩ := List.mem_map.mp mem
    by_cases same : old.key = key
    · simpa [same] using h old inLog
    · simpa [same] using h old inLog

theorem logEntry?_eq_none {entry : PendingEntry} :
    entry.logEntry? = none ↔ entry.value = none ∧ entry.existed = false := by
  unfold PendingEntry.logEntry?
  split_ifs with dropped <;> simp [dropped]

theorem map_write_filterMap_logEntry (log : List PendingEntry) :
    (log.filterMap PendingEntry.logEntry?).map LogEntry.write =
      (log.filter fun entry => entry.logEntry?.isSome).map PendingEntry.write := by
  induction log with
  | nil => rfl
  | cons entry log ih =>
    by_cases dropped : entry.value = none ∧ entry.existed = false <;>
      simp [PendingEntry.logEntry?, dropped, ih, LogEntry.write, PendingEntry.write]

namespace Tree

section Invariant

variable (digest : List UInt8 → Hash)

/-- The invariant of a tree whose map was `base` at the last commit. -/
structure Consistent (base : Key → Option Value) (t : Tree) : Prop where
  canonical : t.pendingRoot.Canonical []
  coherent : Coherent digest t.pendingRoot
  summary : t.withoutWriteLog = false →
    Store.Summary base t.pendingRoot.contents (t.pendingWriteLog.map PendingEntry.write)
  existed : ∀ entry ∈ t.pendingWriteLog, entry.existed = (base entry.key).isSome
  logless : t.withoutWriteLog = true → t.pendingWriteLog = []

/-- What a call from `t` to `t'` does: it keeps the invariant, for the map `base` of the last
commit, and applies the writes `ws` to the map. -/
structure StepSpec (base : Key → Option Value) (t t' : Tree) (ws : List (Store.Write Key Value)) :
    Prop where
  consistent : t'.Consistent digest base
  contents : t'.pendingRoot.contents = Store.run t.pendingRoot.contents ws
  withoutWriteLog : t'.withoutWriteLog = t.withoutWriteLog

variable {digest}

theorem StepSpec.refl {base : Key → Option Value} {t : Tree} (h : t.Consistent digest base) :
    StepSpec digest base t t [] :=
  ⟨h, rfl, rfl⟩

theorem StepSpec.trans {base base' : Key → Option Value} {t₁ t₂ t₃ : Tree}
    {ws ws' : List (Store.Write Key Value)} (first : StepSpec digest base t₁ t₂ ws)
    (second : StepSpec digest base' t₂ t₃ ws') : StepSpec digest base' t₁ t₃ (ws ++ ws') :=
  ⟨second.consistent, by rw [second.contents, first.contents, Store.run_append],
    second.withoutWriteLog.trans first.withoutWriteLog⟩

theorem depth_root : (0 : Depth).toNat = ([] : List Bool).length := rfl

theorem consistent_newWithRoot (root : Root) {rootNode : Node} (canonical : rootNode.Canonical [])
    (coherent : Coherent digest rootNode) (withoutWriteLog : Bool) :
    (newWithRoot root rootNode withoutWriteLog).Consistent digest rootNode.contents :=
  ⟨canonical, coherent, fun _ => Store.Summary.nil _, by simp [newWithRoot, new], fun _ => rfl⟩

theorem pendingEntry_eq_some {t : Tree} {key : Key} {entry : PendingEntry}
    (found : t.pendingEntry key = some entry) :
    t.withoutWriteLog = false ∧ entry ∈ t.pendingWriteLog ∧ entry.key = key := by
  unfold pendingEntry at found
  cases logless : t.withoutWriteLog
  · rw [logless, if_neg Bool.false_ne_true] at found
    exact ⟨rfl, pendingEntryOf_eq_some found⟩
  · simp [logless] at found

theorem Consistent.value_eq {base : Key → Option Value} {t : Tree} (h : t.Consistent digest base)
    {key : Key} {entry : PendingEntry} (found : t.pendingEntry key = some entry) :
    entry.value = t.pendingRoot.contents key := by
  obtain ⟨logged, mem, rfl⟩ := pendingEntry_eq_some found
  exact ((h.summary logged).written entry.write (List.mem_map_of_mem mem)).symm

theorem stepSpec_update {base : Key → Option Value} {t : Tree} (h : t.Consistent digest base)
    {n : Node} (canonical : n.Canonical []) (kept : ∀ m ∈ n.subtrees, m.isClean = true → m ∈ t.pendingRoot.subtrees)
    {key : Key} {value : Option Value} (contents : n.contents = Function.update t.pendingRoot.contents key value)
    {existed : Bool} (hExisted : existed = (t.pendingRoot.contents key).isSome) :
    StepSpec digest base t { t with pendingRoot := n, pendingWriteLog := (if t.withoutWriteLog then t.pendingWriteLog
      else recordPending t.pendingWriteLog key value existed) } [⟨key, value⟩] := by
  refine ⟨⟨canonical, h.coherent.of_kept kept, fun logged => ?_, ?_, fun logless => ?_⟩, by simp [contents], rfl⟩
  · simp only at logged
    simpa [logged, contents] using summary_recordPending (h.summary logged) key value existed
  · cases logged : t.withoutWriteLog
    · -- A new entry is for a key the log does not name, which still has its committed value.
      refine existed_recordPending h.existed fun absent => ?_
      rw [hExisted, (h.summary logged).untouched key (by rw [keys_map_write]; exact absent)]
    · simpa [logged] using h.existed
  · simp only at logless
    simpa [logless] using h.logless logless

theorem insert_spec {base : Key → Option Value} {t : Tree} (h : t.Consistent digest base) {key : Key}
    (fits : key.Fits) (value : Value) :
    ∃ t', t.insert key value = some t' ∧ StepSpec digest base t t' [⟨key, some value⟩] := by
  obtain ⟨r, inserted, spec⟩ : ∃ r, doInsert t.pendingRoot 0 key value = some r ∧
      InsertSpec (Canonical []) t.pendingRoot key value r :=
    doInsert_spec h.canonical List.nil_prefix fits depth_root
  exact ⟨_, by simp [insert, inserted], stepSpec_update h spec.shape spec.kept spec.contents spec.existed⟩

theorem doRemove_stepSpec {base : Key → Option Value} {t : Tree} (h : t.Consistent digest base)
    {key : Key} (fits : key.Fits) :
    ∃ r, doRemove t.pendingRoot 0 key = some r ∧ r.2.2 = t.pendingRoot.contents key ∧
      StepSpec digest base t { t with pendingRoot := r.1, pendingWriteLog := (if t.withoutWriteLog
        then t.pendingWriteLog else recordPending t.pendingWriteLog key none r.2.1) } [⟨key, none⟩] := by
  obtain ⟨r, removed, spec⟩ := doRemove_spec h.canonical fits depth_root
  exact ⟨r, removed, spec.existing, stepSpec_update h spec.shape spec.kept spec.contents spec.changed⟩

theorem removeExisting_spec {base : Key → Option Value} {t : Tree} (h : t.Consistent digest base)
    {key : Key} (fits : key.Fits) :
    ∃ t', t.removeExisting key = some (t', t.pendingRoot.contents key) ∧
      StepSpec digest base t t' [⟨key, none⟩] := by
  obtain ⟨r, removed, existing, spec⟩ := doRemove_stepSpec h fits
  cases found : t.pendingEntry key with
  | none => exact ⟨_, by simp [removeExisting, found, removed, ← existing], spec⟩
  | some entry =>
    obtain ⟨k, value, existed⟩ := entry
    cases value with
    | none =>
      -- Removed already: the map has no value for the key, and the tree stays as it is.
      have gone : none = t.pendingRoot.contents key := h.value_eq found
      refine ⟨t, by simp [removeExisting, found, ← gone], h, ?_, rfl⟩
      simp only [Store.run_singleton]
      exact (Function.update_eq_self_iff.mpr gone).symm
    | some v => exact ⟨_, by simp [removeExisting, found, removed, ← existing], spec⟩

theorem remove_spec {base : Key → Option Value} {t : Tree} (h : t.Consistent digest base)
    {key : Key} (fits : key.Fits) :
    ∃ t', t.remove key = some t' ∧ StepSpec digest base t t' [⟨key, none⟩] := by
  obtain ⟨t', removed, spec⟩ := removeExisting_spec h fits
  exact ⟨t', by simp [remove, removed], spec⟩

theorem get_spec {base : Key → Option Value} {t : Tree} (h : t.Consistent digest base) {key : Key}
    (fits : key.Fits) : t.get key = some (t.pendingRoot.contents key) := by
  cases found : t.pendingEntry key with
  | some entry => simp [get, found, h.value_eq found]
  | none => simp [get, found, doGet_spec h.canonical fits depth_root false]

@[simp] theorem hash_commit (t : Tree) (ns : Namespace) (version : UInt64) :
    (t.commit digest ns version).2.1 = (doCommit digest t.pendingRoot).1 := rfl

@[simp] theorem pendingRoot_commit (t : Tree) (ns : Namespace) (version : UInt64) :
    (t.commit digest ns version).2.2.pendingRoot = (doCommit digest t.pendingRoot).2 := rfl

@[simp] theorem pendingWriteLog_commit (t : Tree) (ns : Namespace) (version : UInt64) :
    (t.commit digest ns version).2.2.pendingWriteLog = [] := rfl

@[simp] theorem withoutWriteLog_commit (t : Tree) (ns : Namespace) (version : UInt64) :
    (t.commit digest ns version).2.2.withoutWriteLog = t.withoutWriteLog := rfl

theorem log_commit (t : Tree) (ns : Namespace) (version : UInt64) :
    (t.commit digest ns version).1 = t.pendingWriteLog.filterMap PendingEntry.logEntry? := rfl

/-- `Commit` returns the hash of the map's trie, starts a new write log from the committed map,
and returns a write log that summarises the change since the last commit. -/
theorem commit_spec {base : Key → Option Value} {t : Tree} (h : t.Consistent digest base)
    (ns : Namespace) (version : UInt64) :
    (t.commit digest ns version).2.1 = t.pendingRoot.hashOf digest ∧
      StepSpec digest t.pendingRoot.contents t (t.commit digest ns version).2.2 [] ∧
      (t.withoutWriteLog = false →
        Store.Summary base t.pendingRoot.contents ((t.commit digest ns version).1.map LogEntry.write)) := by
  obtain ⟨hash, shape, coherent⟩ := doCommit_spec h.coherent
  have same : (doCommit digest t.pendingRoot).2.contents = t.pendingRoot.contents :=
    contents_eq_of_erase_eq shape
  refine ⟨by rw [hash_commit, hash], ⟨⟨?_, ?_, fun _ => ?_, by simp, fun _ => rfl⟩, ?_, rfl⟩, fun logged => ?_⟩
  · simpa using Canonical.of_erase_eq shape h.canonical
  · simpa using coherent
  · simpa [same] using Store.Summary.nil (doCommit digest t.pendingRoot).2.contents
  · simpa using same
  -- The dropped entries are for keys absent before and after.
  rw [log_commit, map_write_filterMap_logEntry]
  refine (h.summary logged).sublist (List.filter_sublist.map _) fun w mem kept => ?_
  obtain ⟨entry, inLog, rfl⟩ := List.mem_map.mp mem
  have dropped : entry.logEntry? = none := by
    by_contra notDropped
    exact kept (List.mem_map_of_mem (List.mem_filter.mpr ⟨inLog, by simpa [Option.isSome_iff_ne_none] using notDropped⟩))
  obtain ⟨noValue, notExisted⟩ := logEntry?_eq_none.mp dropped
  have before : base entry.key = none := by
    simpa [notExisted] using (h.existed entry inLog).symm
  have after : t.pendingRoot.contents entry.key = none :=
    ((h.summary logged).written entry.write (List.mem_map_of_mem inLog)).trans noValue
  simp [PendingEntry.write, before, after]

theorem isSome_of_mem_log_commit {base : Key → Option Value} {t : Tree} (h : t.Consistent digest base)
    (logged : t.withoutWriteLog = false) {ns : Namespace} {version : UInt64} {entry : LogEntry}
    (mem : entry ∈ (t.commit digest ns version).1) :
    (base entry.key).isSome ∨ (t.pendingRoot.contents entry.key).isSome := by
  rw [log_commit, List.mem_filterMap] at mem
  obtain ⟨pending, inLog, made⟩ := mem
  unfold PendingEntry.logEntry? at made
  split_ifs at made with dropped
  obtain rfl := Option.some.inj made
  have value : t.pendingRoot.contents pending.key = pending.value :=
    (h.summary logged).written pending.write (List.mem_map_of_mem inLog)
  cases existed : pending.existed
  · have hasValue : pending.value ≠ none := fun none => dropped ⟨none, existed⟩
    right
    rw [value]
    exact Option.isSome_iff_ne_none.mpr hasValue
  · left
    simpa [existed] using (h.existed pending inLog).symm

end Invariant

/-- The write a call makes to the map, if any. -/
def Op.write? : Op → Option (Store.Write Key Value)
  | .insert key value => some ⟨key, some value⟩
  | .remove key => some ⟨key, none⟩
  | .removeExisting key => some ⟨key, none⟩
  | .commit _ _ => none

/-- The call's key fits the bit depth of the trie. -/
def Op.Fits : Op → Prop
  | .insert key _ => key.Fits
  | .remove key => key.Fits
  | .removeExisting key => key.Fits
  | .commit _ _ => True

theorem filterMap_write?_cons (op : Op) (ops : List Op) :
    (op :: ops).filterMap Op.write? = op.write?.toList ++ ops.filterMap Op.write? := by
  cases written : op.write? <;> simp [written]

section Runs

variable {digest : List UInt8 → Hash}

/-- A call keeps the invariant and makes its write; the map of the last commit changes only
at a commit. -/
theorem step_spec {base : Key → Option Value} {t : Tree} (h : t.Consistent digest base) {op : Op}
    (fits : op.Fits) :
    ∃ t', t.step digest op = some t' ∧ ∃ base', StepSpec digest base' t t' op.write?.toList ∧
      (op.write?.isSome = true → base' = base) := by
  cases op with
  | insert key value =>
    obtain ⟨t', inserted, spec⟩ := insert_spec h fits value
    exact ⟨t', inserted, base, spec, fun _ => rfl⟩
  | remove key =>
    obtain ⟨t', removed, spec⟩ := remove_spec h fits
    exact ⟨t', removed, base, spec, fun _ => rfl⟩
  | removeExisting key =>
    obtain ⟨t', removed, spec⟩ := removeExisting_spec h fits
    exact ⟨t', by simp [step, removed], base, spec, fun _ => rfl⟩
  | commit ns version =>
    exact ⟨_, rfl, t.pendingRoot.contents, (commit_spec h ns version).2.1, by simp [Op.write?]⟩

/-- A run of calls keeps the invariant and makes their writes, in order. -/
theorem run_spec {base : Key → Option Value} {t : Tree} (h : t.Consistent digest base) {ops : List Op}
    (fits : ∀ op ∈ ops, op.Fits) :
    ∃ t', t.run digest ops = some t' ∧ ∃ base', StepSpec digest base' t t' (ops.filterMap Op.write?) ∧
      ((∀ op ∈ ops, op.write?.isSome = true) → base' = base) := by
  induction ops generalizing t base with
  | nil => exact ⟨t, rfl, base, .refl h, fun _ => rfl⟩
  | cons op ops ih =>
    obtain ⟨t₁, stepped, base₁, first, keep₁⟩ := step_spec h (fits op List.mem_cons_self)
    obtain ⟨t₂, ran, base₂, rest, keep₂⟩ :=
      ih first.consistent fun op' mem => fits op' (List.mem_cons_of_mem _ mem)
    refine ⟨t₂, by simpa [run, stepped] using ran, base₂, ?_, fun writes => ?_⟩
    · rw [filterMap_write?_cons]
      exact first.trans rest
    · rw [keep₂ fun op' mem => writes op' (List.mem_cons_of_mem _ mem), keep₁ (writes op List.mem_cons_self)]

theorem applyWriteLog_append (t : Tree) (wl wl' : WriteLog) :
    t.applyWriteLog (wl ++ wl') = (t.applyWriteLog wl).bind (·.applyWriteLog wl') := by
  simp [applyWriteLog, List.foldlM_append]

theorem applyWriteLog_singleton_spec {base : Key → Option Value} {t : Tree} (h : t.Consistent digest base)
    (entry : LogEntry) (fits : entry.key.Fits) :
    ∃ t', t.applyWriteLog [entry] = some t' ∧ StepSpec digest base t t' [entry.write] := by
  obtain ⟨key, value⟩ := entry
  cases value with
  | none => simpa [applyWriteLog, LogEntry.write] using remove_spec h fits
  | some value => simpa [applyWriteLog, LogEntry.write] using insert_spec h fits value

/-- `ApplyWriteLog` makes the log's writes, in order. -/
theorem applyWriteLog_spec {base : Key → Option Value} {t : Tree} (h : t.Consistent digest base)
    {wl : WriteLog} (fits : ∀ entry ∈ wl, entry.key.Fits) :
    ∃ t', t.applyWriteLog wl = some t' ∧ StepSpec digest base t t' (wl.map LogEntry.write) := by
  induction wl generalizing t with
  | nil => exact ⟨t, rfl, .refl h⟩
  | cons entry wl ih =>
    obtain ⟨t₁, applied, first⟩ := applyWriteLog_singleton_spec h entry (fits entry List.mem_cons_self)
    obtain ⟨t₂, ran, rest⟩ := ih first.consistent fun entry' mem => fits entry' (List.mem_cons_of_mem _ mem)
    refine ⟨t₂, ?_, first.trans rest⟩
    rw [← List.singleton_append, applyWriteLog_append, applied, Option.bind_some]
    exact ran

end Runs

end Tree

end Orphiq.Mkvs

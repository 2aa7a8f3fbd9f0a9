import OrphiqCore.Checkpoint.Restorer

/-!
# Restoring a checkpoint with RestoreChunk calls in flight

Each locked section of `RestoreChunk` is one step, and so is the import between them; the
steps of different calls interleave. The storage worker hands a chunk to one fetcher at a time,
so no two calls on one chunk are in flight together. Beside the restorer the system records the
checkpoint of the last `StartRestore`, the chunks imported since, and how many calls returned
done since.
-/

namespace Orphiq.Checkpoint

variable {Hash Data Node : Type}

/-- A `RestoreChunk` call between its steps: after the first locked section, with its chunk and
bytes, and after a successful import. -/
inductive Phase (Hash Data : Type) where
  | begun (chunk : ChunkMetadata Hash) (r : Data)
  | imported (idx : ℕ)

def Phase.index : Phase Hash Data → ℕ
  | .begun chunk _ => chunk.index
  | .imported idx => idx

structure System (Hash Data Node : Type) where
  restorer : Restorer Hash Node
  inFlight : List (Phase Hash Data)
  started : Option (Metadata Hash)
  restored : Finset ℕ
  completions : ℕ

def System.init (ndb : List Node) : System Hash Data Node := ⟨Restorer.new ndb, [], none, ∅, 0⟩

/-- What a call returned, when a step ends one. -/
abbrev Returned := Option (Bool × Option Error)

section Steps

variable [DecidableEq Hash] (hashChunk : Data → Hash) (verifyChunk : Hash → Data → Option (List Node))

/-- One step of the restorer, in any interleaving of calls; `StartRestore` and `AbortRestore`
are called with no `RestoreChunk` in flight. -/
inductive Step : System Hash Data Node → Returned → System Hash Data Node → Prop
  | startRestore {s : System Hash Data Node} {rs : Restorer Hash Node} (checkpoint : Metadata Hash)
      (quiet : s.inFlight = []) (started : s.restorer.startRestore checkpoint = .ok rs) :
      Step s none { s with restorer := rs, started := some checkpoint, restored := ∅, completions := 0 }
  | abortRestore {s : System Hash Data Node} (quiet : s.inFlight = []) :
      Step s none { s with restorer := s.restorer.abortRestore }
  | beginRejected {s : System Hash Data Node} {e : Error} (idx : ℕ)
      (rejected : s.restorer.beginChunk idx = .error e) : Step s (some (false, some e)) s
  | begin {s : System Hash Data Node} {chunk : ChunkMetadata Hash} (idx : ℕ) (r : Data)
      (begun : s.restorer.beginChunk idx = .ok chunk) :
      Step s none { s with inFlight := .begun chunk r :: s.inFlight }
  | importChunkFailed {s : System Hash Data Node} {chunk : ChunkMetadata Hash} {r : Data} {e : Error}
      {rs : Restorer Hash Node} (pre post : List (Phase Hash Data)) (committed : Bool)
      (inFlight : s.inFlight = pre ++ .begun chunk r :: post)
      (failed : s.restorer.importChunk hashChunk verifyChunk chunk r committed = (some e, rs)) :
      Step s (some (false, some e)) { s with restorer := rs, inFlight := pre ++ post }
  | importChunk {s : System Hash Data Node} {chunk : ChunkMetadata Hash} {r : Data} {rs : Restorer Hash Node}
      (pre post : List (Phase Hash Data)) (committed : Bool)
      (inFlight : s.inFlight = pre ++ .begun chunk r :: post)
      (imported : s.restorer.importChunk hashChunk verifyChunk chunk r committed = (none, rs)) :
      Step s none
        { s with
          restorer := rs
          inFlight := pre ++ .imported chunk.index :: post
          restored := insert chunk.index s.restored }
  | finish {s : System Hash Data Node} {idx : ℕ} (pre post : List (Phase Hash Data))
      (inFlight : s.inFlight = pre ++ .imported idx :: post) :
      Step s (some ((s.restorer.finishChunk idx).1, none))
        { s with
          restorer := (s.restorer.finishChunk idx).2
          inFlight := pre ++ post
          completions := if (s.restorer.finishChunk idx).1 then s.completions + 1 else s.completions }

/-- A step of the storage worker: no two calls on one chunk are in flight together. -/
def WorkerStep (s : System Hash Data Node) (l : Returned) (s' : System Hash Data Node) : Prop :=
  Step hashChunk verifyChunk s l s' ∧ (s'.inFlight.map Phase.index).Nodup

/-- A worker step where a call fails proof verification, and aborts the restore, only while no
other call is in flight. -/
def QuietStep (s : System Hash Data Node) (l : Returned) (s' : System Hash Data Node) : Prop :=
  WorkerStep hashChunk verifyChunk s l s' ∧
    (l = some (false, some .chunkProofVerificationFailed) → s.inFlight.length = 1)

end Steps

inductive Reachable (step : System Hash Data Node → Returned → System Hash Data Node → Prop) (ndb : List Node) :
    System Hash Data Node → Prop
  | init : Reachable step ndb (System.init ndb)
  | step {s s' : System Hash Data Node} {l : Returned} : Reachable step ndb s → step s l s' → Reachable step ndb s'

section Restorer

variable {rs : Restorer Hash Node} {chunk : ChunkMetadata Hash}

theorem beginChunk_eq_ok {idx : ℕ} (begun : rs.beginChunk idx = .ok chunk) :
    ∃ cp, rs.currentCheckpoint = some cp ∧ idx ∈ rs.pendingChunks ∧ chunk.index = idx := by
  unfold Restorer.beginChunk at begun
  split at begun
  · cases begun
  · rename_i cp current
    split_ifs at begun with pending
    unfold Metadata.getChunkMetadata at begun
    split at begun
    · cases begun
    · cases begun
      exact ⟨cp, current, pending, rfl⟩

theorem beginChunk_ne_corrupted {idx : ℕ} : rs.beginChunk idx ≠ .error .chunkCorrupted := by
  unfold Restorer.beginChunk Metadata.getChunkMetadata
  split
  · simp
  · split_ifs
    · split <;> simp
    · simp

theorem beginChunk_ne_proofFailed {idx : ℕ} : rs.beginChunk idx ≠ .error .chunkProofVerificationFailed := by
  unfold Restorer.beginChunk Metadata.getChunkMetadata
  split
  · simp
  · split_ifs
    · split <;> simp
    · simp

theorem finishChunk_pendingChunks (idx : ℕ) : (rs.finishChunk idx).2.pendingChunks = rs.pendingChunks.erase idx := by
  unfold Restorer.finishChunk
  dsimp only
  split_ifs with empty
  · exact (Finset.card_eq_zero.mp empty).symm
  · rfl

theorem finishChunk_done {idx : ℕ} : (rs.finishChunk idx).1 = true ↔ rs.pendingChunks.erase idx = ∅ := by
  unfold Restorer.finishChunk
  dsimp only
  split_ifs with empty
  · exact iff_of_true rfl (Finset.card_eq_zero.mp empty)
  · exact iff_of_false (by simp) fun none => empty (Finset.card_eq_zero.mpr none)

theorem finishChunk_currentCheckpoint {idx : ℕ} :
    (rs.finishChunk idx).2.currentCheckpoint = if (rs.finishChunk idx).1 then none else rs.currentCheckpoint := by
  unfold Restorer.finishChunk
  by_cases empty : (rs.pendingChunks.erase idx).card = 0
  · simp [empty]
  · simp [empty]


variable [DecidableEq Hash] {hashChunk : Data → Hash} {verifyChunk : Hash → Data → Option (List Node)}
  {rs' : Restorer Hash Node} {r : Data} {committed : Bool}

theorem restoreChunk_eq_corrupted {ndb : List Node} :
    restoreChunk hashChunk verifyChunk ndb chunk r committed = .error .chunkCorrupted ↔ chunk.digest ≠ hashChunk r := by
  unfold restoreChunk
  by_cases corrupted : chunk.digest ≠ hashChunk r
  · simp [corrupted]
  · rw [if_neg corrupted]
    simp only [corrupted, iff_false]
    split
    · simp
    · split <;> simp

theorem importChunk_eq_none (imported : rs.importChunk hashChunk verifyChunk chunk r committed = (none, rs')) :
    rs'.currentCheckpoint = rs.currentCheckpoint ∧ rs'.pendingChunks = rs.pendingChunks := by
  unfold Restorer.importChunk at imported
  split at imported
  · cases imported
    exact ⟨rfl, rfl⟩
  · cases imported
  · cases imported

/-- A failed import aborts the restore when the proof does not verify, and changes nothing
otherwise: not the node database, not the pending chunks. -/
theorem importChunk_eq_some {e : Error} (failed : rs.importChunk hashChunk verifyChunk chunk r committed = (some e, rs')) :
    e = .chunkProofVerificationFailed ∧ rs' = rs.abortRestore ∨ e ≠ .chunkProofVerificationFailed ∧ rs' = rs := by
  unfold Restorer.importChunk at failed
  split at failed
  · cases failed
  · cases failed
    exact .inl ⟨rfl, rfl⟩
  · rename_i e' notProof _
    cases failed
    exact .inr ⟨fun same => notProof (by rw [same]), rfl⟩

theorem importChunk_corrupted (failed : rs.importChunk hashChunk verifyChunk chunk r committed = (some .chunkCorrupted, rs')) :
    rs' = rs ∧ chunk.digest ≠ hashChunk r := by
  unfold Restorer.importChunk at failed
  split at failed
  · cases failed
  · cases failed
  · rename_i e' notProof restored
    cases failed
    exact ⟨rfl, restoreChunk_eq_corrupted.mp restored⟩

end Restorer

section Protocol

variable {s s' : System Hash Data Node}

theorem index_ne_of_nodup {pre post : List (Phase Hash Data)} {x p : Phase Hash Data}
    (distinct : ((pre ++ x :: post).map Phase.index).Nodup) (mem : p ∈ pre ++ post) : p.index ≠ x.index := by
  rw [List.map_append, List.map_cons, List.nodup_middle, List.nodup_cons, ← List.map_append] at distinct
  intro same
  exact distinct.1 (same ▸ List.mem_map_of_mem mem)

theorem mem_of_mem_remove {pre post : List (Phase Hash Data)} {x p : Phase Hash Data} (mem : p ∈ pre ++ post) :
    p ∈ pre ++ x :: post :=
  ((List.sublist_cons_self x post).append_left pre).subset mem

/-- What holds between the steps of a restore by the worker with no abort while other calls
are in flight: every call in flight holds a pending chunk of the current checkpoint, while a
restore is running no call has returned done and every chunk that is not pending was restored,
and done was returned at most once, after every chunk was restored. -/
structure Consistent (s : System Hash Data Node) : Prop where
  distinct : (s.inFlight.map Phase.index).Nodup
  inFlight : ∀ p ∈ s.inFlight, s.restorer.currentCheckpoint.isSome ∧ p.index ∈ s.restorer.pendingChunks
  imported : ∀ idx, Phase.imported idx ∈ s.inFlight → idx ∈ s.restored
  current : ∀ cp, s.restorer.currentCheckpoint = some cp → s.started = some cp ∧ s.completions = 0 ∧
    ∀ i < cp.chunks.length, i ∉ s.restorer.pendingChunks → i ∈ s.restored
  completed : s.completions ≤ 1
  done : s.completions = 1 → ∃ cp, s.started = some cp ∧ ∀ i < cp.chunks.length, i ∈ s.restored

theorem Consistent.init (ndb : List Node) : Consistent (System.init ndb : System Hash Data Node) where
  distinct := List.nodup_nil
  inFlight p mem := by cases mem
  imported idx mem := by cases mem
  current cp current := by cases current
  completed := Nat.zero_le _
  done zero := by cases zero

section Consistent

variable (consistent : Consistent s)
include consistent

omit consistent in
theorem Consistent.startRestore {rs : Restorer Hash Node} {checkpoint : Metadata Hash} (idle : s.inFlight = [])
    (started : s.restorer.startRestore checkpoint = .ok rs) :
    Consistent { s with restorer := rs, started := some checkpoint, restored := ∅, completions := 0 } := by
  unfold Restorer.startRestore at started
  split_ifs at started
  cases started
  exact {
    distinct := by simp [idle]
    inFlight := fun p mem => by simp [idle] at mem
    imported := fun idx mem => by simp [idle] at mem
    current := fun cp current => by
      cases current
      exact ⟨rfl, rfl, fun i below notPending => absurd (Finset.mem_range.mpr below) notPending⟩
    completed := Nat.zero_le _
    done := fun zero => by cases zero }

theorem Consistent.abortRestore (idle : s.inFlight = []) :
    Consistent { s with restorer := s.restorer.abortRestore } where
  distinct := by simp [idle]
  inFlight p mem := by simp [idle] at mem
  imported idx mem := by simp [idle] at mem
  current cp current := by cases current
  completed := consistent.completed
  done := consistent.done

theorem Consistent.begin {chunk : ChunkMetadata Hash} {idx : ℕ} (r : Data)
    (begun : s.restorer.beginChunk idx = .ok chunk)
    (distinct : ((Phase.begun chunk r :: s.inFlight).map Phase.index).Nodup) :
    Consistent { s with inFlight := .begun chunk r :: s.inFlight } := by
  obtain ⟨cp, current, pending, index⟩ := beginChunk_eq_ok begun
  refine { consistent with distinct := distinct, inFlight := ?_, imported := ?_ }
  · rintro p (_ | ⟨_, mem⟩)
    · exact ⟨by simp [current], by simpa [Phase.index, index] using pending⟩
    · exact consistent.inFlight p mem
  · rintro idx' (_ | ⟨_, mem⟩)
    exact consistent.imported idx' mem

theorem Consistent.remove {pre post : List (Phase Hash Data)} {x : Phase Hash Data} (inFlight : s.inFlight = pre ++ x :: post) :
    Consistent { s with inFlight := pre ++ post } := by
  have kept : ∀ p ∈ pre ++ post, p ∈ s.inFlight := fun p mem => inFlight ▸ mem_of_mem_remove mem
  refine { consistent with
    distinct := ?_
    inFlight := fun p mem => consistent.inFlight p (kept p mem)
    imported := fun idx mem => consistent.imported idx (kept _ mem) }
  have distinct := consistent.distinct
  rw [inFlight, List.map_append, List.map_cons, List.nodup_middle, List.nodup_cons, ← List.map_append] at distinct
  exact distinct.2

theorem Consistent.finish {pre post : List (Phase Hash Data)} {idx : ℕ}
    (inFlight : s.inFlight = pre ++ .imported idx :: post) :
    Consistent
      { s with
        restorer := (s.restorer.finishChunk idx).2
        inFlight := pre ++ post
        completions := if (s.restorer.finishChunk idx).1 then s.completions + 1 else s.completions } := by
  have removed := consistent.remove inFlight
  obtain ⟨held, pending⟩ := consistent.inFlight (.imported idx) (by simp [inFlight])
  obtain ⟨cp, current⟩ := Option.isSome_iff_exists.mp held
  obtain ⟨started, zero, below⟩ := consistent.current cp current
  have restored := consistent.imported idx (by simp [inFlight])
  have distinct : ((pre ++ .imported idx :: post).map Phase.index).Nodup := inFlight ▸ consistent.distinct
  -- every other call in flight holds another pending chunk
  have others : ∀ p ∈ pre ++ post, p.index ∈ s.restorer.pendingChunks.erase idx := fun p mem =>
    Finset.mem_erase.mpr ⟨index_ne_of_nodup distinct mem, (removed.inFlight p mem).2⟩
  have restoredOf : ∀ i < cp.chunks.length, i ∉ s.restorer.pendingChunks.erase idx → i ∈ s.restored := by
    intro i lt notPending
    by_cases same : i = idx
    · exact same ▸ restored
    · exact below i lt fun mem => notPending (Finset.mem_erase.mpr ⟨same, mem⟩)
  by_cases done : (s.restorer.finishChunk idx).1 = true
  · -- the call that takes the last pending chunk: no other call can be in flight
    have empty := finishChunk_done.mp done
    have idle : pre ++ post = [] :=
      List.eq_nil_iff_forall_not_mem.mpr fun p mem => by simpa [empty] using others p mem
    refine { removed with
      inFlight := fun p mem => by simp [idle] at mem
      imported := fun idx' mem => by simp [idle] at mem
      current := fun cp' current' => ?_
      completed := by simp [done, zero]
      done := fun _ => ⟨cp, started, fun i lt => restoredOf i lt (by simp [empty])⟩ }
    rw [finishChunk_currentCheckpoint, if_pos done] at current'
    cases current'
  · refine { removed with
      inFlight := fun p mem => ⟨?_, ?_⟩
      current := fun cp' current' => ?_
      completed := by simpa [done] using consistent.completed
      done := by simpa [done] using consistent.done }
    · rw [finishChunk_currentCheckpoint, if_neg done, current]
      rfl
    · rw [finishChunk_pendingChunks]
      exact others p mem
    · rw [finishChunk_currentCheckpoint, if_neg done, current] at current'
      cases current'
      refine ⟨started, by simpa [done] using zero, fun i lt notPending => restoredOf i lt ?_⟩
      rwa [finishChunk_pendingChunks] at notPending

end Consistent

variable [DecidableEq Hash] {hashChunk : Data → Hash} {verifyChunk : Hash → Data → Option (List Node)}
  {l : Returned}

/-- In any interleaving, a call that finds its chunk corrupted changes neither the restorer, so
the chunk stays pending and the node database is as it was, nor what was restored. -/
theorem Step.corrupted (step : Step hashChunk verifyChunk s (some (false, some .chunkCorrupted)) s') :
    s'.restorer = s.restorer ∧ s'.restored = s.restored := by
  generalize returned : some (false, some Error.chunkCorrupted) = l at step
  cases step with
  | beginRejected idx rejected =>
    cases returned
    exact absurd rejected beginChunk_ne_corrupted
  | importChunkFailed pre post committed inFlight failed =>
    cases returned
    exact ⟨(importChunk_corrupted failed).1, rfl⟩
  | finish => simp at returned
  | _ => cases returned

/-- In any interleaving, a call whose chunk does not verify aborts the restore. -/
theorem Step.proofFailed (step : Step hashChunk verifyChunk s (some (false, some .chunkProofVerificationFailed)) s') :
    s'.restorer = s.restorer.abortRestore := by
  generalize returned : some (false, some Error.chunkProofVerificationFailed) = l at step
  cases step with
  | beginRejected idx rejected =>
    cases returned
    exact absurd rejected beginChunk_ne_proofFailed
  | importChunkFailed pre post committed inFlight failed =>
    cases returned
    rcases importChunk_eq_some failed with ⟨-, aborted⟩ | ⟨notProof, -⟩
    · exact aborted
    · exact absurd rfl notProof
  | finish => simp at returned
  | _ => cases returned

section Import

variable (consistent : Consistent s) {pre post : List (Phase Hash Data)} {chunk : ChunkMetadata Hash} {r : Data}
  {rs : Restorer Hash Node} {committed : Bool}
include consistent

/-- A call fails proof verification only as the one call in flight, so its abort leaves no
other call behind. -/
theorem Consistent.importChunkFailed {e : Error} (inFlight : s.inFlight = pre ++ .begun chunk r :: post)
    (failed : s.restorer.importChunk hashChunk verifyChunk chunk r committed = (some e, rs))
    (alone : e = .chunkProofVerificationFailed → s.inFlight.length = 1) :
    Consistent { s with restorer := rs, inFlight := pre ++ post } := by
  have removed := consistent.remove inFlight
  rcases importChunk_eq_some failed with ⟨proofFailed, rfl⟩ | ⟨-, rfl⟩
  · have idle : pre ++ post = [] := by
      have length := alone proofFailed
      rw [inFlight] at length
      simp only [List.length_append, List.length_cons] at length
      exact List.append_eq_nil_iff.mpr ⟨List.eq_nil_of_length_eq_zero (by omega),
        List.eq_nil_of_length_eq_zero (by omega)⟩
    exact {
      distinct := by simp [idle]
      inFlight := fun p mem => by simp [idle] at mem
      imported := fun idx mem => by simp [idle] at mem
      current := fun cp current => by cases current
      completed := consistent.completed
      done := consistent.done }
  · exact removed

theorem Consistent.importChunk (inFlight : s.inFlight = pre ++ .begun chunk r :: post)
    (imported : s.restorer.importChunk hashChunk verifyChunk chunk r committed = (none, rs))
    (distinct : ((pre ++ .imported chunk.index :: post).map Phase.index).Nodup) :
    Consistent
      { s with
        restorer := rs
        inFlight := pre ++ .imported chunk.index :: post
        restored := insert chunk.index s.restored } := by
  obtain ⟨current, pending⟩ := importChunk_eq_none imported
  have removed := consistent.remove inFlight
  have held := consistent.inFlight (.begun chunk r) (by simp [inFlight])
  refine {
    distinct := distinct
    inFlight := fun p mem => ?_
    imported := fun idx mem => ?_
    current := fun cp current' => ?_
    completed := consistent.completed
    done := fun one => ?_ }
  · rw [current, pending]
    rcases List.mem_append.mp mem with mem | mem
    · exact removed.inFlight p (List.mem_append_left _ mem)
    rcases List.mem_cons.mp mem with rfl | mem
    · exact held
    · exact removed.inFlight p (List.mem_append_right _ mem)
  · rcases List.mem_append.mp mem with mem | mem
    · exact Finset.mem_insert_of_mem (removed.imported idx (List.mem_append_left _ mem))
    rcases List.mem_cons.mp mem with same | mem
    · cases same
      exact Finset.mem_insert_self _ _
    · exact Finset.mem_insert_of_mem (removed.imported idx (List.mem_append_right _ mem))
  · rw [current] at current'
    obtain ⟨started, zero, below⟩ := consistent.current cp current'
    refine ⟨started, zero, fun i lt notPending => Finset.mem_insert_of_mem (below i lt ?_)⟩
    rwa [pending] at notPending
  · obtain ⟨cp, started, all⟩ := consistent.done one
    exact ⟨cp, started, fun i lt => Finset.mem_insert_of_mem (all i lt)⟩

theorem Consistent.step {l : Returned} {s' : System Hash Data Node} (step : QuietStep hashChunk verifyChunk s l s') :
    Consistent s' := by
  obtain ⟨⟨step, distinct⟩, alone⟩ := step
  cases step with
  | startRestore checkpoint idle started => exact Consistent.startRestore idle started
  | abortRestore idle => exact consistent.abortRestore idle
  | beginRejected idx rejected => exact consistent
  | begin idx r begun => exact consistent.begin r begun distinct
  | importChunkFailed pre post committed inFlight failed =>
    exact consistent.importChunkFailed inFlight failed fun proofFailed => alone (by rw [proofFailed])
  | importChunk pre post committed inFlight imported => exact consistent.importChunk inFlight imported distinct
  | finish pre post inFlight => exact consistent.finish inFlight

end Import

theorem Reachable.consistent {ndb : List Node} (reachable : Reachable (QuietStep hashChunk verifyChunk) ndb s) :
    Consistent s := by
  induction reachable with
  | init => exact Consistent.init ndb
  | step _ step consistent => exact consistent.step step

/-- When no call fails proof verification while another call is in flight, RestoreChunk
returns done at most once a restore, from a call made while the restore was running, and only
after every chunk of the checkpoint was imported. -/
theorem Reachable.done_once {ndb : List Node} (reachable : Reachable (QuietStep hashChunk verifyChunk) ndb s) :
    s.completions ≤ 1 ∧ (s.completions = 1 → ∃ cp, s.started = some cp ∧ ∀ i < cp.chunks.length, i ∈ s.restored) ∧
      ∀ s', QuietStep hashChunk verifyChunk s (some (true, none)) s' → s.completions = 0 ∧ s'.completions = 1 := by
  have consistent := reachable.consistent
  refine ⟨consistent.completed, consistent.done, fun s' step => ?_⟩
  obtain ⟨⟨step, -⟩, -⟩ := step
  generalize returned : some (true, none) = l at step
  cases step with
  | @finish idx pre post inFlight =>
    obtain ⟨held, -⟩ := consistent.inFlight (.imported idx) (by simp [inFlight])
    obtain ⟨cp, current⟩ := Option.isSome_iff_exists.mp held
    have zero := (consistent.current cp current).2.1
    simp only [Option.some.injEq, Prod.mk.injEq] at returned
    simp [← returned.1, zero]
  | beginRejected | importChunkFailed => simp at returned
  | _ => cases returned

end Protocol

/-- With two chunks, the worker's call on chunk 0 fails proof verification and aborts the
restore while its call on chunk 1 is importing; the call on chunk 1 then finds no chunk pending
and returns done, though chunk 0 was never restored. Without the worker's care, two calls on the
last pending chunk both return done. -/
theorem restoreChunk_done_before_restored :
    (∃ s, Reachable (WorkerStep (id : ℕ → ℕ) fun _ r => if r = 1 then some [(1 : ℕ)] else none) [] s ∧
      s.started = some ⟨0, [0, 1]⟩ ∧ s.completions = 1 ∧ 0 ∉ s.restored) ∧
    ∃ s, Reachable (Step (id : ℕ → ℕ) fun _ r => if r = 1 then some [(1 : ℕ)] else none) [] s ∧
      s.started = some ⟨0, [1]⟩ ∧ s.completions = 2 :=
  ⟨⟨_, .step (.step (.step (.step (.step (.step .init
      ⟨.startRestore ⟨0, [0, 1]⟩ rfl rfl, by decide⟩)
      ⟨.begin 0 0 rfl, by decide⟩)
      ⟨.begin 1 1 rfl, by decide⟩)
      ⟨.importChunkFailed [.begun ⟨0, 1, 1⟩ 1] [] true rfl rfl, by decide⟩)
      ⟨.importChunk [] [] true rfl rfl, by decide⟩)
      ⟨.finish [] [] rfl, by decide⟩, rfl, rfl, by decide⟩,
    ⟨_, .step (.step (.step (.step (.step (.step (.step .init
      (.startRestore ⟨0, [1]⟩ rfl rfl))
      (.begin 0 1 rfl))
      (.begin 0 1 rfl))
      (.importChunk [] [.begun ⟨0, 0, 1⟩ 1] true rfl rfl))
      (.importChunk [.imported 0] [] true rfl rfl))
      (.finish [] [.imported 0] rfl))
      (.finish [] [] rfl), rfl, rfl⟩⟩

end Orphiq.Checkpoint

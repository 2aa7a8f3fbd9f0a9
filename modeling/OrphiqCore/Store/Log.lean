import Mathlib

/-!
# Write logs over a key-value map

A key-value store denotes a map `κ → Option ν`, and a write sets one key to a value or
removes it. `run` applies a list of writes in order; `lastWrite` is what the last write to a
key left there, so that `run_eq_lastWrite` reads a run off the writes.

A `Summary` of the change from one map to another is a log with one write per key, holding
the new value of every key it names and naming every key whose value changed. Applying a
summary in any order gives the new map (`Summary.run_eq`, `Summary.perm`), writes that change
nothing can be left out of it (`Summary.sublist`), and a summary is kept up to date write by
write (`Summary.update_mem`, `Summary.update_append`).
-/

namespace Store

/-- Set `key` to `value`, or remove it when `value` is `none`. -/
structure Write (κ ν : Type) where
  key : κ
  value : Option ν
  deriving Repr, DecidableEq

variable {κ ν : Type} [DecidableEq κ]

def Write.apply (m : κ → Option ν) (w : Write κ ν) : κ → Option ν :=
  Function.update m w.key w.value

def run (m : κ → Option ν) (ws : List (Write κ ν)) : κ → Option ν :=
  ws.foldl Write.apply m

/-- What the last write to `k` left under it, if any write names `k`. -/
def lastWrite (ws : List (Write κ ν)) (k : κ) : Option (Option ν) :=
  (ws.reverse.find? (·.key = k)).map (·.value)

@[simp] theorem run_nil (m : κ → Option ν) : run m [] = m := rfl

@[simp] theorem run_cons (m : κ → Option ν) (w : Write κ ν) (ws : List (Write κ ν)) :
    run m (w :: ws) = run (Function.update m w.key w.value) ws := rfl

theorem run_append (m : κ → Option ν) (ws ws' : List (Write κ ν)) :
    run m (ws ++ ws') = run (run m ws) ws' := by
  simp [run]

@[simp] theorem run_singleton (m : κ → Option ν) (w : Write κ ν) :
    run m [w] = Function.update m w.key w.value := rfl

theorem lastWrite_append_singleton (ws : List (Write κ ν)) (w : Write κ ν) (k : κ) :
    lastWrite (ws ++ [w]) k = if w.key = k then some w.value else lastWrite ws k := by
  by_cases hk : w.key = k <;> simp [lastWrite, hk]

/-- A run leaves under `k` the value of the last write to `k`, or what was there. -/
theorem run_eq_lastWrite (m : κ → Option ν) (ws : List (Write κ ν)) (k : κ) :
    run m ws k = (lastWrite ws k).getD (m k) := by
  -- From the end of the list: the last write is the one that decides.
  induction ws using List.reverseRecOn with
  | nil => rfl
  | append_singleton ws w ih =>
    rw [run_append, run_singleton, lastWrite_append_singleton, Function.update_apply]
    by_cases hk : w.key = k
    · simp [hk]
    · simp [Ne.symm hk, hk, ih]

theorem run_of_not_mem {ws : List (Write κ ν)} {k : κ} (absent : k ∉ ws.map (·.key))
    (m : κ → Option ν) : run m ws k = m k := by
  induction ws generalizing m with
  | nil => rfl
  | cons w ws ih =>
    simp only [List.map_cons, List.mem_cons, not_or] at absent
    rw [run_cons, ih absent.2, Function.update_of_ne absent.1]

theorem run_of_mem {ws : List (Write κ ν)} (nodup : (ws.map (·.key)).Nodup) {w : Write κ ν}
    (mem : w ∈ ws) (m : κ → Option ν) : run m ws w.key = w.value := by
  induction ws generalizing m with
  | nil => simp at mem
  | cons x ws ih =>
    simp only [List.map_cons, List.nodup_cons] at nodup
    rcases List.mem_cons.mp mem with rfl | mem
    · rw [run_cons, run_of_not_mem nodup.1, Function.update_self]
    · exact ih nodup.2 mem _

/-- A log with one write per key that takes `before` to `after`. -/
structure Summary (before after : κ → Option ν) (log : List (Write κ ν)) : Prop where
  nodup : (log.map (·.key)).Nodup
  written : ∀ w ∈ log, after w.key = w.value
  untouched : ∀ k, k ∉ log.map (·.key) → after k = before k

omit [DecidableEq κ] in
theorem Summary.nil (m : κ → Option ν) : Summary m m [] :=
  ⟨List.nodup_nil, by simp, fun _ _ => rfl⟩

/-- Applying a summary to the old map gives the new one. -/
theorem Summary.run_eq {before after : κ → Option ν} {log : List (Write κ ν)}
    (h : Summary before after log) : run before log = after := by
  funext k
  by_cases mem : k ∈ log.map (·.key)
  · obtain ⟨w, inLog, rfl⟩ := List.mem_map.mp mem
    rw [run_of_mem h.nodup inLog, h.written w inLog]
  · rw [run_of_not_mem mem, h.untouched k mem]

omit [DecidableEq κ] in
theorem Summary.perm {before after : κ → Option ν} {log log' : List (Write κ ν)}
    (h : Summary before after log) (p : log.Perm log') : Summary before after log' where
  nodup := (p.map _).nodup_iff.mp h.nodup
  written w mem := h.written w (p.mem_iff.mpr mem)
  untouched k absent := h.untouched k fun mem => absent ((p.map _).mem_iff.mp mem)

omit [DecidableEq κ] in
theorem Summary.sublist {before after : κ → Option ν} {log log' : List (Write κ ν)}
    (h : Summary before after log) (sub : log'.Sublist log)
    (dropped : ∀ w ∈ log, w ∉ log' → after w.key = before w.key) : Summary before after log' := by
  refine ⟨h.nodup.sublist (sub.map _), fun w mem => h.written w (sub.subset mem), fun k absent => ?_⟩
  by_cases mem : k ∈ log.map (·.key)
  · obtain ⟨w, inLog, rfl⟩ := List.mem_map.mp mem
    exact dropped w inLog fun kept => absent (List.mem_map_of_mem kept)
  · exact h.untouched k mem

theorem Summary.update_mem {before after : κ → Option ν} {log : List (Write κ ν)}
    (h : Summary before after log) {k : κ} (mem : k ∈ log.map (·.key)) (v : Option ν) :
    Summary before (Function.update after k v)
      (log.map fun w => if w.key = k then { w with value := v } else w) := by
  have sameKeys : (log.map fun w => if w.key = k then { w with value := v } else w).map (·.key) =
      log.map (·.key) := by
    simp only [List.map_map]
    exact List.map_congr_left fun w _ => by by_cases hk : w.key = k <;> simp [hk]
  refine ⟨sameKeys ▸ h.nodup, fun w' mem' => ?_, fun k' absent => ?_⟩
  · obtain ⟨w, inLog, rfl⟩ := List.mem_map.mp mem'
    by_cases hk : w.key = k
    · simp [hk]
    · simp [hk, h.written w inLog]
  · rw [sameKeys] at absent
    have other : k' ≠ k := fun same => absent (same ▸ mem)
    rw [Function.update_of_ne other, h.untouched k' absent]

theorem Summary.update_append {before after : κ → Option ν} {log : List (Write κ ν)}
    (h : Summary before after log) {k : κ} (absent : k ∉ log.map (·.key)) (v : Option ν) :
    Summary before (Function.update after k v) (log ++ [⟨k, v⟩]) := by
  refine ⟨?_, fun w mem => ?_, fun k' absent' => ?_⟩
  · simp only [List.map_append, List.map_cons, List.map_nil, List.nodup_append]
    refine ⟨h.nodup, List.nodup_singleton k, fun a inLog b fresh => ?_⟩
    rw [List.mem_singleton.mp fresh]
    exact fun same => absent (same ▸ inLog)
  · rcases List.mem_append.mp mem with inLog | fresh
    · have other : w.key ≠ k := fun same => absent (same ▸ List.mem_map_of_mem inLog)
      rw [Function.update_of_ne other, h.written w inLog]
    · obtain rfl := List.mem_singleton.mp fresh
      exact Function.update_self ..
  · simp only [List.map_append, List.mem_append, List.map_cons, List.map_nil, List.mem_singleton, not_or] at absent'
    rw [Function.update_of_ne absent'.2, h.untouched k' absent'.1]

end Store

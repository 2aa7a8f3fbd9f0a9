import Mathlib

/-!
# Executor committees

`scheduler.Committee` of `scheduler/api/api.go`, with the parts the commitment pool reads:
the members with their roles, in which the workers come before the backup workers, and the
rank of a worker as a transaction scheduler for a round.
-/

namespace Orphiq.Scheduler

inductive Role where
  | invalid
  | worker
  | backupWorker
  deriving Repr, DecidableEq

/-- `scheduler.CommitteeNode`, keyed by a public key of type `K`. -/
structure CommitteeNode (K : Type) where
  role : Role
  publicKey : K
  deriving Repr, DecidableEq

/-- `scheduler.Committee`, without its kind, runtime and validity. -/
structure Committee (K : Type) where
  members : List (CommitteeNode K)
  deriving Repr, DecidableEq

namespace Committee

variable {K : Type} [DecidableEq K]

def isMember (c : Committee K) (id : K) : Bool := c.members.any (·.publicKey = id)

/-- `Committee.IsBackupWorker`: the backup workers are listed last. -/
def isBackupWorker (c : Committee K) (id : K) : Bool :=
  (c.members.reverse.takeWhile (·.role = .backupWorker)).any (·.publicKey = id)

/-- The leading workers of the member list, which `SchedulerRank` counts. -/
def workers (c : Committee K) : List (CommitteeNode K) := c.members.takeWhile (·.role = .worker)

/-- `Committee.SchedulerRank`: the scheduler's index among the workers, shifted by the
round modulo the number of workers, in 64-bit arithmetic. -/
def schedulerRank (c : Committee K) (round : UInt64) (id : K) : Option UInt64 :=
  let (total, idx) := c.workers.foldl
    (fun (acc : UInt64 × Option UInt64) n => (acc.1 + 1, if n.publicKey = id then some acc.1 else acc.2))
    (0, none)
  idx.map fun idx => (round + idx) % total

/-- `Committee.SchedulerIdx`: the index of the worker of the given rank for a round. -/
def schedulerIdx (c : Committee K) (round rank : UInt64) : Option Nat :=
  let total : UInt64 := c.workers.foldl (fun total _ => total + 1) 0
  if rank ≥ total then none else some ((rank + total - round % total) % total).toNat

/-- `Committee.Scheduler`: the worker of the given rank for a round. -/
def scheduler (c : Committee K) (round rank : UInt64) : Option (CommitteeNode K) :=
  (c.schedulerIdx round rank).bind fun idx => c.members[idx]?

theorem foldl_count {α : Type} (l : List α) (a : UInt64) :
    l.foldl (fun total _ => total + 1) a = a + l.length.toUInt64 := by
  induction l generalizing a with
  | nil => simp
  | cons x l ih =>
    rw [List.foldl_cons, ih]
    simp only [List.length_cons, Nat.toUInt64_eq, UInt64.ofNat_add, UInt64.ofNat_one]
    ac_rfl

theorem rankFold_of_not_mem {id : K} {l : List (CommitteeNode K)} (absent : id ∉ l.map (·.publicKey))
    (a : UInt64) (o : Option UInt64) :
    l.foldl (fun (acc : UInt64 × Option UInt64) n => (acc.1 + 1, if n.publicKey = id then some acc.1 else acc.2))
      (a, o) = (a + l.length.toUInt64, o) := by
  induction l generalizing a with
  | nil => simp
  | cons x l ih =>
    have other : x.publicKey ≠ id := fun same => absent (by simp [← same])
    rw [List.foldl_cons, if_neg other, ih (fun mem => absent (List.mem_cons_of_mem _ mem))]
    simp only [List.length_cons, Nat.toUInt64_eq, UInt64.ofNat_add, UInt64.ofNat_one, Prod.mk.injEq, and_true]
    ac_rfl

theorem rankFold_of_getElem {id : K} {l : List (CommitteeNode K)} (distinct : (l.map (·.publicKey)).Nodup)
    {i : Nat} (hi : i < l.length) (found : l[i].publicKey = id) (a : UInt64) (o : Option UInt64) :
    l.foldl (fun (acc : UInt64 × Option UInt64) n => (acc.1 + 1, if n.publicKey = id then some acc.1 else acc.2))
      (a, o) = (a + l.length.toUInt64, some (a + i.toUInt64)) := by
  induction l generalizing a o i with
  | nil => simp at hi
  | cons x l ih =>
    rw [List.map_cons, List.nodup_cons] at distinct
    cases i with
    | zero =>
      -- The worker itself: the rest of the list does not hold its key.
      rw [List.getElem_cons_zero] at found
      have absent : id ∉ l.map (·.publicKey) := found ▸ distinct.1
      rw [List.foldl_cons, if_pos found, rankFold_of_not_mem absent]
      simp only [List.length_cons, Nat.toUInt64_eq, UInt64.ofNat_add, UInt64.ofNat_one, Prod.mk.injEq]
      constructor
      · ac_rfl
      · simp
    | succ i =>
      rw [List.getElem_cons_succ] at found
      have other : x.publicKey ≠ id := by
        intro same
        apply distinct.1
        rw [same, ← found]
        exact List.mem_map_of_mem (List.getElem_mem _)
      rw [List.foldl_cons, if_neg other, ih distinct.2 (by simpa using hi) found]
      simp only [List.length_cons, Nat.toUInt64_eq, UInt64.ofNat_add, UInt64.ofNat_one, Prod.mk.injEq,
        Option.some.injEq]
      constructor <;> ac_rfl

theorem schedulerRank_eq {c : Committee K} (distinct : (c.workers.map (·.publicKey)).Nodup) (round : UInt64)
    {i : Nat} (hi : i < c.workers.length) :
    c.schedulerRank round c.workers[i].publicKey = some ((round + i.toUInt64) % c.workers.length.toUInt64) := by
  simp [schedulerRank, rankFold_of_getElem distinct hi rfl]

theorem schedulerRank_eq_none {c : Committee K} {id : K} (absent : id ∉ c.workers.map (·.publicKey))
    (round : UInt64) : c.schedulerRank round id = none := by
  simp [schedulerRank, rankFold_of_not_mem absent]

omit [DecidableEq K] in
theorem schedulerIdx_eq {c : Committee K} {round rank : UInt64} (low : rank < c.workers.length.toUInt64) :
    c.schedulerIdx round rank =
      some ((rank + c.workers.length.toUInt64 - round % c.workers.length.toUInt64) % c.workers.length.toUInt64).toNat := by
  simp [schedulerIdx, foldl_count, low]

theorem add_mod_add_sub_mod {q i total : Nat} (hq : q < total) (hi : i < total) :
    ((q + i) % total + total - q) % total = i := by
  by_cases low : q + i < total
  · rw [Nat.mod_eq_of_lt low, show q + i + total - q = i + total by omega, Nat.add_mod_right,
      Nat.mod_eq_of_lt hi]
  · have inner : (q + i) % total = q + i - total := by
      rw [Nat.mod_eq_sub_mod (by omega), Nat.mod_eq_of_lt (by omega)]
    rw [inner, show q + i - total + total - q = i by omega, Nat.mod_eq_of_lt hi]

theorem add_add_sub_mod_mod {q r total : Nat} (hq : q < total) (hr : r < total) :
    (q + (r + total - q) % total) % total = r := by
  by_cases low : q ≤ r
  · have inner : (r + total - q) % total = r - q := by
      rw [Nat.mod_eq_sub_mod (by omega), Nat.mod_eq_of_lt (by omega)]
      omega
    rw [inner, show q + (r - q) = r by omega, Nat.mod_eq_of_lt hr]
  · rw [Nat.mod_eq_of_lt (show r + total - q < total by omega), show q + (r + total - q) = r + total by omega,
      Nat.add_mod_right, Nat.mod_eq_of_lt hr]

section Rotation

variable {c : Committee K} {round : UInt64}

theorem toNat_schedulerRank (distinct : (c.workers.map (·.publicKey)).Nodup)
    (noWrap : round.toNat + c.workers.length ≤ 2 ^ 64) (small : 2 * c.workers.length ≤ 2 ^ 64) {i : Nat}
    (hi : i < c.workers.length) :
    ∃ rank, c.schedulerRank round c.workers[i].publicKey = some rank ∧
      rank.toNat = (round.toNat % c.workers.length + i) % c.workers.length := by
  refine ⟨_, schedulerRank_eq distinct round hi, ?_⟩
  have total : c.workers.length.toUInt64.toNat = c.workers.length := by
    rw [Nat.toUInt64_eq, UInt64.toNat_ofNat']
    exact Nat.mod_eq_of_lt (by omega)
  have index : i.toUInt64.toNat = i := by
    rw [Nat.toUInt64_eq, UInt64.toNat_ofNat']
    exact Nat.mod_eq_of_lt (by omega)
  rw [UInt64.toNat_mod, UInt64.toNat_add, index, total, Nat.mod_eq_of_lt (show round.toNat + i < 2 ^ 64 by omega),
    Nat.mod_add_mod]

omit [DecidableEq K] in
theorem toNat_schedulerIdx (small : 2 * c.workers.length ≤ 2 ^ 64) {rank : UInt64}
    (low : rank.toNat < c.workers.length) :
    c.schedulerIdx round rank = some ((rank.toNat + c.workers.length - round.toNat % c.workers.length) %
      c.workers.length) := by
  have total : c.workers.length.toUInt64.toNat = c.workers.length := by
    rw [Nat.toUInt64_eq, UInt64.toNat_ofNat']
    exact Nat.mod_eq_of_lt (by omega)
  have rest : (round % c.workers.length.toUInt64).toNat = round.toNat % c.workers.length := by
    rw [UInt64.toNat_mod, total]
  have restLow : round.toNat % c.workers.length < c.workers.length := Nat.mod_lt _ (by omega)
  have sum : (rank + c.workers.length.toUInt64).toNat = rank.toNat + c.workers.length := by
    rw [UInt64.toNat_add, total, Nat.mod_eq_of_lt (by omega)]
  -- Go's `rank + total - round % total` neither wraps up nor down.
  have difference : (rank + c.workers.length.toUInt64 - round % c.workers.length.toUInt64).toNat =
      rank.toNat + c.workers.length - round.toNat % c.workers.length := by
    rw [UInt64.toNat_sub_of_le _ _ (UInt64.le_iff_toNat_le.mpr (by rw [sum, rest]; omega)), sum, rest]
  rw [schedulerIdx_eq (UInt64.lt_iff_toNat_lt.mpr (by rw [total]; exact low)), UInt64.toNat_mod, difference, total]

/-- In a round where no rank wraps, `SchedulerRank` numbers the workers one to one by the ranks
below the number of workers, and `SchedulerIdx` gives back the index of the worker of a rank. -/
theorem schedulerIdx_schedulerRank (distinct : (c.workers.map (·.publicKey)).Nodup)
    (noWrap : round.toNat + c.workers.length ≤ 2 ^ 64) (small : 2 * c.workers.length ≤ 2 ^ 64) :
    (∀ i (hi : i < c.workers.length), ∃ rank, c.schedulerRank round c.workers[i].publicKey = some rank ∧
      rank.toNat < c.workers.length ∧ c.schedulerIdx round rank = some i) ∧
    ∀ rank : UInt64, rank.toNat < c.workers.length →
      ∃ i, ∃ hi : i < c.workers.length, c.schedulerRank round c.workers[i].publicKey = some rank := by
  constructor
  · intro i hi
    obtain ⟨rank, ranked, value⟩ := toNat_schedulerRank distinct noWrap small hi
    have low : rank.toNat < c.workers.length := value ▸ Nat.mod_lt _ (by omega)
    refine ⟨rank, ranked, low, ?_⟩
    rw [toNat_schedulerIdx small low, value, add_mod_add_sub_mod (Nat.mod_lt _ (by omega)) hi]
  · intro rank low
    have positive : 0 < c.workers.length := by omega
    have index := Nat.mod_lt (rank.toNat + c.workers.length - round.toNat % c.workers.length) positive
    refine ⟨_, index, ?_⟩
    obtain ⟨rank', ranked, value⟩ := toNat_schedulerRank distinct noWrap small index
    rw [add_add_sub_mod_mod (Nat.mod_lt _ positive) low] at value
    rw [ranked, UInt64.toNat_inj.mp value]

end Rotation

/-- In the last round, `round + idx` wraps for every worker but the first: with three workers
the first two get rank 0 and no worker gets rank 2. -/
theorem schedulerRank_wraps_last_round :
    (⟨[⟨.worker, 0⟩, ⟨.worker, 1⟩, ⟨.worker, 2⟩]⟩ : Committee ℕ).schedulerRank (UInt64.ofNat (2 ^ 64 - 1)) 0 =
        some 0 ∧
      (⟨[⟨.worker, 0⟩, ⟨.worker, 1⟩, ⟨.worker, 2⟩]⟩ : Committee ℕ).schedulerRank (UInt64.ofNat (2 ^ 64 - 1)) 1 =
        some 0 ∧
      (⟨[⟨.worker, 0⟩, ⟨.worker, 1⟩, ⟨.worker, 2⟩]⟩ : Committee ℕ).schedulerIdx (UInt64.ofNat (2 ^ 64 - 1)) 0 =
        some 0 ∧
      ∀ id, (⟨[⟨.worker, 0⟩, ⟨.worker, 1⟩, ⟨.worker, 2⟩]⟩ : Committee ℕ).schedulerRank
        (UInt64.ofNat (2 ^ 64 - 1)) id ≠ some 2 := by
  refine ⟨by decide, by decide, by decide, fun id => ?_⟩
  by_cases worker : id = 0 ∨ id = 1 ∨ id = 2
  · rcases worker with rfl | rfl | rfl <;> decide
  · rw [schedulerRank_eq_none (by simp [workers]; omega)]
    simp

end Committee

end Orphiq.Scheduler

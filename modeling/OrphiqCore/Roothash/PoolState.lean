import OrphiqCore.Roothash.Pool

/-!
# The states a pool goes through

A pool changes by `AddVerifiedExecutorCommitment` and by `ProcessCommitments`. Over every run
from `NewPool` the highest rank only goes down, a discrepancy once detected stays, no entry
lies above the highest rank (and in discrepancy resolution only the highest rank keeps one), and
a vote once cast at a rank is never replaced while its entry exists.
-/

namespace Orphiq.Roothash

open Scheduler

variable {K H : Type} [DecidableEq K] (encodedHash : ComputeResultsHeader H → H)

theorem SchedulerCommitment.add_votes {sc sc' : SchedulerCommitment K H} {ec : ExecutorCommitment K H}
    (added : sc.add encodedHash ec = .ok sc') {n : K} {v : Option H} (cast : sc.votes n = some v) :
    sc'.votes n = some v := by
  unfold SchedulerCommitment.add at added
  split at added
  · cases added
  · rename_i fresh
    cases added
    have other : n ≠ ec.nodeID := by
      rintro rfl
      rw [cast] at fresh
      cases fresh
    dsimp only
    rw [Function.update_of_ne other, cast]

namespace Pool

theorem addVerifiedExecutorCommitment_spec (p : Pool K H) (c : Committee K) (ec : ExecutorCommitment K H) :
    (p.addVerifiedExecutorCommitment encodedHash c ec).1 = p ∨
    ∃ (rank : UInt64) (q : Pool K H) (sc : SchedulerCommitment K H), (p.addVerifiedExecutorCommitment encodedHash c ec).1 =
        ⟨q.highestRank, Function.update q.schedulerCommitments rank (some sc), q.discrepancy⟩ ∧
      rank ≤ p.highestRank ∧ (p.discrepancy = true → rank = p.highestRank) ∧
      (q = p ∨ rank < p.highestRank ∧
        q = ⟨rank, fun r => if r > rank then none else p.schedulerCommitments r, p.discrepancy⟩) ∧
      ∀ n v, ((q.schedulerCommitments rank).getD .empty).votes n = some v → sc.votes n = some v := by
  unfold addVerifiedExecutorCommitment
  split_ifs with outsider notBackup
  · exact .inl rfl
  · exact .inl rfl
  cases ranked : c.schedulerRank ec.header.header.round ec.header.schedulerID with
  | none => exact .inl rfl
  | some rank =>
    dsimp only
    by_cases worse : rank > p.highestRank
    · exact .inl (by rw [if_pos worse])
    by_cases otherRank : rank ≠ p.highestRank ∧ p.discrepancy = true
    · exact .inl (by rw [if_neg worse, if_pos otherRank])
    rw [if_neg worse, if_neg otherRank]
    have below : rank ≤ p.highestRank := UInt64.not_lt.mp worse
    have resolving : p.discrepancy = true → rank = p.highestRank := by
      intro discrepancy
      by_contra different
      exact otherRank ⟨different, discrepancy⟩
    right
    split_ifs with lowers
    · -- The scheduler of a better rank commits: the worse ranks are dropped first.
      split
      · exact ⟨rank, ⟨rank, fun r => if r > rank then none else p.schedulerCommitments r, p.discrepancy⟩, _,
          rfl, below, resolving, .inr ⟨lowers.1, rfl⟩, fun n v cast => cast⟩
      · rename_i sc added
        exact ⟨rank, ⟨rank, fun r => if r > rank then none else p.schedulerCommitments r, p.discrepancy⟩, sc,
          rfl, below, resolving, .inr ⟨lowers.1, rfl⟩,
          fun n v cast => SchedulerCommitment.add_votes encodedHash added cast⟩
    · split
      · exact ⟨rank, p, _, rfl, below, resolving, .inl rfl, fun n v cast => cast⟩
      · rename_i sc added
        exact ⟨rank, p, sc, rfl, below, resolving, .inl rfl,
          fun n v cast => SchedulerCommitment.add_votes encodedHash added cast⟩

variable [DecidableEq H]

omit [DecidableEq K] in
theorem ProcessCommitments_spec (p : Pool K H) (c : Committee K) (allowedStragglers : UInt16) (timeout : Bool) :
    (p.ProcessCommitments encodedHash c allowedStragglers timeout).1 = p ∨
    (p.ProcessCommitments encodedHash c allowedStragglers timeout).1 =
      ⟨p.highestRank, fun r => if r ≠ p.highestRank then none else p.schedulerCommitments r, true⟩ := by
  unfold ProcessCommitments
  dsimp only
  split
  · exact .inr rfl
  · exact .inl rfl

/-- One call that changes a pool. -/
inductive Step : Pool K H → Pool K H → Prop where
  | add (p : Pool K H) (c : Committee K) (ec : ExecutorCommitment K H) :
      Step p (p.addVerifiedExecutorCommitment encodedHash c ec).1
  | process (p : Pool K H) (c : Committee K) (allowedStragglers : UInt16) (timeout : Bool) :
      Step p (p.ProcessCommitments encodedHash c allowedStragglers timeout).1

/-- The pools a run from `NewPool` goes through. -/
inductive Reachable : Pool K H → Prop where
  | newPool : Reachable newPool
  | step {p p' : Pool K H} : Reachable p → Step encodedHash p p' → Reachable p'

/-- No entry lies above the highest rank, and in discrepancy resolution only the highest
rank has one. -/
structure Ranked (p : Pool K H) : Prop where
  below : ∀ r, (p.schedulerCommitments r).isSome → r ≤ p.highestRank
  resolving : p.discrepancy = true → ∀ r, (p.schedulerCommitments r).isSome → r = p.highestRank

section Steps

variable {encodedHash} {p p' : Pool K H}

theorem Step.highestRank_le (step : Step encodedHash p p') : p'.highestRank ≤ p.highestRank := by
  cases step with
  | add c ec =>
    rcases addVerifiedExecutorCommitment_spec encodedHash p c ec with same | ⟨rank, q, sc, result, below, -, lowered, -⟩
    · rw [same]
      exact UInt64.le_refl _
    · rw [result]
      rcases lowered with rfl | ⟨lower, rfl⟩
      · exact UInt64.le_refl _
      · exact below
  | process c allowedStragglers timeout =>
    rcases ProcessCommitments_spec encodedHash p c allowedStragglers timeout with same | resolved
    · rw [same]
      exact UInt64.le_refl _
    · rw [resolved]
      exact UInt64.le_refl _

theorem Step.discrepancy (step : Step encodedHash p p') (detected : p.discrepancy = true) :
    p'.discrepancy = true := by
  cases step with
  | add c ec =>
    rcases addVerifiedExecutorCommitment_spec encodedHash p c ec with same | ⟨rank, q, sc, result, -, -, lowered, -⟩
    · rw [same]
      exact detected
    · rw [result]
      rcases lowered with rfl | ⟨-, rfl⟩ <;> exact detected
  | process c allowedStragglers timeout =>
    rcases ProcessCommitments_spec encodedHash p c allowedStragglers timeout with same | resolved
    · rw [same]
      exact detected
    · rw [resolved]

theorem Step.vote_kept (step : Step encodedHash p p') {r : UInt64} {n : K} {v : Option H}
    (cast : (p.schedulerCommitments r).bind (·.votes n) = some v) :
    p'.schedulerCommitments r = none ∨ (p'.schedulerCommitments r).bind (·.votes n) = some v := by
  cases step with
  | add c ec =>
    rcases addVerifiedExecutorCommitment_spec encodedHash p c ec with same | ⟨rank, q, sc, result, -, -, lowered, kept⟩
    · rw [same]
      exact .inr cast
    rw [result]
    by_cases here : r = rank
    · -- The entry at the rank voted on is never dropped, so its votes carry over.
      subst here
      have entry : q.schedulerCommitments r = p.schedulerCommitments r := by
        rcases lowered with rfl | ⟨-, rfl⟩
        · rfl
        · exact if_neg (UInt64.lt_irrefl r)
      obtain ⟨old, found, voted⟩ := Option.bind_eq_some_iff.mp cast
      right
      simp only [Function.update_self, Option.bind_some]
      apply kept
      rw [entry, found]
      exact voted
    · dsimp only
      rw [Function.update_of_ne here]
      rcases lowered with rfl | ⟨-, rfl⟩
      · exact .inr cast
      · dsimp only
        split_ifs
        · exact .inl rfl
        · exact .inr cast
  | process c allowedStragglers timeout =>
    rcases ProcessCommitments_spec encodedHash p c allowedStragglers timeout with same | resolved
    · rw [same]
      exact .inr cast
    · rw [resolved]
      dsimp only
      split_ifs
      · exact .inl rfl
      · exact .inr cast

omit [DecidableEq K] [DecidableEq H] in
theorem ranked_newPool : Ranked (newPool : Pool K H) where
  below _ none := absurd none (by simp [newPool])
  resolving detected := absurd detected (by simp [newPool])

omit [DecidableEq K] [DecidableEq H] in
theorem Ranked.update {q : Pool K H} {rank : UInt64} (ranked : Ranked q) (below : rank ≤ q.highestRank)
    (resolving : q.discrepancy = true → rank = q.highestRank) (sc : SchedulerCommitment K H) :
    Ranked ⟨q.highestRank, Function.update q.schedulerCommitments rank (some sc), q.discrepancy⟩ := by
  constructor
  · intro r present
    by_cases here : r = rank
    · exact here ▸ below
    · exact ranked.below r (by simpa [Function.update_of_ne here] using present)
  · intro detected r present
    by_cases here : r = rank
    · exact here ▸ resolving detected
    · exact ranked.resolving detected r (by simpa [Function.update_of_ne here] using present)

omit [DecidableEq K] [DecidableEq H] in
theorem ranked_lowered (p : Pool K H) (rank : UInt64) (settled : p.discrepancy = false) :
    Ranked ⟨rank, fun r => if r > rank then none else p.schedulerCommitments r, p.discrepancy⟩ := by
  constructor
  · intro r present
    dsimp only at present ⊢
    split_ifs at present with worse
    · cases present
    · exact UInt64.not_lt.mp worse
  · intro detected
    dsimp only at detected
    rw [settled] at detected
    cases detected

theorem Ranked.step (ranked : Ranked p) (step : Step encodedHash p p') : Ranked p' := by
  cases step with
  | add c ec =>
    rcases addVerifiedExecutorCommitment_spec encodedHash p c ec with
      same | ⟨rank, q, sc, result, below, resolving, lowered, -⟩
    · rw [same]
      exact ranked
    rw [result]
    rcases lowered with rfl | ⟨lower, rfl⟩
    · exact ranked.update below resolving sc
    · -- A lowering happens only outside discrepancy resolution, where the rank must be the highest.
      have settled : p.discrepancy = false := by
        cases detected : p.discrepancy
        · rfl
        · exact absurd (resolving detected ▸ lower) (UInt64.lt_irrefl _)
      exact (ranked_lowered p rank settled).update (UInt64.le_refl _) (fun _ => rfl) sc
  | process c allowedStragglers timeout =>
    rcases ProcessCommitments_spec encodedHash p c allowedStragglers timeout with same | resolved
    · rw [same]
      exact ranked
    rw [resolved]
    -- Only the entry of the highest rank is kept.
    have kept : ∀ r, ((if r ≠ p.highestRank then none else p.schedulerCommitments r).isSome = true) →
        r = p.highestRank := by
      intro r present
      by_contra other
      rw [if_pos other] at present
      cases present
    exact ⟨fun r present => (kept r present).symm ▸ UInt64.le_refl _, fun _ => kept⟩

theorem Reachable.ranked (reachable : Reachable encodedHash p) : Ranked p := by
  induction reachable with
  | newPool => exact ranked_newPool
  | step _ step ih => exact ih.step step

end Steps

/-- With three workers at round `2^64 - 1`, workers 0 and 1 share rank 0. Worker 1 votes for
worker 0's proposal and then commits to its own: the highest rank drops to 0, but the entry of
rank 0 refuses the second vote and keeps no scheduler commitment. -/
theorem reachable_highestRank_without_commitment :
    let c : Committee Nat := ⟨[⟨.worker, 0⟩, ⟨.worker, 1⟩, ⟨.worker, 2⟩]⟩
    let round : UInt64 := UInt64.ofNat (2 ^ 64 - 1)
    let commit (node scheduler previous : Nat) : ExecutorCommitment Nat Nat :=
      ⟨node, ⟨scheduler, ⟨round, previous, none, none, none, none, 0⟩, failureNone⟩⟩
    let encodedHash : ComputeResultsHeader Nat → Nat := (·.previousHash)
    let p := ((newPool.addVerifiedExecutorCommitment encodedHash c (commit 1 0 7)).1.addVerifiedExecutorCommitment
      encodedHash c (commit 1 1 8)).1
    Reachable encodedHash p ∧ p.highestRank < UInt64.ofNat (2 ^ 64 - 1) ∧
      (p.schedulerCommitments p.highestRank).map (·.commitment) = some none := by
  exact ⟨.step (.step .newPool (.add _ _ _)) (.add _ _ _), by decide, by rfl⟩

end Pool

end Orphiq.Roothash

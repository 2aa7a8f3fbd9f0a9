import OrphiqCore.Roothash.Committee

/-!
# The executor commitment pool

`roothash/api/commitment`: executor commitments (`executor.go`), the votes gathered for a
scheduler's proposal (`votes.go`) and the pool that detects and resolves discrepancies
(`pool.go`). Public keys have a type `K` and hashes a type `H`; a commitment's vote is the
hash `encodedHash` gives its compute results header.

The pool is kept as Go keeps it: calls change it even when they fail, so
`addVerifiedExecutorCommitment` returns the pool with its error. Go's maps are functions
here; the map of vote counts is a list in the order the votes were met. A nil pointer
dereference makes `processCommitments` return `none`.
-/

namespace Orphiq.Roothash

open Scheduler

structure ComputeResultsHeader (H : Type) where
  round : UInt64
  previousHash : H
  ioRoot : Option H
  stateRoot : Option H
  messagesHash : Option H
  inMessagesHash : Option H
  inMessagesCount : UInt32
  deriving Repr, DecidableEq

abbrev ExecutorCommitmentFailure := UInt8

def failureNone : ExecutorCommitmentFailure := 0

/-- `commitment.ExecutorCommitmentHeader`, without the RAK signature. -/
structure ExecutorCommitmentHeader (K H : Type) where
  schedulerID : K
  header : ComputeResultsHeader H
  failure : ExecutorCommitmentFailure
  deriving Repr, DecidableEq

/-- `commitment.ExecutorCommitment`, without the signature and the messages. -/
structure ExecutorCommitment (K H : Type) where
  nodeID : K
  header : ExecutorCommitmentHeader K H
  deriving Repr, DecidableEq

/-- The errors of the pool. -/
inductive Error where
  | notInCommittee
  | alreadyCommitted
  | discrepancyDetected
  | stillWaiting
  | insufficientVotes
  | badExecutorCommitment
  | noSchedulerCommitment
  | badSchedulerCommitment
  deriving Repr, DecidableEq

variable {K H : Type} [DecidableEq K] [DecidableEq H]

namespace ExecutorCommitment

def isIndicatingFailure (ec : ExecutorCommitment K H) : Bool := ec.header.failure ≠ failureNone

def toVote (encodedHash : ComputeResultsHeader H → H) (ec : ExecutorCommitment K H) : H :=
  encodedHash ec.header.header

end ExecutorCommitment

/-- `commitment.SchedulerCommitment`: the scheduler's commitment, once it arrived, and a
vote per node, `none` for a failure. -/
structure SchedulerCommitment (K H : Type) where
  commitment : Option (ExecutorCommitment K H)
  votes : K → Option (Option H)

def SchedulerCommitment.empty : SchedulerCommitment K H := ⟨none, fun _ => none⟩

structure Pool (K H : Type) where
  highestRank : UInt64
  schedulerCommitments : UInt64 → Option (SchedulerCommitment K H)
  discrepancy : Bool

def newPool : Pool K H := ⟨UInt64.ofNat (2 ^ 64 - 1), fun _ => none, false⟩

section Pool

variable (encodedHash : ComputeResultsHeader H → H)

/-- `SchedulerCommitment.Add`: one vote per node; the scheduler's own commitment is kept. -/
def SchedulerCommitment.add (sc : SchedulerCommitment K H) (ec : ExecutorCommitment K H) :
    Except Error (SchedulerCommitment K H) :=
  match sc.votes ec.nodeID with
  | some _ => .error .alreadyCommitted
  | none =>
    let vote := if ec.isIndicatingFailure then none else some (ec.toVote encodedHash)
    .ok ⟨if ec.nodeID = ec.header.schedulerID then some ec else sc.commitment,
      Function.update sc.votes ec.nodeID (some vote)⟩

namespace Pool

/-- `Pool.AddVerifiedExecutorCommitment`: the pool after the call, and its error. -/
def addVerifiedExecutorCommitment (p : Pool K H) (c : Committee K) (ec : ExecutorCommitment K H) :
    Pool K H × Option Error :=
  if !p.discrepancy ∧ !c.isMember ec.nodeID then (p, some .notInCommittee)
  else if p.discrepancy ∧ !c.isBackupWorker ec.nodeID then (p, some .badExecutorCommitment)
  else match c.schedulerRank ec.header.header.round ec.header.schedulerID with
  | none => (p, some .badExecutorCommitment)
  | some rank =>
    if rank > p.highestRank then (p, some .badExecutorCommitment)
    else if rank ≠ p.highestRank ∧ p.discrepancy then (p, some .badExecutorCommitment)
    else
      -- A scheduler of a better rank committing to its own proposal drops the worse ranks.
      let p := if rank < p.highestRank ∧ ec.nodeID = ec.header.schedulerID then
          ⟨rank, fun r => if r > rank then none else p.schedulerCommitments r, p.discrepancy⟩
        else p
      let sc := (p.schedulerCommitments rank).getD .empty
      match sc.add encodedHash ec with
      | .error e => (⟨p.highestRank, Function.update p.schedulerCommitments rank (some sc), p.discrepancy⟩, some e)
      | .ok sc => (⟨p.highestRank, Function.update p.schedulerCommitments rank (some sc), p.discrepancy⟩, none)

/-- The counters of the vote gathering loop of `processCommitments`. -/
structure Tally (H : Type) where
  total : Nat
  commits : Nat
  failures : Nat
  votes : List (H × Nat)
  deriving Repr, DecidableEq

/-- `votes[h]++` on the map of vote counts. -/
def countVote : List (H × Nat) → H → List (H × Nat)
  | [], h => [(h, 1)]
  | (h', n) :: rest, h => if h' = h then (h', n + 1) :: rest else (h', n) :: countVote rest h

/-- The vote gathering loop of `processCommitments`, with its early discrepancy detection. -/
def gatherVotes (p : Pool K H) (sc : SchedulerCommitment K H) (allowedStragglers : UInt16) (timeout : Bool) :
    List (CommitteeNode K) → Tally H → Except Error (Tally H)
  | [], t => .ok t
  | n :: rest, t =>
    if (!p.discrepancy ∧ n.role ≠ .worker) ∨ (p.discrepancy ∧ n.role ≠ .backupWorker) then
      gatherVotes p sc allowedStragglers timeout rest t
    else
      let t := { t with total := t.total + 1 }
      match sc.votes n.publicKey with
      | none => gatherVotes p sc allowedStragglers timeout rest t
      | some vote =>
        let t := match vote with
          | none => { t with failures := t.failures + 1, commits := t.commits + 1 }
          | some h => { t with votes := countVote t.votes h, commits := t.commits + 1 }
        if p.discrepancy then gatherVotes p sc allowedStragglers timeout rest t
        else if t.votes.length ≤ 1 ∧ t.failures ≤ allowedStragglers.toNat then
          gatherVotes p sc allowedStragglers timeout rest t
        -- Backup schedulers always wait for the round timeout.
        else if p.highestRank > 0 ∧ !timeout then gatherVotes p sc allowedStragglers timeout rest t
        else .error .discrepancyDetected

/-- The hash with the most votes, the first one met among equals, and its count. -/
def bestVote (votes : List (H × Nat)) : Option H × Nat :=
  votes.foldl (fun (best : Option H × Nat) (v : H × Nat) => if v.2 > best.2 then (some v.1, v.2) else best)
    (none, 0)

/-- `Pool.processCommitments`: discrepancy detection, or resolution once a discrepancy was
found. `none` is the nil dereference of a missing scheduler commitment. -/
def processCommitments (p : Pool K H) (c : Committee K) (allowedStragglers : UInt16) (timeout : Bool) :
    Option (Except Error (SchedulerCommitment K H)) :=
  match p.schedulerCommitments p.highestRank with
  | none => some (.error (if timeout then .noSchedulerCommitment else .stillWaiting))
  | some sc =>
    match gatherVotes p sc allowedStragglers timeout c.members ⟨0, 0, 0, []⟩ with
    | .error e => some (.error e)
    | .ok t =>
      if !p.discrepancy then
        -- Discrepancy detection.
        if t.votes.length > 1 ∨ t.failures > allowedStragglers.toNat then some (.error .stillWaiting)
        else
          let required : Int := t.total - allowedStragglers.toNat - (t.votes.map (·.2)).sum
          if required > 0 ∧ timeout then some (.error .discrepancyDetected)
          else if required > 0 then some (.error .stillWaiting)
          else some (.ok sc)
      else
        -- Discrepancy resolution.
        let required := t.total / 2 + 1
        let remaining := t.total - t.commits
        let (hash, best) := bestVote t.votes
        if best + remaining < required then some (.error .insufficientVotes)
        else if best < required ∧ timeout then some (.error .insufficientVotes)
        else if best < required then some (.error .stillWaiting)
        else match sc.commitment with
          | none => none
          | some ec => if hash ≠ some (ec.toVote encodedHash) then some (.error .badSchedulerCommitment)
            else some (.ok sc)

/-- `Pool.ProcessCommitments`: a detected discrepancy switches the pool to resolution and
keeps only the highest rank. -/
def ProcessCommitments (p : Pool K H) (c : Committee K) (allowedStragglers : UInt16) (timeout : Bool) :
    Pool K H × Option (Except Error (SchedulerCommitment K H)) :=
  let result := p.processCommitments encodedHash c allowedStragglers timeout
  match result with
  | some (.error .discrepancyDetected) =>
    (⟨p.highestRank, fun r => if r ≠ p.highestRank then none else p.schedulerCommitments r, true⟩, result)
  | _ => (p, result)

end Pool

end Pool

/-- With three workers at round `2^64 - 1`, `SchedulerRank`'s `(round + idx) % total` wraps and
workers 0 and 1 share rank 0. Worker 1 votes for worker 0's proposal and then commits to its
own: that lowers the highest rank to 0 but is refused as a second vote, so the entry of rank 0
keeps no proposal. One more vote for worker 0's proposal makes `ProcessCommitments` accept the
entry, whose commitment is nil. -/
theorem processCommitments_nil_commitment :
    let c : Committee Nat := ⟨[⟨.worker, 0⟩, ⟨.worker, 1⟩, ⟨.worker, 2⟩]⟩
    let round : UInt64 := UInt64.ofNat (2 ^ 64 - 1)
    let commit (node scheduler previous : Nat) : ExecutorCommitment Nat Nat :=
      ⟨node, ⟨scheduler, ⟨round, previous, none, none, none, none, 0⟩, failureNone⟩⟩
    let encodedHash : ComputeResultsHeader Nat → Nat := (·.previousHash)
    let p := (((newPool.addVerifiedExecutorCommitment encodedHash c (commit 1 0 7)).1.addVerifiedExecutorCommitment
      encodedHash c (commit 1 1 8)).1.addVerifiedExecutorCommitment encodedHash c (commit 2 0 7)).1
    c.schedulerRank round 0 = some 0 ∧ c.schedulerRank round 1 = some 0 ∧
      ∃ sc, (p.ProcessCommitments encodedHash c 1 false).2 = some (.ok sc) ∧ sc.commitment = none :=
  ⟨rfl, rfl, _, rfl, rfl⟩

end Orphiq.Roothash

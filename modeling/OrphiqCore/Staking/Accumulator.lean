import OrphiqCore.Staking.SharePool

/-!
# Stake accumulators

`StakeAccumulator` and the stake-claim methods of `EscrowAccount` in `staking/api/api.go`. An
escrow account carries named claims, each a list of thresholds that its active balance must
cover together; a threshold refers to a global threshold kind or holds a constant.

Go keeps the claims in a map, here an association list (a nil map is the empty one), and
`TotalClaims` ranges over it in an unspecified order: `totalClaimsIn` takes the order as the
list of entries it is given. The thresholds map `map[ThresholdKind]quantity.Quantity` is a
function, which reads a kind it lacks as zero as Go's map does.
-/

namespace Orphiq.Staking

/-- `ThresholdKind`, an `int`. -/
structure ThresholdKind where
  val : ℤ
  deriving DecidableEq, Repr

abbrev StakeClaim := String

/-- `StakeThreshold`: either pointer may be nil. -/
structure StakeThreshold where
  global : Option ThresholdKind
  constant : Option ℕ
  deriving DecidableEq, Repr

/-- The errors of the stake-claim methods. -/
inductive StakeError where
  | invalidClaimThreshold (st : StakeThreshold)
  | claimDoesNotExist (claim : StakeClaim)
  | insufficientStake
  deriving DecidableEq, Repr

def StakeThreshold.value (st : StakeThreshold) (tm : ThresholdKind → ℕ) : Except StakeError ℕ :=
  match st.global, st.constant with
  | some kind, _ => .ok (tm kind)
  | none, some constant => .ok constant
  | none, none => .error (.invalidClaimThreshold st)

/-- The loop over a claim's thresholds in `TotalClaims` and in `AddStakeClaim`: their values
added to `total`, failing at the first threshold without a value. -/
def accumulateThresholds (tm : ThresholdKind → ℕ) (total : ℕ) (thresholds : List StakeThreshold) :
    Except StakeError ℕ :=
  thresholds.foldlM (fun total t => do
    let q ← t.value tm
    pure (total + q)) total

abbrev Claims := AList fun _ : StakeClaim => List StakeThreshold

structure StakeAccumulator where
  claims : Claims
  deriving DecidableEq

namespace StakeAccumulator

def addClaimUnchecked (sa : StakeAccumulator) (claim : StakeClaim) (thresholds : List StakeThreshold) :
    StakeAccumulator :=
  ⟨sa.claims.insert claim thresholds⟩

def removeClaim (sa : StakeAccumulator) (claim : StakeClaim) : Except StakeError StakeAccumulator :=
  if claim ∈ sa.claims then .ok ⟨sa.claims.erase claim⟩ else .error (.claimDoesNotExist claim)

/-- `StakeAccumulator.TotalClaims`, ranging over the claims in the order `claims` lists them. -/
def totalClaimsIn (claims : List (Σ _ : StakeClaim, List StakeThreshold)) (tm : ThresholdKind → ℕ)
    (exclude : Option StakeClaim) : Except StakeError ℕ :=
  claims.foldlM (fun total entry =>
    if exclude = some entry.1 then pure total
    else accumulateThresholds tm total entry.2) 0

def totalClaims (sa : StakeAccumulator) (tm : ThresholdKind → ℕ) (exclude : Option StakeClaim) :
    Except StakeError ℕ :=
  totalClaimsIn sa.claims.entries tm exclude

end StakeAccumulator

/-- `EscrowAccount`, with the fields the stake-claim methods read. -/
structure EscrowAccount where
  active : SharePool
  stakeAccumulator : StakeAccumulator
  deriving DecidableEq

namespace EscrowAccount

def checkStakeClaims (e : EscrowAccount) (tm : ThresholdKind → ℕ) : Except StakeError Unit := do
  let totalClaims ← e.stakeAccumulator.totalClaims tm none
  if e.active.balance < totalClaims then throw .insufficientStake
  pure ()

def addStakeClaim (e : EscrowAccount) (tm : ThresholdKind → ℕ) (claim : StakeClaim)
    (thresholds : List StakeThreshold) : Except StakeError EscrowAccount := do
  -- The claim being added is left out of the total, as an update would otherwise count it twice.
  let totalClaims ← e.stakeAccumulator.totalClaims tm (some claim)
  let totalClaims ← accumulateThresholds tm totalClaims thresholds
  if e.active.balance < totalClaims then throw .insufficientStake
  pure { e with stakeAccumulator := e.stakeAccumulator.addClaimUnchecked claim thresholds }

def removeStakeClaim (e : EscrowAccount) (claim : StakeClaim) : Except StakeError EscrowAccount := do
  let stakeAccumulator ← e.stakeAccumulator.removeClaim claim
  pure { e with stakeAccumulator }

end EscrowAccount

end Orphiq.Staking

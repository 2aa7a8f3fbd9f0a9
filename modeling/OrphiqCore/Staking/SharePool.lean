import OrphiqCore.Staking.Quantity

/-!
# Share pools

`SharePool` of `staking/api/api.go`: a balance held for several holders in common, whose
parts are tracked as shares. A deposit is converted to shares at the pool's rate, rounded
down, and a withdrawal of shares to base units the same way; the first deposit into a pool
without shares is converted one to one.

The Go methods update the accounts passed to them through pointers; the models return the
updated pool and accounts. On an error Go leaves them half updated; the models return
`none`.
-/

namespace Orphiq.Staking

structure SharePool where
  balance : ℕ
  totalShares : ℕ
  deriving Repr, DecidableEq

namespace SharePool

def sharesForStake (p : SharePool) (amount : ℕ) : Option ℕ :=
  if p.totalShares = 0 then some amount
  -- A pool that lost all its balance to slashing cannot make more shares.
  else if p.balance = 0 then none
  else Quantity.quo (amount * p.totalShares) p.balance

/-- `SharePool.Deposit`: the pool, the share account `shareDst` and the stake account
`stakeSrc` after the deposit, and the shares it made. -/
def deposit (p : SharePool) (shareDst stakeSrc baseUnitsAmount : ℕ) :
    Option (SharePool × ℕ × ℕ × ℕ) := do
  let shares ← p.sharesForStake baseUnitsAmount
  let (balance, stakeSrc) ← Quantity.move p.balance stakeSrc baseUnitsAmount
  pure (⟨balance, p.totalShares + shares⟩, shareDst + shares, stakeSrc, shares)

def stakeForShares (p : SharePool) (amount : ℕ) : Option ℕ :=
  if amount = 0 ∨ p.balance = 0 ∨ p.totalShares = 0 then some 0
  else Quantity.quo (amount * p.balance) p.totalShares

/-- `SharePool.Withdraw`: the pool, the stake account `stakeDst` and the share account
`shareSrc` after the withdrawal. -/
def withdraw (p : SharePool) (stakeDst shareSrc shareAmount : ℕ) :
    Option (SharePool × ℕ × ℕ) := do
  let baseUnits ← p.stakeForShares shareAmount
  let shareSrc ← Quantity.sub shareSrc shareAmount
  let totalShares ← Quantity.sub p.totalShares shareAmount
  let (stakeDst, balance) ← Quantity.move stakeDst p.balance baseUnits
  pure (⟨balance, totalShares⟩, stakeDst, shareSrc)

end SharePool

end Orphiq.Staking

import OrphiqCore.Staking.SharePool
import OrphiqCore.Shares.ProRata

/-!
# Solvency of a share pool

Holders deposit into and withdraw from one pool, each with a share account and a stake
account of its own. The pool is `Solvent` when its total shares are the holders' shares
added up, and it holds no balance without shares. Every successful deposit and withdrawal
keeps that (`step_solvent`); then the parts of all the holders, at the pool's rate and
rounded down, add up to at most the balance, so each holder can withdraw all its shares.
-/

namespace Orphiq.Staking

namespace SharePool

/-- The base units `StakeForShares` gives for `amount` shares. -/
def stakeValue (p : SharePool) (amount : ℕ) : ℕ :=
  if amount = 0 ∨ p.balance = 0 ∨ p.totalShares = 0 then 0 else amount * p.balance / p.totalShares

theorem stakeForShares_eq (p : SharePool) (amount : ℕ) :
    p.stakeForShares amount = some (p.stakeValue amount) := by
  unfold stakeForShares stakeValue
  split_ifs with zero
  · rfl
  · push Not at zero
    exact Quantity.quo_eq_some zero.2.2

theorem stakeValue_le (p : SharePool) (amount : ℕ) :
    p.stakeValue amount ≤ amount * p.balance / p.totalShares := by
  unfold stakeValue
  split_ifs <;> simp

theorem stakeValue_eq_mul_div (p : SharePool) (amount : ℕ) :
    p.stakeValue amount = amount * p.balance / p.totalShares := by
  unfold stakeValue
  split_ifs with zero
  · rcases zero with zero | zero | zero <;> simp [zero]
  · rfl

theorem sharesForStake_mul_le {p : SharePool} {amount shares : ℕ} (empty : p.totalShares = 0 → p.balance = 0)
    (made : p.sharesForStake amount = some shares) : shares * p.balance ≤ amount * p.totalShares := by
  unfold sharesForStake at made
  split_ifs at made with noShares noBalance
  · cases made
    simp [empty noShares]
  · rw [Quantity.quo_eq_some noBalance, Option.some.injEq] at made
    subst made
    exact Nat.div_mul_le_self _ _

theorem deposit_eq_some {p : SharePool} {shareDst stakeSrc amount : ℕ}
    {r : SharePool × ℕ × ℕ × ℕ} (h : p.deposit shareDst stakeSrc amount = some r) :
    ∃ shares, p.sharesForStake amount = some shares ∧ amount ≤ stakeSrc ∧
      r = (⟨p.balance + amount, p.totalShares + shares⟩, shareDst + shares, stakeSrc - amount, shares) := by
  simp only [deposit, Option.bind_eq_bind, Option.pure_def] at h
  cases made : p.sharesForStake amount with
  | none => simp [made] at h
  | some shares =>
    simp only [made, Option.bind_some] at h
    cases moved : Quantity.move p.balance stakeSrc amount with
    | none => simp [moved] at h
    | some balances =>
      obtain ⟨le, rfl⟩ := Quantity.le_of_move_eq_some moved
      simp only [moved, Option.bind_some, Option.some.injEq] at h
      exact ⟨shares, rfl, le, h.symm⟩

theorem withdraw_eq_some {p : SharePool} {stakeDst shareSrc amount : ℕ}
    {r : SharePool × ℕ × ℕ} (h : p.withdraw stakeDst shareSrc amount = some r) :
    amount ≤ shareSrc ∧ amount ≤ p.totalShares ∧ p.stakeValue amount ≤ p.balance ∧
      r = (⟨p.balance - p.stakeValue amount, p.totalShares - amount⟩, stakeDst + p.stakeValue amount,
        shareSrc - amount) := by
  simp only [withdraw, stakeForShares_eq, Option.bind_eq_bind, Option.bind_some, Option.pure_def] at h
  cases fromSource : Quantity.sub shareSrc amount with
  | none => simp [fromSource] at h
  | some shareSrc' =>
    obtain ⟨leSource, rfl⟩ := Quantity.le_of_sub_eq_some fromSource
    simp only [fromSource, Option.bind_some] at h
    cases fromTotal : Quantity.sub p.totalShares amount with
    | none => simp [fromTotal] at h
    | some total =>
      obtain ⟨leTotal, rfl⟩ := Quantity.le_of_sub_eq_some fromTotal
      simp only [fromTotal, Option.bind_some] at h
      cases moved : Quantity.move stakeDst p.balance (p.stakeValue amount) with
      | none => simp [moved] at h
      | some accounts =>
        obtain ⟨leBalance, rfl⟩ := Quantity.le_of_move_eq_some moved
        simp only [moved, Option.bind_some, Option.some.injEq] at h
        exact ⟨leSource, leTotal, leBalance, h.symm⟩

theorem deposit_stakeForShares_le {p : SharePool} (empty : p.totalShares = 0 → p.balance = 0) :
    (∀ shareDst stakeSrc amount r, p.deposit shareDst stakeSrc amount = some r →
      ∃ value, r.1.stakeForShares r.2.2.2 = some value ∧ value ≤ amount) ∧
    ∀ shareAmount ≤ p.totalShares, ∀ stakeDst shareSrc, shareAmount ≤ shareSrc →
      p.withdraw stakeDst shareSrc shareAmount =
        some (⟨p.balance - shareAmount * p.balance / p.totalShares, p.totalShares - shareAmount⟩,
          stakeDst + shareAmount * p.balance / p.totalShares, shareSrc - shareAmount) ∧
      shareAmount * p.balance / p.totalShares ≤ p.balance := by
  refine ⟨fun shareDst stakeSrc amount r deposited => ?_, fun shareAmount inTotal stakeDst shareSrc inSource => ?_⟩
  · obtain ⟨shares, made, -, rfl⟩ := deposit_eq_some deposited
    refine ⟨_, stakeForShares_eq _ _, ?_⟩
    rw [stakeValue_eq_mul_div]
    exact ProRata.mul_div_le_of_mul_le (sharesForStake_mul_le empty made)
  · have paid := ProRata.mul_div_le_of_le inTotal p.balance
    refine ⟨?_, paid⟩
    simp [withdraw, stakeForShares_eq, stakeValue_eq_mul_div, Quantity.sub_eq_some inSource,
      Quantity.sub_eq_some inTotal, Quantity.move_eq_some paid]

theorem deposit_stakeForShares_le_uneven_rate :
    ((⟨10, 3⟩ : SharePool).totalShares = 0 → (⟨10, 3⟩ : SharePool).balance = 0) ∧
    (∀ shareDst stakeSrc amount r, (⟨10, 3⟩ : SharePool).deposit shareDst stakeSrc amount = some r →
      ∃ value, r.1.stakeForShares r.2.2.2 = some value ∧ value ≤ amount) ∧
    ∀ shareAmount ≤ (⟨10, 3⟩ : SharePool).totalShares, ∀ stakeDst shareSrc, shareAmount ≤ shareSrc →
      (⟨10, 3⟩ : SharePool).withdraw stakeDst shareSrc shareAmount =
        some (⟨10 - shareAmount * 10 / 3, 3 - shareAmount⟩, stakeDst + shareAmount * 10 / 3, shareSrc - shareAmount) ∧
      shareAmount * 10 / 3 ≤ 10 :=
  ⟨by decide, deposit_stakeForShares_le (p := ⟨10, 3⟩) (by decide)⟩

end SharePool

/-- A call on the pool by one holder. -/
inductive Call (ι : Type) where
  | deposit (holder : ι) (amount : ℕ)
  | withdraw (holder : ι) (shareAmount : ℕ)
  deriving Repr, DecidableEq

structure Holders (ι : Type) where
  pool : SharePool
  shares : ι → ℕ
  stake : ι → ℕ

namespace Holders

variable {ι : Type} [DecidableEq ι]

def initial (stake : ι → ℕ) : Holders ι := ⟨⟨0, 0⟩, fun _ => 0, stake⟩

/-- A call with the holder's accounts as `shareDst`/`shareSrc` and `stakeSrc`/`stakeDst`. -/
def step (h : Holders ι) : Call ι → Option (Holders ι)
  | .deposit i amount => do
    let (pool, shareDst, stakeSrc, _) ← h.pool.deposit (h.shares i) (h.stake i) amount
    pure ⟨pool, Function.update h.shares i shareDst, Function.update h.stake i stakeSrc⟩
  | .withdraw i shareAmount => do
    let (pool, stakeDst, shareSrc) ← h.pool.withdraw (h.stake i) (h.shares i) shareAmount
    pure ⟨pool, Function.update h.shares i shareSrc, Function.update h.stake i stakeDst⟩

def run (h : Holders ι) (calls : List (Call ι)) : Option (Holders ι) := calls.foldlM step h

variable [Fintype ι]

/-- The pool's shares are the holders', and it holds nothing without shares. -/
structure Solvent (h : Holders ι) : Prop where
  total : h.pool.totalShares = ∑ i, h.shares i
  empty : h.pool.totalShares = 0 → h.pool.balance = 0

omit [DecidableEq ι] in
theorem solvent_initial (stake : ι → ℕ) : (initial stake).Solvent :=
  ⟨by simp [initial], fun _ => rfl⟩

theorem Solvent.deposit {h h' : Holders ι} (solvent : h.Solvent) {i : ι} {amount : ℕ}
    (stepped : h.step (.deposit i amount) = some h') : h'.Solvent := by
  simp only [step, Option.bind_eq_bind, Option.pure_def] at stepped
  cases deposited : h.pool.deposit (h.shares i) (h.stake i) amount with
  | none => simp [deposited] at stepped
  | some r =>
    obtain ⟨shares, made, _, rfl⟩ := SharePool.deposit_eq_some deposited
    simp only [deposited, Option.bind_some, Option.some.injEq] at stepped
    subst stepped
    have total := solvent.total
    have moved := ProRata.sum_update_add h.shares i (h.shares i + shares)
    constructor
    · show h.pool.totalShares + shares = ∑ j, Function.update h.shares i (h.shares i + shares) j
      omega
    · show h.pool.totalShares + shares = 0 → h.pool.balance + amount = 0
      intro noShares
      -- Without shares before, the deposit made as many shares as it brought.
      have before : h.pool.totalShares = 0 := by omega
      have oneToOne : shares = amount := by
        simpa [SharePool.sharesForStake, before] using made.symm
      have empty := solvent.empty before
      omega

theorem Solvent.withdraw {h h' : Holders ι} (solvent : h.Solvent) {i : ι} {amount : ℕ}
    (stepped : h.step (.withdraw i amount) = some h') : h'.Solvent := by
  simp only [step, Option.bind_eq_bind, Option.pure_def] at stepped
  cases withdrawn : h.pool.withdraw (h.stake i) (h.shares i) amount with
  | none => simp [withdrawn] at stepped
  | some r =>
    obtain ⟨leSource, leTotal, _, rfl⟩ := SharePool.withdraw_eq_some withdrawn
    simp only [withdrawn, Option.bind_some, Option.some.injEq] at stepped
    subst stepped
    have total := solvent.total
    have moved := ProRata.sum_update_add h.shares i (h.shares i - amount)
    constructor
    · show h.pool.totalShares - amount = ∑ j, Function.update h.shares i (h.shares i - amount) j
      omega
    · show h.pool.totalShares - amount = 0 → h.pool.balance - h.pool.stakeValue amount = 0
      intro noShares
      -- Withdrawing all the shares pays out the whole balance.
      have all : amount = h.pool.totalShares := by omega
      rcases Nat.eq_zero_or_pos h.pool.totalShares with none | some
      · simp [solvent.empty none]
      · have whole : h.pool.stakeValue amount = h.pool.balance := by
          unfold SharePool.stakeValue
          split_ifs with zero
          · rcases zero with zero | zero | zero <;> omega
          · rw [all, ProRata.mul_div_self some]
        omega

theorem Solvent.step {h h' : Holders ι} (solvent : h.Solvent) {c : Call ι} (stepped : h.step c = some h') :
    h'.Solvent := by
  cases c with
  | deposit => exact solvent.deposit stepped
  | withdraw => exact solvent.withdraw stepped

theorem Solvent.run {h h' : Holders ι} (solvent : h.Solvent) {calls : List (Call ι)}
    (ran : h.run calls = some h') : h'.Solvent := by
  induction calls generalizing h with
  | nil =>
    obtain rfl := Option.some.inj ran
    exact solvent
  | cons c calls ih =>
    simp only [Holders.run, List.foldlM_cons, Option.bind_eq_bind] at ran
    cases stepped : h.step c with
    | none => simp [stepped] at ran
    | some h₁ =>
      rw [stepped, Option.bind_some] at ran
      exact ih (solvent.step stepped) ran

omit [DecidableEq ι] in
/-- The holders' parts at the pool's rate add up to at most the balance. -/
theorem Solvent.sum_stakeValue_le {h : Holders ι} (solvent : h.Solvent) :
    ∑ i, h.pool.stakeValue (h.shares i) ≤ h.pool.balance :=
  calc ∑ i, h.pool.stakeValue (h.shares i)
      ≤ ∑ i, h.shares i * h.pool.balance / h.pool.totalShares :=
        Finset.sum_le_sum fun i _ => h.pool.stakeValue_le _
    _ ≤ h.pool.balance := by
        rw [solvent.total]
        exact ProRata.sum_mul_div_le _ _ _

omit [DecidableEq ι] in
/-- Every holder can withdraw all its shares. -/
theorem Solvent.withdraw_all {h : Holders ι} (solvent : h.Solvent) (i : ι) :
    ∃ r, h.pool.withdraw (h.stake i) (h.shares i) (h.shares i) = some r := by
  have inTotal : h.shares i ≤ h.pool.totalShares := by
    rw [solvent.total]
    exact Finset.single_le_sum (fun j _ => Nat.zero_le (h.shares j)) (Finset.mem_univ i)
  have paid : h.pool.stakeValue (h.shares i) ≤ h.pool.balance :=
    (h.pool.stakeValue_le _).trans (ProRata.mul_div_le_of_le inTotal _)
  simp [SharePool.withdraw, SharePool.stakeForShares_eq, Quantity.sub_eq_some (le_refl (h.shares i)),
    Quantity.sub_eq_some inTotal,
    Quantity.move_eq_some paid]

end Holders

end Orphiq.Staking

import Mathlib

/-!
# Vault withdraw policies

`AddressState` of `go/vault/api/policy.go`: the withdraw policy of one address and the
accounting of the interval (the bucket) whose withdrawals are currently counted. Quantities
are `Nat`, so `Quantity.Add` of two quantities never fails; heights are the `int64` the code
takes and casts to `uint64`.
-/

namespace Orphiq.Vault

structure WithdrawPolicy where
  limitAmount : ℕ
  limitInterval : UInt64
  deriving DecidableEq, Repr

def WithdrawPolicy.isDisabled (wp : WithdrawPolicy) : Bool :=
  wp.limitAmount == 0 || wp.limitInterval == 0

structure AddressState where
  withdrawPolicy : WithdrawPolicy
  currentBucket : UInt64
  currentAmount : ℕ
  deriving DecidableEq, Repr

def AddressState.updateWithdrawPolicy (as : AddressState) (newPolicy : WithdrawPolicy) : AddressState :=
  if as.withdrawPolicy.limitInterval != newPolicy.limitInterval then
    { withdrawPolicy := newPolicy, currentBucket := 0, currentAmount := 0 }
  else
    { as with withdrawPolicy := newPolicy }

/-- `AddressState.AuthorizeWithdrawal`: whether the withdrawal is allowed, and the state. -/
def AddressState.authorizeWithdrawal (as : AddressState) (height : Int64) (amount : ℕ) :
    Bool × AddressState :=
  if amount = 0 then (true, as)
  else if as.withdrawPolicy.isDisabled then (false, as)
  else
    let currentBucket := height.toUInt64 / as.withdrawPolicy.limitInterval
    let currentAmount := if as.currentBucket ≠ currentBucket then 0 else as.currentAmount
    let wanted := amount + currentAmount
    if wanted > as.withdrawPolicy.limitAmount then (false, as)
    else (true, { as with currentBucket := currentBucket, currentAmount := wanted })

/-- The bucket a withdrawal at `height` is counted in. -/
def WithdrawPolicy.bucket (wp : WithdrawPolicy) (height : Int64) : UInt64 :=
  height.toUInt64 / wp.limitInterval

def AddressState.recorded (as : AddressState) (b : UInt64) : ℕ :=
  if as.currentBucket = b then as.currentAmount else 0

theorem updateWithdrawPolicy_recorded (as : AddressState) (newPolicy : WithdrawPolicy) (b : UInt64) :
    (as.updateWithdrawPolicy newPolicy).recorded b =
      if as.withdrawPolicy.limitInterval = newPolicy.limitInterval then as.recorded b else 0 := by
  unfold AddressState.updateWithdrawPolicy AddressState.recorded
  by_cases same : as.withdrawPolicy.limitInterval = newPolicy.limitInterval <;> simp [same]

theorem authorizeWithdrawal_spec (as : AddressState) (height : Int64) (amount : ℕ) :
    as.authorizeWithdrawal height amount = (true, as) ∧ amount = 0 ∨
    as.authorizeWithdrawal height amount = (false, as) ∧ amount ≠ 0 ∧
      (as.withdrawPolicy.isDisabled = true ∨
        as.withdrawPolicy.limitAmount < amount + as.recorded (as.withdrawPolicy.bucket height)) ∨
    as.authorizeWithdrawal height amount =
        (true, { as with currentBucket := as.withdrawPolicy.bucket height,
                         currentAmount := amount + as.recorded (as.withdrawPolicy.bucket height) }) ∧
      amount ≠ 0 ∧ as.withdrawPolicy.isDisabled = false ∧
      amount + as.recorded (as.withdrawPolicy.bucket height) ≤ as.withdrawPolicy.limitAmount := by
  have recorded : (if as.currentBucket ≠ height.toUInt64 / as.withdrawPolicy.limitInterval then 0
      else as.currentAmount) = as.recorded (as.withdrawPolicy.bucket height) := by
    unfold AddressState.recorded WithdrawPolicy.bucket
    split_ifs <;> simp_all
  unfold AddressState.authorizeWithdrawal
  by_cases zero : amount = 0
  · exact .inl ⟨by simp [zero], zero⟩
  by_cases disabled : as.withdrawPolicy.isDisabled = true
  · exact .inr (.inl ⟨by simp [zero, disabled], zero, .inl disabled⟩)
  rw [if_neg zero, if_neg disabled]
  dsimp only
  rw [recorded]
  split_ifs with exceeds
  · exact .inr (.inl ⟨rfl, zero, .inr exceeds⟩)
  · exact .inr (.inr ⟨rfl, zero, by simpa using disabled, not_lt.mp exceeds⟩)

theorem authorizeWithdrawal_withdrawPolicy (as : AddressState) (height : Int64) (amount : ℕ) :
    (as.authorizeWithdrawal height amount).2.withdrawPolicy = as.withdrawPolicy := by
  rcases authorizeWithdrawal_spec as height amount with ⟨same, -⟩ | ⟨same, -⟩ | ⟨same, -⟩ <;> rw [same]

theorem authorizeWithdrawal_of_false {as : AddressState} {height : Int64} {amount : ℕ}
    (refused : (as.authorizeWithdrawal height amount).1 = false) :
    (as.authorizeWithdrawal height amount).2 = as := by
  rcases authorizeWithdrawal_spec as height amount with ⟨same, -⟩ | ⟨same, -⟩ | ⟨same, -⟩
  · simp [same] at refused
  · rw [same]
  · simp [same] at refused

/-- A sequence of withdrawal requests, as `AuthorizeWithdrawal` takes them. -/
structure Withdrawal where
  height : Int64
  amount : ℕ
  deriving DecidableEq, Repr

/-- The calls of a sequence that were authorized, in order, and the state after it. -/
def AddressState.authorizeAll (as : AddressState) : List Withdrawal → List Withdrawal × AddressState
  | [] => ([], as)
  | w :: ws =>
    let step := as.authorizeWithdrawal w.height w.amount
    let rest := step.2.authorizeAll ws
    (if step.1 then w :: rest.1 else rest.1, rest.2)

def bucketSum (wp : WithdrawPolicy) (b : UInt64) (ws : List Withdrawal) : ℕ :=
  ((ws.filter fun w => wp.bucket w.height == b).map Withdrawal.amount).sum

@[simp] theorem bucketSum_nil (wp : WithdrawPolicy) (b : UInt64) : bucketSum wp b [] = 0 := rfl

theorem bucketSum_cons (wp : WithdrawPolicy) (b : UInt64) (w : Withdrawal) (ws : List Withdrawal) :
    bucketSum wp b (w :: ws) = (if wp.bucket w.height = b then w.amount else 0) + bucketSum wp b ws := by
  unfold bucketSum
  by_cases same : wp.bucket w.height = b <;> simp [same]

theorem bucketSum_append (wp : WithdrawPolicy) (b : UInt64) (ws ws' : List Withdrawal) :
    bucketSum wp b (ws ++ ws') = bucketSum wp b ws + bucketSum wp b ws' := by
  simp [bucketSum, List.filter_append]

theorem bucketSum_singleton (wp : WithdrawPolicy) (b : UInt64) (w : Withdrawal) :
    bucketSum wp b [w] = if wp.bucket w.height = b then w.amount else 0 := by
  simp [bucketSum_cons]

theorem bucketSum_eq_zero {wp : WithdrawPolicy} {b : UInt64} {ws : List Withdrawal}
    (elsewhere : ∀ w ∈ ws, wp.bucket w.height ≠ b) : bucketSum wp b ws = 0 := by
  induction ws with
  | nil => rfl
  | cons w ws ih =>
    rw [bucketSum_cons, if_neg (elsewhere w (by simp)), ih fun w' mem => elsewhere w' (by simp [mem])]

theorem bucket_le {wp : WithdrawPolicy} {height height' : Int64} (nonneg : 0 ≤ height)
    (le : height ≤ height') : wp.bucket height ≤ wp.bucket height' := by
  have cast : height.toUInt64.toNat ≤ height'.toUInt64.toNat := by
    rw [Int64.toNat_toUInt64_of_le nonneg, Int64.toNat_toUInt64_of_le (Int64.le_trans nonneg le)]
    exact Int64.toNatClampNeg_le le
  unfold WithdrawPolicy.bucket
  rw [UInt64.le_iff_toNat_le, UInt64.toNat_div, UInt64.toNat_div]
  exact Nat.div_le_div_right cast

/-- What a state records of the withdrawals `hist` it authorized since the state `s₀`, while every
later call is counted in a bucket of at least `m`. -/
structure Accounted (s₀ as : AddressState) (hist : List Withdrawal) (m : UInt64) : Prop where
  withdrawPolicy : as.withdrawPolicy = s₀.withdrawPolicy
  within : ∀ b, bucketSum s₀.withdrawPolicy b hist ≤ s₀.withdrawPolicy.limitAmount
  counted : bucketSum s₀.withdrawPolicy as.currentBucket hist ≤ as.currentAmount
  bounded : ∀ b, as.recorded b ≤ s₀.recorded b + bucketSum s₀.withdrawPolicy b hist
  fresh : as.currentBucket ≠ m → bucketSum s₀.withdrawPolicy m hist = 0
  below : ∀ w ∈ hist, s₀.withdrawPolicy.bucket w.height ≤ m

theorem accounted_start (s₀ : AddressState) : Accounted s₀ s₀ [] 0 where
  withdrawPolicy := rfl
  within _ := Nat.zero_le _
  counted := Nat.zero_le _
  bounded _ := Nat.le_add_right _ _
  fresh _ := rfl
  below _ mem := absurd mem List.not_mem_nil

section Accounted

variable {s₀ as : AddressState} {hist : List Withdrawal} {m : UInt64}

theorem Accounted.bucketSum_eq_zero (acc : Accounted s₀ as hist m) {c : UInt64} (later : m ≤ c)
    (elsewhere : as.currentBucket ≠ c) : bucketSum s₀.withdrawPolicy c hist = 0 := by
  rcases UInt64.lt_or_eq_of_le later with after | same
  · apply Vault.bucketSum_eq_zero
    intro w mem
    exact UInt64.ne_of_lt (UInt64.lt_of_le_of_lt (acc.below w mem) after)
  · subst same
    exact acc.fresh elsewhere

theorem Accounted.bucketSum_le_recorded (acc : Accounted s₀ as hist m) {c : UInt64} (later : m ≤ c) :
    bucketSum s₀.withdrawPolicy c hist ≤ as.recorded c := by
  unfold AddressState.recorded
  split_ifs with current
  · exact current ▸ acc.counted
  · exact (acc.bucketSum_eq_zero later current).le

theorem Accounted.ignore (acc : Accounted s₀ as hist m) {w : Withdrawal}
    (later : m ≤ s₀.withdrawPolicy.bucket w.height) :
    Accounted s₀ as hist (s₀.withdrawPolicy.bucket w.height) where
  withdrawPolicy := acc.withdrawPolicy
  within := acc.within
  counted := acc.counted
  bounded := acc.bounded
  fresh elsewhere := acc.bucketSum_eq_zero later elsewhere
  below w' mem := UInt64.le_trans (acc.below w' mem) later

theorem Accounted.append_zero (acc : Accounted s₀ as hist m) {w : Withdrawal}
    (later : m ≤ s₀.withdrawPolicy.bucket w.height) (zero : w.amount = 0) :
    Accounted s₀ as (hist ++ [w]) (s₀.withdrawPolicy.bucket w.height) := by
  have same : ∀ b, bucketSum s₀.withdrawPolicy b (hist ++ [w]) = bucketSum s₀.withdrawPolicy b hist := by
    intro b
    simp [bucketSum_append, bucketSum_singleton, zero]
  have ignored := acc.ignore later
  refine ⟨acc.withdrawPolicy, ?_, ?_, ?_, ?_, ?_⟩
  · simpa only [same] using ignored.within
  · simpa only [same] using ignored.counted
  · simpa only [same] using ignored.bounded
  · simpa only [same] using ignored.fresh
  · intro w' mem
    rcases List.mem_append.mp mem with old | new
    · exact ignored.below w' old
    · rw [List.mem_singleton.mp new]
      exact UInt64.le_refl _

theorem Accounted.append_authorized (acc : Accounted s₀ as hist m) {w : Withdrawal}
    (later : m ≤ s₀.withdrawPolicy.bucket w.height)
    (allowed : w.amount + as.recorded (s₀.withdrawPolicy.bucket w.height) ≤ s₀.withdrawPolicy.limitAmount) :
    Accounted s₀ { as with currentBucket := s₀.withdrawPolicy.bucket w.height,
                           currentAmount := w.amount + as.recorded (s₀.withdrawPolicy.bucket w.height) }
      (hist ++ [w]) (s₀.withdrawPolicy.bucket w.height) := by
  obtain ⟨c, bucket⟩ : ∃ c, s₀.withdrawPolicy.bucket w.height = c := ⟨_, rfl⟩
  rw [bucket] at later allowed ⊢
  have sum : ∀ b, bucketSum s₀.withdrawPolicy b (hist ++ [w]) =
      bucketSum s₀.withdrawPolicy b hist + if c = b then w.amount else 0 := by
    intro b
    rw [bucketSum_append, bucketSum_singleton, bucket]
  have old := acc.bucketSum_le_recorded later
  refine ⟨acc.withdrawPolicy, fun b => ?_, ?_, fun b => ?_, fun elsewhere => absurd rfl elsewhere, ?_⟩
  · rw [sum]
    split_ifs with current
    · subst current
      omega
    · simpa using acc.within b
  · dsimp only
    rw [sum, if_pos rfl]
    omega
  · show (if c = b then _ else 0) ≤ _
    split_ifs with current
    · subst current
      have recorded := acc.bounded c
      rw [sum, if_pos rfl]
      dsimp only
      omega
    · exact Nat.zero_le _
  · intro w' mem
    rcases List.mem_append.mp mem with old | new
    · exact UInt64.le_trans (acc.below w' old) later
    · rw [List.mem_singleton.mp new, bucket]
      exact UInt64.le_refl _

theorem Accounted.authorizeWithdrawal (acc : Accounted s₀ as hist m) {w : Withdrawal}
    (later : m ≤ s₀.withdrawPolicy.bucket w.height) :
    Accounted s₀ (as.authorizeWithdrawal w.height w.amount).2
      (if (as.authorizeWithdrawal w.height w.amount).1 then hist ++ [w] else hist)
      (s₀.withdrawPolicy.bucket w.height) := by
  rcases authorizeWithdrawal_spec as w.height w.amount with
    ⟨result, zero⟩ | ⟨result, -, -⟩ | ⟨result, -, -, allowed⟩
  · rw [result]
    exact acc.append_zero later zero
  · rw [result]
    exact acc.ignore later
  · rw [acc.withdrawPolicy] at allowed
    have authorized := acc.append_authorized later allowed
    rw [acc.withdrawPolicy] at authorized
    rw [result, acc.withdrawPolicy]
    exact authorized

theorem Accounted.authorizeAll (acc : Accounted s₀ as hist m) {ws : List Withdrawal}
    (later : ∀ w ∈ ws, m ≤ s₀.withdrawPolicy.bucket w.height)
    (sorted : ws.Pairwise fun w w' => s₀.withdrawPolicy.bucket w.height ≤ s₀.withdrawPolicy.bucket w'.height) :
    ∃ m', Accounted s₀ (as.authorizeAll ws).2 (hist ++ (as.authorizeAll ws).1) m' := by
  induction ws generalizing as hist m with
  | nil => exact ⟨m, by simpa [AddressState.authorizeAll] using acc⟩
  | cons w ws ih =>
    obtain ⟨first, rest⟩ := List.pairwise_cons.mp sorted
    obtain ⟨m', final⟩ := ih (acc.authorizeWithdrawal (later w List.mem_cons_self)) first rest
    refine ⟨m', ?_⟩
    rw [AddressState.authorizeAll]
    cases authorized : (as.authorizeWithdrawal w.height w.amount).1
    · simpa [authorized] using final
    · simpa [authorized] using final

end Accounted

theorem authorizeAll_within_limit (s : AddressState) (ws : List Withdrawal)
    (nonneg : ∀ w ∈ ws, 0 ≤ w.height) (sorted : ws.Pairwise fun w w' => w.height ≤ w'.height) :
    (∀ b, bucketSum s.withdrawPolicy b (s.authorizeAll ws).1 ≤ s.withdrawPolicy.limitAmount) ∧
    ∀ pre w post, ws = pre ++ w :: post →
      ((s.authorizeAll pre).2.authorizeWithdrawal w.height w.amount).1 = false →
        (s.withdrawPolicy.isDisabled = true ∨
          s.withdrawPolicy.limitAmount < s.recorded (s.withdrawPolicy.bucket w.height) +
            bucketSum s.withdrawPolicy (s.withdrawPolicy.bucket w.height) (s.authorizeAll pre).1 + w.amount) ∧
        ((s.authorizeAll pre).2.authorizeWithdrawal w.height w.amount).2 = (s.authorizeAll pre).2 := by
  have buckets : ws.Pairwise fun w w' => s.withdrawPolicy.bucket w.height ≤ s.withdrawPolicy.bucket w'.height :=
    sorted.imp_of_mem fun mem _ le => bucket_le (nonneg _ mem) le
  have run : ∀ {ws'}, List.Sublist ws' ws → ∃ m, Accounted s (s.authorizeAll ws').2 (s.authorizeAll ws').1 m := by
    intro ws' sub
    simpa using (accounted_start s).authorizeAll (fun _ _ => UInt64.zero_le) (buckets.sublist sub)
  refine ⟨fun b => ?_, fun pre w post split refused => ?_⟩
  · obtain ⟨m, acc⟩ := run (List.Sublist.refl ws)
    exact acc.within b
  · obtain ⟨m, acc⟩ := run (split ▸ List.sublist_append_left pre (w :: post))
    refine ⟨?_, authorizeWithdrawal_of_false refused⟩
    rcases authorizeWithdrawal_spec (s.authorizeAll pre).2 w.height w.amount with
      ⟨result, -⟩ | ⟨-, -, reason⟩ | ⟨result, -⟩
    · simp [result] at refused
    · rw [acc.withdrawPolicy] at reason
      rcases reason with disabled | exceeds
      · exact .inl disabled
      · have recorded := acc.bounded (s.withdrawPolicy.bucket w.height)
        exact .inr (by omega)
    · simp [result] at refused

theorem authorizeAll_within_limit_three_buckets :
    let s : AddressState := ⟨⟨10, 5⟩, 0, 0⟩
    let ws : List Withdrawal := [⟨0, 4⟩, ⟨3, 7⟩, ⟨4, 6⟩, ⟨5, 10⟩, ⟨9, 0⟩, ⟨12, 1⟩]
    (∀ w ∈ ws, 0 ≤ w.height) ∧ (ws.Pairwise fun w w' => w.height ≤ w'.height) ∧
    (∀ b, bucketSum s.withdrawPolicy b (s.authorizeAll ws).1 ≤ s.withdrawPolicy.limitAmount) ∧
    ∀ pre w post, ws = pre ++ w :: post →
      ((s.authorizeAll pre).2.authorizeWithdrawal w.height w.amount).1 = false →
        (s.withdrawPolicy.isDisabled = true ∨
          s.withdrawPolicy.limitAmount < s.recorded (s.withdrawPolicy.bucket w.height) +
            bucketSum s.withdrawPolicy (s.withdrawPolicy.bucket w.height) (s.authorizeAll pre).1 + w.amount) ∧
        ((s.authorizeAll pre).2.authorizeWithdrawal w.height w.amount).2 = (s.authorizeAll pre).2 := by
  intro s ws
  have nonneg : ∀ w ∈ ws, 0 ≤ w.height := by decide
  have sorted : ws.Pairwise fun w w' => w.height ≤ w'.height := by decide
  exact ⟨nonneg, sorted, authorizeAll_within_limit s ws nonneg sorted⟩

/-- Withdrawals made before a policy change that kept the interval still count in their bucket:
the first call under the new policy is refused although the calls made under it so far and the
call itself stay within its limit. -/
theorem authorizeWithdrawal_counts_earlier_withdrawals :
    let s := ((AddressState.mk ⟨10, 1⟩ 0 0).authorizeWithdrawal 0 10).2.updateWithdrawPolicy ⟨15, 1⟩
    let w : Withdrawal := ⟨0, 6⟩
    ((s.authorizeAll []).2.authorizeWithdrawal w.height w.amount).1 = false ∧
      s.withdrawPolicy.isDisabled = false ∧
      bucketSum s.withdrawPolicy (s.withdrawPolicy.bucket w.height) (s.authorizeAll []).1 + w.amount ≤
        s.withdrawPolicy.limitAmount := by
  decide

end Orphiq.Vault

import OrphiqCore.Staking.Accumulator
import OrphiqCore.Staking.SharePoolSpec
import OrphiqCore.Store.Iteration

/-!
# Stake claims stay covered

A claim asks for the values of its thresholds; a malformed threshold (neither pointer set) has
none, and a total that counts it fails. `TotalClaims` returns the same in whichever order Go
ranges over the map: the sum over the claims it counts, or that failure. `AddStakeClaim`
succeeds exactly when the account with the new claim in place, counted once, is covered, and
no run of claim updates and deposits leaves an account's claims uncovered.
-/

namespace Orphiq.Staking

namespace StakeThreshold

/-- The threshold with neither pointer set, the only one `Value` rejects. -/
def malformed : StakeThreshold := ⟨none, none⟩

def WellFormed (st : StakeThreshold) : Prop := st.global.isSome ∨ st.constant.isSome

instance (st : StakeThreshold) : Decidable st.WellFormed := inferInstanceAs (Decidable (_ ∨ _))

def amount (st : StakeThreshold) (tm : ThresholdKind → ℕ) : ℕ :=
  match st.global, st.constant with
  | some kind, _ => tm kind
  | none, some constant => constant
  | none, none => 0

theorem value_eq (st : StakeThreshold) (tm : ThresholdKind → ℕ) :
    st.value tm = if st.WellFormed then .ok (st.amount tm) else .error (.invalidClaimThreshold malformed) := by
  obtain ⟨global, constant⟩ := st
  cases global <;> cases constant <;> simp [value, amount, WellFormed, malformed]

end StakeThreshold

def claimAmount (tm : ThresholdKind → ℕ) (thresholds : List StakeThreshold) : ℕ :=
  (thresholds.map (·.amount tm)).sum

theorem accumulateThresholds_eq (tm : ThresholdKind → ℕ) (total : ℕ) (thresholds : List StakeThreshold) :
    accumulateThresholds tm total thresholds =
      if ∀ t ∈ thresholds, t.WellFormed then .ok (total + claimAmount tm thresholds)
      else .error (.invalidClaimThreshold .malformed) := by
  apply Store.foldlM_eq_ite
  intro total t
  beta_reduce
  rw [StakeThreshold.value_eq]
  split_ifs <;> rfl

namespace StakeAccumulator

def required (sa : StakeAccumulator) (tm : ThresholdKind → ℕ) : ℕ :=
  (sa.claims.entries.map fun c => claimAmount tm c.2).sum

def WellFormed (sa : StakeAccumulator) : Prop := ∀ c ∈ sa.claims.entries, ∀ t ∈ c.2, t.WellFormed

instance (sa : StakeAccumulator) : Decidable sa.WellFormed :=
  inferInstanceAs (Decidable (∀ c ∈ sa.claims.entries, ∀ t ∈ c.2, t.WellFormed))

def without (sa : StakeAccumulator) (claim : StakeClaim) : StakeAccumulator := ⟨sa.claims.erase claim⟩

section Update

variable (sa : StakeAccumulator) (claim : StakeClaim) (thresholds : List StakeThreshold) (tm : ThresholdKind → ℕ)

-- Putting a claim in place drops its old thresholds and adds the new ones in front.
theorem required_addClaimUnchecked :
    (sa.addClaimUnchecked claim thresholds).required tm = (sa.without claim).required tm + claimAmount tm thresholds := by
  rw [required, required, addClaimUnchecked, AList.entries_insert, List.map_cons, List.sum_cons, add_comm]
  rfl

theorem wellFormed_addClaimUnchecked :
    (sa.addClaimUnchecked claim thresholds).WellFormed ↔
      (sa.without claim).WellFormed ∧ ∀ t ∈ thresholds, t.WellFormed := by
  simp only [WellFormed, addClaimUnchecked, AList.entries_insert, List.mem_cons, forall_eq_or_imp]
  exact and_comm

theorem required_without_le : (sa.without claim).required tm ≤ sa.required tm :=
  ((List.kerase_sublist claim sa.claims.entries).map _).sum_le_sum fun _ _ => Nat.zero_le _

theorem removeClaim_eq_ok_iff {sa' : StakeAccumulator} :
    sa.removeClaim claim = .ok sa' ↔ claim ∈ sa.claims ∧ sa' = sa.without claim := by
  unfold removeClaim
  split_ifs with present
  · simp [present, without, eq_comm]
  · simp [present]

end Update

theorem WellFormed.without {sa : StakeAccumulator} (wellFormed : sa.WellFormed) (claim : StakeClaim) :
    (sa.without claim).WellFormed :=
  fun c mem => wellFormed c ((List.kerase_sublist claim sa.claims.entries).subset mem)

theorem totalClaimsIn_accumulates (tm : ThresholdKind → ℕ) (exclude : Option StakeClaim) :
    Store.Accumulates (fun total (entry : Σ _ : StakeClaim, List StakeThreshold) =>
        if exclude = some entry.1 then pure total else accumulateThresholds tm total entry.2)
      (fun entry => exclude = some entry.1 ∨ ∀ t ∈ entry.2, t.WellFormed)
      (fun entry => if exclude = some entry.1 then 0 else claimAmount tm entry.2)
      (.invalidClaimThreshold .malformed) := by
  intro total entry
  by_cases excluded : exclude = some entry.1
  · simp only [excluded, true_or, if_true, add_zero]
    rfl
  · simp only [excluded, false_or, if_false, accumulateThresholds_eq]

theorem totalClaimsIn_eq (claims : List (Σ _ : StakeClaim, List StakeThreshold)) (tm : ThresholdKind → ℕ)
    (exclude : Option StakeClaim) :
    totalClaimsIn claims tm exclude =
      if ∀ c ∈ claims, exclude ≠ some c.1 → ∀ t ∈ c.2, t.WellFormed then
        .ok (((claims.filter fun c => exclude ≠ some c.1).map fun c => claimAmount tm c.2).sum)
      else .error (.invalidClaimThreshold .malformed) := by
  rw [totalClaimsIn, Store.foldlM_eq_ite (totalClaimsIn_accumulates tm exclude), List.sum_map_ite]
  simp [or_iff_not_imp_left]

theorem totalClaimsIn_perm {claims claims' : List (Σ _ : StakeClaim, List StakeThreshold)}
    (perm : claims.Perm claims') (tm : ThresholdKind → ℕ) (exclude : Option StakeClaim) :
    totalClaimsIn claims tm exclude = totalClaimsIn claims' tm exclude :=
  Store.foldlM_perm (totalClaimsIn_accumulates tm exclude) perm 0

theorem totalClaims_none (sa : StakeAccumulator) (tm : ThresholdKind → ℕ) :
    sa.totalClaims tm none =
      if sa.WellFormed then .ok (sa.required tm) else .error (.invalidClaimThreshold .malformed) := by
  rw [totalClaims, totalClaimsIn_eq]
  by_cases wellFormed : sa.WellFormed
  · rw [if_pos fun c mem _ => wellFormed c mem, if_pos wellFormed]
    simp [required]
  · rw [if_neg fun all => wellFormed fun c mem => all c mem (by simp), if_neg wellFormed]

-- Excluding a claim is totalling the map without it.
theorem totalClaims_some (sa : StakeAccumulator) (tm : ThresholdKind → ℕ) (claim : StakeClaim) :
    sa.totalClaims tm (some claim) = (sa.without claim).totalClaims tm none := by
  have erased : (sa.without claim).claims.entries = sa.claims.entries.filter fun c => claim ≠ c.1 :=
    Store.kerase_eq_filter sa.claims.nodupKeys claim
  rw [totalClaims, totalClaims, totalClaimsIn_eq, totalClaimsIn_eq, erased]
  simp [List.mem_filter]

/-- Whatever order Go ranges over the claims in, `TotalClaims` fails when a claim it counts has a
malformed threshold, and otherwise returns what the claims other than `exclude` ask for. -/
theorem totalClaims_every_order (sa : StakeAccumulator) (tm : ThresholdKind → ℕ) (exclude : Option StakeClaim)
    {order : List (Σ _ : StakeClaim, List StakeThreshold)} (perm : order.Perm sa.claims.entries) :
    totalClaimsIn order tm exclude =
      if ∀ c ∈ sa.claims.entries, exclude ≠ some c.1 → ∀ t ∈ c.2, t.WellFormed then
        .ok (((sa.claims.entries.filter fun c => exclude ≠ some c.1).map fun c => claimAmount tm c.2).sum)
      else .error (.invalidClaimThreshold .malformed) := by
  rw [totalClaimsIn_perm perm, totalClaimsIn_eq]

theorem totalClaims_every_order_swapped :
    [(⟨"b", [⟨some ⟨0⟩, none⟩]⟩ : Σ _ : StakeClaim, List StakeThreshold), ⟨"a", [⟨none, some 3⟩]⟩].Perm
        [⟨"a", [⟨none, some 3⟩]⟩, ⟨"b", [⟨some ⟨0⟩, none⟩]⟩] ∧
      totalClaimsIn [⟨"b", [⟨some ⟨0⟩, none⟩]⟩, ⟨"a", [⟨none, some 3⟩]⟩] (fun _ => 5) none = .ok 8 :=
  ⟨List.Perm.swap _ _ _,
    (totalClaims_every_order ⟨⟨[⟨"a", [⟨none, some 3⟩]⟩, ⟨"b", [⟨some ⟨0⟩, none⟩]⟩], by simp [List.NodupKeys]⟩⟩
      (fun _ => 5) none (List.Perm.swap _ _ _)).trans (by decide)⟩

end StakeAccumulator

namespace EscrowAccount

/-- Every threshold of the account's claims has a value, and its active balance covers them all. -/
def Covered (e : EscrowAccount) (tm : ThresholdKind → ℕ) : Prop :=
  e.stakeAccumulator.WellFormed ∧ e.stakeAccumulator.required tm ≤ e.active.balance

instance (e : EscrowAccount) (tm : ThresholdKind → ℕ) : Decidable (e.Covered tm) :=
  inferInstanceAs (Decidable (_ ∧ _))

section Calls

variable (e : EscrowAccount) (tm : ThresholdKind → ℕ) (claim : StakeClaim) (thresholds : List StakeThreshold)

theorem checkStakeClaims_eq :
    e.checkStakeClaims tm =
      if e.stakeAccumulator.WellFormed then
        if e.active.balance < e.stakeAccumulator.required tm then .error .insufficientStake else .ok ()
      else .error (.invalidClaimThreshold .malformed) := by
  rw [checkStakeClaims, StakeAccumulator.totalClaims_none]
  split_ifs <;> simp only [Store.ok_bind, Store.error_bind] <;> split_ifs <;> rfl

theorem checkStakeClaims_eq_ok_iff : e.checkStakeClaims tm = .ok () ↔ e.Covered tm := by
  rw [checkStakeClaims_eq, Covered]
  split_ifs with wellFormed short
  · simp [wellFormed, short]
  · simp [wellFormed, not_lt.mp short]
  · simp [wellFormed]

theorem addStakeClaim_eq :
    e.addStakeClaim tm claim thresholds =
      let e' := { e with stakeAccumulator := e.stakeAccumulator.addClaimUnchecked claim thresholds }
      if e'.stakeAccumulator.WellFormed then
        if e'.active.balance < e'.stakeAccumulator.required tm then .error .insufficientStake else .ok e'
      else .error (.invalidClaimThreshold .malformed) := by
  simp only [addStakeClaim, StakeAccumulator.totalClaims_some, StakeAccumulator.totalClaims_none,
    StakeAccumulator.wellFormed_addClaimUnchecked, StakeAccumulator.required_addClaimUnchecked]
  by_cases rest : (e.stakeAccumulator.without claim).WellFormed
  · by_cases own : ∀ t ∈ thresholds, t.WellFormed
    · rw [if_pos rest, if_pos ⟨rest, own⟩, Store.ok_bind, accumulateThresholds_eq, if_pos own, Store.ok_bind]
      split_ifs <;> rfl
    · rw [if_pos rest, if_neg fun both => own both.2, Store.ok_bind, accumulateThresholds_eq, if_neg own,
        Store.error_bind]
  · rw [if_neg rest, if_neg fun both => rest both.1, Store.error_bind]

theorem removeStakeClaim_eq_ok_iff {e' : EscrowAccount} :
    e.removeStakeClaim claim = .ok e' ↔
      claim ∈ e.stakeAccumulator.claims ∧ e' = { e with stakeAccumulator := e.stakeAccumulator.without claim } := by
  unfold removeStakeClaim
  cases removed : e.stakeAccumulator.removeClaim claim with
  | error err =>
    have absent : claim ∉ e.stakeAccumulator.claims := fun present => by
      have removedOk := (StakeAccumulator.removeClaim_eq_ok_iff _ _).mpr ⟨present, rfl⟩
      rw [removed] at removedOk
      cases removedOk
    simp only [absent, false_and, iff_false, Store.error_bind]
    rintro ⟨⟩
  | ok sa =>
    obtain ⟨present, rfl⟩ := (StakeAccumulator.removeClaim_eq_ok_iff _ _).mp removed
    simp only [present, true_and]
    constructor
    · rintro ⟨⟩; rfl
    · rintro rfl; rfl

end Calls

section Covered

variable {e e' : EscrowAccount} {tm : ThresholdKind → ℕ} {claim : StakeClaim} {thresholds : List StakeThreshold}

theorem Covered.of_addStakeClaim (added : e.addStakeClaim tm claim thresholds = .ok e') :
    e' = { e with stakeAccumulator := e.stakeAccumulator.addClaimUnchecked claim thresholds } ∧ e'.Covered tm := by
  rw [addStakeClaim_eq] at added
  dsimp only at added
  split_ifs at added with wellFormed short
  cases added
  exact ⟨rfl, wellFormed, not_lt.mp short⟩

theorem Covered.removeStakeClaim (covered : e.Covered tm) (removed : e.removeStakeClaim claim = .ok e') :
    e'.Covered tm := by
  obtain ⟨-, rfl⟩ := (removeStakeClaim_eq_ok_iff _ _).mp removed
  exact ⟨covered.1.without claim, (StakeAccumulator.required_without_le _ claim tm).trans covered.2⟩

theorem Covered.deposit (covered : e.Covered tm) {shareDst stakeSrc amount : ℕ} {r : SharePool × ℕ × ℕ × ℕ}
    (deposited : e.active.deposit shareDst stakeSrc amount = some r) : ({ e with active := r.1 }).Covered tm := by
  obtain ⟨_, _, _, rfl⟩ := SharePool.deposit_eq_some deposited
  exact ⟨covered.1, covered.2.trans (Nat.le_add_right _ _)⟩

end Covered

/-- `AddStakeClaim` returns the account with the claim put in its place, and so counted once,
exactly when that account's thresholds are well formed and its balance covers them. Otherwise it
fails with `ErrInsufficientStake` if the thresholds are well formed, and with the
invalid-threshold error if one is not. -/
theorem addStakeClaim_result (e : EscrowAccount) (tm : ThresholdKind → ℕ) (claim : StakeClaim)
    (thresholds : List StakeThreshold) :
    e.addStakeClaim tm claim thresholds =
      if ({ e with stakeAccumulator := e.stakeAccumulator.addClaimUnchecked claim thresholds } : EscrowAccount).Covered tm
      then .ok { e with stakeAccumulator := e.stakeAccumulator.addClaimUnchecked claim thresholds }
      else if (e.stakeAccumulator.addClaimUnchecked claim thresholds).WellFormed then .error .insufficientStake
      else .error (.invalidClaimThreshold .malformed) := by
  rw [addStakeClaim_eq]
  dsimp only
  by_cases wellFormed : (e.stakeAccumulator.addClaimUnchecked claim thresholds).WellFormed
  · by_cases short : e.active.balance < (e.stakeAccumulator.addClaimUnchecked claim thresholds).required tm
    · have uncovered : ¬(⟨e.active, e.stakeAccumulator.addClaimUnchecked claim thresholds⟩ : EscrowAccount).Covered tm :=
        fun covered => absurd covered.2 (not_le.mpr short)
      rw [if_pos wellFormed, if_pos short, if_neg uncovered, if_pos wellFormed]
    · rw [if_pos wellFormed, if_neg short, if_pos ⟨wellFormed, not_lt.mp short⟩]
  · rw [if_neg wellFormed, if_neg fun covered => wellFormed covered.1, if_neg wellFormed]

/-- The calls that change an escrow account's claims, or its active balance upward. -/
inductive Call where
  | addStakeClaim (claim : StakeClaim) (thresholds : List StakeThreshold)
  | removeStakeClaim (claim : StakeClaim)
  | deposit (shareDst stakeSrc amount : ℕ)

/-- One call; a call that fails leaves the account as it was. -/
def call (tm : ThresholdKind → ℕ) (e : EscrowAccount) : Call → EscrowAccount
  | .addStakeClaim claim thresholds =>
    match e.addStakeClaim tm claim thresholds with
    | .ok e' => e'
    | .error _ => e
  | .removeStakeClaim claim =>
    match e.removeStakeClaim claim with
    | .ok e' => e'
    | .error _ => e
  | .deposit shareDst stakeSrc amount =>
    match e.active.deposit shareDst stakeSrc amount with
    | some r => { e with active := r.1 }
    | none => e

def run (tm : ThresholdKind → ℕ) (e : EscrowAccount) (calls : List Call) : EscrowAccount :=
  calls.foldl (call tm) e

theorem Covered.call {e : EscrowAccount} {tm : ThresholdKind → ℕ} (covered : e.Covered tm) (c : Call) :
    (e.call tm c).Covered tm := by
  cases c with
  | addStakeClaim claim thresholds =>
    cases added : e.addStakeClaim tm claim thresholds with
    | ok e' => simpa only [EscrowAccount.call, added] using (Covered.of_addStakeClaim added).2
    | error _ => simpa only [EscrowAccount.call, added] using covered
  | removeStakeClaim claim =>
    cases removed : e.removeStakeClaim claim with
    | ok e' => simpa only [EscrowAccount.call, removed] using covered.removeStakeClaim removed
    | error _ => simpa only [EscrowAccount.call, removed] using covered
  | deposit shareDst stakeSrc amount =>
    cases deposited : e.active.deposit shareDst stakeSrc amount with
    | some r => simpa only [EscrowAccount.call, deposited] using covered.deposit deposited
    | none => simpa only [EscrowAccount.call, deposited] using covered

theorem Covered.run {e : EscrowAccount} {tm : ThresholdKind → ℕ} (covered : e.Covered tm) (calls : List Call) :
    (e.run tm calls).Covered tm := by
  induction calls generalizing e with
  | nil => exact covered
  | cons c calls ih => exact ih (covered.call c)

/-- An account whose claims pass `CheckStakeClaims` passes it after every sequence of stake-claim
updates, removals and deposits, failed calls included, under one set of thresholds. -/
theorem run_checkStakeClaims {e : EscrowAccount} {tm : ThresholdKind → ℕ} (start : e.checkStakeClaims tm = .ok ())
    (calls : List Call) : (e.run tm calls).checkStakeClaims tm = .ok () :=
  (checkStakeClaims_eq_ok_iff _ tm).mpr (((checkStakeClaims_eq_ok_iff e tm).mp start).run calls)

theorem run_checkStakeClaims_entity :
    (EscrowAccount.mk ⟨0, 0⟩ ⟨∅⟩).checkStakeClaims (fun _ => 5) = .ok () ∧
      ((EscrowAccount.mk ⟨0, 0⟩ ⟨∅⟩).run (fun _ => 5)
          [.addStakeClaim "registry.RegisterEntity" [⟨some ⟨0⟩, none⟩], .deposit 0 100 10,
            .addStakeClaim "registry.RegisterEntity" [⟨some ⟨0⟩, none⟩],
            .removeStakeClaim "registry.RegisterEntity"]).checkStakeClaims (fun _ => 5) = .ok () :=
  ⟨rfl, run_checkStakeClaims rfl _⟩

end EscrowAccount

end Orphiq.Staking

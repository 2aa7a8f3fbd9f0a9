import OrphiqCore.Registry.Runtime

/-!
# What a runtime update keeps

A descriptor whose deployments were valid stays valid at every later epoch, under any
parameters that allow as many deployments and keep its TEE constraints valid. An update that
`VerifyRuntimeUpdate` accepts keeps the active deployment and every deployment that is already
valid. Lowering the maximum number of deployments is not such a change: it passes the sanity
check, and the next update of a runtime with more deployments panics.
-/

namespace Orphiq.Registry

variable {ID Genesis Version Features : Type} [LinearOrder Version]
  {sgxValid : Option (List UInt8) → Option Features → Bool}

section Validate

variable {teeHardware : TEEHardware} {features features' : Option Features} {now now' : EpochTime}

theorem validateSorted_mono (later : now ≤ now') {deployments : List (VersionInfo Version)}
    (stable : ∀ d ∈ deployments, checkDeployment sgxValid teeHardware features d = none →
      checkDeployment sgxValid teeHardware features' d = none)
    {seen : List Version} {prevDeployment : Option (VersionInfo Version)} {numFuture numFuture' result : ℕ}
    (fewer : numFuture' ≤ numFuture)
    (valid : validateSorted sgxValid teeHardware features now deployments seen prevDeployment numFuture = .ok result) :
    ∃ result' ≤ result,
      validateSorted sgxValid teeHardware features' now' deployments seen prevDeployment numFuture' = .ok result' := by
  induction deployments generalizing seen prevDeployment numFuture numFuture' with
  | nil =>
    cases valid
    exact ⟨numFuture', fewer, rfl⟩
  | cons deployment deployments ih =>
    rw [validateSorted] at valid ⊢
    by_cases duplicate : deployment.version ∈ seen
    · rw [if_pos duplicate] at valid
      cases valid
    rw [if_neg duplicate] at valid ⊢
    by_cases increasing : prevDeployment.any (·.validFrom ≥ deployment.validFrom)
    · rw [if_pos increasing] at valid
      cases valid
    rw [if_neg increasing] at valid ⊢
    dsimp only at valid ⊢
    cases checked : checkDeployment sgxValid teeHardware features deployment with
    | some e => simp [checked] at valid
    | none =>
      rw [checked] at valid
      rw [stable deployment List.mem_cons_self checked]
      -- a deployment still in the future at the later epoch was in the future before
      have counted : (if deployment.validFrom > now' then numFuture' + 1 else numFuture') ≤
          if deployment.validFrom > now then numFuture + 1 else numFuture := by
        by_cases future' : deployment.validFrom > now'
        · have future : deployment.validFrom > now := UInt64.lt_of_le_of_lt later future'
          rw [if_pos future', if_pos future]
          omega
        · rw [if_neg future']
          split_ifs <;> omega
      exact ih (fun d mem => stable d (List.mem_cons_of_mem _ mem)) counted valid

variable {r : Runtime ID Genesis Version} {params params' : ConsensusParameters Features}

theorem Runtime.validateDeployments_eq_ok (valid : r.validateDeployments sgxValid now params = .ok ()) :
    r.deployments ≠ [] ∧ r.deployments.length ≤ (max 2 params.maxRuntimeDeployments).toNat ∧
      ∃ numFuture ≤ 1, validateSorted sgxValid r.teeHardware params.teeFeatures now
        (r.deployments.insertionSort fun a b => a.version ≤ b.version) [] none 0 = .ok numFuture := by
  unfold Runtime.validateDeployments at valid
  split_ifs at valid with empty tooMany
  dsimp only at valid
  split at valid
  · cases valid
  · rename_i numFuture sorted
    split_ifs at valid with future
    exact ⟨by simpa using empty, Nat.le_of_not_lt tooMany, numFuture, Nat.le_of_not_lt future, sorted⟩

/-- Deployments valid at one epoch are valid at every later one, under parameters that allow
as many deployments and keep the constraints of each deployment valid. -/
theorem Runtime.validateDeployments_mono (valid : r.validateDeployments sgxValid now params = .ok ())
    (later : now ≤ now') (room : r.deployments.length ≤ (max 2 params'.maxRuntimeDeployments).toNat)
    (stable : ∀ d ∈ r.deployments, checkDeployment sgxValid r.teeHardware params.teeFeatures d = none →
      checkDeployment sgxValid r.teeHardware params'.teeFeatures d = none) :
    r.validateDeployments sgxValid now' params' = .ok () := by
  obtain ⟨nonempty, -, numFuture, few, sorted⟩ := r.validateDeployments_eq_ok valid
  have sortedStable : ∀ d ∈ r.deployments.insertionSort (fun a b => a.version ≤ b.version),
      checkDeployment sgxValid r.teeHardware params.teeFeatures d = none →
        checkDeployment sgxValid r.teeHardware params'.teeFeatures d = none :=
    fun d mem => stable d ((List.perm_insertionSort _ _).mem_iff.mp mem)
  obtain ⟨numFuture', fewer, sorted'⟩ := validateSorted_mono later sortedStable (Nat.le_refl 0) sorted
  unfold Runtime.validateDeployments
  rw [if_neg (by simpa using nonempty), if_neg (Nat.not_lt.mpr room)]
  dsimp only
  rw [sorted']
  exact if_neg (by omega)

end Validate

section Update

variable {currentRt newRt : Runtime ID Genesis Version} {now : EpochTime} {params : ConsensusParameters Features}

theorem checkDeploymentsUpdate_eq_ok (ok : checkDeploymentsUpdate sgxValid currentRt newRt now params = .ok ()) :
    newRt.validateDeployments sgxValid now params = .ok () ∧
      (∀ d ∈ newRt.deployments, d.validFrom ≤ now → (currentRt.deploymentFor d.version).any d.equal) ∧
      (currentRt.activeDeployment now = none ∧ newRt.activeDeployment now = none ∨
        ∃ active newActive, currentRt.activeDeployment now = some active ∧
          newRt.activeDeployment now = some newActive ∧ active.equal newActive) := by
  unfold checkDeploymentsUpdate at ok
  dsimp only at ok
  split at ok
  · cases ok
  rename_i newValid
  split_ifs at ok with changed
  refine ⟨newValid, fun d mem valid => ?_, ?_⟩
  · by_contra unchanged
    have checked : ∀ d ∈ newRt.deployments,
        (currentRt.deploymentFor d.version).any d.equal = false → now < d.validFrom := by
      simpa using changed
    exact UInt64.not_le.mpr (checked d mem (by simpa using unchanged)) valid
  split at ok
  · cases ok
  · rename_i active newActive currentActive newActive'
    split_ifs at ok with unequal
    exact .inr ⟨active, newActive, currentActive, newActive', by simpa using unequal⟩
  · cases ok
  · exact .inl ⟨‹_›, ‹_›⟩

variable [DecidableEq ID] [DecidableEq Genesis]

theorem verifyRuntimeUpdate_eq_none (panics : verifyRuntimeUpdate sgxValid currentRt newRt now params = none) :
    ∃ e, currentRt.validateDeployments sgxValid now params = .error e := by
  unfold verifyRuntimeUpdate at panics
  split_ifs at panics
  split at panics
  · exact ⟨_, ‹_›⟩
  · cases panics

/-- What an accepted update has passed: both descriptors validate, every deployment is
unchanged or still in the future, and the active deployment is the same. -/
theorem verifyRuntimeUpdate_eq_ok (ok : verifyRuntimeUpdate sgxValid currentRt newRt now params = some (.ok ())) :
    currentRt.validateDeployments sgxValid now params = .ok () ∧
      checkDeploymentsUpdate sgxValid currentRt newRt now params = .ok () := by
  unfold verifyRuntimeUpdate at ok
  split_ifs at ok with disallowed
  · cases ok
  split at ok
  · cases ok
  · exact ⟨‹_›, Option.some.inj ok⟩

omit [DecidableEq ID] [DecidableEq Genesis] in
theorem Runtime.deploymentFor_eq_some {r : Runtime ID Genesis Version} {v : Version} {old : VersionInfo Version}
    (found : r.deploymentFor v = some old) : old ∈ r.deployments ∧ old.version = v := by
  unfold Runtime.deploymentFor at found
  exact ⟨List.mem_reverse.mp (List.mem_of_find?_eq_some found), by simpa using List.find?_some found⟩

theorem verifyRuntimeUpdate_ne_none {params' : ConsensusParameters Features} {e : EpochTime}
    (valid : currentRt.validateDeployments sgxValid e params = .ok ()) (later : e ≤ now)
    (room : currentRt.deployments.length ≤ (max 2 params'.maxRuntimeDeployments).toNat)
    (stable : ∀ d ∈ currentRt.deployments, checkDeployment sgxValid currentRt.teeHardware params.teeFeatures d = none →
      checkDeployment sgxValid currentRt.teeHardware params'.teeFeatures d = none) :
    verifyRuntimeUpdate sgxValid currentRt newRt now params' ≠ none := by
  intro panics
  obtain ⟨_, invalid⟩ := verifyRuntimeUpdate_eq_none panics
  rw [currentRt.validateDeployments_mono valid later room stable] at invalid
  cases invalid

/-- An accepted update keeps the active deployment, changes no deployment that is already
valid, and stays valid at every later epoch. -/
theorem verifyRuntimeUpdate_keeps_deployments (ok : verifyRuntimeUpdate sgxValid currentRt newRt now params = some (.ok ())) :
    (currentRt.activeDeployment now = none ∧ newRt.activeDeployment now = none ∨
        ∃ active newActive, currentRt.activeDeployment now = some active ∧
          newRt.activeDeployment now = some newActive ∧ active.equal newActive) ∧
      (∀ d ∈ newRt.deployments, d.validFrom ≤ now → ∃ old ∈ currentRt.deployments, old.version = d.version ∧ d.equal old) ∧
      ∀ now', now ≤ now' → newRt.validateDeployments sgxValid now' params = .ok () := by
  obtain ⟨-, checked⟩ := verifyRuntimeUpdate_eq_ok ok
  obtain ⟨newValid, unchanged, active⟩ := checkDeploymentsUpdate_eq_ok checked
  refine ⟨active, fun d mem valid => ?_, fun now' later => ?_⟩
  · obtain ⟨old, found, equal⟩ := (Option.any_eq_true _ _).mp (unchanged d mem valid)
    obtain ⟨mem', version⟩ := currentRt.deploymentFor_eq_some found
    exact ⟨old, mem', version, equal⟩
  · exact newRt.validateDeployments_mono newValid later (newRt.validateDeployments_eq_ok newValid).2.1
      fun d _ kept => kept

end Update

/-- A runtime with three deployments validates while the parameters allow three. A change that
lowers the limit to two, and sets the maximum node expiration so as not to be empty, passes the
sanity check; every update of the runtime then panics, even one that changes nothing. -/
theorem verifyRuntimeUpdate_panics_after_limit_lowered (sgxValid : Option (List UInt8) → Option Unit → Bool) :
    ∃ (rt : Runtime ℕ ℕ ℕ) (params : ConsensusParameters Unit) (changes : ConsensusParameterChanges Unit)
      (e now : EpochTime), rt.validateDeployments sgxValid e params = .ok () ∧ e ≤ now ∧
      changes.sanityCheck = .ok () ∧ verifyRuntimeUpdate sgxValid rt rt now (changes.apply params) = none :=
  ⟨⟨0, .compute, 0, none, .entity, .invalid, [⟨1, 0, none, []⟩, ⟨2, 5, none, []⟩, ⟨3, 10, none, []⟩]⟩,
    ⟨false, false, [], 0, [], none, 3⟩, ⟨none, none, none, some 1, none, none, some 2⟩, 10, 10,
    rfl, UInt64.le_refl _, rfl, rfl⟩

end Orphiq.Registry

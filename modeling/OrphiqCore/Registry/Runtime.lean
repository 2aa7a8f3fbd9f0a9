import Mathlib

/-!
# Runtime descriptors and their updates

`VersionInfo`, the deployment checks of `Runtime` (`go/registry/api/runtime.go`),
`VerifyRuntimeUpdate`, and the registry's consensus parameter changes (`go/registry/api/api.go`,
`sanity_check.go`).

Versions are of any linearly ordered type: `Version.ToU64` is injective and order-preserving, so
comparing and sorting by it is comparing and sorting versions. Whether a deployment's SGX
constraints are valid under the TEE features of the parameters is the predicate `sgxValid`. A
panic is `none`; `ErrRuntimeUpdateNotAllowed` is `.error ()`.
-/

namespace Orphiq.Registry

abbrev EpochTime := UInt64

inductive RuntimeKind where
  | invalid
  | compute
  | keyManager
  deriving DecidableEq, Repr

/-- `RuntimeGovernanceModel`. -/
inductive GovernanceModel where
  | invalid
  | entity
  | runtime
  | consensus
  deriving DecidableEq, Repr

inductive TEEHardware where
  | invalid
  | intelSGX
  | reserved (n : UInt8)
  deriving DecidableEq, Repr

/-- The errors of `ValidateDeployments`, by their messages. -/
inductive DeploymentError where
  | noDeployments
  | tooManyDeployments
  | duplicateVersion
  | versionsMustIncrease
  | teeConstraintsWhenNoTEE
  | invalidSGXConstraints
  | invalidTEEHardware
  | invalidBundleChecksum
  | moreThanOneFutureDeployment
  deriving DecidableEq, Repr

/-- `VersionInfo`; `tee` is `none` for a nil slice. -/
structure VersionInfo (Version : Type) where
  version : Version
  validFrom : EpochTime
  tee : Option (List UInt8)
  bundleChecksum : List UInt8
  deriving DecidableEq, Repr

/-- `Runtime`, with the fields the deployment checks and the update check read. -/
structure Runtime (ID Genesis Version : Type) where
  id : ID
  kind : RuntimeKind
  genesis : Genesis
  keyManager : Option ID
  governanceModel : GovernanceModel
  teeHardware : TEEHardware
  deployments : List (VersionInfo Version)

structure ConsensusParameters (Features : Type) where
  disableRuntimeRegistration : Bool
  disableKeyManagerRuntimeRegistration : Bool
  gasCosts : List (String × UInt64)
  maxNodeExpiration : UInt64
  enableRuntimeGovernanceModels : List GovernanceModel
  teeFeatures : Option Features
  maxRuntimeDeployments : UInt8

/-- `ConsensusParameterChanges`; a nil field is `none`. -/
structure ConsensusParameterChanges (Features : Type) where
  disableRuntimeRegistration : Option Bool
  disableKeyManagerRuntimeRegistration : Option Bool
  gasCosts : Option (List (String × UInt64))
  maxNodeExpiration : Option UInt64
  enableRuntimeGovernanceModels : Option (List GovernanceModel)
  teeFeatures : Option (Option Features)
  maxRuntimeDeployments : Option UInt8

variable {ID Genesis Version Features : Type}

/-- `ConsensusParameterChanges.SanityCheck`: that the changes are not empty. -/
def ConsensusParameterChanges.sanityCheck (c : ConsensusParameterChanges Features) : Except Unit Unit :=
  if c.disableRuntimeRegistration.isNone && c.disableKeyManagerRuntimeRegistration.isNone && c.gasCosts.isNone &&
      c.maxNodeExpiration.isNone && c.enableRuntimeGovernanceModels.isNone && c.teeFeatures.isNone then
    .error ()
  else .ok ()

def ConsensusParameterChanges.apply (c : ConsensusParameterChanges Features) (params : ConsensusParameters Features) :
    ConsensusParameters Features where
  disableRuntimeRegistration := c.disableRuntimeRegistration.getD params.disableRuntimeRegistration
  disableKeyManagerRuntimeRegistration :=
    c.disableKeyManagerRuntimeRegistration.getD params.disableKeyManagerRuntimeRegistration
  gasCosts := c.gasCosts.getD params.gasCosts
  maxNodeExpiration := c.maxNodeExpiration.getD params.maxNodeExpiration
  enableRuntimeGovernanceModels := c.enableRuntimeGovernanceModels.getD params.enableRuntimeGovernanceModels
  teeFeatures := c.teeFeatures.getD params.teeFeatures
  maxRuntimeDeployments := c.maxRuntimeDeployments.getD params.maxRuntimeDeployments

section Deployments

variable [LinearOrder Version]

/-- `VersionInfo.Equal`; `bytes.Equal` takes a nil slice for an empty one. -/
def VersionInfo.equal (vi cmp : VersionInfo Version) : Bool :=
  vi.version = cmp.version && vi.validFrom = cmp.validFrom && vi.tee.getD [] = cmp.tee.getD [] &&
    vi.bundleChecksum = cmp.bundleChecksum

variable (sgxValid : Option (List UInt8) → Option Features → Bool)

/-- The checks of one deployment against the runtime's TEE hardware and of its bundle checksum. -/
def checkDeployment (teeHardware : TEEHardware) (features : Option Features) (deployment : VersionInfo Version) :
    Option DeploymentError :=
  match teeHardware with
  | .invalid => if deployment.tee.isSome then some .teeConstraintsWhenNoTEE else bundle
  | .intelSGX => if !sgxValid deployment.tee features then some .invalidSGXConstraints else bundle
  | .reserved _ => some .invalidTEEHardware
where
  bundle : Option DeploymentError :=
    if deployment.bundleChecksum.length > 0 && deployment.bundleChecksum.length ≠ 32 then some .invalidBundleChecksum
    else none

/-- The loop of `ValidateDeployments` over the deployments sorted by version: the number of
future deployments. -/
def validateSorted (teeHardware : TEEHardware) (features : Option Features) (now : EpochTime) :
    List (VersionInfo Version) → List Version → Option (VersionInfo Version) → ℕ → Except DeploymentError ℕ
  | [], _, _, numFuture => .ok numFuture
  | deployment :: deployments, seen, prevDeployment, numFuture =>
    if deployment.version ∈ seen then .error .duplicateVersion
    else if prevDeployment.any (·.validFrom ≥ deployment.validFrom) then .error .versionsMustIncrease
    else
      let numFuture := if deployment.validFrom > now then numFuture + 1 else numFuture
      match checkDeployment sgxValid teeHardware features deployment with
      | some e => .error e
      | none => validateSorted teeHardware features now deployments (deployment.version :: seen) (some deployment) numFuture

def Runtime.validateDeployments (r : Runtime ID Genesis Version) (now : EpochTime)
    (params : ConsensusParameters Features) : Except DeploymentError Unit :=
  if r.deployments.isEmpty then .error .noDeployments
  else if r.deployments.length > (max 2 params.maxRuntimeDeployments).toNat then .error .tooManyDeployments
  else
    -- sort.SliceStable by Version.ToU64; a stable sort, as insertion sort is
    let deployments := r.deployments.insertionSort fun a b => a.version ≤ b.version
    match validateSorted sgxValid r.teeHardware params.teeFeatures now deployments [] none 0 with
    | .error e => .error e
    | .ok numFuture => if numFuture > 1 then .error .moreThanOneFutureDeployment else .ok ()

/-- `Runtime.ActiveDeployment`: the deployment valid at `now` that became valid last. -/
def Runtime.activeDeployment (r : Runtime ID Genesis Version) (now : EpochTime) : Option (VersionInfo Version) :=
  r.deployments.foldl (fun activeDeployment deployment =>
    if deployment.validFrom > now then activeDeployment
    else
      match activeDeployment with
      | none => some deployment
      | some active => if active.validFrom < deployment.validFrom then some deployment else some active) none

/-- The deployment a runtime's map from versions to deployments holds for `v`. -/
def Runtime.deploymentFor (r : Runtime ID Genesis Version) (v : Version) : Option (VersionInfo Version) :=
  r.deployments.reverse.find? (·.version = v)

/-- The deployment checks of `VerifyRuntimeUpdate` once the current descriptor has validated. -/
def checkDeploymentsUpdate (currentRt newRt : Runtime ID Genesis Version) (now : EpochTime)
    (params : ConsensusParameters Features) : Except Unit Unit :=
  let activeDeployment := currentRt.activeDeployment now
  let newActiveDeployment := newRt.activeDeployment now
  match newRt.validateDeployments sgxValid now params with
  | .error _ => .error ()
  | .ok () =>
    -- each deployment is unchanged, or new or changed and still in the future
    if !newRt.deployments.all fun newInfo =>
        (currentRt.deploymentFor newInfo.version).any newInfo.equal || now < newInfo.validFrom then
      .error ()
    else
      match activeDeployment, newActiveDeployment with
      | some _, none => .error ()
      | some active, some newActive => if !active.equal newActive then .error () else .ok ()
      | none, some _ => .error ()
      | none, none => .ok ()

variable [DecidableEq ID] [DecidableEq Genesis]

/-- The checks of `VerifyRuntimeUpdate` before the deployments, each of which fails with
`ErrRuntimeUpdateNotAllowed`: the same id, kind and genesis, a key manager neither removed nor
changed, only the governance change from entity to runtime, and runtime governance only for
compute runtimes. -/
def updateAllowed (currentRt newRt : Runtime ID Genesis Version) : Bool :=
  currentRt.id = newRt.id && currentRt.kind = newRt.kind && currentRt.genesis = newRt.genesis &&
    !(currentRt.keyManager.isSome && newRt.keyManager.isNone) &&
    !(currentRt.keyManager.isSome && currentRt.keyManager ≠ newRt.keyManager) &&
    !(currentRt.governanceModel ≠ newRt.governanceModel &&
      !(currentRt.governanceModel = .entity && newRt.governanceModel = .runtime)) &&
    !(newRt.governanceModel = .runtime && newRt.kind ≠ .compute)

def verifyRuntimeUpdate (currentRt newRt : Runtime ID Genesis Version) (now : EpochTime)
    (params : ConsensusParameters Features) : Option (Except Unit Unit) :=
  if !updateAllowed currentRt newRt then some (.error ())
  else
    match currentRt.validateDeployments sgxValid now params with
    -- "malformed deployments present in state"
    | .error _ => none
    | .ok () => some (checkDeploymentsUpdate sgxValid currentRt newRt now params)

end Deployments

end Orphiq.Registry

import OrphiqCore.Churp.Switch

/-!
# Handoffs

The three handoffs of `secret-sharing/src/churp/handoff.rs`. The dealing phase and a handoff in
an unchanged committee only merge bivariate shares into a full share; a handoff to a changed
committee first reduces the shares of the old committee through switch points and bivariate
shares, and then distributes full shares through switch points checked against the reduced
share's verification matrix. A method of the `Handoff` trait that a kind does not implement
fails with `InvalidKind`.
-/

namespace Orphiq.Churp

inductive HandoffKind where
  | dealingPhase
  | committeeUnchanged
  | committeeChanged
  deriving DecidableEq, Repr

def HandoffKind.requireZeroHole : HandoffKind → Bool
  | .dealingPhase => false
  | .committeeUnchanged => true
  | .committeeChanged => true

variable {F P M V : Type} [DecidableEq F] [Add P] [Add M]

structure DealingPhase (F P M V : Type) where
  shareDistribution : DimensionSwitch F P M V

structure CommitteeUnchanged (F P M V : Type) where
  shareDistribution : DimensionSwitch F P M V

structure CommitteeChanged (F P M V : Type) where
  shareReduction : DimensionSwitch F P M V
  shareDistribution : DimensionSwitch F P M V

/-- `DealingPhase::new`: at least `threshold + 2` dealers, so that no `threshold` of them can
learn the combined polynomial together with one honest shareholder. -/
def DealingPhase.new (threshold : UInt8) (me : F) (shareholders : List F) :
    Except Error (DealingPhase F P M V) := do
  if shareholders.length < threshold.toNat + 2 then throw .notEnoughShareholders
  let zeroHole := HandoffKind.dealingPhase.requireZeroHole
  let shareDistribution := DimensionSwitch.newFullShareDistribution threshold zeroHole me shareholders
  let (skipped, shareDistribution) := shareDistribution.skipAccumulating
  skipped
  let (started, shareDistribution) := shareDistribution.startMerging none
  started
  pure ⟨shareDistribution⟩

def CommitteeUnchanged.new (threshold : UInt8) (me : F) (shareholders : List F) :
    Except Error (CommitteeUnchanged F P M V) := do
  if shareholders.length < threshold.toNat + 1 then throw .notEnoughShareholders
  let zeroHole := HandoffKind.committeeUnchanged.requireZeroHole
  let shareDistribution := DimensionSwitch.newFullShareDistribution threshold zeroHole me shareholders
  let (skipped, shareDistribution) := shareDistribution.skipAccumulating
  skipped
  pure ⟨shareDistribution⟩

/-- `CommitteeChanged::new`: the distribution phase has nobody to merge bivariate shares from. -/
def CommitteeChanged.new (threshold : UInt8) (me : F) (shareholders : List F) :
    Except Error (CommitteeChanged F P M V) := do
  if shareholders.length < threshold.toNat + 1 then throw .notEnoughShareholders
  let zeroHole := HandoffKind.committeeChanged.requireZeroHole
  pure ⟨DimensionSwitch.newShareReduction threshold zeroHole me shareholders,
    DimensionSwitch.newFullShareDistribution threshold zeroHole me []⟩

/-- The methods of the `Handoff` trait that change a handoff. -/
inductive HandoffCall (F P M : Type) where
  | setVerificationMatrix (vm : M)
  | setShareholder (shareholder : Shareholder F P M)
  | addShareReductionSwitchPoint (point : F × F)
  | addFullShareDistributionSwitchPoint (point : F × F)
  | addBivariateShare (x : F) (vs : VerifiableSecretShare F P M)

variable (vss : Vss F P M V)

def DealingPhase.call (h : DealingPhase F P M V) : HandoffCall F P M → Except Error Bool × DealingPhase F P M V
  | .addBivariateShare x vs =>
    let (result, shareDistribution) := h.shareDistribution.addBivariateShare vss x vs
    (result, ⟨shareDistribution⟩)
  | _ => (.error .invalidKind, h)

def CommitteeUnchanged.call (h : CommitteeUnchanged F P M V) :
    HandoffCall F P M → Except Error Bool × CommitteeUnchanged F P M V
  | .setShareholder shareholder =>
    let (result, shareDistribution) := h.shareDistribution.startMerging (some shareholder)
    (result.map fun _ => false, ⟨shareDistribution⟩)
  | .addBivariateShare x vs =>
    let (result, shareDistribution) := h.shareDistribution.addBivariateShare vss x vs
    (result, ⟨shareDistribution⟩)
  | _ => (.error .invalidKind, h)

/-- `CommitteeChanged::add_bivariate_share`: when the share reduction completes, the full share
distribution starts with the verification matrix of the reduced share. -/
def CommitteeChanged.addBivariateShare (h : CommitteeChanged F P M V) (x : F) (vs : VerifiableSecretShare F P M) :
    Except Error Bool × CommitteeChanged F P M V :=
  match h.shareReduction.addBivariateShare vss x vs with
  | (.error e, shareReduction) => (.error e, { h with shareReduction })
  | (.ok false, shareReduction) => (.ok false, { h with shareReduction })
  | (.ok true, shareReduction) =>
    match shareReduction.getShareholder with
    | .error e => (.error e, { h with shareReduction })
    | .ok reduced =>
      match h.shareDistribution.startAccumulating vss reduced.verifiableShare.vm with
      | (.error e, shareDistribution) => (.error e, ⟨shareReduction, shareDistribution⟩)
      | (.ok (), shareDistribution) => (.ok true, ⟨shareReduction, shareDistribution⟩)

def CommitteeChanged.call (h : CommitteeChanged F P M V) :
    HandoffCall F P M → Except Error Bool × CommitteeChanged F P M V
  | .setVerificationMatrix vm =>
    let (result, shareReduction) := h.shareReduction.startAccumulating vss vm
    (result.map fun _ => false, { h with shareReduction })
  | .addShareReductionSwitchPoint point =>
    let (result, shareReduction) := h.shareReduction.addSwitchPoint vss point
    (result, { h with shareReduction })
  | .addFullShareDistributionSwitchPoint point =>
    let (result, shareDistribution) := h.shareDistribution.addSwitchPoint vss point
    (result, { h with shareDistribution })
  | .addBivariateShare x vs => h.addBivariateShare vss x vs
  | .setShareholder _ => (.error .invalidKind, h)

end Orphiq.Churp

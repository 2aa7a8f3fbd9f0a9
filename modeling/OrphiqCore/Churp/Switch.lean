import OrphiqCore.Churp.Shareholder
import OrphiqCore.Store.Vec

/-!
# Dimension switches

`DimensionSwitch` of `secret-sharing/src/churp/switch.rs`, with its accumulators `SwitchPoints`
and `BivariateShares`. A switch waits for the verification matrix of the previous handoff,
accumulates verified switch points from distinct shareholders until it can reconstruct its own
share, then (unless nobody is to contribute) merges one verified bivariate share from each
listed shareholder and proactivizes the share with their sum, and at last serves the new
shareholder. Each method locks the state and may change it before it fails, so every mutating
method returns its result together with the switch after the call. A `SwitchPoint` is the
point `(x, y)` it wraps.
-/

namespace Orphiq.Churp

variable {F P M V : Type}

structure SwitchPoints (F M V : Type) where
  n : ℕ
  me : Option F
  vm : Option M
  vv : V
  points : List (F × F)

structure BivariateShares (F P M : Type) where
  threshold : UInt8
  zeroHole : Bool
  fullShare : Bool
  me : F
  shareholders : List F
  pendingShareholders : List F
  shareholder : Option (Shareholder F P M)
  combinedShare : Option (VerifiableSecretShare F P M)

inductive DimensionSwitchState (F P M V : Type) where
  | waitingForVerificationMatrix
  | accumulating (sp : SwitchPoints F M V)
  | waitingForShareholder
  | merging (bs : BivariateShares F P M)
  | serving (shareholder : Shareholder F P M)

structure DimensionSwitch (F P M V : Type) where
  threshold : UInt8
  zeroHole : Bool
  fullShare : Bool
  me : F
  shareholders : List F
  state : DimensionSwitchState F P M V

variable [DecidableEq F] (vss : Vss F P M V)

namespace SwitchPoints

def new (threshold : UInt8) (fullShare : Bool) (me : F) (vm : M) : Except Error (SwitchPoints F M V) :=
  let rows := threshold.toNat + 1
  let cols := 2 * threshold.toNat + 1
  if vss.dimensions vm ≠ (rows, cols) then .error .verificationMatrixDimensionMismatch
  else
    let (n, vv) :=
      if fullShare then (cols, vss.verificationVectorForY vm me) else (rows, vss.verificationVectorForX vm me)
    .ok ⟨n, some me, some vm, vv, []⟩

variable {vss}

def hasPoint (sp : SwitchPoints F M V) (x : F) : Bool := sp.points.any (·.1 == x)

def needsPoints (sp : SwitchPoints F M V) : Bool := sp.points.length < sp.n

def needsPoint (sp : SwitchPoints F M V) (x : F) : Bool := sp.needsPoints && !sp.hasPoint x

variable (vss)

def addPoint (sp : SwitchPoints F M V) (point : F × F) : Except Error (SwitchPoints F M V) :=
  if sp.points.length ≥ sp.n then .error .tooManySwitchPoints
  else if sp.hasPoint point.1 then .error .duplicateShareholder
  else if !vss.verify sp.vv point.1 point.2 then .error .invalidSwitchPoint
  else .ok { sp with points := sp.points ++ [point] }

/-- `SwitchPoints::reconstruct_shareholder`: the identity and the matrix are taken out before the
polynomial is checked, so a failed check leaves them gone. -/
def reconstructShareholder (sp : SwitchPoints F M V) :
    Except Error (Shareholder F P M) × SwitchPoints F M V :=
  if sp.points.length < sp.n then (.error .notEnoughSwitchPoints, sp)
  else
    match sp.me with
    | none => (.error .shareholderIdentityRequired, sp)
    | some x =>
      match sp.vm with
      | none => (.error .verificationMatrixRequired, { sp with me := none })
      | some vm =>
        let p := vss.lagrange (sp.points.take sp.n)
        if vss.size p ≠ sp.n then (.error .polynomialDegreeMismatch, { sp with me := none, vm := none })
        else (.ok ⟨⟨x, p, vm⟩⟩, { sp with me := none, vm := none })

end SwitchPoints

namespace BivariateShares

def new (threshold : UInt8) (zeroHole fullShare : Bool) (me : F) (shareholders : List F)
    (shareholder : Option (Shareholder F P M)) : Except Error (BivariateShares F P M) :=
  if shareholders.isEmpty then .error .notEnoughShareholders
  else .ok ⟨threshold, zeroHole, fullShare, me, shareholders, shareholders, shareholder, none⟩

def hasBivariateShare (bs : BivariateShares F P M) (x : F) : Bool := bs.shareholders.contains x

def needsBivariateShare (bs : BivariateShares F P M) (x : F) : Bool := bs.pendingShareholders.contains x

variable [Add P] [Add M]

/-- `BivariateShares::add_bivariate_share`: the accumulator, and whether every share is in. -/
def addBivariateShare (bs : BivariateShares F P M) (x : F) (vs : VerifiableSecretShare F P M) :
    Except Error (BivariateShares F P M × Bool) := do
  if !bs.hasBivariateShare x then throw .unknownShareholder
  if !bs.needsBivariateShare x then throw .duplicateShareholder
  if vs.x ≠ bs.me then throw .shareholderIdentityMismatch
  vs.verify vss bs.threshold bs.zeroHole bs.fullShare
  let combinedShare := match bs.combinedShare with
    | some cs => cs.add vs
    | none => vs
  let pendingShareholders := Store.swapRemove bs.pendingShareholders (bs.pendingShareholders.idxOf x)
  pure ({ bs with combinedShare := some combinedShare, pendingShareholders }, pendingShareholders.isEmpty)

/-- `BivariateShares::proactivize_shareholder`: the combined share is taken out before the
shareholder is built and checked, so a failed check leaves it gone. -/
def proactivizeShareholder (bs : BivariateShares F P M) :
    Except Error (Shareholder F P M) × BivariateShares F P M :=
  if !bs.pendingShareholders.isEmpty then (.error .notEnoughBivariateShares, bs)
  else
    match bs.combinedShare with
    | none => (.error .shareholderProactivizationCompleted, bs)
    | some vs =>
      let result : Except Error (Shareholder F P M) := do
        let shareholder ← match bs.shareholder with
          | some shareholder => shareholder.proactivize vss vs.p vs.vm
          | none => pure ⟨vs⟩
        -- The combined bivariate polynomial must have non-zero leading terms.
        shareholder.verifiableShare.verify vss bs.threshold false bs.fullShare
        pure shareholder
      (result, { bs with combinedShare := none })

end BivariateShares

namespace DimensionSwitch

def new (threshold : UInt8) (zeroHole fullShare : Bool) (me : F) (shareholders : List F) :
    DimensionSwitch F P M V :=
  ⟨threshold, zeroHole, fullShare, me, shareholders, .waitingForVerificationMatrix⟩

def newShareReduction (threshold : UInt8) (zeroHole : Bool) (me : F) (shareholders : List F) :
    DimensionSwitch F P M V :=
  new threshold zeroHole false me shareholders

def newFullShareDistribution (threshold : UInt8) (zeroHole : Bool) (me : F) (shareholders : List F) :
    DimensionSwitch F P M V :=
  new threshold zeroHole true me shareholders

variable {vss}

def isWaitingForVerificationMatrix (d : DimensionSwitch F P M V) : Bool :=
  d.state matches .waitingForVerificationMatrix

def isWaitingForShareholder (d : DimensionSwitch F P M V) : Bool :=
  d.state matches .waitingForShareholder

def skipAccumulating (d : DimensionSwitch F P M V) : Except Error Unit × DimensionSwitch F P M V :=
  match d.state with
  | .waitingForVerificationMatrix => (.ok (), { d with state := .waitingForShareholder })
  | _ => (.error .invalidState, d)

def needsSwitchPoint (d : DimensionSwitch F P M V) (x : F) : Except Error Bool :=
  match d.state with
  | .waitingForVerificationMatrix => .ok true
  | .accumulating sp => .ok (sp.needsPoint x)
  | _ => .error .invalidState

def needsBivariateShare (d : DimensionSwitch F P M V) (x : F) : Except Error Bool :=
  match d.state with
  | .merging bs => .ok (bs.needsBivariateShare x)
  | _ => .error .invalidState

def getShareholder (d : DimensionSwitch F P M V) : Except Error (Shareholder F P M) :=
  match d.state with
  | .serving shareholder => .ok shareholder
  | _ => .error .invalidState

variable (vss)

def startAccumulating (d : DimensionSwitch F P M V) (vm : M) : Except Error Unit × DimensionSwitch F P M V :=
  match d.state with
  | .waitingForVerificationMatrix =>
    match SwitchPoints.new vss d.threshold d.fullShare d.me vm with
    | .ok sp => (.ok (), { d with state := .accumulating sp })
    | .error e => (.error e, d)
  | _ => (.error .invalidState, d)

/-- `DimensionSwitch::add_switch_point`: whether enough points are in and the switch moved on. -/
def addSwitchPoint (d : DimensionSwitch F P M V) (point : F × F) : Except Error Bool × DimensionSwitch F P M V :=
  match d.state with
  | .accumulating sp =>
    match sp.addPoint vss point with
    | .error e => (.error e, d)
    | .ok sp =>
      if sp.needsPoints then (.ok false, { d with state := .accumulating sp })
      else
        match sp.reconstructShareholder vss with
        | (.error e, sp) => (.error e, { d with state := .accumulating sp })
        | (.ok shareholder, sp) =>
          if d.shareholders.isEmpty then (.ok true, { d with state := .serving shareholder })
          else
            match BivariateShares.new d.threshold d.zeroHole d.fullShare d.me d.shareholders (some shareholder) with
            | .ok bs => (.ok true, { d with state := .merging bs })
            | .error e => (.error e, { d with state := .accumulating sp })
  | _ => (.error .invalidState, d)

def startMerging (d : DimensionSwitch F P M V) (shareholder : Option (Shareholder F P M)) :
    Except Error Unit × DimensionSwitch F P M V :=
  match d.state with
  | .waitingForShareholder =>
    match BivariateShares.new d.threshold d.zeroHole d.fullShare d.me d.shareholders shareholder with
    | .ok bs => (.ok (), { d with state := .merging bs })
    | .error e => (.error e, d)
  | _ => (.error .invalidState, d)

/-- `DimensionSwitch::add_bivariate_share`: whether every share is in and the switch serves. -/
def addBivariateShare [Add P] [Add M] (d : DimensionSwitch F P M V) (x : F) (vs : VerifiableSecretShare F P M) :
    Except Error Bool × DimensionSwitch F P M V :=
  match d.state with
  | .merging bs =>
    match bs.addBivariateShare vss x vs with
    | .error e => (.error e, d)
    | .ok (bs, false) => (.ok false, { d with state := .merging bs })
    | .ok (bs, true) =>
      match bs.proactivizeShareholder vss with
      | (.error e, bs) => (.error e, { d with state := .merging bs })
      | (.ok shareholder, _) => (.ok true, { d with state := .serving shareholder })
  | _ => (.error .invalidState, d)

end DimensionSwitch

end Orphiq.Churp

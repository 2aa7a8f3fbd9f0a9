import Mathlib.Logic.Function.Basic
import Mathlib.Data.List.Basic

/-!
# The upgrade manager

`upgrade.go` with the pending upgrades of `upgrade/api`. The manager keeps pointers to its pending
upgrades, here addresses into `Manager.heap`, and persists their values in its store whenever it
flushes them. `ConsensusUpgrade` ranges over the pending upgrades it started with while the flush
in its body replaces `u.pending`, so the loops below go over a list of pointers taken before they
start, and every change to an upgrade goes through its pointer.

The store's operations succeed. The migration handlers and `EnsureCompatible` are those of the
running binary (`Binary`); within one run of a manager a handler's stage either succeeds or fails.
A panic of the Go code is `none`.
-/

namespace Orphiq.Upgrade

/-- `beacon.EpochTime`: epochs are only compared. -/
abbrev EpochTime := Nat

/-- A consensus height, an `int64` that is only compared and stored. -/
abbrev Height := Int

abbrev UpgradeStage := UInt64

def upgradeStageStartup : UpgradeStage := 1

def upgradeStageConsensus : UpgradeStage := 2

def upgradeStageLast : UpgradeStage := upgradeStageConsensus

/-- `InvalidUpgradeHeight`: the upgrade epoch has not been reached yet. -/
def invalidUpgradeHeight : Height := 0

abbrev HandlerName := String

/-- `Descriptor`. Its target protocol versions are compared by `Equals` and judged by the binary's
`EnsureCompatible` only, so their type is a parameter. -/
structure Descriptor (Target : Type) where
  versioned : UInt16
  handler : HandlerName
  target : Target
  epoch : EpochTime
  deriving DecidableEq, Inhabited

structure PendingUpgrade (Target : Type) where
  descriptor : Descriptor Target
  upgradeHeight : Height
  lastCompletedStage : UpgradeStage
  deriving DecidableEq, Inhabited

/-- A migration handler of the running binary: whether it has a startup stage, and whether each
of its stages succeeds. -/
structure Handler where
  hasStartupUpgrade : Bool
  startupUpgrade : Bool
  consensusUpgrade : Bool

/-- What the running binary offers an upgrade: `Descriptor.EnsureCompatible` and
`migrations.GetHandler`. -/
structure Binary (Target : Type) where
  ensureCompatible : Descriptor Target → Bool
  getHandler : HandlerName → Option Handler

/-- The errors of the manager, with those of `EnsureCompatible` and of the migration handlers. -/
inductive UpgradeError where
  | stopForUpgrade
  | alreadyPending
  | upgradeInProgress
  | badDescriptor
  | incompatibleBinary
  | missingMigrationHandler
  | startupUpgradeFailed
  | consensusUpgradeFailed
  deriving DecidableEq, Repr

section Api

variable {Target : Type} [DecidableEq Target]

/-- `Descriptor.Equals`: every field is compared. -/
def Descriptor.equals (d other : Descriptor Target) : Bool := d == other

namespace PendingUpgrade

def isCompleted (pu : PendingUpgrade Target) : Bool := pu.lastCompletedStage ≥ upgradeStageLast

def hasAnyStages (pu : PendingUpgrade Target) : Bool := pu.lastCompletedStage > 0

def hasStage (pu : PendingUpgrade Target) (stage : UpgradeStage) : Bool := pu.lastCompletedStage ≥ stage

/-- `PendingUpgrade.PushStage`, which panics on a stage out of order. -/
def pushStage (pu : PendingUpgrade Target) (stage : UpgradeStage) : Option (PendingUpgrade Target) :=
  if pu.lastCompletedStage + 1 != stage then none -- "upgrade: out of order upgrade stage execution"
  else some { pu with lastCompletedStage := stage }

end PendingUpgrade

end Api

/-- The address of a `*PendingUpgrade`. -/
abbrev Ptr := Nat

/-- `upgradeManager`, with the memory its pointers address and the contents of its store. -/
structure Manager (Target : Type) where
  heap : Ptr → PendingUpgrade Target
  next : Ptr
  pending : List Ptr
  shouldStop : Bool
  store : Option (List (PendingUpgrade Target))

/-- How a loop of the manager leaves one pending upgrade: on to the next one, or returning an
error; and whether it ran a stage of the upgrade's handler. -/
inductive Visit (Target : Type) where
  | next (u : Manager Target) (invoked : Bool)
  | stop (u : Manager Target) (invoked : Bool) (err : UpgradeError)

/-- What a call of the manager returns, with the pending upgrades whose handler stage it ran. -/
structure Outcome (Target : Type) where
  manager : Manager Target
  result : Except UpgradeError Unit
  invoked : List Ptr

namespace Manager

variable {Target : Type} [DecidableEq Target]

def set (u : Manager Target) (p : Ptr) (pu : PendingUpgrade Target) : Manager Target :=
  { u with heap := Function.update u.heap p pu }

def alloc (u : Manager Target) (pu : PendingUpgrade Target) : Manager Target × Ptr :=
  ({ u with heap := Function.update u.heap u.next pu, next := u.next + 1 }, u.next)

/-- `flushDescriptorLocked`: completed upgrades are dropped, and the others stored, or the state
deleted when there are none. -/
def flushDescriptorLocked (u : Manager Target) : Manager Target :=
  let pending := u.pending.filter fun p => !(u.heap p).isCompleted
  { u with pending, store := if pending.isEmpty then none else some (pending.map u.heap) }

/-- `for _, pu := range pending` in a call of the manager, with its body's `return`, and the
flush after the loop. -/
def loop (body : Manager Target → Ptr → Option (Visit Target)) :
    Manager Target → List Ptr → Option (Outcome Target)
  | u, [] => some ⟨u.flushDescriptorLocked, .ok (), []⟩
  | u, p :: rest =>
    match body u p with
    | none => none
    | some (.next u invoked) =>
      (loop body u rest).map fun o => { o with invoked := if invoked then p :: o.invoked else o.invoked }
    | some (.stop u invoked err) => some ⟨u, .error err, if invoked then [p] else []⟩

def submitDescriptor (u : Manager Target) : Option (Descriptor Target) → Manager Target × Except UpgradeError Unit
  | none => (u, .error .badDescriptor)
  | some descriptor =>
    if u.pending.any fun p => (u.heap p).descriptor.equals descriptor then (u, .error .alreadyPending)
    else
      let (u, p) := u.alloc ⟨descriptor, invalidUpgradeHeight, 0⟩
      ({ u with pending := u.pending ++ [p] }.flushDescriptorLocked, .ok ())

/-- `CancelUpgrade`: the loop returns at the first upgrade of the descriptor that is in progress,
and otherwise keeps the upgrades of other descriptors. -/
def cancelUpgrade (u : Manager Target) : Option (Descriptor Target) → Manager Target × Except UpgradeError Unit
  | none => (u, .error .badDescriptor)
  | some descriptor =>
    if u.pending.isEmpty then (u.flushDescriptorLocked, .ok ()) -- Make sure nothing is saved.
    else if u.pending.any fun p => (u.heap p).descriptor.equals descriptor &&
        ((u.heap p).upgradeHeight != invalidUpgradeHeight || (u.heap p).hasAnyStages) then
      (u, .error .upgradeInProgress)
    else
      ({ u with pending := u.pending.filter fun p => !(u.heap p).descriptor.equals descriptor }.flushDescriptorLocked,
        .ok ())

/-- The check of `checkStatus` on one pending upgrade. -/
def checkStatusAt (b : Binary Target) (u : Manager Target) (p : Ptr) : Option (Visit Target) :=
  let pu := u.heap p
  if pu.isCompleted then some (.next u false)
  -- Check if upgrade should proceed.
  else if pu.upgradeHeight = invalidUpgradeHeight then some (.next u false)
  -- The upgrade should proceed right now. Check that we have the right binary.
  else if !b.ensureCompatible pu.descriptor then some (.stop u false .incompatibleBinary)
  -- Ensure the upgrade handler exists.
  else if (b.getHandler pu.descriptor.handler).isNone then some (.stop u false .missingMigrationHandler)
  else some (.next u false)

/-- The manager holding the upgrades read from its store, at new addresses. -/
def load [Inhabited Target] (u : Manager Target) (stored : List (PendingUpgrade Target)) : Manager Target :=
  { u with heap := fun p => stored.getD p default, next := stored.length, pending := List.range stored.length }

def checkStatus [Inhabited Target] (b : Binary Target) (u : Manager Target) : Option (Outcome Target) :=
  match u.store with
  | none => some ⟨{ u with pending := [] }, .ok (), []⟩ -- No upgrade pending, nothing to do.
  | some stored => loop (checkStatusAt b) (u.load stored) (u.load stored).pending

/-- The manager `New` builds over the store, before its status is checked. -/
def init [Inhabited Target] (store : Option (List (PendingUpgrade Target))) : Manager Target :=
  ⟨fun _ => default, 0, [], false, store⟩

/-- `New` with `checkStatus`, over the store the node keeps. -/
def new [Inhabited Target] (b : Binary Target) (store : Option (List (PendingUpgrade Target))) :
    Option (Except UpgradeError (Manager Target)) :=
  (checkStatus b (init store)).map fun o => o.result.map fun _ => o.manager

/-- One pending upgrade in `StartupUpgrade`: its startup stage runs once its height is set. -/
def startupUpgradeAt (b : Binary Target) (u : Manager Target) (p : Ptr) : Option (Visit Target) :=
  let pu := u.heap p
  if pu.upgradeHeight = invalidUpgradeHeight then some (.next u false)
  else if pu.hasStage upgradeStageStartup then some (.next u false) -- startup upgrade already performed
  else
    match b.getHandler pu.descriptor.handler with
    | none => some (.stop u false .missingMigrationHandler)
    | some handler =>
      if !handler.startupUpgrade then some (.stop u true .startupUpgradeFailed)
      else (pu.pushStage upgradeStageStartup).map fun pu => .next (u.set p pu) true

def startupUpgrade (b : Binary Target) (u : Manager Target) : Option (Outcome Target) :=
  loop (startupUpgradeAt b) u u.pending

/-- Whether the node must stop at the upgrade height of `d` rather than go on in place. -/
def mustStop (b : Binary Target) (d : Descriptor Target) : Bool :=
  -- Not compatible, we must stop.
  !b.ensureCompatible d ||
    match b.getHandler d.handler with
    | none => true -- Handler not available, we must stop.
    | some handler => handler.hasStartupUpgrade -- Handler has a startup upgrade, we must stop.

/-- The body of `ConsensusUpgrade`'s loop for an upgrade whose height is set. -/
def consensusUpgradeAtHeight (b : Binary Target) (privateCtx : Bool) (currentHeight : Height)
    (u : Manager Target) (p : Ptr) : Option (Visit Target) :=
  let pu := u.heap p
  -- If we're already past the upgrade height, then everything must be complete.
  if pu.upgradeHeight < currentHeight then
    (pu.pushStage upgradeStageConsensus).map fun pu => .next (u.set p pu) false
  else if pu.upgradeHeight > currentHeight then
    none -- "consensus upgrade: UpgradeHeight is in the future but upgrade epoch seen already"
  else if !pu.hasStage upgradeStageConsensus && privateCtx then
    match b.getHandler pu.descriptor.handler with
    | none => some (.stop u false .missingMigrationHandler)
    | some handler =>
      if handler.consensusUpgrade then some (.next u true) else some (.stop u true .consensusUpgradeFailed)
  else some (.next u false)

/-- The body of `ConsensusUpgrade`'s loop: an upgrade whose epoch is reached gets the current height,
is flushed, and is then either stopped for or taken through its startup stage in place. -/
def consensusUpgradeAt (b : Binary Target) (privateCtx : Bool) (currentEpoch : EpochTime)
    (currentHeight : Height) (u : Manager Target) (p : Ptr) : Option (Visit Target) :=
  let pu := u.heap p
  if pu.upgradeHeight = invalidUpgradeHeight then
    -- If we haven't reached the upgrade epoch yet, we run normally.
    if currentEpoch < pu.descriptor.epoch then some (.next u false)
    else
      let u := (u.set p { pu with upgradeHeight := currentHeight }).flushDescriptorLocked
      let u := { u with shouldStop := mustStop b pu.descriptor }
      if u.shouldStop then some (.stop u false .stopForUpgrade)
      else
        -- We can continue with the upgrade in place.
        match (u.heap p).pushStage upgradeStageStartup with
        | none => none
        | some pu => consensusUpgradeAtHeight b privateCtx currentHeight (u.set p pu) p
  else consensusUpgradeAtHeight b privateCtx currentHeight u p

/-- `ConsensusUpgrade`, with a `privateCtx` that is nil or not. -/
def consensusUpgrade (b : Binary Target) (u : Manager Target) (privateCtx : Bool) (currentEpoch : EpochTime)
    (currentHeight : Height) : Option (Outcome Target) :=
  -- In case this method has been re-entered before the node has actually stopped.
  if u.shouldStop then some ⟨u, .error .stopForUpgrade, []⟩
  else loop (consensusUpgradeAt b privateCtx currentEpoch currentHeight) u u.pending

/-- `Close`: the pending upgrades are flushed to the store before it closes. -/
def close (u : Manager Target) : Manager Target := u.flushDescriptorLocked

end Manager

end Orphiq.Upgrade

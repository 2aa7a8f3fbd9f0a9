import OrphiqCore.Upgrade.Manager

/-!
# A node and its upgrade manager

A node calls its manager: descriptors are submitted and cancelled, and the consensus layer calls
`ConsensusUpgrade` with its epochs and heights. A restart builds a new manager over the node's store
with `New`, which checks the status of the stored upgrades, and runs `StartupUpgrade` before any
other call; the old manager was closed first, which flushes its upgrades to the store, or the node
crashed and the store holds what the last flush wrote. After `ErrStopForUpgrade` or an error of a
migration handler the node must restart; a restart whose `New` fails leaves the node down.

`Reach` are the states a node reaches from an empty store by the calls the environment makes
(`Call.Allowed`): restarts at any time, other calls to a running manager only, and
`ConsensusUpgrade` at heights that never go down and are never `InvalidUpgradeHeight`.
-/

namespace Orphiq.Upgrade

/-- A node with its store, and the manager it runs. -/
inductive Node (Target : Type) where
  /-- No manager runs: before the first start, or after a start whose `New` failed. -/
  | down (store : Option (List (PendingUpgrade Target)))
  | running (b : Binary Target) (u : Manager Target)
  /-- The manager stopped for an upgrade or on a migration handler's error: the node must restart. -/
  | stopping (b : Binary Target) (u : Manager Target)

inductive Call (Target : Type) where
  | submitDescriptor (descriptor : Option (Descriptor Target))
  | cancelUpgrade (descriptor : Option (Descriptor Target))
  | consensusUpgrade (privateCtx : Bool) (currentEpoch : EpochTime) (currentHeight : Height)
  /-- A restart in binary `b`, after the running manager was closed or not (the node crashed). -/
  | restart (b : Binary Target) (closed : Bool)

/-- The errors after which the node must restart: a stop for the upgrade, and those of the
migration handlers. -/
def UpgradeError.needsRestart : UpgradeError → Bool
  | .stopForUpgrade | .missingMigrationHandler | .startupUpgradeFailed | .consensusUpgradeFailed => true
  | _ => false

variable {Target : Type} [DecidableEq Target] [Inhabited Target]

/-- The node a call of the running manager leaves. -/
def Outcome.node (o : Outcome Target) (b : Binary Target) : Node Target :=
  match o.result with
  | .error e => if e.needsRestart then .stopping b o.manager else .running b o.manager
  | .ok () => .running b o.manager

namespace Node

def store : Node Target → Option (List (PendingUpgrade Target))
  | .down store => store
  | .running _ u => u.store
  | .stopping _ u => u.store

def manager? : Node Target → Option (Manager Target)
  | .down _ => none
  | .running _ u => some u
  | .stopping _ u => some u

def isRunning : Node Target → Bool
  | .running .. => true
  | _ => false

/-- What the store holds when the node restarts: closing the manager flushes its upgrades. -/
def persisted (n : Node Target) (closed : Bool) : Option (List (PendingUpgrade Target)) :=
  match n.manager?, closed with
  | some u, true => u.close.store
  | _, _ => n.store

/-- A restart in binary `b`: `New` over the store, then `StartupUpgrade`. -/
def restart (n : Node Target) (b : Binary Target) (closed : Bool) : Option (Node Target) :=
  match Manager.new b (n.persisted closed) with
  | none => none
  | some (.error _) => some (.down (n.persisted closed))
  | some (.ok u) => (u.startupUpgrade b).map (·.node b)

/-- A call, with the pending upgrades whose handler's consensus stage it ran; `none` when it panics.
A call other than a restart on a node that runs no manager is not made, and changes nothing. -/
def call : Node Target → Call Target → Option (Node Target × List Ptr)
  | n, .restart b closed => (n.restart b closed).map (·, [])
  | .running b u, .submitDescriptor descriptor => some (.running b (u.submitDescriptor descriptor).1, [])
  | .running b u, .cancelUpgrade descriptor => some (.running b (u.cancelUpgrade descriptor).1, [])
  | .running b u, .consensusUpgrade privateCtx currentEpoch currentHeight =>
    (u.consensusUpgrade b privateCtx currentEpoch currentHeight).map fun o => (o.node b, o.invoked)
  | n, _ => some (n, [])

end Node

namespace Call

def height? : Call Target → Option Height
  | .consensusUpgrade _ _ currentHeight => some currentHeight
  | _ => none

def lastHeight (c : Call Target) (last : Option Height) : Option Height := c.height?.or last

/-- The calls the environment makes at a node that has seen heights up to `last`. -/
def Allowed (c : Call Target) (n : Node Target) (last : Option Height) : Prop :=
  match c with
  | .restart _ _ => True
  | .consensusUpgrade _ _ currentHeight =>
    n.isRunning ∧ currentHeight ≠ invalidUpgradeHeight ∧ ∀ l ∈ last, l ≤ currentHeight
  | _ => n.isRunning

end Call

/-- The states a node reaches from an empty store, with the last height it has seen. -/
inductive Reach : Node Target → Option Height → Prop where
  | init : Reach (.down none) none
  | step {n n' : Node Target} {last : Option Height} {c : Call Target} {invoked : List Ptr} :
      Reach n last → c.Allowed n last → n.call c = some (n', invoked) → Reach n' (c.lastHeight last)

end Orphiq.Upgrade

import OrphiqCore.Upgrade.ManagerSpec

/-!
# The stage discipline of a node's upgrades

Every state a node reaches is `Node.Sound`: a running manager is ready, and the store is sound
whatever runs. From there every call the environment makes returns without a panic. A call of a
running manager takes each of its pending upgrades one `StageStep` and runs a handler's consensus
stage only as `Invokes` says; a restart reads the upgrades back from the store, where the manager's
last flush or its `Close` put them, and takes each of them one `StageStep` (`reach_call_disciplined`). The heights of `ConsensusUpgrade` must not
be `InvalidUpgradeHeight`: at height 0 an upgrade that goes on in place is past its startup stage
with its height still unset, and the next call records the startup stage again and panics.
-/

namespace Orphiq.Upgrade

variable {Target : Type} [DecidableEq Target]

namespace Manager

variable {u : Manager Target} {last : Option Height}

theorem Ready.submitDescriptor (ready : u.Ready last) (descriptor : Option (Descriptor Target)) :
    (u.submitDescriptor descriptor).1.Ready last ∧ ∀ p ∈ u.pending, (u.submitDescriptor descriptor).1.heap p = u.heap p := by
  cases descriptor with
  | none => exact ⟨ready, fun _ _ => rfl⟩
  | some descriptor =>
    simp only [Manager.submitDescriptor, Manager.alloc]
    split
    · exact ⟨ready, fun _ _ => rfl⟩
    · -- A new upgrade at a fresh address, past no stage and with no height.
      have fresh : u.next ∉ u.pending := fun member => Nat.lt_irrefl _ (ready.bounded _ member)
      have old : ∀ p ∈ u.pending, Function.update u.heap u.next ⟨descriptor, invalidUpgradeHeight, 0⟩ p = u.heap p :=
        fun p member => Function.update_of_ne (fun (same : p = u.next) => fresh (same ▸ member)) _ _
      have added : ∀ p ∈ u.pending ++ [u.next], p ∈ u.pending ∨ p = u.next := fun p member => by
        simpa using member
      refine ⟨ready_flush ?_ ?_ ?_ ?_ ready.shouldStop, fun p member => old p member⟩
      · exact List.nodup_append.mpr ⟨ready.nodup, by simp,
          fun p member q single same => fresh (by rw [List.mem_singleton.mp single] at same; exact same ▸ member)⟩
      · intro p member
        rcases added p member with member | rfl
        · exact Nat.lt_succ_of_lt (ready.bounded p member)
        · exact Nat.lt_succ_self _
      · intro p member
        rcases added p member with member | rfl
        · simp only
          rw [old p member]
          exact ready.sound p member
        · simp only [Function.update_self]
          exact ⟨show (0 : UInt64) ≤ upgradeStageConsensus from by decide, fun stages => by simp [PendingUpgrade.hasAnyStages] at stages,
            fun set => absurd rfl set⟩
      · intro p member _
        rcases added p member with member | rfl
        · simp only
          rw [old p member]
          exact ready.started p member
        · simp [Function.update_self]

theorem Ready.cancelUpgrade (ready : u.Ready last) (descriptor : Option (Descriptor Target)) :
    (u.cancelUpgrade descriptor).1.Ready last ∧ (u.cancelUpgrade descriptor).1.heap = u.heap := by
  have flushed : ∀ keep : Ptr → Bool, ({ u with pending := u.pending.filter keep } : Manager Target).flushDescriptorLocked.Ready last :=
    fun keep => ready_flush (List.filter_sublist.nodup ready.nodup)
      (fun p member => ready.bounded p (List.mem_filter.mp member).1)
      (fun p member => ready.sound p (List.mem_filter.mp member).1)
      (fun p member _ => ready.started p (List.mem_filter.mp member).1) ready.shouldStop
  cases descriptor with
  | none => exact ⟨ready, rfl⟩
  | some descriptor =>
    simp only [Manager.cancelUpgrade]
    split
    · have all := flushed fun _ => true
      simp only [List.filter_true] at all
      exact ⟨all, rfl⟩
    · split
      · exact ⟨ready, rfl⟩
      · exact ⟨flushed _, rfl⟩

end Manager

/-- What the node keeps: a running manager is ready, a stopped one holds sound upgrades, and the
store is sound. -/
def Node.Sound : Node Target → Option Height → Prop
  | .down store, last => StoreSound store last
  | .running _ u, last => u.Ready last
  | .stopping _ u, last => u.Stopped last

omit [DecidableEq Target] in
theorem Node.Sound.persisted {n : Node Target} {last : Option Height} (sound : n.Sound last) (closed : Bool) :
    StoreSound (n.persisted closed) last := by
  cases n with
  | down store => cases closed <;> exact sound
  | running b u =>
    have stopped := (show u.Ready last from sound).stopped
    cases closed
    · exact stopped.store
    · exact Manager.storeSound_flush stopped.sound
  | stopping b u =>
    have stopped : u.Stopped last := sound
    cases closed
    · exact stopped.store
    · exact Manager.storeSound_flush stopped.sound

/-- A call of the running manager `u`, leaving `n'` and running the handlers' consensus stage of
`invoked`: every pending upgrade of `u` takes one `StageStep`, and those handler stages ran only
as `Invokes` says. -/
def Call.Disciplined (c : Call Target) (u : Manager Target) (n' : Node Target) (invoked : List Ptr) : Prop :=
  ∃ u', n'.manager? = some u' ∧ (∀ p ∈ u.pending, StageStep (u.heap p) (u'.heap p) c.height?) ∧
    ∀ p ∈ invoked, ∃ privateCtx currentEpoch currentHeight,
      c = .consensusUpgrade privateCtx currentEpoch currentHeight ∧ Invokes privateCtx currentHeight (u'.heap p)

section Calls

variable [Inhabited Target] {n : Node Target} {last : Option Height}

/-- A restart over the store `stored`, leaving `n'`: a manager it starts holds the stored upgrades
at their positions, each one `StageStep` on. -/
def Node.Restarted (stored : Option (List (PendingUpgrade Target))) (n' : Node Target) : Prop :=
  ∀ u', n'.manager? = some u' → u'.pending = List.range (stored.getD []).length ∧
    ∀ p ∈ u'.pending, StageStep ((stored.getD []).getD p default) (u'.heap p) none

omit [DecidableEq Target] [Inhabited Target] in
theorem Outcome.node_manager (o : Outcome Target) (b : Binary Target) : (o.node b).manager? = some o.manager := by
  unfold Outcome.node
  split
  · split <;> rfl
  · rfl

omit [DecidableEq Target] [Inhabited Target] in
theorem Outcome.node_sound {o : Outcome Target} (b : Binary Target)
    (ready : o.result = .ok () → o.manager.Ready last)
    (restart : ∀ err, o.result = .error err → err.needsRestart = true ∧ o.manager.Stopped last) :
    (o.node b).Sound last := by
  unfold Outcome.node
  split
  · rename_i err failed
    obtain ⟨needed, stopped⟩ := restart err failed
    simp only [needed, if_true]
    exact stopped
  · exact ready ‹_›

omit [DecidableEq Target] [Inhabited Target] in
theorem Call.Allowed.running {c : Call Target} (allowed : c.Allowed n last)
    (notRestart : ∀ b closed, c ≠ .restart b closed) :
    ∃ b u, n = .running b u := by
  cases n with
  | running b u => exact ⟨b, u, rfl⟩
  | down store => cases c <;> simp_all [Call.Allowed, Node.isRunning]
  | stopping b u => cases c <;> simp_all [Call.Allowed, Node.isRunning]

omit [DecidableEq Target] [Inhabited Target] in
theorem Call.disciplined_of_kept {c : Call Target} {u u' : Manager Target} (ready : u.Ready last) (b : Binary Target)
    (kept : ∀ p ∈ u.pending, u'.heap p = u.heap p) : c.Disciplined u (.running b u') [] :=
  ⟨u', rfl, fun p member => by rw [kept p member]; exact StageStep.refl (ready.sound p member),
    fun p member => (by cases member)⟩

omit [DecidableEq Target] in
/-- A restart never panics, and leaves the node sound and holding the stored upgrades. -/
theorem Node.Sound.restart (sound : n.Sound last) (b : Binary Target) (closed : Bool) :
    ∃ n', n.restart b closed = some n' ∧ n'.Sound last ∧ Node.Restarted (n.persisted closed) n' := by
  obtain ⟨r, created, loaded⟩ := Manager.new_loaded (b := b) (sound.persisted closed)
  unfold Node.restart
  rw [created]
  cases r with
  | error err => exact ⟨_, rfl, sound.persisted closed, fun u' running => (by cases running)⟩
  | ok u =>
    obtain ⟨loadedU, pending, heap⟩ := loaded u rfl
    obtain ⟨o, started, kept⟩ := loadedU.startupUpgrade (b := b)
    refine ⟨o.node b, by simp only [started, Option.map_some], Outcome.node_sound b kept.ready kept.restart,
      fun u' running => ?_⟩
    · -- The manager `StartupUpgrade` leaves is the one it was given, one step on.
      rw [Outcome.node_manager] at running
      cases running
      refine ⟨kept.pending.trans pending, fun p member => ?_⟩
      rw [kept.pending] at member
      rw [← heap p]
      exact kept.steps p member

/-- Every call the environment makes at a sound node returns without a panic, leaves the node
sound, and, on a running manager, is disciplined. -/
theorem Node.Sound.call (sound : n.Sound last) {c : Call Target} (allowed : c.Allowed n last) :
    ∃ n' invoked, n.call c = some (n', invoked) ∧ n'.Sound (c.lastHeight last) ∧
      (∀ b closed, c = .restart b closed → invoked = [] ∧ Node.Restarted (n.persisted closed) n') ∧
      ∀ b u, n = .running b u → (∀ b' closed', c ≠ .restart b' closed') → c.Disciplined u n' invoked := by
  cases c with
  | restart b closed =>
    obtain ⟨n', restarted, sound', kept⟩ := sound.restart b closed
    refine ⟨n', [], by simp [Node.call, restarted], sound', fun _ _ same => ?_,
      fun _ _ _ notRestart => absurd rfl (notRestart b closed)⟩
    cases same
    exact ⟨rfl, kept⟩
  | submitDescriptor descriptor =>
    obtain ⟨b, u, rfl⟩ := allowed.running nofun
    obtain ⟨ready, kept⟩ := Manager.Ready.submitDescriptor sound descriptor
    refine ⟨_, [], rfl, ready, nofun, fun b' u' same _ => ?_⟩
    cases same
    exact Call.disciplined_of_kept sound b kept
  | cancelUpgrade descriptor =>
    obtain ⟨b, u, rfl⟩ := allowed.running nofun
    obtain ⟨ready, kept⟩ := Manager.Ready.cancelUpgrade sound descriptor
    refine ⟨_, [], rfl, ready, nofun, fun b' u' same _ => ?_⟩
    cases same
    exact Call.disciplined_of_kept sound b fun p _ => by rw [kept]
  | consensusUpgrade privateCtx currentEpoch currentHeight =>
    obtain ⟨b, u, rfl⟩ := allowed.running nofun
    obtain ⟨-, valid, above⟩ := allowed
    obtain ⟨o, called, finished⟩ := Manager.Ready.consensusUpgrade b privateCtx currentEpoch sound above valid
    refine ⟨o.node b, o.invoked, by simp [Node.call, called], Outcome.node_sound b finished.ready finished.restart,
      nofun, fun b' u' same _ => ?_⟩
    cases same
    exact ⟨o.manager, o.node_manager b, finished.steps, fun p member =>
      ⟨privateCtx, currentEpoch, currentHeight, rfl, finished.invoked p member⟩⟩

/-- Every state a node reaches is sound, by induction on the calls that reach it. -/
theorem Reach.sound {n : Node Target} {last : Option Height} (reach : Reach n last) : n.Sound last := by
  induction reach with
  | init => exact fun l stored => by cases stored
  | step _ allowed called ih =>
    obtain ⟨n', invoked, called', sound', -, -⟩ := ih.call allowed
    rw [called] at called'
    cases called'
    exact sound'

/-- At every state a node reaches, every call the environment makes returns without a panic; a
restart runs no handler's consensus stage and holds the stored upgrades each one step on; and a
call of a running manager takes each of its pending upgrades one step, running a handler's
consensus stage only at the upgrade's height, with a context, before its Consensus stage. -/
theorem reach_call_disciplined {n : Node Target} {last : Option Height} (reach : Reach n last)
    {c : Call Target} (allowed : c.Allowed n last) :
    ∃ n' invoked, n.call c = some (n', invoked) ∧
      (∀ b closed, c = .restart b closed → invoked = [] ∧ Node.Restarted (n.persisted closed) n') ∧
      ∀ b u, n = .running b u → (∀ b' closed', c ≠ .restart b' closed') → c.Disciplined u n' invoked := by
  obtain ⟨n', invoked, called, -, restarted, disciplined⟩ := reach.sound.call allowed
  exact ⟨n', invoked, called, restarted, disciplined⟩

end Calls

/-- A binary whose one migration handler has no startup stage: its upgrades go on in place. -/
def inPlaceBinary : Binary Unit := ⟨fun _ => true, fun _ => some ⟨false, true, true⟩⟩

/-- An upgrade that `inPlaceBinary` takes in place at epoch 1. -/
def inPlaceUpgrade : Descriptor Unit := ⟨1, "in-place", (), 1⟩

theorem inPlace_consensus_disciplined : ∃ n : Node Unit, Reach n none ∧
    (Call.consensusUpgrade true 1 5 : Call Unit).Allowed n none ∧
    ∃ n' invoked, n.call (.consensusUpgrade true 1 5) = some (n', invoked) ∧
      (∀ b closed, (Call.consensusUpgrade true 1 5 : Call Unit) = .restart b closed → invoked = [] ∧
        Node.Restarted (n.persisted closed) n') ∧
      ∀ b u, n = .running b u → (∀ b' closed', (Call.consensusUpgrade true 1 5 : Call Unit) ≠ .restart b' closed') →
        (Call.consensusUpgrade true 1 5 : Call Unit).Disciplined u n' invoked := by
  -- The node restarted over an empty store, with the upgrade submitted.
  have reach : Reach (.running inPlaceBinary ((Manager.init none).submitDescriptor (some inPlaceUpgrade)).1) none :=
    .step (c := .submitDescriptor (some inPlaceUpgrade)) (.step (c := .restart inPlaceBinary false) .init trivial rfl) rfl rfl
  have allowed : (Call.consensusUpgrade true 1 5 : Call Unit).Allowed
      (.running inPlaceBinary ((Manager.init none).submitDescriptor (some inPlaceUpgrade)).1) none :=
    ⟨rfl, by decide, fun _ seen => by cases seen⟩
  exact ⟨_, reach, allowed, reach_call_disciplined reach allowed⟩

/-- At `InvalidUpgradeHeight` the upgrade goes on in place with its height still unset: the next
call sets its height again and records its startup stage a second time, and panics. -/
theorem consensusUpgrade_panics_after_height_zero :
    ∃ n₁ n₂ n₃ i₁ i₂ i₃, (Node.down none : Node Unit).call (.restart inPlaceBinary false) = some (n₁, i₁) ∧
      n₁.isRunning = true ∧ n₁.call (.submitDescriptor (some inPlaceUpgrade)) = some (n₂, i₂) ∧
      n₂.isRunning = true ∧ n₂.call (.consensusUpgrade true 1 0) = some (n₃, i₃) ∧ n₃.isRunning = true ∧
      n₃.call (.consensusUpgrade true 1 1) = none :=
  ⟨_, _, _, _, _, _, rfl, rfl, rfl, rfl, rfl, rfl, rfl⟩

end Orphiq.Upgrade

import OrphiqCore.Upgrade.Node
import Mathlib.Data.List.GetD

/-!
# The stages of the pending upgrades

`PendingUpgrade.Sound` is what every upgrade the node keeps satisfies: it is past no stage until
its height is set, at most at the Consensus stage, and set to a height the node has seen. A manager
between calls is `Ready`: its pending upgrades are sound and incomplete, those whose height is set
are past their startup stage, and its store is sound. From a ready manager, `ConsensusUpgrade` at a
height no lower than those seen and not `InvalidUpgradeHeight` never panics, and takes every
upgrade one `StageStep`: its stage goes up by at most one, its height once set stays, the
Consensus stage is recorded only above the upgrade's height, and the handler's consensus stage runs
only at that height, with a context, before the Consensus stage (`Invokes`). `New` and
`StartupUpgrade` over a sound store never panic and leave a ready manager.
-/

namespace Orphiq.Upgrade

variable {Target : Type}

namespace PendingUpgrade

/-- A pending upgrade as the node keeps it, having seen heights up to `last`. -/
structure Sound (pu : PendingUpgrade Target) (last : Option Height) : Prop where
  stage_le : pu.lastCompletedStage ≤ upgradeStageConsensus
  height_set : pu.hasAnyStages = true → pu.upgradeHeight ≠ invalidUpgradeHeight
  height_seen : pu.upgradeHeight ≠ invalidUpgradeHeight → ∃ l ∈ last, pu.upgradeHeight ≤ l

theorem Sound.mono {pu : PendingUpgrade Target} {last last' : Option Height} (sound : pu.Sound last)
    (later : ∀ l ∈ last, ∃ l' ∈ last', l ≤ l') : pu.Sound last' where
  stage_le := sound.stage_le
  height_set := sound.height_set
  height_seen set := by
    obtain ⟨l, seen, below⟩ := sound.height_seen set
    obtain ⟨l', seen', above⟩ := later l seen
    exact ⟨l', seen', Int.le_trans below above⟩

theorem lastCompletedStage_eq_zero {pu : PendingUpgrade Target} (none : pu.hasAnyStages = false) :
    pu.lastCompletedStage = 0 := by
  simp only [hasAnyStages] at none
  grind

theorem lastCompletedStage_eq_one {pu : PendingUpgrade Target} (incomplete : pu.isCompleted = false)
    (started : pu.hasStage upgradeStageStartup = true) : pu.lastCompletedStage = 1 := by
  simp only [isCompleted, upgradeStageLast, upgradeStageConsensus] at incomplete
  simp only [hasStage, upgradeStageStartup] at started
  grind

theorem startup_le_consensus : upgradeStageStartup ≤ upgradeStageConsensus := by decide

theorem pushStage_eq (pu : PendingUpgrade Target) (stage : UpgradeStage) (next : pu.lastCompletedStage + 1 = stage) :
    pu.pushStage stage = some { pu with lastCompletedStage := stage } := by
  simp [pushStage, next]

end PendingUpgrade

/-- What a call does to a pending upgrade, at the call's height if it has one: its stage goes up
by at most one and no higher than the Consensus stage, a height once set stays, the upgrade is
past no stage before its height is set, and the Consensus stage is recorded only at a height above
the upgrade's. -/
structure StageStep (old new : PendingUpgrade Target) (currentHeight : Option Height) : Prop where
  stage : new.lastCompletedStage = old.lastCompletedStage ∨ new.lastCompletedStage = old.lastCompletedStage + 1
  stage_le : new.lastCompletedStage ≤ upgradeStageConsensus
  height : old.upgradeHeight ≠ invalidUpgradeHeight → new.upgradeHeight = old.upgradeHeight
  height_set : new.hasAnyStages = true → new.upgradeHeight ≠ invalidUpgradeHeight
  consensus : new.lastCompletedStage = upgradeStageConsensus → old.lastCompletedStage ≠ upgradeStageConsensus →
    ∃ h ∈ currentHeight, new.upgradeHeight < h

theorem StageStep.refl {pu : PendingUpgrade Target} {last currentHeight : Option Height}
    (sound : pu.Sound last) : StageStep pu pu currentHeight where
  stage := .inl rfl
  stage_le := sound.stage_le
  height _ := rfl
  height_set := sound.height_set
  consensus recorded different := absurd recorded different

theorem StageStep.reached {pu : PendingUpgrade Target} {currentHeight : Height}
    (unset : pu.upgradeHeight = invalidUpgradeHeight) (fresh : pu.lastCompletedStage = 0) :
    StageStep pu { pu with upgradeHeight := currentHeight } (some currentHeight) where
  stage := .inl rfl
  stage_le := by simp only [fresh]; decide
  height set := absurd unset set
  height_set stages := by simp [PendingUpgrade.hasAnyStages, fresh] at stages
  consensus recorded := by simp [fresh, upgradeStageConsensus] at recorded

theorem StageStep.startup {pu : PendingUpgrade Target} {currentHeight : Height}
    (unset : pu.upgradeHeight = invalidUpgradeHeight) (fresh : pu.lastCompletedStage = 0)
    (valid : currentHeight ≠ invalidUpgradeHeight) :
    StageStep pu { pu with upgradeHeight := currentHeight, lastCompletedStage := upgradeStageStartup }
      (some currentHeight) where
  stage := .inr (by simp [fresh, upgradeStageStartup])
  stage_le := PendingUpgrade.startup_le_consensus
  height set := absurd unset set
  height_set _ := valid
  consensus recorded := by simp [upgradeStageStartup, upgradeStageConsensus] at recorded

theorem StageStep.startup_of_set {pu : PendingUpgrade Target} {currentHeight : Option Height}
    (set : pu.upgradeHeight ≠ invalidUpgradeHeight) (fresh : pu.lastCompletedStage = 0) :
    StageStep pu { pu with lastCompletedStage := upgradeStageStartup } currentHeight where
  stage := .inr (by simp [fresh, upgradeStageStartup])
  stage_le := PendingUpgrade.startup_le_consensus
  height _ := rfl
  height_set _ := set
  consensus recorded := by simp [upgradeStageStartup, upgradeStageConsensus] at recorded

theorem StageStep.consensus_of_lt {pu : PendingUpgrade Target} {currentHeight : Height}
    (started : pu.lastCompletedStage = 1) (set : pu.upgradeHeight ≠ invalidUpgradeHeight)
    (past : pu.upgradeHeight < currentHeight) :
    StageStep pu { pu with lastCompletedStage := upgradeStageConsensus } (some currentHeight) where
  stage := .inr (by rw [started]; rfl)
  stage_le := UInt64.le_refl _
  height _ := rfl
  height_set _ := set
  consensus _ _ := ⟨currentHeight, rfl, past⟩

/-- The handler's consensus stage ran for an upgrade in a call with `privateCtx` at `currentHeight`:
there is a context, the call is at the upgrade's height, and the Consensus stage is not recorded. -/
structure Invokes (privateCtx : Bool) (currentHeight : Height) (pu : PendingUpgrade Target) : Prop where
  context : privateCtx = true
  height : pu.upgradeHeight = currentHeight
  before : pu.lastCompletedStage ≠ upgradeStageConsensus

/-- The store holds sound upgrades, none of them complete. -/
def StoreSound (store : Option (List (PendingUpgrade Target))) (last : Option Height) : Prop :=
  ∀ l ∈ store, ∀ pu ∈ l, pu.Sound last ∧ pu.isCompleted = false

theorem StoreSound.mono {store : Option (List (PendingUpgrade Target))} {last last' : Option Height}
    (sound : StoreSound store last) (later : ∀ l ∈ last, ∃ l' ∈ last', l ≤ l') : StoreSound store last' := by
  intro l stored pu member
  obtain ⟨upgrade, incomplete⟩ := sound l stored pu member
  exact ⟨upgrade.mono later, incomplete⟩

namespace Manager

/-- A manager as `New` leaves it: distinct pointers to sound, incomplete upgrades, and a sound store. -/
structure Loaded (u : Manager Target) (last : Option Height) : Prop where
  nodup : u.pending.Nodup
  bounded : ∀ p ∈ u.pending, p < u.next
  sound : ∀ p ∈ u.pending, (u.heap p).Sound last
  incomplete : ∀ p ∈ u.pending, (u.heap p).isCompleted = false
  store : StoreSound u.store last
  shouldStop : u.shouldStop = false

/-- A running manager between calls: an upgrade whose height is set is past its startup stage. -/
structure Ready (u : Manager Target) (last : Option Height) : Prop extends u.Loaded last where
  started : ∀ p ∈ u.pending, (u.heap p).upgradeHeight ≠ invalidUpgradeHeight →
    (u.heap p).hasStage upgradeStageStartup = true

/-- A manager the node restarts from: its store is sound, and so are the upgrades it still holds,
which closing it flushes to the store. -/
structure Stopped (u : Manager Target) (last : Option Height) : Prop where
  store : StoreSound u.store last
  sound : ∀ p ∈ u.pending, (u.heap p).Sound last

theorem Ready.stopped {u : Manager Target} {last : Option Height} (ready : u.Ready last) : u.Stopped last :=
  ⟨ready.store, ready.sound⟩

@[simp] theorem set_heap_self (u : Manager Target) (p : Ptr) (pu : PendingUpgrade Target) :
    (u.set p pu).heap p = pu := by
  simp only [set, Function.update_self]

theorem set_heap_of_ne (u : Manager Target) {p q : Ptr} (pu : PendingUpgrade Target) (other : q ≠ p) :
    (u.set p pu).heap q = u.heap q := by
  simp only [set]
  exact Function.update_of_ne other pu u.heap

@[simp] theorem set_pending (u : Manager Target) (p : Ptr) (pu : PendingUpgrade Target) :
    (u.set p pu).pending = u.pending := rfl

@[simp] theorem set_next (u : Manager Target) (p : Ptr) (pu : PendingUpgrade Target) :
    (u.set p pu).next = u.next := rfl

@[simp] theorem set_store (u : Manager Target) (p : Ptr) (pu : PendingUpgrade Target) :
    (u.set p pu).store = u.store := rfl

@[simp] theorem set_shouldStop (u : Manager Target) (p : Ptr) (pu : PendingUpgrade Target) :
    (u.set p pu).shouldStop = u.shouldStop := rfl

@[simp] theorem flush_heap (u : Manager Target) : u.flushDescriptorLocked.heap = u.heap := rfl

@[simp] theorem flush_next (u : Manager Target) : u.flushDescriptorLocked.next = u.next := rfl

@[simp] theorem flush_shouldStop (u : Manager Target) : u.flushDescriptorLocked.shouldStop = u.shouldStop := rfl

@[simp] theorem flush_pending (u : Manager Target) :
    u.flushDescriptorLocked.pending = u.pending.filter fun p => !(u.heap p).isCompleted := rfl

theorem storeSound_flush {u : Manager Target} {last : Option Height}
    (sound : ∀ p ∈ u.pending, (u.heap p).Sound last) : StoreSound u.flushDescriptorLocked.store last := by
  intro l stored pu member
  simp only [flushDescriptorLocked] at stored
  split at stored
  · contradiction
  · cases stored
    obtain ⟨p, kept, rfl⟩ := List.mem_map.mp member
    obtain ⟨inPending, incomplete⟩ := List.mem_filter.mp kept
    exact ⟨sound p inPending, by simpa using incomplete⟩

theorem loaded_flush {u : Manager Target} {last : Option Height} (nodup : u.pending.Nodup)
    (bounded : ∀ p ∈ u.pending, p < u.next) (sound : ∀ p ∈ u.pending, (u.heap p).Sound last)
    (running : u.shouldStop = false) : u.flushDescriptorLocked.Loaded last := by
  have kept : ∀ p ∈ u.flushDescriptorLocked.pending, p ∈ u.pending ∧ (u.heap p).isCompleted = false := by
    intro p member
    simp only [flush_pending, List.mem_filter, Bool.not_eq_eq_eq_not, Bool.not_true] at member
    exact member
  exact {
    nodup := List.filter_sublist.nodup nodup
    bounded := fun p member => bounded p (kept p member).1
    sound := fun p member => sound p (kept p member).1
    incomplete := fun p member => (kept p member).2
    store := storeSound_flush sound
    shouldStop := running }

theorem ready_flush {u : Manager Target} {last : Option Height} (nodup : u.pending.Nodup)
    (bounded : ∀ p ∈ u.pending, p < u.next) (sound : ∀ p ∈ u.pending, (u.heap p).Sound last)
    (started : ∀ p ∈ u.pending, (u.heap p).isCompleted = false → (u.heap p).upgradeHeight ≠ invalidUpgradeHeight →
      (u.heap p).hasStage upgradeStageStartup = true)
    (running : u.shouldStop = false) : u.flushDescriptorLocked.Ready last where
  toLoaded := loaded_flush nodup bounded sound running
  started p member := by
    simp only [flush_pending, List.mem_filter, Bool.not_eq_eq_eq_not, Bool.not_true] at member
    exact started p member.1 member.2

section Consensus

variable (b : Binary Target) (privateCtx : Bool) (currentEpoch : EpochTime) (currentHeight : Height)

/-- The loop of `ConsensusUpgrade` at `currentHeight`, from the ready manager `u₀`, at `u` with
`rest` still to visit. -/
structure Looping (u₀ u : Manager Target) (rest : List Ptr) : Prop where
  next : u.next = u₀.next
  pending : u.pending.Sublist u₀.pending
  waiting : ∀ p ∈ rest, p ∈ u.pending ∧ u.heap p = u₀.heap p
  restNodup : rest.Nodup
  sound : ∀ p ∈ u₀.pending, (u.heap p).Sound (some currentHeight)
  started : ∀ p ∈ u₀.pending, (u.heap p).isCompleted = false →
    (u.heap p).upgradeHeight ≠ invalidUpgradeHeight → (u.heap p).hasStage upgradeStageStartup = true
  store : StoreSound u.store (some currentHeight)
  shouldStop : u.shouldStop = false
  steps : ∀ p ∈ u₀.pending, StageStep (u₀.heap p) (u.heap p) (some currentHeight)
  frame : ∀ p ∉ u₀.pending, u.heap p = u₀.heap p

/-- The loop stopped at `u`, which the node restarts from, and every upgrade has taken its step. -/
structure Halted (u₀ u : Manager Target) : Prop where
  stopped : u.Stopped (some currentHeight)
  steps : ∀ p ∈ u₀.pending, StageStep (u₀.heap p) (u.heap p) (some currentHeight)
  frame : ∀ p ∉ u₀.pending, u.heap p = u₀.heap p

/-- What visiting `p` leaves, when `u` was the manager before: only `p` changed, the loop goes on
over `rest` or stops with an error after which the node restarts, and the handler's consensus
stage ran only as `Invokes` says. -/
def Visited (u₀ u : Manager Target) (p : Ptr) (rest : List Ptr) : Visit Target → Prop
  | .next u' invoked => Looping currentHeight u₀ u' rest ∧ (∀ q, q ≠ p → u'.heap q = u.heap q) ∧
      (invoked = true → Invokes privateCtx currentHeight (u'.heap p))
  | .stop u' invoked err => err.needsRestart = true ∧ Halted currentHeight u₀ u' ∧
      (∀ q, q ≠ p → u'.heap q = u.heap q) ∧ (invoked = true → Invokes privateCtx currentHeight (u'.heap p))

/-- What the loop of `ConsensusUpgrade` returns, from `u` with `rest` to visit: a ready manager,
or an error after which the node restarts with a sound store; every upgrade one step on; and the
handler's consensus stage run only as `Invokes` says. -/
structure Finished (u₀ u : Manager Target) (rest : List Ptr) (o : Outcome Target) : Prop where
  ready : o.result = .ok () → o.manager.Ready (some currentHeight)
  restart : ∀ err, o.result = .error err → err.needsRestart = true ∧ o.manager.Stopped (some currentHeight)
  steps : ∀ q ∈ u₀.pending, StageStep (u₀.heap q) (o.manager.heap q) (some currentHeight)
  frame : ∀ q ∉ u₀.pending, o.manager.heap q = u₀.heap q
  invoked : ∀ q ∈ o.invoked, Invokes privateCtx currentHeight (o.manager.heap q)
  settled : ∀ q ∉ rest, o.manager.heap q = u.heap q

variable {b privateCtx currentEpoch currentHeight}
variable {u₀ u : Manager Target} {p : Ptr} {rest : List Ptr}

theorem Looping.tail (looping : Looping currentHeight u₀ u (p :: rest)) : Looping currentHeight u₀ u rest where
  next := looping.next
  pending := looping.pending
  waiting q member := looping.waiting q (List.mem_cons_of_mem p member)
  restNodup := (List.nodup_cons.mp looping.restNodup).2
  sound := looping.sound
  started := looping.started
  store := looping.store
  shouldStop := looping.shouldStop
  steps := looping.steps
  frame := looping.frame

theorem Looping.halted (looping : Looping currentHeight u₀ u rest) : Halted currentHeight u₀ u :=
  ⟨⟨looping.store, fun p member => looping.sound p (looping.pending.subset member)⟩, looping.steps, looping.frame⟩

theorem Looping.mem_pending (looping : Looping currentHeight u₀ u (p :: rest)) : p ∈ u₀.pending :=
  looping.pending.subset (looping.waiting p List.mem_cons_self).1

theorem Looping.update (looping : Looping currentHeight u₀ u (p :: rest)) {u' : Manager Target}
    (heapP : (u'.heap p).Sound (some currentHeight))
    (startedP : (u'.heap p).isCompleted = false → (u'.heap p).upgradeHeight ≠ invalidUpgradeHeight →
      (u'.heap p).hasStage upgradeStageStartup = true)
    (stepP : StageStep (u₀.heap p) (u'.heap p) (some currentHeight))
    (others : ∀ q, q ≠ p → u'.heap q = u.heap q) (shorter : u'.pending.Sublist u.pending)
    (keeps : ∀ q ∈ rest, q ∈ u'.pending) (store : StoreSound u'.store (some currentHeight))
    (next : u'.next = u.next) (running : u'.shouldStop = false) : Looping currentHeight u₀ u' rest := by
  have distinct : ∀ q ∈ rest, q ≠ p := fun q member same =>
    (List.nodup_cons.mp looping.restNodup).1 (same ▸ member)
  have inPending := looping.mem_pending
  exact {
    next := next.trans looping.next
    pending := shorter.trans looping.pending
    waiting := fun q member => ⟨keeps q member, (others q (distinct q member)).trans
      (looping.waiting q (List.mem_cons_of_mem p member)).2⟩
    restNodup := (List.nodup_cons.mp looping.restNodup).2
    sound := fun q member => by
      by_cases same : q = p
      · exact same ▸ heapP
      · rw [others q same]
        exact looping.sound q member
    started := fun q member => by
      by_cases same : q = p
      · exact same ▸ startedP
      · rw [others q same]
        exact looping.started q member
    store := store
    shouldStop := running
    steps := fun q member => by
      by_cases same : q = p
      · exact same ▸ stepP
      · rw [others q same]
        exact looping.steps q member
    frame := fun q outside => by
      rw [others q fun same => outside (same ▸ inPending)]
      exact looping.frame q outside }

variable (b privateCtx) in
theorem Looping.visited_atHeight (looping : Looping currentHeight u₀ u rest)
    (height : (u.heap p).upgradeHeight = currentHeight)
    (before : (u.heap p).lastCompletedStage ≠ upgradeStageConsensus) :
    ∃ v, consensusUpgradeAtHeight b privateCtx currentHeight u p = some v ∧
      Visited privateCtx currentHeight u₀ u p rest v := by
  have invokes : privateCtx = true → Invokes privateCtx currentHeight (u.heap p) :=
    fun context => ⟨context, height, before⟩
  have notPast : ¬ (u.heap p).upgradeHeight < currentHeight := by
    rw [height]
    exact Int.lt_irrefl _
  have notFuture : ¬ (u.heap p).upgradeHeight > currentHeight := by
    rw [height]
    exact Int.lt_irrefl _
  simp only [consensusUpgradeAtHeight, notPast, notFuture, if_false]
  split
  · rename_i due
    simp only [Bool.and_eq_true] at due
    split
    · exact ⟨_, rfl, rfl, looping.halted, fun _ _ => rfl, fun invoked => by cases invoked⟩
    · split
      · exact ⟨_, rfl, looping, fun _ _ => rfl, fun _ => invokes due.2⟩
      · exact ⟨_, rfl, rfl, looping.halted, fun _ _ => rfl, fun _ => invokes due.2⟩
  · exact ⟨_, rfl, looping, fun _ _ => rfl, fun invoked => by cases invoked⟩

theorem Visited.of_touches {u' : Manager Target} {v : Visit Target}
    (visited : Visited privateCtx currentHeight u₀ u' p rest v) (touches : ∀ q, q ≠ p → u'.heap q = u.heap q) :
    Visited privateCtx currentHeight u₀ u p rest v := by
  cases v with
  | next w invoked =>
    obtain ⟨looping, others, invokes⟩ := visited
    exact ⟨looping, fun q other => (others q other).trans (touches q other), invokes⟩
  | stop w invoked err =>
    obtain ⟨restart, halted, others, invokes⟩ := visited
    exact ⟨restart, halted, fun q other => (others q other).trans (touches q other), invokes⟩

theorem Looping.visited_past (looping : Looping currentHeight u₀ u (p :: rest))
    (started : (u.heap p).lastCompletedStage = 1) (past : (u.heap p).upgradeHeight < currentHeight) :
    ∃ v, consensusUpgradeAtHeight b privateCtx currentHeight u p = some v ∧
      Visited privateCtx currentHeight u₀ u p rest v := by
  have member := looping.mem_pending
  have unvisited := (looping.waiting p List.mem_cons_self).2
  have sound := looping.sound p member
  have set : (u.heap p).upgradeHeight ≠ invalidUpgradeHeight := sound.height_set (by
    simp only [PendingUpgrade.hasAnyStages, started]
    decide)
  have pushed := PendingUpgrade.pushStage_eq (u.heap p) upgradeStageConsensus (by rw [started]; rfl)
  simp only [consensusUpgradeAtHeight, if_pos past, pushed, Option.map_some]
  refine ⟨_, rfl, ?_, fun q other => set_heap_of_ne u _ other, fun invoked => by cases invoked⟩
  apply looping.update
  · rw [set_heap_self]
    exact ⟨UInt64.le_refl _, fun _ => set, sound.height_seen⟩
  · intro incomplete
    simp [PendingUpgrade.isCompleted, upgradeStageLast] at incomplete
  · rw [set_heap_self, ← unvisited]
    exact StageStep.consensus_of_lt started set past
  · exact fun q other => set_heap_of_ne u _ other
  · exact List.Sublist.refl _
  · exact fun q member => (looping.waiting q (List.mem_cons_of_mem p member)).1
  · exact looping.store
  · rfl
  · exact looping.shouldStop

theorem Looping.visited_reached (looping : Looping currentHeight u₀ u (p :: rest))
    (unset : (u.heap p).upgradeHeight = invalidUpgradeHeight) (fresh : (u.heap p).lastCompletedStage = 0)
    (incomplete : ∀ q ∈ rest, (u.heap q).isCompleted = false) (valid : currentHeight ≠ invalidUpgradeHeight) :
    ∃ v, (let u' := (u.set p { u.heap p with upgradeHeight := currentHeight }).flushDescriptorLocked
          let u' := { u' with shouldStop := mustStop b (u.heap p).descriptor }
          if u'.shouldStop then some (.stop u' false .stopForUpgrade)
          else match (u'.heap p).pushStage upgradeStageStartup with
            | none => none
            | some pu => consensusUpgradeAtHeight b privateCtx currentHeight (u'.set p pu) p) = some v ∧
      Visited privateCtx currentHeight u₀ u p rest v := by
  have member := looping.mem_pending
  have unvisited := (looping.waiting p List.mem_cons_self).2
  -- The upgrade at its new height, before and after its startup stage.
  have reachedSound : ({ u.heap p with upgradeHeight := currentHeight } : PendingUpgrade Target).Sound
      (some currentHeight) :=
    ⟨by rw [fresh]; decide, fun _ => valid, fun _ => ⟨currentHeight, rfl, Int.le_refl _⟩⟩
  have reachedStep : StageStep (u₀.heap p) { u.heap p with upgradeHeight := currentHeight } (some currentHeight) := by
    rw [← unvisited]
    exact StageStep.reached unset fresh
  have others : ∀ q, q ≠ p → (u.set p { u.heap p with upgradeHeight := currentHeight }).heap q = u.heap q :=
    fun q other => set_heap_of_ne u _ other
  have setSound : ∀ q ∈ u.pending,
      ((u.set p { u.heap p with upgradeHeight := currentHeight }).heap q).Sound (some currentHeight) := by
    intro q inPending
    by_cases same : q = p
    · subst same
      rw [set_heap_self]
      exact reachedSound
    · rw [others q same]
      exact looping.sound q (looping.pending.subset inPending)
  have flushed : StoreSound (u.set p { u.heap p with upgradeHeight := currentHeight }).flushDescriptorLocked.store
      (some currentHeight) := storeSound_flush setSound
  dsimp only
  split
  · -- The node must stop: the height is stored, and the upgrade waits for the restart.
    refine ⟨_, rfl, rfl, ⟨⟨flushed, fun q kept => setSound q (List.mem_filter.mp kept).1⟩,
      fun q inPending => ?_, fun q outside => ?_⟩, fun q other => by simp [others q other],
      fun invoked => by cases invoked⟩
    · by_cases same : q = p
      · subst same
        simpa using reachedStep
      · simpa [others q same] using looping.steps q inPending
    · have other : q ≠ p := fun same => outside (same ▸ member)
      simpa [others q other] using looping.frame q outside
  · -- In place: the startup stage is recorded now.
    rename_i running
    have pushed := PendingUpgrade.pushStage_eq { u.heap p with upgradeHeight := currentHeight }
      upgradeStageStartup (by simp [fresh, upgradeStageStartup])
    simp only [flush_heap, set_heap_self, pushed]
    have goesOn : Looping currentHeight u₀ (({ (u.set p { u.heap p with upgradeHeight := currentHeight }).flushDescriptorLocked with
        shouldStop := mustStop b (u.heap p).descriptor } : Manager Target).set p
        { u.heap p with upgradeHeight := currentHeight, lastCompletedStage := upgradeStageStartup }) rest := by
      apply looping.update
      · simp only [set_heap_self]
        exact ⟨PendingUpgrade.startup_le_consensus, fun _ => valid, fun _ => ⟨currentHeight, rfl, Int.le_refl _⟩⟩
      · intro _ _
        simp [PendingUpgrade.hasStage]
      · simp only [set_heap_self]
        rw [← unvisited]
        exact StageStep.startup unset fresh valid
      · intro q other
        simp [set_heap_of_ne _ _ other]
      · simp only [set_pending, flush_pending]
        exact List.filter_sublist
      · intro q waiting
        have distinct : q ≠ p := fun same => (List.nodup_cons.mp looping.restNodup).1 (same ▸ waiting)
        simp only [set_pending, flush_pending, List.mem_filter]
        refine ⟨(looping.waiting q (List.mem_cons_of_mem p waiting)).1, ?_⟩
        rw [others q distinct, incomplete q waiting]
        rfl
      · exact flushed
      · rfl
      · simpa using running
    obtain ⟨v, visit, visited⟩ := goesOn.visited_atHeight b privateCtx (p := p)
      (by simp) (by simp [upgradeStageStartup, upgradeStageConsensus])
    refine ⟨v, visit, visited.of_touches fun q other => ?_⟩
    simp [set_heap_of_ne _ _ other]

variable (b privateCtx currentEpoch) in
theorem Looping.visited (looping : Looping currentHeight u₀ u (p :: rest))
    (incomplete : ∀ q ∈ u₀.pending, (u₀.heap q).isCompleted = false) (valid : currentHeight ≠ invalidUpgradeHeight) :
    ∃ v, consensusUpgradeAt b privateCtx currentEpoch currentHeight u p = some v ∧
      Visited privateCtx currentHeight u₀ u p rest v := by
  have member := looping.mem_pending
  have unvisited := (looping.waiting p List.mem_cons_self).2
  have sound := looping.sound p member
  have undone : (u.heap p).isCompleted = false := unvisited ▸ incomplete p member
  unfold consensusUpgradeAt
  by_cases unset : (u.heap p).upgradeHeight = invalidUpgradeHeight
  · -- No stage before the height is set.
    have fresh : (u.heap p).lastCompletedStage = 0 := PendingUpgrade.lastCompletedStage_eq_zero (by
      cases stages : (u.heap p).hasAnyStages
      · rfl
      · exact absurd unset (sound.height_set stages))
    have waiting : ∀ q ∈ rest, (u.heap q).isCompleted = false := fun q member => by
      obtain ⟨inPending, same⟩ := looping.waiting q (List.mem_cons_of_mem p member)
      rw [same]
      exact incomplete q (looping.pending.subset inPending)
    simp only [if_pos unset]
    split
    · exact ⟨_, rfl, looping.tail, fun _ _ => rfl, fun invoked => by cases invoked⟩
    · exact looping.visited_reached unset fresh waiting valid
  · -- A height once set means the startup stage is done, and the height was seen.
    have started : (u.heap p).lastCompletedStage = 1 :=
      PendingUpgrade.lastCompletedStage_eq_one undone (looping.started p member undone unset)
    obtain ⟨l, seen, below⟩ := sound.height_seen unset
    cases seen
    simp only [if_neg unset]
    by_cases past : (u.heap p).upgradeHeight < currentHeight
    · exact looping.visited_past started past
    · exact looping.tail.visited_atHeight b privateCtx (Int.le_antisymm below (Int.not_lt.mp past))
        (by rw [started]; decide)

/-- The loop of `ConsensusUpgrade` never panics, by induction on what it still has to visit. -/
theorem Looping.finished (ready : u₀.Ready last) (valid : currentHeight ≠ invalidUpgradeHeight) :
    ∀ {u : Manager Target} {rest : List Ptr}, Looping currentHeight u₀ u rest →
      ∃ o, loop (consensusUpgradeAt b privateCtx currentEpoch currentHeight) u rest = some o ∧
        Finished privateCtx currentHeight u₀ u rest o
  | u, [], looping => by
    refine ⟨_, rfl, fun _ => ?_, fun err failed => (by cases failed), looping.steps, looping.frame,
      fun q member => (by cases member), fun _ _ => rfl⟩
    exact ready_flush (looping.pending.nodup ready.nodup)
      (fun p member => looping.next ▸ ready.bounded p (looping.pending.subset member))
      (fun p member => looping.sound p (looping.pending.subset member))
      (fun p member => looping.started p (looping.pending.subset member)) looping.shouldStop
  | u, p :: rest, looping => by
    obtain ⟨v, visit, visited⟩ := looping.visited b privateCtx currentEpoch ready.incomplete valid
    have distinct : p ∉ rest := (List.nodup_cons.mp looping.restNodup).1
    cases v with
    | next u' invoked =>
      obtain ⟨looping', touches, invokes⟩ := visited
      obtain ⟨o, run, finished⟩ := Looping.finished ready valid looping'
      refine ⟨{ o with invoked := if invoked then p :: o.invoked else o.invoked },
        by simp only [loop, visit, run, Option.map_some], ?_⟩
      exact {
        ready := finished.ready
        restart := finished.restart
        steps := finished.steps
        frame := finished.frame
        invoked := fun q member => by
          split at member
          · rcases List.mem_cons.mp member with rfl | later
            · rw [finished.settled q distinct]
              exact invokes ‹_›
            · exact finished.invoked q later
          · exact finished.invoked q member
        settled := fun q outside => by
          have other : q ≠ p := fun same => outside (same ▸ List.mem_cons_self)
          rw [finished.settled q fun later => outside (List.mem_cons_of_mem p later), touches q other] }
    | stop u' invoked err =>
      obtain ⟨restart, halted, touches, invokes⟩ := visited
      refine ⟨⟨u', .error err, if invoked then [p] else []⟩, by simp only [loop, visit], ?_⟩
      exact {
        ready := fun failed => by cases failed
        restart := fun err' failed => by
          cases failed
          exact ⟨restart, halted.stopped⟩
        steps := halted.steps
        frame := halted.frame
        invoked := fun q member => by
          split at member
          · rcases List.mem_singleton.mp member with rfl
            exact invokes ‹_›
          · cases member
        settled := fun q outside => touches q fun same => outside (same ▸ List.mem_cons_self) }

variable (b privateCtx currentEpoch) in
/-- From a ready manager, `ConsensusUpgrade` at a height never lower than those seen and not
`InvalidUpgradeHeight` never panics, and every upgrade takes one step. -/
theorem Ready.consensusUpgrade (ready : u₀.Ready last) (above : ∀ l ∈ last, l ≤ currentHeight)
    (valid : currentHeight ≠ invalidUpgradeHeight) :
    ∃ o, u₀.consensusUpgrade b privateCtx currentEpoch currentHeight = some o ∧
      Finished privateCtx currentHeight u₀ u₀ u₀.pending o := by
  have later : ∀ l ∈ last, ∃ l' ∈ some currentHeight, l ≤ l' := fun l seen => ⟨currentHeight, rfl, above l seen⟩
  have looping : Looping currentHeight u₀ u₀ u₀.pending := {
    next := rfl
    pending := List.Sublist.refl _
    waiting := fun p member => ⟨member, rfl⟩
    restNodup := ready.nodup
    sound := fun p member => (ready.sound p member).mono later
    started := fun p member _ => ready.started p member
    store := ready.store.mono later
    shouldStop := ready.shouldStop
    steps := fun p member => StageStep.refl ((ready.sound p member).mono later)
    frame := fun _ _ => rfl }
  simp only [Manager.consensusUpgrade, ready.shouldStop, Bool.false_eq_true, if_false]
  exact looping.finished ready valid

end Consensus

section Startup

variable {b : Binary Target} {u₀ u : Manager Target} {last : Option Height} {rest : List Ptr}

/-- The loop of `StartupUpgrade` from the loaded manager `u₀`, at `u` with `rest` still to visit:
only the upgrades change, and those visited whose height is set are past their startup stage. -/
structure Starting (u₀ u : Manager Target) (last : Option Height) (rest : List Ptr) : Prop where
  pending : u.pending = u₀.pending
  next : u.next = u₀.next
  store : u.store = u₀.store
  shouldStop : u.shouldStop = u₀.shouldStop
  waiting : ∀ p ∈ rest, p ∈ u₀.pending ∧ u.heap p = u₀.heap p
  restNodup : rest.Nodup
  sound : ∀ p ∈ u₀.pending, (u.heap p).Sound last ∧ (u.heap p).isCompleted = false
  started : ∀ p ∈ u₀.pending, p ∉ rest → (u.heap p).upgradeHeight ≠ invalidUpgradeHeight →
    (u.heap p).hasStage upgradeStageStartup = true
  steps : ∀ p ∈ u₀.pending, StageStep (u₀.heap p) (u.heap p) none

/-- What `StartupUpgrade` returns from the loaded manager `u₀`: a ready manager, or an error after
which the node restarts with the store as `New` left it; and the same pending upgrades, each one
step on. -/
structure Started (u₀ : Manager Target) (last : Option Height) (o : Outcome Target) : Prop where
  ready : o.result = .ok () → o.manager.Ready last
  restart : ∀ err, o.result = .error err → err.needsRestart = true ∧ o.manager.Stopped last
  pending : o.manager.pending = u₀.pending
  steps : ∀ p ∈ u₀.pending, StageStep (u₀.heap p) (o.manager.heap p) none

theorem Starting.visited {p : Ptr} (starting : Starting u₀ u last (p :: rest)) :
    ∃ v, startupUpgradeAt b u p = some v ∧
      ((∃ u' invoked, v = .next u' invoked ∧ Starting u₀ u' last rest) ∨
        ∃ invoked err, v = .stop u invoked err ∧ err.needsRestart = true) := by
  obtain ⟨member, unvisited⟩ := starting.waiting p List.mem_cons_self
  have distinct : p ∉ rest := (List.nodup_cons.mp starting.restNodup).1
  -- Going on with `u'`, which differs from `u` at most at `p`, where the startup stage is done.
  have goesOn : ∀ u' : Manager Target, u'.pending = u.pending → u'.next = u.next → u'.store = u.store →
      u'.shouldStop = u.shouldStop → (∀ q, q ≠ p → u'.heap q = u.heap q) →
      (u'.heap p).Sound last ∧ (u'.heap p).isCompleted = false →
      ((u'.heap p).upgradeHeight ≠ invalidUpgradeHeight → (u'.heap p).hasStage upgradeStageStartup = true) →
      StageStep (u₀.heap p) (u'.heap p) none → Starting u₀ u' last rest := by
    intro u' pending next store running others soundP startedP stepP
    exact {
      pending := pending.trans starting.pending
      next := next.trans starting.next
      store := store.trans starting.store
      shouldStop := running.trans starting.shouldStop
      waiting := fun q later => by
        have other : q ≠ p := fun same => distinct (same ▸ later)
        rw [others q other]
        exact starting.waiting q (List.mem_cons_of_mem p later)
      restNodup := (List.nodup_cons.mp starting.restNodup).2
      sound := fun q inPending => by
        by_cases same : q = p
        · exact same ▸ soundP
        · rw [others q same]
          exact starting.sound q inPending
      started := fun q inPending outside => by
        by_cases same : q = p
        · exact same ▸ startedP
        · rw [others q same]
          exact starting.started q inPending fun later => (List.mem_cons.mp later).elim same outside
      steps := fun q inPending => by
        by_cases same : q = p
        · exact same ▸ stepP
        · rw [others q same]
          exact starting.steps q inPending }
  have unchanged := fun startedP =>
    goesOn u rfl rfl rfl rfl (fun _ _ => rfl) (starting.sound p member) startedP (starting.steps p member)
  unfold startupUpgradeAt
  dsimp only
  split
  · rename_i unset
    exact ⟨_, rfl, .inl ⟨u, false, rfl, unchanged fun set => absurd unset set⟩⟩
  · rename_i set
    split
    · rename_i done
      exact ⟨_, rfl, .inl ⟨u, false, rfl, unchanged fun _ => done⟩⟩
    · rename_i notDone
      split
      · exact ⟨_, rfl, .inr ⟨false, _, rfl, rfl⟩⟩
      · split
        · exact ⟨_, rfl, .inr ⟨true, _, rfl, rfl⟩⟩
        · -- The startup stage is recorded: the upgrade was past no stage.
          have fresh : (u.heap p).lastCompletedStage = 0 := by
            simp only [PendingUpgrade.hasStage, upgradeStageStartup] at notDone
            grind
          have sound := (starting.sound p member).1
          rw [PendingUpgrade.pushStage_eq (u.heap p) upgradeStageStartup (by rw [fresh]; rfl), Option.map_some]
          refine ⟨_, rfl, .inl ⟨_, true, rfl, goesOn _ rfl rfl rfl rfl (fun q other => set_heap_of_ne u _ other)
            ⟨?_, ?_⟩ (fun _ => ?_) ?_⟩⟩
          · rw [set_heap_self]
            exact ⟨PendingUpgrade.startup_le_consensus, fun _ => set, sound.height_seen⟩
          · simp [PendingUpgrade.isCompleted, upgradeStageStartup, upgradeStageLast, upgradeStageConsensus]
          · simp [PendingUpgrade.hasStage]
          · rw [set_heap_self, ← unvisited]
            exact StageStep.startup_of_set set fresh

/-- The loop of `StartupUpgrade` never panics, by induction on what it still has to visit. -/
theorem Starting.finished (loaded : u₀.Loaded last) :
    ∀ {u : Manager Target} {rest : List Ptr}, Starting u₀ u last rest →
      ∃ o, loop (startupUpgradeAt b) u rest = some o ∧ Started u₀ last o
  | u, [], starting => by
    have inPending : ∀ p ∈ u.pending, p ∈ u₀.pending := fun p member => starting.pending ▸ member
    -- The flush keeps every upgrade: none is complete.
    have kept : u.flushDescriptorLocked.pending = u₀.pending := by
      rw [flush_pending, List.filter_eq_self.mpr, starting.pending]
      intro p member
      simp [(starting.sound p (inPending p member)).2]
    refine ⟨_, rfl, ⟨fun _ => ?_, fun err failed => (by cases failed), kept, starting.steps⟩⟩
    exact ready_flush (starting.pending ▸ loaded.nodup)
      (fun p member => starting.next ▸ loaded.bounded p (inPending p member))
      (fun p member => (starting.sound p (inPending p member)).1)
      (fun p member _ => starting.started p (inPending p member) List.not_mem_nil)
      (starting.shouldStop.trans loaded.shouldStop)
  | u, p :: rest, starting => by
    obtain ⟨v, visit, goesOn | stops⟩ := starting.visited (b := b)
    · obtain ⟨u', invoked, rfl, starting'⟩ := goesOn
      obtain ⟨o, run, started⟩ := Starting.finished loaded starting'
      exact ⟨{ o with invoked := if invoked then p :: o.invoked else o.invoked },
        by simp only [loop, visit, run, Option.map_some],
        ⟨started.ready, started.restart, started.pending, started.steps⟩⟩
    · obtain ⟨invoked, err, rfl, restart⟩ := stops
      refine ⟨⟨u, .error err, if invoked then [p] else []⟩, by simp only [loop, visit],
        ⟨fun failed => (by cases failed), fun err' failed => ?_, starting.pending, starting.steps⟩⟩
      cases failed
      exact ⟨restart, starting.store ▸ loaded.store,
        fun p member => (starting.sound p (starting.pending ▸ member)).1⟩

/-- From a loaded manager, `StartupUpgrade` never panics, and leaves a ready manager or stops on a
migration handler's error with the store as `New` left it, each pending upgrade one step on. -/
theorem Loaded.startupUpgrade (loaded : u₀.Loaded last) :
    ∃ o, u₀.startupUpgrade b = some o ∧ Started u₀ last o :=
  Starting.finished loaded {
    pending := rfl
    next := rfl
    store := rfl
    shouldStop := rfl
    waiting := fun _ member => ⟨member, rfl⟩
    restNodup := loaded.nodup
    sound := fun p member => ⟨loaded.sound p member, loaded.incomplete p member⟩
    started := fun _ member outside => absurd member outside
    steps := fun p member => StageStep.refl (loaded.sound p member) }

end Startup

section Status

variable {b : Binary Target}

theorem checkStatusAt_eq (u : Manager Target) (p : Ptr) :
    checkStatusAt b u p = some (.next u false) ∨ ∃ err, checkStatusAt b u p = some (.stop u false err) := by
  unfold checkStatusAt
  dsimp only
  split_ifs
  all_goals first
    | exact .inl rfl
    | exact .inr ⟨_, rfl⟩

theorem loop_checkStatusAt (u : Manager Target) : ∀ rest : List Ptr,
    loop (checkStatusAt b) u rest = some ⟨u.flushDescriptorLocked, .ok (), []⟩ ∨
      ∃ err, loop (checkStatusAt b) u rest = some ⟨u, .error err, []⟩
  | [] => .inl rfl
  | p :: rest => by
    rcases checkStatusAt_eq (b := b) u p with goesOn | ⟨err, stops⟩
    · rcases loop_checkStatusAt u rest with done | ⟨err, failed⟩
      · exact .inl (by simp only [loop, goesOn, done, Option.map_some, Bool.false_eq_true, if_false])
      · exact .inr ⟨err, by simp only [loop, goesOn, failed, Option.map_some, Bool.false_eq_true, if_false]⟩
    · exact .inr ⟨err, by simp only [loop, stops, Bool.false_eq_true, if_false]⟩

/-- `New` over a sound store never panics, and a manager it returns is loaded and holds the stored
upgrades at their positions. -/
theorem new_loaded [Inhabited Target] {store : Option (List (PendingUpgrade Target))} {last : Option Height}
    (sound : StoreSound store last) :
    ∃ r, Manager.new b store = some r ∧ ∀ u, r = .ok u → u.Loaded last ∧
      u.pending = List.range (store.getD []).length ∧ ∀ p, u.heap p = (store.getD []).getD p default := by
  unfold Manager.new checkStatus
  cases store with
  | none =>
    refine ⟨_, rfl, fun u created => ?_⟩
    cases created
    exact ⟨⟨List.nodup_nil, fun _ member => (by cases member), fun _ member => (by cases member),
      fun _ member => (by cases member), sound, rfl⟩, rfl, fun p => by simp [init]⟩
  | some stored =>
    -- The stored upgrades at addresses below their number.
    have storedAt : ∀ p ∈ List.range stored.length,
        (stored.getD p default).Sound last ∧ (stored.getD p default).isCompleted = false := by
      intro p member
      rw [List.getD_eq_getElem _ _ (List.mem_range.mp member)]
      exact sound stored rfl _ (List.getElem_mem _)
    rcases loop_checkStatusAt (b := b) ((init (some stored) : Manager Target).load stored)
      (List.range stored.length) with done | ⟨err, failed⟩
    · refine ⟨_, by simp only [init, load] at done ⊢; rw [done]; rfl, fun u created => ?_⟩
      cases created
      -- The flush keeps every stored upgrade: none is complete.
      have kept : ((init (some stored) : Manager Target).load stored).flushDescriptorLocked.pending =
          List.range stored.length := by
        simp only [flush_pending, load]
        exact List.filter_eq_self.mpr fun p member => by simpa using (storedAt p member).2
      refine ⟨loaded_flush List.nodup_range (fun p member => List.mem_range.mp member)
        (fun p member => (storedAt p member).1) rfl, kept, fun p => rfl⟩
    · exact ⟨_, by simp only [init, load] at failed ⊢; rw [failed]; rfl, fun u created => (by cases created)⟩

end Status

end Manager

end Orphiq.Upgrade

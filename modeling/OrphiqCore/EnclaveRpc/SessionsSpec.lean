import OrphiqCore.EnclaveRpc.Sessions

/-!
# The two indices of the sessions agree

Every operation keeps the by-idle-time set equal to the keys of the sessions in the per-peer
maps, one key a session, and keeps both limits. So the lookups `find_any` makes from the set
always find their session.
-/

namespace Orphiq.EnclaveRpc

section Lists

variable {α : Type} {β : α → Type} [DecidableEq α]

omit [DecidableEq α] in
theorem AList.length_keys (s : AList β) : s.keys.length = s.entries.length := by
  simp [AList.keys, List.keys]

theorem AList.length_entries_insert_of_mem {s : AList β} {a : α} (b : β a) (mem : a ∈ s) :
    (s.insert a b).entries.length = s.entries.length := by
  have present : a ∈ s.keys := AList.mem_keys.mp mem
  have positive : 0 < s.keys.length := List.length_pos_of_mem present
  rw [← AList.length_keys, ← AList.length_keys, AList.keys_insert, List.length_cons,
    List.length_erase_of_mem present]
  omega

theorem AList.length_entries_insert_of_notMem {s : AList β} {a : α} (b : β a) (fresh : a ∉ s) :
    (s.insert a b).entries.length = s.entries.length + 1 := by
  rw [AList.entries_insert_of_notMem fresh, List.length_cons]

theorem AList.entries_insert_ne_nil (s : AList β) (a : α) (b : β a) : (s.insert a b).entries ≠ [] := by
  rw [AList.entries_insert]
  exact List.cons_ne_nil _ _

theorem AList.lookup_getD_empty (o : Option (AList β)) (a : α) : (o.getD ∅).lookup a = o.bind (·.lookup a) := by
  cases o <;> rfl

theorem AList.length_entries_erase_le (s : AList β) (a : α) : (s.erase a).entries.length ≤ s.entries.length := by
  rw [← AList.length_keys, ← AList.length_keys, AList.keys_erase]
  exact List.length_erase_le

end Lists

variable {PeerID SessionID : Type} [LinearOrder PeerID] [LinearOrder SessionID]

section Keys

variable {key key' : SessionByTimeKey PeerID SessionID} {keys : List (SessionByTimeKey PeerID SessionID)}

theorem mem_insertKey : key' ∈ insertKey key keys ↔ key' = key ∨ key' ∈ keys := by
  unfold insertKey
  split_ifs with present
  · constructor
    · exact .inr
    · rintro (rfl | mem)
      · exact present
      · exact mem
  · exact List.mem_orderedInsert _

theorem Nodup.insertKey (nodup : keys.Nodup) : (insertKey key keys).Nodup := by
  unfold EnclaveRpc.insertKey
  split_ifs with present
  · exact nodup
  · exact (List.perm_orderedInsert _ key keys).nodup_iff.mpr (List.nodup_cons.mpr ⟨present, nodup⟩)

theorem length_insertKey_of_notMem (fresh : key ∉ keys) : (insertKey key keys).length = keys.length + 1 := by
  unfold insertKey
  rw [if_neg fresh, (List.perm_orderedInsert _ key keys).length_eq, List.length_cons]

theorem length_insertKey_le : (insertKey key keys).length ≤ keys.length + 1 := by
  unfold insertKey
  split_ifs
  · exact Nat.le_succ _
  · rw [(List.perm_orderedInsert _ key keys).length_eq, List.length_cons]

end Keys

omit [LinearOrder PeerID] [LinearOrder SessionID] in
@[simp]
theorem SessionMeta.byTimeKey_mk (peerId : PeerID) (sessionId : SessionID) (time : Int64) :
    (⟨peerId, sessionId, time⟩ : SessionMeta PeerID SessionID).byTimeKey = (time, peerId, sessionId) := rfl

namespace Sessions

/-- The by-idle-time set holds exactly the key of every stored session, once, and both limits
hold. -/
structure Indexed (s : Sessions PeerID SessionID) : Prop where
  keys : ∀ key, key ∈ s.byIdleTime ↔ ∃ session, s.session? key.2.1 key.2.2 = some session ∧ session.byTimeKey = key
  nodup : s.byIdleTime.Nodup
  ids : ∀ peerId sessionId session, s.session? peerId sessionId = some session →
    session.peerId = peerId ∧ session.sessionId = sessionId
  bounded : s.byIdleTime.length ≤ s.maxSessions
  perPeer : ∀ peerId sessions, s.byPeer.lookup peerId = some sessions → sessions.entries.length ≤ s.maxSessionsPerPeer

/-- No peer is kept with an empty map of sessions. -/
def NoEmptyPeer (s : Sessions PeerID SessionID) : Prop :=
  ∀ peerId sessions, s.byPeer.lookup peerId = some sessions → sessions.entries ≠ []

variable {s : Sessions PeerID SessionID}

theorem session?_eq_some {peerId : PeerID} {sessionId : SessionID} {session : SessionMeta PeerID SessionID}
    (found : s.session? peerId sessionId = some session) :
    ∃ sessions, s.byPeer.lookup peerId = some sessions ∧ sessions.lookup sessionId = some session :=
  Option.bind_eq_some_iff.mp found

theorem session?_updateAccessTime {peerId : PeerID} {sessionId : SessionID} {session : SessionMeta PeerID SessionID}
    (found : s.session? peerId sessionId = some session) (time : Int64) (peerId' : PeerID) (sessionId' : SessionID) :
    (s.updateAccessTime peerId sessionId session time).session? peerId' sessionId' =
      if peerId' = peerId ∧ sessionId' = sessionId then some { session with lastAccessTime := time }
      else s.session? peerId' sessionId' := by
  obtain ⟨sessions, peerFound, -⟩ := session?_eq_some found
  unfold updateAccessTime session?
  dsimp only
  rw [peerFound]
  by_cases samePeer : peerId' = peerId
  · subst samePeer
    by_cases sameSession : sessionId' = sessionId
    · subst sameSession
      simp [AList.lookup_insert]
    · simp [AList.lookup_insert, AList.lookup_insert_ne sameSession, peerFound, sameSession]
  · simp [AList.lookup_insert_ne samePeer, samePeer]

theorem remove_eq_some {peerId : PeerID} {sessionId : SessionID} {s' : Sessions PeerID SessionID}
    (removed : s.remove peerId sessionId = some s') :
    ∃ sessions session, s.byPeer.lookup peerId = some sessions ∧ sessions.lookup sessionId = some session ∧
      s' = { s with
        byIdleTime := s.byIdleTime.erase session.byTimeKey
        byPeer := if (sessions.erase sessionId).entries.isEmpty then s.byPeer.erase peerId
          else s.byPeer.insert peerId (sessions.erase sessionId) } := by
  unfold remove at removed
  split at removed
  · cases removed
  · rename_i sessions peerFound
    split at removed
    · cases removed
    · rename_i session found
      exact ⟨sessions, session, peerFound, found, (Option.some.inj removed).symm⟩

theorem session?_remove {peerId : PeerID} {sessionId : SessionID} {s' : Sessions PeerID SessionID}
    (removed : s.remove peerId sessionId = some s') (peerId' : PeerID) (sessionId' : SessionID) :
    s'.session? peerId' sessionId' =
      if peerId' = peerId ∧ sessionId' = sessionId then none else s.session? peerId' sessionId' := by
  obtain ⟨sessions, session, peerFound, -, rfl⟩ := remove_eq_some removed
  have erased : (sessions.erase sessionId).lookup sessionId' =
      if sessionId' = sessionId then none else sessions.lookup sessionId' := by
    split_ifs with same
    · rw [same, AList.lookup_erase]
    · exact AList.lookup_erase_ne same
  unfold session?
  by_cases samePeer : peerId' = peerId
  · subst samePeer
    by_cases empty : (sessions.erase sessionId).entries.isEmpty
    · -- the last session of the peer goes, and the peer with it
      have none : (sessions.erase sessionId).lookup sessionId' = none := by
        simp [AList.lookup, List.isEmpty_iff.mp empty]
      rw [if_pos empty, AList.lookup_erase, peerFound, Option.bind_none, Option.bind_some]
      simp only [true_and]
      rw [← erased, none]
    · rw [if_neg empty, AList.lookup_insert, peerFound]
      simp [erased]
  · rw [if_neg (show ¬(peerId' = peerId ∧ sessionId' = sessionId) from fun slot => samePeer slot.1)]
    split_ifs <;> simp [AList.lookup_erase_ne samePeer, AList.lookup_insert_ne samePeer]

theorem add_spec (s : Sessions PeerID SessionID) (peerId : PeerID) (sessionId : SessionID) (now : Int64) :
    (s.add peerId sessionId now).2 = s ∨
    (s.byPeer.lookup peerId = none ∧ s.maxSessionsPerPeer = 0 ∧
      (s.add peerId sessionId now).2 = { s with byPeer := s.byPeer.insert peerId ∅ }) ∨
    (s.byIdleTime.length < s.maxSessions ∧
      ((s.byPeer.lookup peerId).getD ∅).entries.length < s.maxSessionsPerPeer ∧
      (s.add peerId sessionId now).2 = { s with
        byIdleTime := insertKey (now, peerId, sessionId) s.byIdleTime
        byPeer := s.byPeer.insert peerId (((s.byPeer.lookup peerId).getD ∅).insert sessionId ⟨peerId, sessionId, now⟩) }) := by
  unfold add
  by_cases full : s.byIdleTime.length ≥ s.maxSessions
  · exact .inl (by rw [if_pos full])
  rw [if_neg full]
  dsimp only
  by_cases peerFull : ((s.byPeer.lookup peerId).getD ∅).entries.length ≥ s.maxSessionsPerPeer
  · rw [if_pos peerFull]
    cases found : s.byPeer.lookup peerId with
    | some sessions => exact .inl (by simp)
    | none =>
      -- the empty map stored for the new peer stays behind
      rw [found] at peerFull
      exact .inr (.inl ⟨rfl, by simpa using peerFull, by simp⟩)
  · rw [if_neg peerFull]
    refine .inr (.inr ⟨Nat.lt_of_not_le full, Nat.lt_of_not_le peerFull, ?_⟩)
    split_ifs <;> simp [AList.insert_insert]

/-- An update of one slot (peer, session id) keeps the two indices in step when the key set
changes at that slot only. -/
theorem Indexed.update {s' : Sessions PeerID SessionID} (indexed : s.Indexed) (peerId : PeerID)
    (sessionId : SessionID) (new : Option (SessionMeta PeerID SessionID))
    (newIds : ∀ session ∈ new, session.peerId = peerId ∧ session.sessionId = sessionId)
    (sessions' : ∀ peerId' sessionId', s'.session? peerId' sessionId' =
      if peerId' = peerId ∧ sessionId' = sessionId then new else s.session? peerId' sessionId')
    (keys' : ∀ key, key ∈ s'.byIdleTime ↔ (∃ session ∈ new, session.byTimeKey = key) ∨
      ¬(key.2.1 = peerId ∧ key.2.2 = sessionId) ∧ key ∈ s.byIdleTime)
    (nodup : s'.byIdleTime.Nodup) (bounded : s'.byIdleTime.length ≤ s'.maxSessions)
    (perPeer : ∀ peerId sessions, s'.byPeer.lookup peerId = some sessions →
      sessions.entries.length ≤ s'.maxSessionsPerPeer) :
    s'.Indexed where
  keys key := by
    rw [keys', sessions']
    by_cases slot : key.2.1 = peerId ∧ key.2.2 = sessionId
    · rw [if_pos slot, or_iff_left fun other => other.1 slot]
      rfl
    · rw [if_neg slot, ← indexed.keys key]
      constructor
      · rintro (⟨session, mem, rfl⟩ | ⟨-, mem⟩)
        · exact absurd (newIds session mem) slot
        · exact mem
      · exact fun mem => .inr ⟨slot, mem⟩
  nodup := nodup
  ids peerId' sessionId' session found := by
    rw [sessions'] at found
    split_ifs at found with slot
    · obtain ⟨rfl, rfl⟩ := slot
      exact newIds session found
    · exact indexed.ids _ _ _ found
  bounded := bounded
  perPeer := perPeer

section Indexed

variable (indexed : s.Indexed) {peerId : PeerID} {sessionId : SessionID} {key : SessionByTimeKey PeerID SessionID}
include indexed

theorem Indexed.mem_of_session? {session : SessionMeta PeerID SessionID}
    (found : s.session? peerId sessionId = some session) : session.byTimeKey ∈ s.byIdleTime := by
  obtain ⟨samePeer, sameSession⟩ := indexed.ids _ _ _ found
  refine (indexed.keys _).mpr ⟨session, ?_, rfl⟩
  rw [← samePeer, ← sameSession] at found
  exact found

theorem Indexed.mem_erase_iff {session : SessionMeta PeerID SessionID}
    (found : s.session? peerId sessionId = some session) :
    key ∈ s.byIdleTime.erase session.byTimeKey ↔ ¬(key.2.1 = peerId ∧ key.2.2 = sessionId) ∧ key ∈ s.byIdleTime := by
  obtain ⟨samePeer, sameSession⟩ := indexed.ids _ _ _ found
  rw [indexed.nodup.mem_erase_iff]
  constructor
  · rintro ⟨other, mem⟩
    refine ⟨fun slot => other ?_, mem⟩
    obtain ⟨session', found', keyEq⟩ := (indexed.keys key).mp mem
    rw [slot.1, slot.2, found] at found'
    cases found'
    exact keyEq.symm
  · rintro ⟨slot, mem⟩
    refine ⟨fun same => slot ?_, mem⟩
    subst same
    exact ⟨samePeer, sameSession⟩

theorem Indexed.mem_iff_of_none (absent : s.session? peerId sessionId = none) :
    key ∈ s.byIdleTime ↔ ¬(key.2.1 = peerId ∧ key.2.2 = sessionId) ∧ key ∈ s.byIdleTime := by
  refine ⟨fun mem => ⟨fun slot => ?_, mem⟩, And.right⟩
  obtain ⟨session, found, -⟩ := (indexed.keys key).mp mem
  rw [slot.1, slot.2, absent] at found
  cases found

theorem Indexed.updateAccessTime {session : SessionMeta PeerID SessionID}
    (found : s.session? peerId sessionId = some session) (time : Int64) :
    (s.updateAccessTime peerId sessionId session time).Indexed := by
  obtain ⟨samePeer, sameSession⟩ := indexed.ids _ _ _ found
  obtain ⟨sessions, peerFound, sessionFound⟩ := session?_eq_some found
  have oldMem := indexed.mem_of_session? found
  refine indexed.update peerId sessionId (some { session with lastAccessTime := time }) ?_
    (session?_updateAccessTime found time) ?_ ?_ ?_ ?_
  · rintro _ ⟨⟩
    exact ⟨samePeer, sameSession⟩
  · intro key
    simp only [Sessions.updateAccessTime, mem_insertKey, indexed.mem_erase_iff found, Option.mem_def,
      Option.some.injEq, exists_eq_left']
    exact or_congr eq_comm Iff.rfl
  · exact Nodup.insertKey (indexed.nodup.erase _)
  · calc (insertKey _ (s.byIdleTime.erase session.byTimeKey)).length
        ≤ (s.byIdleTime.erase session.byTimeKey).length + 1 := length_insertKey_le
      _ = s.byIdleTime.length := by
        rw [List.length_erase_of_mem oldMem]
        have := List.length_pos_of_mem oldMem
        omega
      _ ≤ s.maxSessions := indexed.bounded
  · intro peerId' sessions' peerFound'
    simp only [Sessions.updateAccessTime, peerFound] at peerFound'
    by_cases samePeer' : peerId' = peerId
    · subst samePeer'
      rw [AList.lookup_insert, Option.some.injEq] at peerFound'
      subst peerFound'
      rw [AList.length_entries_insert_of_mem _ (AList.lookup_isSome.mp (by rw [sessionFound]; rfl))]
      exact indexed.perPeer _ _ peerFound
    · rw [AList.lookup_insert_ne samePeer'] at peerFound'
      exact indexed.perPeer _ _ peerFound'


theorem Indexed.remove {s' : Sessions PeerID SessionID} (removed : s.remove peerId sessionId = some s') :
    s'.Indexed := by
  obtain ⟨sessions, session, peerFound, sessionFound, rfl⟩ := remove_eq_some removed
  have found : s.session? peerId sessionId = some session := by
    simp [session?, peerFound, sessionFound]
  refine indexed.update peerId sessionId none (by simp) (session?_remove removed) ?_ (indexed.nodup.erase _)
    ((List.length_erase_le).trans indexed.bounded) ?_
  · intro key
    simpa using indexed.mem_erase_iff found
  · intro peerId' sessions' peerFound'
    dsimp only at peerFound'
    by_cases samePeer : peerId' = peerId
    · subst samePeer
      split_ifs at peerFound'
      · rw [AList.lookup_erase] at peerFound'
        cases peerFound'
      · rw [AList.lookup_insert, Option.some.injEq] at peerFound'
        subst peerFound'
        exact (AList.length_entries_erase_le _ _).trans (indexed.perPeer _ _ peerFound)
    · split_ifs at peerFound'
      · rw [AList.lookup_erase_ne samePeer] at peerFound'
        exact indexed.perPeer _ _ peerFound'
      · rw [AList.lookup_insert_ne samePeer] at peerFound'
        exact indexed.perPeer _ _ peerFound'

theorem Indexed.add (fresh : s.session? peerId sessionId = none) (now : Int64) :
    (s.add peerId sessionId now).2.Indexed := by
  have absentKey : ∀ key, key ∈ s.byIdleTime ↔ (∃ session ∈ (none : Option (SessionMeta PeerID SessionID)),
      session.byTimeKey = key) ∨ ¬(key.2.1 = peerId ∧ key.2.2 = sessionId) ∧ key ∈ s.byIdleTime := by
    intro key
    simpa using indexed.mem_iff_of_none fresh
  rcases add_spec s peerId sessionId now with unchanged | ⟨absent, -, emptyPeer⟩ | ⟨room, peerRoom, added⟩
  · rw [unchanged]
    exact indexed
  · -- the empty map stored for a new peer holds no session
    rw [emptyPeer]
    have same : ∀ peerId' sessionId', ({ s with byPeer := s.byPeer.insert peerId ∅ }).session? peerId' sessionId' =
        s.session? peerId' sessionId' := by
      intro peerId' sessionId'
      by_cases samePeer : peerId' = peerId
      · subst samePeer
        simp [session?, AList.lookup_insert, absent]
      · simp [session?, AList.lookup_insert_ne samePeer]
    refine indexed.update peerId sessionId none (by simp) (fun peerId' sessionId' => ?_) absentKey
      indexed.nodup indexed.bounded ?_
    · rw [same]
      split_ifs with slot
      · rw [slot.1, slot.2, fresh]
      · rfl
    · intro peerId' sessions' peerFound'
      by_cases samePeer : peerId' = peerId
      · subst samePeer
        simp only [AList.lookup_insert, Option.some.injEq] at peerFound'
        subst peerFound'
        exact Nat.zero_le _
      · rw [AList.lookup_insert_ne samePeer] at peerFound'
        exact indexed.perPeer _ _ peerFound'
  · rw [added]
    have freshSession : sessionId ∉ (s.byPeer.lookup peerId).getD ∅ := by
      rw [← AList.lookup_eq_none, AList.lookup_getD_empty]
      exact fresh
    refine indexed.update peerId sessionId (some ⟨peerId, sessionId, now⟩) (by simp) (fun peerId' sessionId' => ?_) ?_
      (Nodup.insertKey indexed.nodup) ?_ ?_
    · by_cases samePeer : peerId' = peerId
      · subst samePeer
        by_cases sameSession : sessionId' = sessionId
        · subst sameSession
          simp [session?, AList.lookup_insert]
        · simp [session?, AList.lookup_insert, AList.lookup_insert_ne sameSession, AList.lookup_getD_empty,
            sameSession]
      · simp [session?, AList.lookup_insert_ne samePeer, samePeer]
    · intro key
      rw [mem_insertKey, ← indexed.mem_iff_of_none fresh]
      simp [eq_comm]
    · exact length_insertKey_le.trans room
    · intro peerId' sessions' peerFound'
      by_cases samePeer : peerId' = peerId
      · subst samePeer
        simp only [AList.lookup_insert, Option.some.injEq] at peerFound'
        subst peerFound'
        rw [AList.length_entries_insert_of_notMem _ freshSession]
        exact peerRoom
      · rw [AList.lookup_insert_ne samePeer] at peerFound'
        exact indexed.perPeer _ _ peerFound'

end Indexed

theorem Indexed.drain (s : Sessions PeerID SessionID) : s.drain.2.Indexed where
  keys key := by simp [Sessions.drain, session?]
  nodup := List.nodup_nil
  ids peerId sessionId session found := by simp [Sessions.drain, session?] at found
  bounded := Nat.zero_le _
  perPeer peerId sessions found := by simp [Sessions.drain] at found

section NoEmptyPeer

variable (noEmpty : s.NoEmptyPeer) {peerId : PeerID} {sessionId : SessionID}
include noEmpty

theorem NoEmptyPeer.updateAccessTime {session : SessionMeta PeerID SessionID} (time : Int64) :
    (s.updateAccessTime peerId sessionId session time).NoEmptyPeer := by
  intro peerId' sessions' peerFound'
  simp only [Sessions.updateAccessTime] at peerFound'
  split at peerFound'
  · by_cases samePeer : peerId' = peerId
    · subst samePeer
      rw [AList.lookup_insert, Option.some.injEq] at peerFound'
      subst peerFound'
      exact AList.entries_insert_ne_nil _ _ _
    · rw [AList.lookup_insert_ne samePeer] at peerFound'
      exact noEmpty _ _ peerFound'
  · exact noEmpty _ _ peerFound'

theorem NoEmptyPeer.remove {s' : Sessions PeerID SessionID} (removed : s.remove peerId sessionId = some s') :
    s'.NoEmptyPeer := by
  obtain ⟨sessions, session, -, -, rfl⟩ := remove_eq_some removed
  intro peerId' sessions' peerFound'
  dsimp only at peerFound'
  by_cases samePeer : peerId' = peerId
  · subst samePeer
    split_ifs at peerFound' with empty
    · rw [AList.lookup_erase] at peerFound'
      cases peerFound'
    · rw [AList.lookup_insert, Option.some.injEq] at peerFound'
      subst peerFound'
      simpa using empty
  · split_ifs at peerFound'
    · rw [AList.lookup_erase_ne samePeer] at peerFound'
      exact noEmpty _ _ peerFound'
    · rw [AList.lookup_insert_ne samePeer] at peerFound'
      exact noEmpty _ _ peerFound'

/-- With room for one session a peer, the per-peer check never fails for a new peer, so no
empty map is left behind. -/
theorem NoEmptyPeer.add (positive : 0 < s.maxSessionsPerPeer) (now : Int64) :
    (s.add peerId sessionId now).2.NoEmptyPeer := by
  rcases add_spec s peerId sessionId now with unchanged | ⟨-, zero, -⟩ | ⟨-, -, added⟩
  · rw [unchanged]
    exact noEmpty
  · omega
  · rw [added]
    intro peerId' sessions' peerFound'
    by_cases samePeer : peerId' = peerId
    · subst samePeer
      simp only [AList.lookup_insert, Option.some.injEq] at peerFound'
      subst peerFound'
      exact AList.entries_insert_ne_nil _ _ _
    · rw [AList.lookup_insert_ne samePeer] at peerFound'
      exact noEmpty _ _ peerFound'

end NoEmptyPeer

omit [LinearOrder SessionID] in
theorem NoEmptyPeer.drain (s : Sessions PeerID SessionID) : s.drain.2.NoEmptyPeer := by
  intro peerId sessions found
  simp [Sessions.drain] at found

theorem minByKey_mem {α : Type} {key : α → Int64} {as : List α} {a : α} (found : minByKey key as = some a) :
    a ∈ as := by
  induction as with
  | nil => cases found
  | cons a' as ih =>
    simp only [minByKey] at found
    split at found
    · cases found
      exact List.mem_cons_self
    · split_ifs at found
      · cases found
        exact List.mem_cons_of_mem _ (ih ‹_›)
      · cases found
        exact List.mem_cons_self

theorem minByKey_eq_none_iff {α : Type} {key : α → Int64} {as : List α} : minByKey key as = none ↔ as = [] := by
  cases as with
  | nil => exact ⟨fun _ => rfl, fun _ => rfl⟩
  | cons a as =>
    constructor
    · intro found
      simp only [minByKey] at found
      split at found
      · cases found
      · split_ifs at found
    · intro empty
      cases empty

theorem minByKey_le {α : Type} {key : α → Int64} {as : List α} {a : α} (found : minByKey key as = some a) :
    ∀ b ∈ as, key a ≤ key b := by
  induction as generalizing a with
  | nil => cases found
  | cons a' as ih =>
    simp only [minByKey] at found
    intro b mem
    split at found
    · rename_i rest
      cases found
      rcases List.mem_cons.mp mem with rfl | mem
      · exact Int64.le_refl _
      · exact absurd (minByKey_eq_none_iff.mp rest ▸ mem) List.not_mem_nil
    · rename_i c rest
      split_ifs at found with smaller
      · cases found
        rcases List.mem_cons.mp mem with rfl | mem
        · exact Int64.le_of_lt smaller
        · exact ih rest b mem
      · cases found
        rcases List.mem_cons.mp mem with rfl | mem
        · exact Int64.le_refl _
        · exact Int64.le_trans (Int64.not_lt.mp smaller) (ih rest b mem)

theorem session?_of_mem_entries {peerId : PeerID} {sessions : AList fun _ : SessionID => SessionMeta PeerID SessionID}
    (peerFound : s.byPeer.lookup peerId = some sessions) {e : Σ _ : SessionID, SessionMeta PeerID SessionID}
    (mem : e ∈ sessions.entries) : s.session? peerId e.1 = some e.2 := by
  rw [session?, peerFound, Option.bind_some]
  exact AList.mem_lookup_iff.mpr mem

/-- What every operation other than add and drain does to the state: nothing, a new access
time for one stored session, or the removal of one. -/
inductive Effect (s : Sessions PeerID SessionID) : Sessions PeerID SessionID → Prop
  | unchanged : Effect s s
  | touch {peerId : PeerID} {sessionId : SessionID} {session : SessionMeta PeerID SessionID} (time : Int64)
      (found : s.session? peerId sessionId = some session) : Effect s (s.updateAccessTime peerId sessionId session time)
  | remove {peerId : PeerID} {sessionId : SessionID} {s' : Sessions PeerID SessionID}
      (removed : s.remove peerId sessionId = some s') : Effect s s'

section Effect

variable {s' : Sessions PeerID SessionID}

theorem Effect.indexed (effect : Effect s s') (indexed : s.Indexed) : s'.Indexed := by
  cases effect with
  | unchanged => exact indexed
  | touch time found => exact indexed.updateAccessTime found time
  | remove removed => exact indexed.remove removed

theorem Effect.noEmptyPeer (effect : Effect s s') (noEmpty : s.NoEmptyPeer) : s'.NoEmptyPeer := by
  cases effect with
  | unchanged => exact noEmpty
  | touch time => exact noEmpty.updateAccessTime time
  | remove removed => exact noEmpty.remove removed

theorem Effect.maxSessionsPerPeer (effect : Effect s s') : s'.maxSessionsPerPeer = s.maxSessionsPerPeer := by
  cases effect with
  | unchanged | touch => rfl
  | remove removed =>
    obtain ⟨_, _, -, -, rfl⟩ := remove_eq_some removed
    rfl

variable {locked : PeerID → SessionID → Bool} {time : Int64} {n : ℕ}
  {r : Option (PeerID × SessionID) × Sessions PeerID SessionID}

theorem get_effect (peerId : PeerID) (sessionId : SessionID) : Effect s (s.get peerId sessionId time).2 := by
  unfold get
  split
  · exact .unchanged
  · rename_i session found
    exact .touch time found

theorem findUnlocked_found {keys : List (SessionByTimeKey PeerID SessionID)} {peerId : PeerID}
    {sessionId : SessionID} {session : SessionMeta PeerID SessionID}
    (found : s.findUnlocked locked keys = some (some (peerId, sessionId, session))) :
    s.session? peerId sessionId = some session := by
  induction keys with
  | nil => cases found
  | cons key keys ih =>
    obtain ⟨_, peerId', sessionId'⟩ := key
    rw [findUnlocked] at found
    split at found
    · cases found
    · rename_i session' found'
      split_ifs at found
      · cases found
        exact found'
      · exact ih found

theorem findAny_effect (found : s.findAny locked time n = some r) : Effect s r.2 := by
  unfold findAny at found
  split_ifs at found
  · cases found
    exact .unchanged
  split at found
  · cases found
  · cases found
    exact .touch time (findUnlocked_found ‹_›)
  · split at found
    · cases found
    · split at found
      · cases found
      · cases found
        exact .touch time ‹_›

theorem findOne_loop_effect {peerIds : List PeerID} {allSessions : List (PeerID × SessionID)}
    (found : findOne.loop s locked time n peerIds allSessions = some r) : Effect s r.2 := by
  induction peerIds generalizing allSessions with
  | nil =>
    rw [findOne.loop] at found
    split_ifs at found
    · cases found
      exact .unchanged
    split at found
    · cases found
    · split at found
      · cases found
      · cases found
        exact .touch time ‹_›
  | cons peerId peerIds ih =>
    rw [findOne.loop] at found
    split at found
    · cases found
      exact .unchanged
    · rename_i sessions peerFound
      split at found
      · rename_i e chosen
        cases found
        exact .touch time (session?_of_mem_entries peerFound (List.mem_of_mem_filter (minByKey_mem chosen)))
      · exact ih found

theorem findOne_effect {peerIds : List PeerID} (found : s.findOne peerIds locked time n = some r) :
    Effect s r.2 :=
  findOne_loop_effect found

variable {r : Except Error (Option (PeerID × SessionID)) × Sessions PeerID SessionID}

theorem removeFrom_effect {peerId : PeerID} (removed : s.removeFrom peerId locked = some r) : Effect s r.2 := by
  unfold removeFrom at removed
  split at removed
  · cases removed
    exact .unchanged
  split_ifs at removed
  · cases removed
    exact .unchanged
  split at removed
  · cases removed
    exact .unchanged
  split_ifs at removed
  · cases removed
    exact .unchanged
  · obtain ⟨s', removed', rfl⟩ := Option.map_eq_some_iff.mp removed
    exact .remove removed'

theorem removeOne_effect {now : Int64} (removed : s.removeOne now locked = some r) : Effect s r.2 := by
  unfold removeOne at removed
  split_ifs at removed
  · cases removed
    exact .unchanged
  split at removed
  · cases removed
    exact .unchanged
  · cases removed
    exact .unchanged
  · obtain ⟨s', removed', rfl⟩ := Option.map_eq_some_iff.mp removed
    exact .remove removed'

end Effect

section Panics

variable (indexed : s.Indexed) {locked : PeerID → SessionID → Bool} {time : Int64} {n : ℕ}
include indexed

theorem Indexed.findUnlocked_isSome {keys : List (SessionByTimeKey PeerID SessionID)}
    (sub : keys ⊆ s.byIdleTime) : (s.findUnlocked locked keys).isSome := by
  induction keys with
  | nil => rfl
  | cons key keys ih =>
    obtain ⟨session, found, -⟩ := (indexed.keys key).mp (sub List.mem_cons_self)
    obtain ⟨_, peerId, sessionId⟩ := key
    rw [findUnlocked]
    dsimp only at found
    rw [found]
    dsimp only
    split_ifs
    · rfl
    · exact ih fun key mem => sub (List.mem_cons_of_mem _ mem)

theorem Indexed.findAny_isSome : (s.findAny locked time n).isSome := by
  unfold findAny
  split_ifs with empty
  · rfl
  obtain ⟨result, found⟩ : ∃ result, s.findUnlocked locked s.byIdleTime = some result :=
    Option.isSome_iff_exists.mp (indexed.findUnlocked_isSome (List.Subset.refl _))
  rw [found]
  rcases result with _ | ⟨peerId, sessionId, session⟩
  · -- every session is in use: a random key of the set
    have nonempty : 0 < s.byIdleTime.length := List.length_pos_iff.mpr (by simpa using empty)
    obtain ⟨key, atKey⟩ : ∃ key, s.byIdleTime[n % s.byIdleTime.length]? = some key :=
      ⟨_, List.getElem?_eq_getElem (Nat.mod_lt _ nonempty)⟩
    obtain ⟨session, sessionFound, -⟩ := (indexed.keys key).mp (List.mem_of_getElem? atKey)
    obtain ⟨_, peerId, sessionId⟩ := key
    dsimp only at sessionFound
    simp only [atKey, sessionFound, Option.isSome_some]
  · rfl

theorem Indexed.findOne_loop_isSome {peerIds : List PeerID} {allSessions : List (PeerID × SessionID)}
    (stored : ∀ x ∈ allSessions, (s.session? x.1 x.2).isSome) :
    (findOne.loop s locked time n peerIds allSessions).isSome := by
  induction peerIds generalizing allSessions with
  | nil =>
    rw [findOne.loop]
    split_ifs with empty
    · rfl
    have nonempty : 0 < allSessions.length := List.length_pos_iff.mpr (by simpa using empty)
    obtain ⟨x, atX⟩ : ∃ x, allSessions[n % allSessions.length]? = some x :=
      ⟨_, List.getElem?_eq_getElem (Nat.mod_lt _ nonempty)⟩
    obtain ⟨session, found⟩ := Option.isSome_iff_exists.mp (stored x (List.mem_of_getElem? atX))
    simp only [atX, found, Option.isSome_some]
  | cons peerId peerIds ih =>
    rw [findOne.loop]
    split
    · rfl
    · rename_i sessions peerFound
      split
      · rfl
      · apply ih
        intro x mem
        rcases List.mem_append.mp mem with old | new
        · exact stored x old
        · -- the sessions of this peer, listed for the random choice, are stored under their own ids
          obtain ⟨e, mem', rfl⟩ := List.mem_map.mp new
          have found := session?_of_mem_entries peerFound mem'
          obtain ⟨samePeer, sameSession⟩ := indexed.ids _ _ _ found
          dsimp only
          rw [samePeer, sameSession, found]
          rfl

theorem Indexed.findOne_isSome (peerIds : List PeerID) : (s.findOne peerIds locked time n).isSome :=
  indexed.findOne_loop_isSome (by simp)

omit indexed in
theorem remove_isSome {peerId : PeerID} {sessionId : SessionID} {session : SessionMeta PeerID SessionID}
    (found : s.session? peerId sessionId = some session) : (s.remove peerId sessionId).isSome := by
  obtain ⟨sessions, peerFound, sessionFound⟩ := session?_eq_some found
  simp [remove, peerFound, sessionFound]

theorem Indexed.removeFrom_isSome (peerId : PeerID) : (s.removeFrom peerId locked).isSome := by
  unfold removeFrom
  split
  · rfl
  rename_i sessions peerFound
  split_ifs
  · rfl
  split
  · rfl
  rename_i e chosen
  split_ifs
  · rfl
  · have found := session?_of_mem_entries peerFound (minByKey_mem chosen)
    obtain ⟨samePeer, sameSession⟩ := indexed.ids _ _ _ found
    rw [Option.isSome_map, samePeer, sameSession]
    exact remove_isSome found

omit indexed in
theorem stale_found {now : Int64} {keys : List (SessionByTimeKey PeerID SessionID)}
    {session : SessionMeta PeerID SessionID} (found : removeOne.stale s now locked keys = .ok (some session)) :
    ∃ peerId sessionId, s.session? peerId sessionId = some session := by
  induction keys with
  | nil => cases found
  | cons key keys ih =>
    obtain ⟨_, peerId, sessionId⟩ := key
    rw [removeOne.stale] at found
    split_ifs at found
    split at found
    · rename_i session' found'
      split_ifs at found
      · cases found
        exact ⟨peerId, sessionId, found'⟩
      · exact ih found
    · exact ih found

theorem Indexed.removeOne_isSome (now : Int64) : (s.removeOne now locked).isSome := by
  unfold removeOne
  split_ifs
  · rfl
  split
  · rfl
  · rfl
  · rename_i session chosen
    obtain ⟨peerId, sessionId, found⟩ := stale_found chosen
    obtain ⟨samePeer, sameSession⟩ := indexed.ids _ _ _ found
    rw [Option.isSome_map, samePeer, sameSession]
    exact remove_isSome found

end Panics

/-- One call on the sessions. The dispatcher adds a session only for a peer and session id that
get did not find; a call that panics is no step. -/
inductive Step : Sessions PeerID SessionID → Sessions PeerID SessionID → Prop
  | add {s : Sessions PeerID SessionID} (peerId : PeerID) (sessionId : SessionID) (now : Int64)
      (fresh : s.session? peerId sessionId = none) : Step s (s.add peerId sessionId now).2
  | get {s : Sessions PeerID SessionID} (peerId : PeerID) (sessionId : SessionID) (time : Int64) :
      Step s (s.get peerId sessionId time).2
  | findAny {s : Sessions PeerID SessionID} {r : Option (PeerID × SessionID) × Sessions PeerID SessionID}
      (locked : PeerID → SessionID → Bool) (time : Int64) (n : ℕ) (found : s.findAny locked time n = some r) :
      Step s r.2
  | findOne {s : Sessions PeerID SessionID} {r : Option (PeerID × SessionID) × Sessions PeerID SessionID}
      (peerIds : List PeerID) (locked : PeerID → SessionID → Bool) (time : Int64) (n : ℕ)
      (found : s.findOne peerIds locked time n = some r) : Step s r.2
  | remove {s s' : Sessions PeerID SessionID} (peerId : PeerID) (sessionId : SessionID)
      (removed : s.remove peerId sessionId = some s') : Step s s'
  | removeFrom {s : Sessions PeerID SessionID}
      {r : Except Error (Option (PeerID × SessionID)) × Sessions PeerID SessionID}
      (peerId : PeerID) (locked : PeerID → SessionID → Bool) (removed : s.removeFrom peerId locked = some r) :
      Step s r.2
  | removeOne {s : Sessions PeerID SessionID}
      {r : Except Error (Option (PeerID × SessionID)) × Sessions PeerID SessionID}
      (now : Int64) (locked : PeerID → SessionID → Bool) (removed : s.removeOne now locked = some r) : Step s r.2
  | drain {s : Sessions PeerID SessionID} : Step s s.drain.2

inductive Reachable : Sessions PeerID SessionID → Prop
  | new (maxSessions maxSessionsPerPeer : ℕ) (staleSessionTimeout : Int64) :
      Reachable (Sessions.new maxSessions maxSessionsPerPeer staleSessionTimeout)
  | step {s s' : Sessions PeerID SessionID} : Reachable s → Step s s' → Reachable s'

section Step

variable {s' : Sessions PeerID SessionID}

theorem Step.cases_effect (step : Step s s') :
    (∃ peerId sessionId now, s.session? peerId sessionId = none ∧ s' = (s.add peerId sessionId now).2) ∨
      Effect s s' ∨ s' = s.drain.2 := by
  cases step with
  | add peerId sessionId now fresh => exact .inl ⟨peerId, sessionId, now, fresh, rfl⟩
  | get peerId sessionId => exact .inr (.inl (get_effect peerId sessionId))
  | findAny _ _ _ found => exact .inr (.inl (findAny_effect found))
  | findOne _ _ _ _ found => exact .inr (.inl (findOne_effect found))
  | remove _ _ removed => exact .inr (.inl (.remove removed))
  | removeFrom _ _ removed => exact .inr (.inl (removeFrom_effect removed))
  | removeOne _ _ removed => exact .inr (.inl (removeOne_effect removed))
  | drain => exact .inr (.inr rfl)

theorem add_maxSessionsPerPeer (peerId : PeerID) (sessionId : SessionID) (now : Int64) :
    (s.add peerId sessionId now).2.maxSessionsPerPeer = s.maxSessionsPerPeer := by
  rcases add_spec s peerId sessionId now with unchanged | ⟨-, -, emptyPeer⟩ | ⟨-, -, added⟩
  · rw [unchanged]
  · rw [emptyPeer]
  · rw [added]

theorem Step.maxSessionsPerPeer (step : Step s s') : s'.maxSessionsPerPeer = s.maxSessionsPerPeer := by
  rcases step.cases_effect with ⟨peerId, sessionId, now, -, rfl⟩ | effect | rfl
  · exact add_maxSessionsPerPeer peerId sessionId now
  · exact effect.maxSessionsPerPeer
  · rfl

theorem Step.indexed (step : Step s s') (indexed : s.Indexed) : s'.Indexed := by
  rcases step.cases_effect with ⟨peerId, sessionId, now, fresh, rfl⟩ | effect | rfl
  · exact indexed.add fresh now
  · exact effect.indexed indexed
  · exact Indexed.drain s

theorem Step.noEmptyPeer (step : Step s s') (positive : 0 < s.maxSessionsPerPeer) (noEmpty : s.NoEmptyPeer) :
    s'.NoEmptyPeer := by
  rcases step.cases_effect with ⟨peerId, sessionId, now, -, rfl⟩ | effect | rfl
  · exact noEmpty.add positive now
  · exact effect.noEmptyPeer noEmpty
  · exact NoEmptyPeer.drain s

end Step

theorem Indexed.new (maxSessions maxSessionsPerPeer : ℕ) (staleSessionTimeout : Int64) :
    (Sessions.new maxSessions maxSessionsPerPeer staleSessionTimeout : Sessions PeerID SessionID).Indexed where
  keys key := by simp [Sessions.new, session?]
  nodup := List.nodup_nil
  ids peerId sessionId session found := by simp [Sessions.new, session?] at found
  bounded := Nat.zero_le _
  perPeer peerId sessions found := by simp [Sessions.new] at found

omit [LinearOrder SessionID] in
theorem NoEmptyPeer.new (maxSessions maxSessionsPerPeer : ℕ) (staleSessionTimeout : Int64) :
    (Sessions.new maxSessions maxSessionsPerPeer staleSessionTimeout : Sessions PeerID SessionID).NoEmptyPeer := by
  intro peerId sessions found
  simp [Sessions.new] at found

theorem Reachable.indexed (reachable : Reachable s) :
    s.Indexed ∧ (0 < s.maxSessionsPerPeer → s.NoEmptyPeer) := by
  induction reachable with
  | new maxSessions maxSessionsPerPeer staleSessionTimeout =>
    exact ⟨Indexed.new _ _ _, fun _ => NoEmptyPeer.new _ _ _⟩
  | step _ step ih =>
    refine ⟨step.indexed ih.1, fun positive => ?_⟩
    have positive' : 0 < _ := step.maxSessionsPerPeer ▸ positive
    exact step.noEmptyPeer positive' (ih.2 positive')

/-- In every reachable state the set of idle times holds the key of each stored session once
and nothing else, both limits hold, no lookup that find_any, find_one, remove_from or
remove_one makes fails, and no peer is left with an empty map while a peer may hold a session. -/
theorem reachable_sessions_indexed (reachable : Reachable s) :
    s.Indexed ∧ (0 < s.maxSessionsPerPeer → s.NoEmptyPeer) ∧
      ∀ locked time n, (s.findAny locked time n).isSome ∧ (∀ peerIds, (s.findOne peerIds locked time n).isSome) ∧
        ∀ peerId now, (s.removeFrom peerId locked).isSome ∧ (s.removeOne now locked).isSome := by
  obtain ⟨indexed, noEmpty⟩ := reachable.indexed
  exact ⟨indexed, noEmpty, fun locked time n =>
    ⟨indexed.findAny_isSome, indexed.findOne_isSome, fun peerId now =>
      ⟨indexed.removeFrom_isSome peerId, indexed.removeOne_isSome now⟩⟩⟩

/-- With no room for a session of any peer, add of a new peer stores the peer's empty map before
the per-peer check fails, and leaves it there. -/
theorem add_leaves_empty_peer :
    Reachable ((Sessions.new 1 0 0 : Sessions ℕ ℕ).add 1 1 0).2 ∧
      ¬((Sessions.new 1 0 0 : Sessions ℕ ℕ).add 1 1 0).2.NoEmptyPeer :=
  ⟨.step (.new 1 0 0) (.add 1 1 0 rfl), fun noEmpty => noEmpty 1 ∅ rfl rfl⟩

def hasUnlocked (s : Sessions PeerID SessionID) (locked : PeerID → SessionID → Bool) (peerId : PeerID) : Bool :=
  ((s.byPeer.lookup peerId).getD ∅).entries.any fun e => !locked e.2.peerId e.2.sessionId

/-- The sessions find_one keeps for its random choice from a peer whose sessions are all in use. -/
def lockedPairs (s : Sessions PeerID SessionID) (peerId : PeerID) : List (PeerID × SessionID) :=
  ((s.byPeer.lookup peerId).getD ∅).entries.map fun e => (e.2.peerId, e.2.sessionId)

section FindOne

variable {locked : PeerID → SessionID → Bool} {time : Int64} {n : ℕ}

theorem findOne_loop_append_inUse {pre rest : List PeerID} {allSessions : List (PeerID × SessionID)}
    (inUse : ∀ peerId ∈ pre, (s.byPeer.lookup peerId).isSome ∧ s.hasUnlocked locked peerId = false) :
    findOne.loop s locked time n (pre ++ rest) allSessions =
      findOne.loop s locked time n rest (allSessions ++ pre.flatMap s.lockedPairs) := by
  induction pre generalizing allSessions with
  | nil => simp
  | cons peerId pre ih =>
    obtain ⟨present, noneFree⟩ := inUse peerId List.mem_cons_self
    obtain ⟨sessions, peerFound⟩ := Option.isSome_iff_exists.mp present
    have filtered : (sessions.entries.filter fun e => !locked e.2.peerId e.2.sessionId) = [] := by
      apply List.filter_eq_nil_iff.mpr
      simpa [hasUnlocked, peerFound] using noneFree
    rw [List.cons_append, findOne.loop, peerFound]
    dsimp only
    rw [filtered, ih fun peerId' mem => inUse peerId' (List.mem_cons_of_mem _ mem)]
    simp [minByKey, lockedPairs, peerFound]

theorem Indexed.mem_lockedPairs (indexed : s.Indexed) {peerId : PeerID} {x : PeerID × SessionID}
    (mem : x ∈ s.lockedPairs peerId) :
    x.1 = peerId ∧ ∃ session, s.session? x.1 x.2 = some session ∧ session.peerId = x.1 ∧ session.sessionId = x.2 := by
  obtain ⟨e, mem', rfl⟩ := List.mem_map.mp mem
  cases peerFound : s.byPeer.lookup peerId with
  | none =>
    rw [peerFound] at mem'
    simp at mem'
  | some sessions =>
    rw [peerFound] at mem'
    have found := session?_of_mem_entries peerFound mem'
    obtain ⟨samePeer, sameSession⟩ := indexed.ids _ _ _ found
    dsimp only
    rw [samePeer, sameSession]
    exact ⟨rfl, e.2, found, samePeer, sameSession⟩

theorem findOne_loop_nil {allSessions : List (PeerID × SessionID)} (nonempty : allSessions ≠ [])
    (stored : ∀ x ∈ allSessions,
      ∃ session, s.session? x.1 x.2 = some session ∧ session.peerId = x.1 ∧ session.sessionId = x.2) :
    ∃ x ∈ allSessions, (findOne.loop s locked time n [] allSessions).map Prod.fst = some (some x) := by
  rw [findOne.loop, if_neg (by simpa using nonempty)]
  obtain ⟨x, atX⟩ : ∃ x, allSessions[n % allSessions.length]? = some x :=
    ⟨_, List.getElem?_eq_getElem (Nat.mod_lt _ (List.length_pos_iff.mpr nonempty))⟩
  have mem := List.mem_of_getElem? atX
  obtain ⟨session, found, samePeer, sameSession⟩ := stored x mem
  refine ⟨x, mem, ?_⟩
  obtain ⟨peerId, sessionId⟩ := x
  dsimp only at found samePeer sameSession
  simp [atX, found, samePeer, sameSession]

theorem Indexed.findOne_of_inUse (indexed : s.Indexed) (noEmpty : s.NoEmptyPeer) {peerIds : List PeerID}
    (nonempty : peerIds ≠ [])
    (inUse : ∀ peerId ∈ peerIds, (s.byPeer.lookup peerId).isSome ∧ s.hasUnlocked locked peerId = false) :
    ∃ peerId ∈ peerIds, ∃ sessionId session, s.session? peerId sessionId = some session ∧
      (s.findOne peerIds locked time n).map Prod.fst = some (some (peerId, sessionId)) := by
  have loop : findOne.loop s locked time n (peerIds ++ []) [] =
      findOne.loop s locked time n [] ([] ++ peerIds.flatMap s.lockedPairs) :=
    findOne_loop_append_inUse inUse
  rw [List.append_nil, List.nil_append] at loop
  have collected : peerIds.flatMap s.lockedPairs ≠ [] := by
    obtain ⟨peerId, rest, rfl⟩ := List.exists_cons_of_ne_nil nonempty
    obtain ⟨sessions, peerFound⟩ := Option.isSome_iff_exists.mp (inUse peerId List.mem_cons_self).1
    intro empty
    apply noEmpty peerId sessions peerFound
    simpa [lockedPairs, peerFound] using List.flatMap_eq_nil_iff.mp empty peerId List.mem_cons_self
  obtain ⟨x, mem, result⟩ : ∃ x ∈ peerIds.flatMap s.lockedPairs,
      (findOne.loop s locked time n [] (peerIds.flatMap s.lockedPairs)).map Prod.fst = some (some x) :=
    findOne_loop_nil collected fun x mem => (indexed.mem_lockedPairs (List.mem_flatMap.mp mem).choose_spec.2).2
  obtain ⟨peerId, listed, mem'⟩ := List.mem_flatMap.mp mem
  obtain ⟨samePeer, session, found, -⟩ := indexed.mem_lockedPairs mem'
  refine ⟨peerId, listed, x.2, session, samePeer ▸ found, ?_⟩
  unfold findOne
  rw [loop, result, ← samePeer]

theorem Indexed.findOne_of_find? (indexed : s.Indexed) {peerIds : List PeerID} {first : PeerID}
    (firstFound : peerIds.find? (s.hasUnlocked locked) = some first)
    (present : ∀ peerId ∈ peerIds, (s.byPeer.lookup peerId).isSome) :
    ∃ sessionId session, s.session? first sessionId = some session ∧ locked first sessionId = false ∧
      (s.findOne peerIds locked time n).map Prod.fst = some (some (first, sessionId)) ∧
      ∀ sessionId' session', s.session? first sessionId' = some session' → locked first sessionId' = false →
        session.lastAccessTime ≤ session'.lastAccessTime := by
  obtain ⟨free, pre, post, rfl, before⟩ := List.find?_eq_some_iff_append.mp firstFound
  obtain ⟨sessions, peerFound⟩ :=
    Option.isSome_iff_exists.mp (present first (List.mem_append_right _ List.mem_cons_self))
  have inUse : ∀ peerId ∈ pre, (s.byPeer.lookup peerId).isSome ∧ s.hasUnlocked locked peerId = false :=
    fun peerId mem => ⟨present peerId (List.mem_append_left _ mem), by simpa using before peerId mem⟩
  obtain ⟨e, chosen⟩ : ∃ e, minByKey (·.2.lastAccessTime)
      (sessions.entries.filter fun e => !locked e.2.peerId e.2.sessionId) = some e := by
    refine Option.isSome_iff_exists.mp (Option.ne_none_iff_isSome.mp fun none => ?_)
    have filtered := minByKey_eq_none_iff.mp none
    simp only [hasUnlocked, peerFound, Option.getD_some, List.any_eq_true] at free
    obtain ⟨e, mem, unlocked⟩ := free
    exact List.filter_eq_nil_iff.mp filtered e mem unlocked
  obtain ⟨mem, unlocked⟩ := List.mem_filter.mp (minByKey_mem chosen)
  have found := session?_of_mem_entries peerFound mem
  obtain ⟨samePeer, sameSession⟩ := indexed.ids _ _ _ found
  rw [samePeer, sameSession] at unlocked
  refine ⟨e.1, e.2, found, by simpa using unlocked, ?_, ?_⟩
  · unfold findOne
    rw [findOne_loop_append_inUse inUse, findOne.loop, peerFound]
    dsimp only
    rw [chosen]
    simp [samePeer, sameSession]
  · intro sessionId' session' found' unlocked'
    obtain ⟨sessions', peerFound', sessionFound'⟩ := session?_eq_some found'
    rw [peerFound, Option.some.injEq] at peerFound'
    subst peerFound'
    obtain ⟨samePeer', sameSession'⟩ := indexed.ids _ _ _ found'
    apply minByKey_le chosen ⟨sessionId', session'⟩
    refine List.mem_filter.mpr ⟨AList.mem_lookup_iff.mp sessionFound', ?_⟩
    simp [samePeer', sameSession', unlocked']

/-- When every listed peer has a map of sessions, find_one returns a session of a listed peer,
and the least recently accessed free session of the first listed peer that has a free one. -/
theorem Indexed.findOne_of_present (indexed : s.Indexed) (noEmpty : s.NoEmptyPeer) {peerIds : List PeerID}
    (nonempty : peerIds ≠ []) (present : ∀ peerId ∈ peerIds, (s.byPeer.lookup peerId).isSome) :
    ∃ peerId ∈ peerIds, ∃ sessionId session, s.session? peerId sessionId = some session ∧
      (s.findOne peerIds locked time n).map Prod.fst = some (some (peerId, sessionId)) ∧
      ∀ first, peerIds.find? (s.hasUnlocked locked) = some first →
        peerId = first ∧ locked peerId sessionId = false ∧
        ∀ sessionId' session', s.session? first sessionId' = some session' → locked first sessionId' = false →
          session.lastAccessTime ≤ session'.lastAccessTime := by
  cases firstFound : peerIds.find? (s.hasUnlocked locked) with
  | none =>
    have inUse : ∀ peerId ∈ peerIds, (s.byPeer.lookup peerId).isSome ∧ s.hasUnlocked locked peerId = false :=
      fun peerId mem => ⟨present peerId mem, by simpa using List.find?_eq_none.mp firstFound peerId mem⟩
    obtain ⟨peerId, listed, sessionId, session, found, result⟩ := indexed.findOne_of_inUse noEmpty nonempty inUse
    exact ⟨peerId, listed, sessionId, session, found, result, fun _ none => by cases none⟩
  | some first =>
    obtain ⟨sessionId, session, found, unlocked, result, least⟩ := indexed.findOne_of_find? firstFound present
    refine ⟨first, List.mem_of_find?_eq_some firstFound, sessionId, session, found, result, fun first' same => ?_⟩
    obtain rfl := Option.some.inj same
    exact ⟨rfl, unlocked, least⟩

end FindOne

/-- find_one gives up at the first listed peer that has no sessions, whatever the locks, the
time and the draw, though a later listed peer has a session. -/
theorem findOne_stops_at_absent_peer :
    ∃ s, s = ((Sessions.new 4 2 0 : Sessions ℕ ℕ).add 2 7 0).2 ∧ Reachable s ∧ (s.session? 2 7).isSome ∧
      ∀ locked time n, s.findOne [1, 2] locked time n = some (none, s) :=
  ⟨_, rfl, .step (.new 4 2 0) (.add 2 7 0 rfl), rfl, fun _ _ _ => rfl⟩

end Sessions

end Orphiq.EnclaveRpc

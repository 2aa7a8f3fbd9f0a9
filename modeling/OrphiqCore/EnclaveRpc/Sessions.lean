import Mathlib

/-!
# Enclave RPC sessions

`Sessions` of `runtime/src/enclave_rpc/sessions.rs`: the sessions of each peer, in a map of
maps, and every session's key (last access time, peer, session) in a set ordered by that key.
A session is named by its peer and session id; the shared pointer it is reached through is
left out.

The maps are association lists, the order of their entries the iteration order of the hash
maps; the ordered set is a list kept in ascending order of its keys. What the code takes from
outside is an argument: the time `insecure_posix_time` returns, which sessions are locked by
their users, and the index the random number generator draws. A lookup that `unwrap`s on
nothing is a panic, `none`.
-/

namespace Orphiq.EnclaveRpc

abbrev SessionByTimeKey (PeerID SessionID : Type) := Int64 × PeerID × SessionID

/-- `SessionMeta`, without the shared session pointer. -/
structure SessionMeta (PeerID SessionID : Type) where
  peerId : PeerID
  sessionId : SessionID
  lastAccessTime : Int64
  deriving DecidableEq, Repr

inductive Error where
  | maxConcurrentSessions
  deriving DecidableEq, Repr

variable {PeerID SessionID : Type} [LinearOrder PeerID] [LinearOrder SessionID]

def SessionMeta.byTimeKey (session : SessionMeta PeerID SessionID) : SessionByTimeKey PeerID SessionID :=
  (session.lastAccessTime, session.peerId, session.sessionId)

/-- The order of the by-idle-time set: by time, then peer, then session. -/
def keyLe (a b : SessionByTimeKey PeerID SessionID) : Bool :=
  !(b.1 < a.1 || b.1 = a.1 && (b.2.1 < a.2.1 || b.2.1 = a.2.1 && b.2.2 < a.2.2))

/-- `BTreeSet::insert`. -/
def insertKey (key : SessionByTimeKey PeerID SessionID) (keys : List (SessionByTimeKey PeerID SessionID)) :
    List (SessionByTimeKey PeerID SessionID) :=
  if key ∈ keys then keys else keys.orderedInsert (fun a b => keyLe a b = true) key

/-- `Sessions`, without the session builder. -/
structure Sessions (PeerID SessionID : Type) where
  maxSessions : ℕ
  maxSessionsPerPeer : ℕ
  staleSessionTimeout : Int64
  byPeer : AList fun _ : PeerID => AList fun _ : SessionID => SessionMeta PeerID SessionID
  byIdleTime : List (SessionByTimeKey PeerID SessionID)

/-- `Iterator::min_by_key`: the first of the least elements. -/
def minByKey {α : Type} (key : α → Int64) : List α → Option α
  | [] => none
  | a :: as =>
    match minByKey key as with
    | none => some a
    | some b => if key b < key a then some b else some a

/-- The saturating subtraction of `i64`. -/
def saturatingSub (a b : Int64) : Int64 := Int64.ofIntClamp (a.toInt - b.toInt)

namespace Sessions

def new (maxSessions maxSessionsPerPeer : ℕ) (staleSessionTimeout : Int64) : Sessions PeerID SessionID :=
  ⟨maxSessions, maxSessionsPerPeer, staleSessionTimeout, ∅, []⟩

def session? (s : Sessions PeerID SessionID) (peerId : PeerID) (sessionId : SessionID) :
    Option (SessionMeta PeerID SessionID) :=
  (s.byPeer.lookup peerId).bind (·.lookup sessionId)

/-- `Sessions::update_access_time` of the session stored at `peerId` and `sessionId`. -/
def updateAccessTime (s : Sessions PeerID SessionID) (peerId : PeerID) (sessionId : SessionID)
    (session : SessionMeta PeerID SessionID) (time : Int64) : Sessions PeerID SessionID :=
  let updated := { session with lastAccessTime := time }
  { s with
    byIdleTime := insertKey updated.byTimeKey (s.byIdleTime.erase session.byTimeKey)
    byPeer := match s.byPeer.lookup peerId with
      | some sessions => s.byPeer.insert peerId (sessions.insert sessionId updated)
      | none => s.byPeer }

def get (s : Sessions PeerID SessionID) (peerId : PeerID) (sessionId : SessionID) (time : Int64) :
    Option (PeerID × SessionID) × Sessions PeerID SessionID :=
  match s.session? peerId sessionId with
  | none => (none, s)
  | some session => (some (session.peerId, session.sessionId), s.updateAccessTime peerId sessionId session time)

/-- The loop of `find_any`: the first key, in ascending order, of a session not in use. -/
def findUnlocked (s : Sessions PeerID SessionID) (locked : PeerID → SessionID → Bool) :
    List (SessionByTimeKey PeerID SessionID) → Option (Option (PeerID × SessionID × SessionMeta PeerID SessionID))
  | [] => some none
  | (_, peerId, sessionId) :: keys =>
    match s.session? peerId sessionId with
    | none => none
    | some session =>
      if !locked session.peerId session.sessionId then some (some (peerId, sessionId, session))
      else s.findUnlocked locked keys

/-- `Sessions::find_any`; `n` is the random index drawn when every session is in use. -/
def findAny (s : Sessions PeerID SessionID) (locked : PeerID → SessionID → Bool) (time : Int64) (n : ℕ) :
    Option (Option (PeerID × SessionID) × Sessions PeerID SessionID) :=
  if s.byIdleTime.isEmpty then some (none, s)
  else
    match s.findUnlocked locked s.byIdleTime with
    | none => none
    | some (some (peerId, sessionId, session)) =>
      some (some (session.peerId, session.sessionId), s.updateAccessTime peerId sessionId session time)
    | some none =>
      match s.byIdleTime[n % s.byIdleTime.length]? with
      | none => none
      | some (_, peerId, sessionId) =>
        match s.session? peerId sessionId with
        | none => none
        | some session => some (some (session.peerId, session.sessionId), s.updateAccessTime peerId sessionId session time)

/-- `Sessions::find_one`; `n` is the random index drawn when every session found is in use. -/
def findOne (s : Sessions PeerID SessionID) (peerIds : List PeerID) (locked : PeerID → SessionID → Bool)
    (time : Int64) (n : ℕ) : Option (Option (PeerID × SessionID) × Sessions PeerID SessionID) :=
  loop peerIds []
where
  loop : List PeerID → List (PeerID × SessionID) → Option (Option (PeerID × SessionID) × Sessions PeerID SessionID)
  | [], allSessions =>
    if allSessions.isEmpty then some (none, s)
    else
      match allSessions[n % allSessions.length]? with
      | none => none
      | some (peerId, sessionId) =>
        match s.session? peerId sessionId with
        | none => none
        | some session => some (some (session.peerId, session.sessionId), s.updateAccessTime peerId sessionId session time)
  | peerId :: peerIds, allSessions =>
    match s.byPeer.lookup peerId with
    | none => some (none, s)
    | some sessions =>
      match minByKey (·.2.lastAccessTime) (sessions.entries.filter fun e => !locked e.2.peerId e.2.sessionId) with
      | some e => some (some (e.2.peerId, e.2.sessionId), s.updateAccessTime peerId e.1 e.2 time)
      | none => loop peerIds (allSessions ++ sessions.entries.map fun e => (e.2.peerId, e.2.sessionId))

/-- `Sessions::remove` of the session the caller holds, named by its peer and session id. -/
def remove (s : Sessions PeerID SessionID) (peerId : PeerID) (sessionId : SessionID) :
    Option (Sessions PeerID SessionID) :=
  match s.byPeer.lookup peerId with
  | none => none
  | some sessions =>
    match sessions.lookup sessionId with
    | none => none
    | some session =>
      let sessions := sessions.erase sessionId
      some { s with
        byIdleTime := s.byIdleTime.erase session.byTimeKey
        byPeer := if sessions.entries.isEmpty then s.byPeer.erase peerId else s.byPeer.insert peerId sessions }

/-- `Sessions::remove_from`: the session removed, if any. -/
def removeFrom (s : Sessions PeerID SessionID) (peerId : PeerID) (locked : PeerID → SessionID → Bool) :
    Option (Except Error (Option (PeerID × SessionID)) × Sessions PeerID SessionID) :=
  match s.byPeer.lookup peerId with
  | none => some (.ok none, s)
  | some sessions =>
    if sessions.entries.length < s.maxSessionsPerPeer ∧ s.byIdleTime.length < s.maxSessions then some (.ok none, s)
    else
      match minByKey (fun e => if locked e.2.peerId e.2.sessionId then Int64.maxValue else e.2.lastAccessTime)
          sessions.entries with
      | none => some (.error .maxConcurrentSessions, s)
      | some e =>
        if locked e.2.peerId e.2.sessionId then some (.error .maxConcurrentSessions, s)
        else (s.remove e.2.peerId e.2.sessionId).map fun s => (.ok (some (e.2.peerId, e.2.sessionId)), s)

/-- `Sessions::remove_one`: the session removed, if any. -/
def removeOne (s : Sessions PeerID SessionID) (now : Int64) (locked : PeerID → SessionID → Bool) :
    Option (Except Error (Option (PeerID × SessionID)) × Sessions PeerID SessionID) :=
  if s.byIdleTime.length < s.maxSessions then some (.ok none, s)
  else
    match stale s.byIdleTime with
    | .error e => some (.error e, s)
    | .ok none => some (.error .maxConcurrentSessions, s)
    | .ok (some session) => (s.remove session.peerId session.sessionId).map fun s => (.ok (some (session.peerId, session.sessionId)), s)
where
  stale : List (SessionByTimeKey PeerID SessionID) → Except Error (Option (SessionMeta PeerID SessionID))
  | [] => .ok none
  | (lastProcessFrameTime, peerId, sessionId) :: keys =>
    if saturatingSub now lastProcessFrameTime < s.staleSessionTimeout then .error .maxConcurrentSessions
    else
      match s.session? peerId sessionId with
      | some session => if !locked session.peerId session.sessionId then .ok (some session) else stale keys
      | none => stale keys

def removeFor (s : Sessions PeerID SessionID) (peerId : PeerID) (now : Int64) (locked : PeerID → SessionID → Bool) :
    Option (Except Error (Option (PeerID × SessionID)) × Sessions PeerID SessionID) :=
  match s.removeFrom peerId locked with
  | some (.ok (some removed), s) => some (.ok (some removed), s)
  | some (.ok none, s) => s.removeOne now locked
  | result => result

/-- `Sessions::add` of a session of `peerId` with id `sessionId`. -/
def add (s : Sessions PeerID SessionID) (peerId : PeerID) (sessionId : SessionID) (now : Int64) :
    Except Error (PeerID × SessionID) × Sessions PeerID SessionID :=
  if s.byIdleTime.length ≥ s.maxSessions then (.error .maxConcurrentSessions, s)
  else
    -- `entry(..).or_default()` stores an empty map for a new peer before the per-peer check.
    let sessions := (s.byPeer.lookup peerId).getD ∅
    let byPeer := if (s.byPeer.lookup peerId).isSome then s.byPeer else s.byPeer.insert peerId ∅
    if sessions.entries.length ≥ s.maxSessionsPerPeer then (.error .maxConcurrentSessions, { s with byPeer })
    else
      let session : SessionMeta PeerID SessionID := ⟨peerId, sessionId, now⟩
      (.ok (peerId, sessionId), { s with
        byIdleTime := insertKey session.byTimeKey s.byIdleTime
        byPeer := byPeer.insert peerId (sessions.insert sessionId session) })

/-- `Sessions::drain`: every session, and no session left. -/
def drain (s : Sessions PeerID SessionID) : List (PeerID × SessionID) × Sessions PeerID SessionID :=
  (s.byPeer.entries.flatMap fun e => e.2.entries.map fun e' => (e'.2.peerId, e'.2.sessionId),
    { s with byPeer := ∅, byIdleTime := [] })

end Sessions

end Orphiq.EnclaveRpc

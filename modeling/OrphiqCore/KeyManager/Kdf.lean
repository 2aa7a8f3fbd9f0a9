import OrphiqCore.Crypto.Chain

/-!
# The key manager's master secrets

`Kdf::init` and `Kdf::add_master_secret_proposal` of `keymanager/src/crypto/kdf.rs`, with the
untrusted storage they read and write.

Master secrets and proposals are sealed with Deoxys-II, bound to a seal context and to the
runtime and generation as additional data. The model keeps a ciphertext as what it opens to:
its context, runtime, generation and secret. A ciphertext that does not open for the runtime
and generation asked makes `load_master_secret` panic and `load_master_secret_proposal` find
nothing. `written` is every ciphertext the enclave has sealed, the only ones the host can put
back, since it cannot seal. Checksums are stored in plain, an absent one read as empty.

`checksum_master_secret` (KMAC256 keyed with the secret) is the parameter `kmac`. Ephemeral
secrets, signing keys and the LRU caches are not modelled: none of them decides what `init`
reads, writes or returns. Generations are natural numbers.
-/

namespace Orphiq.KeyManager

/-- `common::namespace::Namespace`, by its bytes. -/
abbrev Namespace := List UInt8

abbrev Checksum := List UInt8

/-- The `KeyManagerError`s that `init` and `add_master_secret_proposal` return. -/
inductive KeyManagerError where
  | notInitialized
  | stateCorrupted
  | storageCorrupted
  | runtimeMismatch
  | invalidGeneration (expected given : ℕ)
  | masterSecretNotReplicated (generation : ℕ)
  | masterSecretChecksumMismatch
  deriving DecidableEq, Repr

/-- How a call ends when it does not return `Ok`: an error, or a panic. -/
inductive Exit where
  | error (e : KeyManagerError)
  | panic
  deriving DecidableEq, Repr

inductive SealContext where
  | masterSecret
  | proposal
  deriving DecidableEq, Repr

/-- A ciphertext the enclave sealed, by what it opens to. -/
structure Sealed (Secret : Type) where
  context : SealContext
  runtimeId : Namespace
  generation : ℕ
  secret : Secret
  deriving DecidableEq, Repr

/-- The untrusted storage: the sealed master secret of each generation, the proposal, the
checksums, and every ciphertext sealed so far. -/
structure Storage (Secret : Type) where
  masterSecrets : List (ℕ × Sealed Secret)
  proposal : Option (Sealed Secret)
  checksums : ℕ → Checksum
  written : List (Sealed Secret)

/-- `VerifiableSecret`, a master secret a peer enclave returns with its previous checksum. -/
structure VerifiableSecret (Secret : Type) where
  secret : Secret
  checksum : Checksum

/-- The fields of `Inner` that `init` and `add_master_secret_proposal` read or write. -/
structure Inner where
  generation : Option ℕ
  checksum : Option Checksum
  nextChecksum : Option Checksum
  runtimeId : Option Namespace
  deriving DecidableEq, Repr

/-- `State`, what `init` returns. -/
structure State where
  checksum : Checksum
  nextChecksum : Checksum
  deriving DecidableEq, Repr

variable {Secret : Type}

def Storage.empty : Storage Secret := ⟨[], none, fun _ => [], []⟩

namespace Inner

def new : Inner := ⟨none, none, none, none⟩

def reset (inner : Inner) : Inner :=
  { inner with
    generation := none
    checksum := none
    runtimeId := none }

def getNextGeneration (inner : Inner) : ℕ := (inner.generation.map (· + 1)).getD 0

def verifyNextGeneration (inner : Inner) (generation : ℕ) : Except KeyManagerError Unit :=
  if inner.getNextGeneration ≠ generation then .error (.invalidGeneration inner.getNextGeneration generation)
  else .ok ()

def verifyRuntimeId (inner : Inner) (runtimeId : Namespace) : Except KeyManagerError Unit :=
  match inner.runtimeId with
  | none => .error .notInitialized
  | some id => if runtimeId ≠ id then .error .runtimeMismatch else .ok ()

def setRuntimeId (inner : Inner) (runtimeId : Namespace) : Except KeyManagerError Inner :=
  match inner.runtimeId with
  | some id => if id = runtimeId then .ok inner else .error .runtimeMismatch
  | none => .ok { inner with runtimeId := some runtimeId }

end Inner

section Storage

variable (storage : Storage Secret) (runtimeId : Namespace) (generation : ℕ)

/-- `Kdf::load_master_secret`: `none` is the panic of a ciphertext that does not open. -/
def loadMasterSecret : Option (Option Secret) :=
  match storage.masterSecrets.lookup generation with
  | none => some none
  | some c =>
    if c.context = .masterSecret ∧ c.runtimeId = runtimeId ∧ c.generation = generation then some (some c.secret)
    else none

def storeMasterSecret (secret : Secret) : Storage Secret :=
  let c : Sealed Secret := ⟨.masterSecret, runtimeId, generation, secret⟩
  { storage with
    masterSecrets := (generation, c) :: storage.masterSecrets.filter (·.1 ≠ generation)
    written := c :: storage.written }

def loadMasterSecretProposal : Option Secret :=
  match storage.proposal with
  | none => none
  | some c => if c.context = .proposal ∧ c.runtimeId = runtimeId ∧ c.generation = generation then some c.secret else none

/-- `Kdf::store_master_secret_proposal`: the one proposal slot is overwritten. -/
def storeMasterSecretProposal (secret : Secret) : Storage Secret :=
  let c : Sealed Secret := ⟨.proposal, runtimeId, generation, secret⟩
  { storage with
    proposal := some c
    written := c :: storage.written }

def loadChecksum : Checksum := storage.checksums generation

def storeChecksum (checksum : Checksum) : Storage Secret :=
  { storage with checksums := Function.update storage.checksums generation checksum }

end Storage

variable (kmac : Secret → Checksum → Checksum)

/-- The startup loop of `init` that loads the stored master secrets from `nextGeneration` on,
each checked against the stored checksum of its generation. Each round loads a different
stored generation, so the number of stored generations bounds the rounds (`fuel`). -/
def loadForward (storage : Storage Secret) (runtimeId : Namespace) :
    ℕ → ℕ → Checksum → Except Exit (ℕ × Checksum)
  | 0, nextGeneration, currChecksum => .ok (nextGeneration, currChecksum)
  | fuel + 1, nextGeneration, currChecksum =>
    match loadMasterSecret storage runtimeId nextGeneration with
    | none => .error .panic
    | some none => .ok (nextGeneration, currChecksum)
    | some (some secret) =>
      if loadChecksum storage nextGeneration ≠ currChecksum then .error (.error .storageCorrupted)
      else loadForward storage runtimeId fuel (nextGeneration + 1) (kmac secret currChecksum)

/-- The start of `init`: the generation after the last known master secret and its checksum,
from the state, or on startup from the stored secrets loaded from generation `0` on. -/
def loadStart (inner : Inner) (storage : Storage Secret) (runtimeId : Namespace) : Except Exit (ℕ × Checksum) :=
  if inner.getNextGeneration = 0 then
    loadForward kmac storage runtimeId storage.masterSecrets.length 0 (inner.checksum.getD runtimeId)
  else .ok (inner.getNextGeneration, inner.checksum.getD runtimeId)

/-- The step of `init` that takes the stored proposal as the one missing master secret when it
extends the chain to the consensus checksum. -/
def useProposal (storage : Storage Secret) (runtimeId : Namespace) (generation : ℕ) (checksum : Checksum)
    (nextGeneration : ℕ) (currChecksum : Checksum) : Storage Secret × ℕ × Checksum :=
  if nextGeneration = generation then
    match loadMasterSecretProposal storage runtimeId generation with
    | some secret =>
      let nextChecksum := kmac secret currChecksum
      if nextChecksum = checksum then
        (storeChecksum (storeMasterSecret storage runtimeId generation secret) generation currChecksum,
          nextGeneration + 1, nextChecksum)
      else (storage, nextGeneration, currChecksum)
    | none => (storage, nextGeneration, currChecksum)
  else (storage, nextGeneration, currChecksum)

/-- The peer's secret that extends the chain to `lastChecksum`, with its previous checksum; an
empty checksum stands for the runtime id. -/
def findReplica (runtimeId : Namespace) (lastChecksum : Checksum) (replicas : List (VerifiableSecret Secret)) :
    Option (Secret × Checksum) :=
  replicas.findSome? fun vs =>
    let prevChecksum := if vs.checksum.isEmpty then runtimeId else vs.checksum
    if kmac vs.secret prevChecksum ≠ lastChecksum then none else some (vs.secret, prevChecksum)

/-- The loop of `init` over the generations `nextGeneration + count - 1` down to
`nextGeneration`: each master secret is taken from storage or from a peer, and checked against
the checksum of the generation after it before it is stored. -/
def replicate (runtimeId : Namespace) (provider : ℕ → List (VerifiableSecret Secret)) (nextGeneration : ℕ) :
    ℕ → Checksum → Storage Secret → Except Exit Checksum × Storage Secret
  | 0, lastChecksum, storage => (.ok lastChecksum, storage)
  | count + 1, lastChecksum, storage =>
    let generation := nextGeneration + count
    match loadMasterSecret storage runtimeId generation with
    | none => (.error .panic, storage)
    | some (some secret) =>
      -- the stored previous checksum is untrusted
      let prevChecksum := loadChecksum storage generation
      if kmac secret prevChecksum ≠ lastChecksum then (.error (.error .storageCorrupted), storage)
      else replicate runtimeId provider nextGeneration count prevChecksum storage
    | some none =>
      match findReplica kmac runtimeId lastChecksum (provider generation) with
      | none => (.error (.error (.masterSecretNotReplicated generation)), storage)
      | some (secret, prevChecksum) =>
        replicate runtimeId provider nextGeneration count prevChecksum
          (storeChecksum (storeMasterSecret storage runtimeId generation secret) generation prevChecksum)

/-- The end of `init`: the replicated chain must meet the loaded one, and the state moves to
the consensus generation. -/
def finish (inner : Inner) (storage : Storage Secret) (runtimeId : Namespace) (generation : ℕ) (checksum : Checksum)
    (nextGeneration : ℕ) (currChecksum lastChecksum : Checksum) : Except Exit State × Inner :=
  if nextGeneration > generation + 1 ∨ currChecksum ≠ lastChecksum then (.error (.error .stateCorrupted), inner.reset)
  else if inner.generation ≠ some generation then
    match loadMasterSecret storage runtimeId generation with
    | none => (.error .panic, inner)
    | some none => (.error (.error .stateCorrupted), inner)
    | some (some _) =>
      let inner := { inner with
        generation := some generation
        checksum := some checksum
        nextChecksum := none }
      (.ok ⟨inner.checksum.getD [], inner.nextChecksum.getD []⟩, inner)
  else (.ok ⟨inner.checksum.getD [], inner.nextChecksum.getD []⟩, inner)

/-- `Kdf::init`. The loops reset the state before they return `StorageCorrupted`; the runtime
id set again before the state is updated is the one set at the start. -/
def init (inner : Inner) (storage : Storage Secret) (runtimeId : Namespace) (generation : ℕ) (checksum : Checksum)
    (provider : ℕ → List (VerifiableSecret Secret)) : Except Exit State × Inner × Storage Secret :=
  match inner.setRuntimeId runtimeId with
  | .error e => (.error (.error e), inner, storage)
  | .ok inner =>
    if checksum.isEmpty then
      if inner.checksum.isSome then (.error (.error .stateCorrupted), inner.reset, storage)
      else (.ok ⟨checksum, inner.nextChecksum.getD []⟩, inner, storage)
    else
      match loadStart kmac inner storage runtimeId with
      | .error .panic => (.error .panic, inner, storage)
      | .error (.error e) => (.error (.error e), inner.reset, storage)
      | .ok (nextGeneration, currChecksum) =>
        let (storage, nextGeneration, currChecksum) :=
          useProposal kmac storage runtimeId generation checksum nextGeneration currChecksum
        match replicate kmac runtimeId provider nextGeneration (generation + 1 - nextGeneration) checksum storage with
        | (.error (.error .storageCorrupted), storage) => (.error (.error .storageCorrupted), inner.reset, storage)
        | (.error e, storage) => (.error e, inner, storage)
        | (.ok lastChecksum, storage) =>
          let (result, inner) :=
            finish inner storage runtimeId generation checksum nextGeneration currChecksum lastChecksum
          (result, inner, storage)

def addMasterSecretProposal (inner : Inner) (storage : Storage Secret) (runtimeId : Namespace) (secret : Secret)
    (generation : ℕ) (checksum : Checksum) : Except KeyManagerError Unit × Inner × Storage Secret :=
  match inner.verifyRuntimeId runtimeId with
  | .error e => (.error e, inner, storage)
  | .ok () =>
    match inner.verifyNextGeneration generation with
    | .error e => (.error e, inner, storage)
    | .ok () =>
      let nextChecksum := kmac secret (inner.checksum.getD runtimeId)
      if nextChecksum ≠ checksum then (.error .masterSecretChecksumMismatch, inner, storage)
      else
        (.ok (), { inner with nextChecksum := some nextChecksum },
          storeMasterSecretProposal storage runtimeId generation secret)

end Orphiq.KeyManager

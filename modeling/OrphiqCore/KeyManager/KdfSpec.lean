import OrphiqCore.KeyManager.Kdf
import OrphiqCore.Store.SortedMap

/-!
# The master secret chain

A master secret that `init` seals for generation `g` is a link of the chain the consensus
checksum commits to, with one more link for each later generation (`Writes`): whatever the
host answers, since each secret is checked against the checksum of the generation after it
before it is sealed. Between calls of a Kdf that alone writes its storage, a state at
generation `g` has generations `0` to `g` stored, with checksum chain from the runtime id equal
to its checksum (`Consistent`); an `init` that returns `Ok` for a non-empty checksum ends in
such a state at the consensus generation and checksum.
-/

namespace Orphiq.KeyManager

open HashChain

variable {Secret : Type}

section Storage

variable {storage : Storage Secret} {runtimeId runtimeId' : Namespace} {generation i : ℕ} {secret : Secret}

theorem loadMasterSecret_storeMasterSecret_self :
    loadMasterSecret (storeMasterSecret storage runtimeId generation secret) runtimeId generation = some (some secret) := by
  simp [loadMasterSecret, storeMasterSecret, Store.lookup_cons_eq_ite]

theorem loadMasterSecret_storeMasterSecret_of_ne (other : i ≠ generation) :
    loadMasterSecret (storeMasterSecret storage runtimeId generation secret) runtimeId' i =
      loadMasterSecret storage runtimeId' i := by
  simp only [loadMasterSecret, storeMasterSecret]
  rw [Store.lookup_cons_eq_ite, if_neg other, Store.lookup_filter_ne, if_neg other]

@[simp] theorem loadMasterSecret_storeChecksum (checksum : Checksum) :
    loadMasterSecret (storeChecksum storage generation checksum) runtimeId' i = loadMasterSecret storage runtimeId' i :=
  rfl

end Storage

variable (kmac : Secret → Checksum → Checksum)

/-- The secrets are stored for the runtime from generation `start` on. -/
def Stored (storage : Storage Secret) (runtimeId : Namespace) (start : ℕ) (secrets : List Secret) : Prop :=
  ∀ i (h : i < secrets.length), loadMasterSecret storage runtimeId (start + i) = some (some secrets[i])

/-- Generations `0` to `n - 1` are stored for the runtime, and their chain from the runtime id is
`checksum`. -/
def Holds (storage : Storage Secret) (runtimeId : Namespace) (n : ℕ) (checksum : Checksum) : Prop :=
  ∃ secrets, secrets.length = n ∧ Stored storage runtimeId 0 secrets ∧ digest kmac runtimeId secrets = checksum

/-- Storage below generation `n` is as it was. -/
def Frame (storage storage' : Storage Secret) (n : ℕ) : Prop :=
  ∀ runtimeId i, i < n → loadMasterSecret storage' runtimeId i = loadMasterSecret storage runtimeId i

/-- A master secret sealed for the runtime, of a generation at most `generation`, that is a link
of a chain to `checksum` with one more link for each later generation up to `generation`. -/
def Link (runtimeId : Namespace) (generation : ℕ) (checksum : Checksum) (x : Sealed Secret) : Prop :=
  x.runtimeId = runtimeId ∧ x.generation ≤ generation ∧
    ∃ prev rest, rest.length = generation - x.generation ∧ digest kmac prev (x.secret :: rest) = checksum

/-- Every master secret sealed from `storage` to `storage'` is a `Link`. -/
def Writes (storage storage' : Storage Secret) (runtimeId : Namespace) (generation : ℕ) (checksum : Checksum) : Prop :=
  ∃ sealed, storage'.written = sealed ++ storage.written ∧
    ∀ x ∈ sealed, x.context = .masterSecret → Link kmac runtimeId generation checksum x

/-- What holds between calls: a state at a generation has its runtime id and checksum, and
storage holds the chain of that generation. -/
structure Consistent (inner : Inner) (storage : Storage Secret) : Prop where
  checksum_none : inner.generation = none → inner.checksum = none
  holds : ∀ g, inner.generation = some g →
    ∃ runtimeId checksum, inner.runtimeId = some runtimeId ∧ inner.checksum = some checksum ∧
      Holds kmac storage runtimeId (g + 1) checksum

variable {kmac}

section Frame

variable {storage storage' storage'' : Storage Secret} {runtimeId : Namespace} {n : ℕ}

theorem Frame.refl (storage : Storage Secret) (n : ℕ) : Frame storage storage n := fun _ _ _ => rfl

theorem Frame.trans (first : Frame storage storage' n) (second : Frame storage' storage'' n) :
    Frame storage storage'' n :=
  fun runtimeId i below => (second runtimeId i below).trans (first runtimeId i below)

theorem Frame.mono {m : ℕ} (frame : Frame storage storage' n) (le : m ≤ n) : Frame storage storage' m :=
  fun runtimeId i below => frame runtimeId i (lt_of_lt_of_le below le)

theorem Frame.store {generation : ℕ} (above : n ≤ generation) (secret : Secret) (checksum : Checksum) :
    Frame storage (storeChecksum (storeMasterSecret storage runtimeId generation secret) generation checksum) n :=
  fun _ _ below => by
    rw [loadMasterSecret_storeChecksum, loadMasterSecret_storeMasterSecret_of_ne (by omega)]

theorem Stored.frame {start : ℕ} {secrets : List Secret} (stored : Stored storage runtimeId start secrets)
    (frame : Frame storage storage' n) (within : start + secrets.length ≤ n) : Stored storage' runtimeId start secrets :=
  fun i h => (frame runtimeId (start + i) (by omega)).trans (stored i h)

theorem Holds.frame {m : ℕ} {checksum : Checksum} (holds : Holds kmac storage runtimeId m checksum)
    (frame : Frame storage storage' n) (le : m ≤ n) : Holds kmac storage' runtimeId m checksum := by
  obtain ⟨secrets, length, stored, digest⟩ := holds
  exact ⟨secrets, length, stored.frame frame (by omega), digest⟩

theorem Holds.append {checksum last : Checksum} {rest : List Secret} (holds : Holds kmac storage runtimeId n last)
    (stored : Stored storage runtimeId n rest) (chain : digest kmac last rest = checksum) :
    Holds kmac storage runtimeId (n + rest.length) checksum := by
  obtain ⟨secrets, rfl, storedPrefix, digestPrefix⟩ := holds
  refine ⟨secrets ++ rest, by simp, fun i h => ?_, by rw [digest_append, digestPrefix, chain]⟩
  by_cases before : i < secrets.length
  · rw [List.getElem_append_left before]
    exact storedPrefix i before
  · have after : i - secrets.length < rest.length := by simp at h; omega
    rw [List.getElem_append_right (by omega), ← stored _ after]
    congr 1
    omega

end Frame

section Writes

variable {storage storage' storage'' : Storage Secret} {runtimeId : Namespace} {generation : ℕ} {checksum : Checksum}

theorem Writes.refl (storage : Storage Secret) : Writes kmac storage storage runtimeId generation checksum :=
  ⟨[], rfl, by simp⟩

theorem Writes.trans (first : Writes kmac storage storage' runtimeId generation checksum)
    (second : Writes kmac storage' storage'' runtimeId generation checksum) :
    Writes kmac storage storage'' runtimeId generation checksum := by
  obtain ⟨sealed, written, links⟩ := first
  obtain ⟨sealed', written', links'⟩ := second
  refine ⟨sealed' ++ sealed, by rw [written', written, List.append_assoc], fun x mem => ?_⟩
  rcases List.mem_append.mp mem with mem | mem
  · exact links' x mem
  · exact links x mem

theorem Writes.store {g : ℕ} {secret : Secret} (link : Link kmac runtimeId generation checksum ⟨.masterSecret, runtimeId, g, secret⟩)
    (prev : Checksum) :
    Writes kmac storage (storeChecksum (storeMasterSecret storage runtimeId g secret) g prev) runtimeId generation checksum :=
  ⟨[⟨.masterSecret, runtimeId, g, secret⟩], rfl, fun x mem _ => by rw [List.mem_singleton.mp mem]; exact link⟩

end Writes

theorem Stored.cons {storage : Storage Secret} {runtimeId : Namespace} {start : ℕ} {secret : Secret}
    {secrets : List Secret} (head : loadMasterSecret storage runtimeId start = some (some secret))
    (tail : Stored storage runtimeId (start + 1) secrets) : Stored storage runtimeId start (secret :: secrets)
  | 0, _ => head
  | i + 1, h => by
    rw [show start + (i + 1) = start + 1 + i by omega]
    exact tail i (by simpa using h)

section Phases

variable {inner inner₁ : Inner} {storage storage' : Storage Secret} {runtimeId : Namespace}

theorem Consistent.new (storage : Storage Secret) : Consistent kmac Inner.new storage :=
  ⟨fun _ => rfl, fun _ none => nomatch none⟩

theorem Consistent.reset (inner : Inner) (storage : Storage Secret) : Consistent kmac inner.reset storage :=
  ⟨fun _ => rfl, fun _ none => nomatch none⟩

theorem Consistent.frame (consistent : Consistent kmac inner storage)
    (frame : Frame storage storage' inner.getNextGeneration) : Consistent kmac inner storage' := by
  refine ⟨consistent.checksum_none, fun g current => ?_⟩
  obtain ⟨runtimeId, checksum, id, stored, holds⟩ := consistent.holds g current
  have next : inner.getNextGeneration = g + 1 := by simp [Inner.getNextGeneration, current]
  exact ⟨runtimeId, checksum, id, stored, holds.frame frame next.ge⟩

theorem Inner.setRuntimeId_eq_ok (set : inner.setRuntimeId runtimeId = .ok inner₁) :
    inner₁ = { inner with runtimeId := some runtimeId } ∧ ∀ id, inner.runtimeId = some id → id = runtimeId := by
  unfold Inner.setRuntimeId at set
  split at set
  · rename_i id current
    split_ifs at set with same
    cases set
    refine ⟨?_, fun id' current' => ?_⟩
    · rw [← same, ← current]
    · rw [current] at current'
      cases current'
      exact same
  · cases set
    exact ⟨rfl, fun id current' => by simp_all⟩

theorem Consistent.setRuntimeId (consistent : Consistent kmac inner storage)
    (set : inner.setRuntimeId runtimeId = .ok inner₁) : Consistent kmac inner₁ storage := by
  obtain ⟨rfl, same⟩ := Inner.setRuntimeId_eq_ok set
  refine ⟨consistent.checksum_none, fun g current => ?_⟩
  obtain ⟨id, checksum, current', stored, holds⟩ := consistent.holds g current
  obtain rfl := same id current'
  exact ⟨id, checksum, rfl, stored, holds⟩

theorem loadForward_spec {fuel n n' : ℕ} {c c' : Checksum}
    (loaded : loadForward kmac storage runtimeId fuel n c = .ok (n', c')) :
    n ≤ n' ∧ (Holds kmac storage runtimeId n c → Holds kmac storage runtimeId n' c') := by
  induction fuel generalizing n c with
  | zero =>
    cases loaded
    exact ⟨le_refl _, id⟩
  | succ fuel ih =>
    rw [loadForward] at loaded
    cases found : loadMasterSecret storage runtimeId n with
    | none => simp [found] at loaded
    | some secret =>
      cases secret with
      | none =>
        simp only [found, Except.ok.injEq, Prod.mk.injEq] at loaded
        obtain ⟨rfl, rfl⟩ := loaded
        exact ⟨le_refl n, id⟩
      | some secret =>
        simp only [found] at loaded
        split_ifs at loaded with mismatch
        obtain ⟨le, next⟩ := ih loaded
        refine ⟨by omega, fun holds => next ?_⟩
        -- the loaded secret joins the chain by one generation
        have stored : Stored storage runtimeId n [secret] := fun | 0, _ => found
        exact holds.append stored rfl

theorem loadStart_spec {n : ℕ} {c : Checksum} (loaded : loadStart kmac inner storage runtimeId = .ok (n, c)) :
    inner.getNextGeneration ≤ n ∧ (inner.getNextGeneration ≠ 0 → n = inner.getNextGeneration ∧ c = inner.checksum.getD runtimeId) ∧
      (Consistent kmac inner storage → inner.runtimeId = some runtimeId → Holds kmac storage runtimeId n c) := by
  unfold loadStart at loaded
  split_ifs at loaded with startup
  · obtain ⟨le, next⟩ := loadForward_spec loaded
    refine ⟨by omega, fun running => absurd startup running, fun consistent _ => next ?_⟩
    -- on startup the state holds no generation, so the chain starts at the runtime id
    have fresh : inner.generation = none := by
      cases current : inner.generation <;> simp_all [Inner.getNextGeneration]
    rw [consistent.checksum_none fresh]
    exact ⟨[], rfl, fun _ h => absurd h (Nat.not_lt_zero _), rfl⟩
  · cases loaded
    refine ⟨le_refl _, fun _ => ⟨rfl, rfl⟩, fun consistent id => ?_⟩
    obtain ⟨g, current⟩ : ∃ g, inner.generation = some g := by
      cases current : inner.generation <;> simp_all [Inner.getNextGeneration]
    obtain ⟨id', checksum, current', stored, holds⟩ := consistent.holds g current
    rw [id] at current'
    cases current'
    simpa [Inner.getNextGeneration, current, stored] using holds

variable {generation : ℕ} {checksum : Checksum}

theorem useProposal_spec {n n' : ℕ} {c c' : Checksum}
    (run : useProposal kmac storage runtimeId generation checksum n c = (storage', n', c')) :
    Writes kmac storage storage' runtimeId generation checksum ∧ Frame storage storage' n ∧ n ≤ n' ∧
      (n ≠ generation → storage' = storage ∧ n' = n ∧ c' = c) ∧
      (Holds kmac storage runtimeId n c → Holds kmac storage' runtimeId n' c') := by
  unfold useProposal at run
  by_cases last : n = generation
  · rw [if_pos last] at run
    cases proposal : loadMasterSecretProposal storage runtimeId generation with
    | none =>
      simp only [proposal, Prod.mk.injEq] at run
      obtain ⟨rfl, rfl, rfl⟩ := run
      exact ⟨Writes.refl _, Frame.refl _ _, le_refl _, fun _ => ⟨rfl, rfl, rfl⟩, id⟩
    | some secret =>
      simp only [proposal] at run
      split_ifs at run with joins
      · simp only [Prod.mk.injEq] at run
        obtain ⟨rfl, rfl, rfl⟩ := run
        -- the proposal is sealed as the last link of the chain
        have link : Link kmac runtimeId generation checksum ⟨.masterSecret, runtimeId, generation, secret⟩ :=
          ⟨rfl, le_refl _, c, [], by simp, joins⟩
        refine ⟨Writes.store link c, Frame.store last.le secret c, by omega, fun other => absurd last other,
          fun holds => ?_⟩
        have stored : Stored (storeChecksum (storeMasterSecret storage runtimeId generation secret) generation c)
            runtimeId n [secret] := fun | 0, _ => by rw [last]; exact loadMasterSecret_storeMasterSecret_self
        exact (holds.frame (Frame.store last.le secret c) (le_refl n)).append stored rfl
      · simp only [Prod.mk.injEq] at run
        obtain ⟨rfl, rfl, rfl⟩ := run
        exact ⟨Writes.refl _, Frame.refl _ _, le_refl _, fun _ => ⟨rfl, rfl, rfl⟩, id⟩
  · rw [if_neg last] at run
    simp only [Prod.mk.injEq] at run
    obtain ⟨rfl, rfl, rfl⟩ := run
    exact ⟨Writes.refl _, Frame.refl _ _, le_refl _, fun _ => ⟨rfl, rfl, rfl⟩, id⟩

theorem findReplica_spec {last : Checksum} {replicas : List (VerifiableSecret Secret)} {secret : Secret}
    {prev : Checksum} (found : findReplica kmac runtimeId last replicas = some (secret, prev)) :
    kmac secret prev = last := by
  obtain ⟨vs, -, joins⟩ := List.exists_of_findSome?_eq_some found
  dsimp only at joins
  generalize (if vs.checksum.isEmpty then runtimeId else vs.checksum) = p at joins
  split_ifs at joins with mismatch
  cases joins
  exact not_not.mp mismatch

theorem Stored.store {start g : ℕ} {secrets : List Secret} {runtimeId' : Namespace}
    (stored : Stored storage runtimeId start secrets) (apart : g < start) (secret : Secret) (prev : Checksum) :
    Stored (storeChecksum (storeMasterSecret storage runtimeId' g secret) g prev) runtimeId start secrets :=
  fun i h => by
    rw [loadMasterSecret_storeChecksum, loadMasterSecret_storeMasterSecret_of_ne (by omega)]
    exact stored i h

/-- The replication loop seals only links of the chain to `checksum`, writes no generation below
`n`, and on success leaves the generations from `n` stored with their chain to `checksum`. The
loop carries the generations it has passed, stored with their chain from `last`. -/
theorem replicate_spec {provider : ℕ → List (VerifiableSecret Secret)} {n : ℕ} {result : Except Exit Checksum} :
    ∀ {count : ℕ} {last : Checksum} {storage : Storage Secret},
      (count = 0 ∨ n + count ≤ generation + 1) →
      (∃ rest, rest.length = generation + 1 - (n + count) ∧ Stored storage runtimeId (n + count) rest ∧
        digest kmac last rest = checksum) →
      replicate kmac runtimeId provider n count last storage = (result, storage') →
      Writes kmac storage storage' runtimeId generation checksum ∧ Frame storage storage' n ∧
        ∀ last', result = .ok last' → ∃ rest, rest.length = generation + 1 - n ∧
          Stored storage' runtimeId n rest ∧ digest kmac last' rest = checksum
  | 0, last, storage, _, passed, run => by
    cases run
    exact ⟨Writes.refl _, Frame.refl _ _, fun last' done => by cases done; simpa using passed⟩
  | count + 1, last, storage, bound, passed, run => by
    have below : n + count + 1 ≤ generation + 1 := by omega
    obtain ⟨rest, length, stored, chain⟩ := passed
    rw [replicate] at run
    cases found : loadMasterSecret storage runtimeId (n + count) with
    | none =>
      simp only [found, Prod.mk.injEq] at run
      obtain ⟨rfl, rfl⟩ := run
      exact ⟨Writes.refl _, Frame.refl _ _, fun _ done => nomatch done⟩
    | some secret =>
      cases secret with
      | some secret =>
        -- a stored secret is checked against its untrusted previous checksum
        simp only [found] at run
        split_ifs at run with mismatch
        · simp only [Prod.mk.injEq] at run
          obtain ⟨rfl, rfl⟩ := run
          exact ⟨Writes.refl _, Frame.refl _ _, fun _ done => nomatch done⟩
        · refine replicate_spec (.inr (by omega)) ⟨secret :: rest, by rw [List.length_cons, length]; omega,
            Stored.cons found stored, ?_⟩ run
          rw [digest_cons, not_not.mp mismatch, chain]
      | none =>
        -- a secret from a peer is checked, then sealed with its previous checksum
        simp only [found] at run
        cases replica : findReplica kmac runtimeId last (provider (n + count)) with
        | none =>
          simp only [replica, Prod.mk.injEq] at run
          obtain ⟨rfl, rfl⟩ := run
          exact ⟨Writes.refl _, Frame.refl _ _, fun _ done => nomatch done⟩
        | some replicated =>
          obtain ⟨secret, prev⟩ := replicated
          simp only [replica] at run
          have joins := findReplica_spec replica
          have link : Link kmac runtimeId generation checksum ⟨.masterSecret, runtimeId, n + count, secret⟩ :=
            ⟨rfl, by dsimp only; omega, prev, rest, by dsimp only; omega, by rw [digest_cons, joins, chain]⟩
          obtain ⟨writes, frame, done⟩ := replicate_spec (.inr (by omega))
            ⟨secret :: rest, by rw [List.length_cons, length]; omega,
              Stored.cons (by simp [loadMasterSecret_storeMasterSecret_self])
                (stored.store (by omega) secret prev), by rw [digest_cons, joins, chain]⟩ run
          exact ⟨(Writes.store link prev).trans writes, (Frame.store (by omega) secret prev).trans frame, done⟩

theorem finish_spec {n : ℕ} {c last : Checksum} {result : Except Exit State} {inner' : Inner}
    (run : finish inner storage runtimeId generation checksum n c last = (result, inner')) :
    (inner' = inner ∨ inner' = inner.reset ∨
      inner' = { inner with generation := some generation, checksum := some checksum, nextChecksum := none } ∧
        n ≤ generation + 1 ∧ c = last) ∧
    ∀ st, result = .ok st → n ≤ generation + 1 ∧ c = last ∧
      (inner' = { inner with generation := some generation, checksum := some checksum, nextChecksum := none } ∧
          st.checksum = checksum ∨
        inner.generation = some generation ∧ inner' = inner ∧ st.checksum = inner.checksum.getD []) := by
  unfold finish at run
  by_cases mismatch : n > generation + 1 ∨ c ≠ last
  · rw [if_pos mismatch] at run
    cases run
    exact ⟨.inr (.inl rfl), fun _ done => nomatch done⟩
  rw [if_neg mismatch] at run
  have agree : n ≤ generation + 1 ∧ c = last := ⟨by omega, not_not.mp (not_or.mp mismatch).2⟩
  by_cases moved : inner.generation ≠ some generation
  · rw [if_pos moved] at run
    cases found : loadMasterSecret storage runtimeId generation with
    | none =>
      simp only [found, Prod.mk.injEq] at run
      obtain ⟨rfl, rfl⟩ := run
      exact ⟨.inl rfl, fun _ done => nomatch done⟩
    | some secret =>
      cases secret with
      | none =>
        simp only [found, Prod.mk.injEq] at run
        obtain ⟨rfl, rfl⟩ := run
        exact ⟨.inl rfl, fun _ done => nomatch done⟩
      | some _ =>
        simp only [found, Prod.mk.injEq] at run
        obtain ⟨rfl, rfl⟩ := run
        exact ⟨.inr (.inr ⟨rfl, agree⟩), fun st done => by cases done; exact ⟨agree.1, agree.2, .inl ⟨rfl, rfl⟩⟩⟩
  · rw [if_neg moved] at run
    simp only [Prod.mk.injEq] at run
    obtain ⟨rfl, rfl⟩ := run
    exact ⟨.inl rfl, fun st done => by cases done; exact ⟨agree.1, agree.2, .inr ⟨not_not.mp moved, rfl, rfl⟩⟩⟩

/-- What a call of `init` can do: fail before it writes anything, or run the start, the
proposal step and the replication loop, and then fail or finish. -/
theorem init_cases {provider : ℕ → List (VerifiableSecret Secret)} {result : Except Exit State} {inner' : Inner}
    (call : init kmac inner storage runtimeId generation checksum provider = (result, inner', storage')) :
    (storage' = storage ∧
        (inner' = inner ∨ ∃ inner₁, inner.setRuntimeId runtimeId = .ok inner₁ ∧ (inner' = inner₁ ∨ inner' = inner₁.reset)) ∧
        (checksum ≠ [] → ∀ st, result ≠ .ok st)) ∨
      ∃ inner₁ n c storage₁ n₁ c₁ r, inner.setRuntimeId runtimeId = .ok inner₁ ∧ checksum ≠ [] ∧
        loadStart kmac inner₁ storage runtimeId = .ok (n, c) ∧
        useProposal kmac storage runtimeId generation checksum n c = (storage₁, n₁, c₁) ∧
        replicate kmac runtimeId provider n₁ (generation + 1 - n₁) checksum storage₁ = (r, storage') ∧
        ((inner' = inner₁ ∨ inner' = inner₁.reset) ∧ (∀ st, result ≠ .ok st) ∨
          ∃ last, r = .ok last ∧ finish inner₁ storage' runtimeId generation checksum n₁ c₁ last = (result, inner')) := by
  unfold init at call
  cases set : inner.setRuntimeId runtimeId with
  | error e =>
    simp only [set, Prod.mk.injEq] at call
    obtain ⟨rfl, rfl, rfl⟩ := call
    exact .inl ⟨rfl, .inl rfl, fun _ _ done => nomatch done⟩
  | ok inner₁ =>
    simp only [set] at call
    by_cases empty : checksum.isEmpty
    · -- without a checksum nothing is read or written
      have none : checksum = [] := List.isEmpty_iff.mp empty
      rw [if_pos empty] at call
      split_ifs at call <;>
      · simp only [Prod.mk.injEq] at call
        obtain ⟨rfl, rfl, rfl⟩ := call
        exact .inl ⟨rfl, .inr ⟨inner₁, rfl, by simp⟩, fun nonempty => absurd none nonempty⟩
    rw [if_neg empty] at call
    have nonempty : checksum ≠ [] := fun none => empty (by simp [none])
    generalize start : loadStart kmac inner₁ storage runtimeId = loaded at call
    cases loaded with
    | error exit =>
      cases exit <;>
      · simp only [Prod.mk.injEq] at call
        obtain ⟨rfl, rfl, rfl⟩ := call
        exact .inl ⟨rfl, .inr ⟨inner₁, rfl, by simp⟩, fun _ _ done => nomatch done⟩
    | ok loaded =>
      obtain ⟨n, c⟩ := loaded
      rcases proposal : useProposal kmac storage runtimeId generation checksum n c with ⟨storage₁, n₁, c₁⟩
      rcases replicated : replicate kmac runtimeId provider n₁ (generation + 1 - n₁) checksum storage₁ with ⟨r, storage₂⟩
      simp only [proposal, replicated] at call
      refine .inr ⟨inner₁, n, c, storage₁, n₁, c₁, r, rfl, nonempty, start, proposal, ?_⟩
      split at call
      · rename_i storage₃ same
        simp only [Prod.mk.injEq] at call same
        obtain ⟨rfl, rfl, rfl⟩ := call
        obtain ⟨rfl, rfl⟩ := same
        exact ⟨replicated, .inl ⟨.inr rfl, fun _ done => nomatch done⟩⟩
      · rename_i e storage₃ _ same
        simp only [Prod.mk.injEq] at call same
        obtain ⟨rfl, rfl, rfl⟩ := call
        obtain ⟨rfl, rfl⟩ := same
        exact ⟨replicated, .inl ⟨.inl rfl, fun _ done => nomatch done⟩⟩
      · rename_i last storage₃ same
        simp only [Prod.mk.injEq] at call same
        obtain ⟨rfl, rfl⟩ := same
        obtain ⟨finished, finished', rfl⟩ := call
        exact ⟨replicated, .inr ⟨last, rfl, by rw [← finished, ← finished']⟩⟩

theorem replicate_start {provider : ℕ → List (VerifiableSecret Secret)} {n : ℕ} {storage₁ : Storage Secret}
    {r : Except Exit Checksum}
    (replicated : replicate kmac runtimeId provider n (generation + 1 - n) checksum storage₁ = (r, storage')) :
    Writes kmac storage₁ storage' runtimeId generation checksum ∧ Frame storage₁ storage' n ∧
      ∀ last, r = .ok last → ∃ rest, rest.length = generation + 1 - n ∧ Stored storage' runtimeId n rest ∧
        digest kmac last rest = checksum :=
  replicate_spec (by omega) ⟨[], by simp; omega, fun _ h => absurd h (Nat.not_lt_zero _), rfl⟩ replicated

theorem Inner.getNextGeneration_of_setRuntimeId (set : inner.setRuntimeId runtimeId = .ok inner₁) :
    inner₁.getNextGeneration = inner.getNextGeneration ∧ inner₁.runtimeId = some runtimeId := by
  rw [(Inner.setRuntimeId_eq_ok set).1]
  exact ⟨rfl, rfl⟩

variable {provider : ℕ → List (VerifiableSecret Secret)} {result : Except Exit State} {inner' : Inner}

/-- `init` seals only links of the chain to `checksum`, and writes no generation below the one
after its state's. -/
theorem init_writes (call : init kmac inner storage runtimeId generation checksum provider = (result, inner', storage')) :
    Writes kmac storage storage' runtimeId generation checksum ∧ Frame storage storage' inner.getNextGeneration := by
  rcases init_cases call with ⟨rfl, -, -⟩ | ⟨inner₁, n, c, storage₁, n₁, c₁, r, set, -, start, proposal, replicated, -⟩
  · exact ⟨Writes.refl _, Frame.refl _ _⟩
  · obtain ⟨writes, frame, le, -, -⟩ := useProposal_spec proposal
    obtain ⟨writes', frame', -⟩ := replicate_start replicated
    have next : inner.getNextGeneration ≤ n :=
      (Inner.getNextGeneration_of_setRuntimeId set).1 ▸ (loadStart_spec start).1
    exact ⟨writes.trans writes', (frame.mono next).trans (frame'.mono (next.trans le))⟩

/-- `init` keeps the state consistent with storage; returning `Ok` for a non-empty checksum, it
ends at the consensus generation and checksum, with the chain of that generation stored. -/
theorem Consistent.init (consistent : Consistent kmac inner storage)
    (call : init kmac inner storage runtimeId generation checksum provider = (result, inner', storage')) :
    Consistent kmac inner' storage' ∧ (checksum ≠ [] → ∀ st, result = .ok st →
      inner'.generation = some generation ∧ inner'.checksum = some checksum ∧ st.checksum = checksum ∧
        Holds kmac storage' runtimeId (generation + 1) checksum) := by
  have frame := (init_writes call).2
  rcases init_cases call with ⟨rfl, unchanged, notOk⟩ |
    ⟨inner₁, n, c, storage₁, n₁, c₁, r, set, -, start, proposal, replicated, ending⟩
  · refine ⟨?_, fun nonempty st done => absurd done (notOk nonempty st)⟩
    rcases unchanged with rfl | ⟨inner₁, set, rfl | rfl⟩
    · exact consistent
    · exact consistent.setRuntimeId set
    · exact Consistent.reset _ _
  obtain ⟨next₁, id₁⟩ := Inner.getNextGeneration_of_setRuntimeId set
  have consistent₁ := consistent.setRuntimeId set
  have kept : Consistent kmac inner₁ storage' := consistent₁.frame (next₁ ▸ frame)
  obtain ⟨-, running, holds⟩ := loadStart_spec start
  obtain ⟨-, -, -, unchangedProposal, holdsProposal⟩ := useProposal_spec proposal
  obtain ⟨-, frameReplicated, replicatedOk⟩ := replicate_start replicated
  -- the chain up to `n₁` survives the replication loop, which writes from `n₁` on
  have held : Holds kmac storage' runtimeId n₁ c₁ :=
    (holdsProposal (holds consistent₁ id₁)).frame frameReplicated (le_refl _)
  rcases ending with ⟨rfl | rfl, notOk⟩ | ⟨last, rfl, finished⟩
  · exact ⟨kept, fun _ st done => absurd done (notOk st)⟩
  · exact ⟨Consistent.reset _ _, fun _ st done => absurd done (notOk st)⟩
  obtain ⟨rest, length, stored, chain⟩ := replicatedOk last rfl
  obtain ⟨shape, ok⟩ := finish_spec finished
  -- where the loaded chain meets the replicated one, storage holds the whole chain
  have whole : n₁ ≤ generation + 1 → c₁ = last → Holds kmac storage' runtimeId (generation + 1) checksum := by
    intro le same
    rw [same] at held
    have joined := held.append stored chain
    rwa [length, show n₁ + (generation + 1 - n₁) = generation + 1 by omega] at joined
  refine ⟨?_, fun _ st done => ?_⟩
  · rcases shape with rfl | rfl | ⟨rfl, le, same⟩
    · exact kept
    · exact Consistent.reset _ _
    · refine ⟨fun none => (nomatch none), fun g current => ?_⟩
      obtain rfl := Option.some.inj current
      exact ⟨runtimeId, checksum, id₁, rfl, whole le same⟩
  obtain ⟨le, same, ⟨rfl, checksumOk⟩ | ⟨current, unchanged, checksumOk⟩⟩ := ok st done
  · exact ⟨rfl, rfl, checksumOk, whole le same⟩
  rw [unchanged]
  -- a state already at the consensus generation replicates nothing, so its checksum must be the
  -- consensus checksum
  have nextGeneration : inner₁.getNextGeneration = generation + 1 := by simp [Inner.getNextGeneration, current]
  obtain ⟨startAt, startChecksum⟩ := running (by omega)
  obtain ⟨-, proposalAt, proposalChecksum⟩ := unchangedProposal (by omega)
  have nothingLeft : rest = [] := List.eq_nil_of_length_eq_zero (by omega)
  rw [nothingLeft, digest_nil] at chain
  obtain ⟨-, c₀, -, stored₀, -⟩ := consistent₁.holds generation current
  have agree : c₀ = checksum := by
    have met := same
    rw [proposalChecksum, startChecksum, stored₀, chain] at met
    simpa using met
  exact ⟨current, by rw [stored₀, agree], by rw [checksumOk, stored₀, agree]; rfl, whole le same⟩

theorem Consistent.addMasterSecretProposal {secret : Secret} {r : Except KeyManagerError Unit}
    (consistent : Consistent kmac inner storage)
    (call : addMasterSecretProposal kmac inner storage runtimeId secret generation checksum = (r, inner', storage')) :
    Consistent kmac inner' storage' := by
  unfold Orphiq.KeyManager.addMasterSecretProposal at call
  split at call
  · cases call
    exact consistent
  split at call
  · cases call
    exact consistent
  dsimp only at call
  split_ifs at call
  · cases call
    exact consistent
  -- only the proposal slot and the next checksum change
  · cases call
    exact ⟨consistent.checksum_none, consistent.holds⟩

end Phases

variable (kmac)

/-- The states a Kdf reaches from a fresh start over empty storage through calls of `init` and
`add_master_secret_proposal` and restarts of the enclave, with no other writer to storage. -/
inductive Reachable : Inner → Storage Secret → Prop
  | new : Reachable Inner.new Storage.empty
  | init {inner inner' : Inner} {storage storage' : Storage Secret} {runtimeId : Namespace} {generation : ℕ}
      {checksum : Checksum} {provider : ℕ → List (VerifiableSecret Secret)} {result : Except Exit State}
      (reachable : Reachable inner storage)
      (call : init kmac inner storage runtimeId generation checksum provider = (result, inner', storage')) :
      Reachable inner' storage'
  | addMasterSecretProposal {inner inner' : Inner} {storage storage' : Storage Secret} {runtimeId : Namespace}
      {secret : Secret} {generation : ℕ} {checksum : Checksum} {result : Except KeyManagerError Unit}
      (reachable : Reachable inner storage)
      (call : addMasterSecretProposal kmac inner storage runtimeId secret generation checksum = (result, inner', storage')) :
      Reachable inner' storage'
  | restart {inner : Inner} {storage : Storage Secret} (reachable : Reachable inner storage) :
      Reachable Inner.new storage

variable {kmac}

theorem Reachable.consistent {inner : Inner} {storage : Storage Secret} (reachable : Reachable kmac inner storage) :
    Consistent kmac inner storage := by
  induction reachable with
  | new => exact Consistent.new _
  | init _ call ih => exact (ih.init call).1
  | addMasterSecretProposal _ call ih => exact ih.addMasterSecretProposal call
  | restart _ _ => exact Consistent.new _

/-- Every master secret `init` seals, whatever the host answers and even when the call then
fails, is a link of a chain to the consensus checksum with one link for each later generation;
with an injective checksum step it is the link of that generation of every such chain. And in a
Kdf that alone writes its storage, an `init` that returns `Ok` for a non-empty checksum ends at
the consensus generation and checksum with generations `0` to `generation` stored, their chain
from the runtime id equal to the consensus checksum. -/
theorem kdf_init_chain_integrity (kmac : Secret → Checksum → Checksum) :
    (∀ (inner inner' : Inner) (storage storage' : Storage Secret) (runtimeId : Namespace) (generation : ℕ)
      (checksum : Checksum) (provider : ℕ → List (VerifiableSecret Secret)) (result : Except Exit State),
      init kmac inner storage runtimeId generation checksum provider = (result, inner', storage') →
      ∃ sealed, storage'.written = sealed ++ storage.written ∧ ∀ x ∈ sealed, x.context = .masterSecret →
        x.runtimeId = runtimeId ∧ x.generation ≤ generation ∧
          ∃ prev rest, rest.length = generation - x.generation ∧ digest kmac prev (x.secret :: rest) = checksum ∧
            (Function.Injective2 kmac → ∀ prev' secret' rest', rest'.length = rest.length →
              digest kmac prev' (secret' :: rest') = checksum → secret' = x.secret)) ∧
    ∀ (inner inner' : Inner) (storage storage' : Storage Secret) (runtimeId : Namespace) (generation : ℕ)
      (checksum : Checksum) (provider : ℕ → List (VerifiableSecret Secret)) (state : State),
      Reachable kmac inner storage → checksum ≠ [] →
      init kmac inner storage runtimeId generation checksum provider = (.ok state, inner', storage') →
      inner'.generation = some generation ∧ inner'.checksum = some checksum ∧ state.checksum = checksum ∧
        ∃ secrets : List Secret, secrets.length = generation + 1 ∧
          (∀ i (h : i < secrets.length), loadMasterSecret storage' runtimeId i = some (some secrets[i])) ∧
          digest kmac runtimeId secrets = checksum := by
  refine ⟨fun inner inner' storage storage' runtimeId generation checksum provider result call => ?_,
    fun inner inner' storage storage' runtimeId generation checksum provider state reachable nonempty call => ?_⟩
  · obtain ⟨sealed, written, links⟩ := (init_writes call).1
    refine ⟨sealed, written, fun x mem sealedMaster => ?_⟩
    obtain ⟨id, le, prev, rest, length, chain⟩ := links x mem sealedMaster
    refine ⟨id, le, prev, rest, length, chain, fun injective prev' secret' rest' length' chain' => ?_⟩
    -- two chains of one length with one digest have the same links
    have same := (digest_injective injective (chain'.trans chain.symm) (by simp [length'])).1
    exact (List.cons.inj same).1
  · obtain ⟨current, checksum', state', secrets, length, stored, chain⟩ :=
      (reachable.consistent.init call).2 nonempty state rfl
    exact ⟨current, checksum', state', secrets, length, fun i h => by simpa using stored i h, chain⟩

/-- A fresh Kdf over empty storage replicates generation `0` from a peer and stores it. -/
theorem kdf_init_chain_integrity_replicated :
    ∃ secrets : List UInt8, secrets.length = 1 ∧
      (∀ i (h : i < secrets.length),
        loadMasterSecret (init List.cons Inner.new Storage.empty [0] 0 [7, 0] fun _ => [⟨7, []⟩]).2.2 [0] i =
          some (some secrets[i])) ∧
      digest List.cons [0] secrets = [7, 0] :=
  ((kdf_init_chain_integrity List.cons).2 _ _ _ _ [0] 0 [7, 0] (fun _ => [⟨7, []⟩]) ⟨[7, 0], []⟩ .new
    (by decide) rfl).2.2.2

end Orphiq.KeyManager

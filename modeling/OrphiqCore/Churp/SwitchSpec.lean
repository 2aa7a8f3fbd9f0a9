import OrphiqCore.Churp.Switch
import OrphiqCore.Store.Iteration

/-!
# What a dimension switch holds

A `DimensionSwitch` is driven by its mutating methods in any order, each one atomic under the
switch's lock. Every state it reaches from `DimensionSwitch.new` is `Sound`: while it
accumulates, its switch points come from distinct shareholders, are at most as many as it needs
and each passes the verification vector of the matrix it was given; while it merges, the
shareholders it still waits for and those it received a share from make up the listed
shareholders, each received share carries the switch's identity and passed verification, and
the combined share is their sum in the order received (until a failed proactivization takes
it); and the shareholder it serves has a polynomial of the size it needs and a matrix of the
dimensions of its threshold.
-/

namespace Orphiq.Churp

open Store

variable {F P M V : Type}

/-- The number of switch points a switch needs, which is the number of coefficients of the share
it reconstructs. -/
def shareSize (threshold : UInt8) (fullShare : Bool) : ℕ :=
  if fullShare then 2 * threshold.toNat + 1 else threshold.toNat + 1

/-- The verification vector `SwitchPoints::new` derives from a matrix for the identity `me`. -/
def verificationVector (vss : Vss F P M V) (fullShare : Bool) (vm : M) (me : F) : V :=
  if fullShare then vss.verificationVectorForY vm me else vss.verificationVectorForX vm me

/-- The sum `combined_share` holds after receiving `shares` in order. -/
def combine [Add P] [Add M] : List (VerifiableSecretShare F P M) → Option (VerifiableSecretShare F P M)
  | [] => none
  | s :: rest => some (rest.foldl VerifiableSecretShare.add s)

theorem combine_append_singleton [Add P] [Add M] (shares : List (VerifiableSecretShare F P M))
    (s : VerifiableSecretShare F P M) :
    combine (shares ++ [s]) = some (match combine shares with
      | some cs => cs.add s
      | none => s) := by
  cases shares with
  | nil => rfl
  | cons first rest => simp [combine]

section

variable (vss : Vss F P M V)

/-- A shareholder whose share has the shape of the threshold: `shareSize` coefficients and a
matrix of the dimensions `calculate_dimensions` gives. -/
structure Shareholder.Fits (threshold : UInt8) (fullShare : Bool) (sh : Shareholder F P M) : Prop where
  size_eq : vss.size sh.verifiableShare.p = shareSize threshold fullShare
  dimensions_eq : vss.dimensions sh.verifiableShare.vm = VerifiableSecretShare.calculateDimensions threshold

/-- The switch points accumulated against the matrix `vm`. -/
structure SwitchPoints.Sound (threshold : UInt8) (fullShare : Bool) (me : F) (vm : M)
    (sp : SwitchPoints F M V) : Prop where
  n_eq : sp.n = shareSize threshold fullShare
  dimensions_eq : vss.dimensions vm = VerifiableSecretShare.calculateDimensions threshold
  vv_eq : sp.vv = verificationVector vss fullShare vm me
  vm_mem : ∀ m ∈ sp.vm, m = vm
  distinct : (sp.points.map Prod.fst).Nodup
  length_le : sp.points.length ≤ sp.n
  verified : ∀ pt ∈ sp.points, vss.verify sp.vv pt.1 pt.2 = true

/-- The bivariate shares received so far, `shares`, each with the shareholder it came from. -/
structure BivariateShares.Received [Add P] [Add M] (bs : BivariateShares F P M)
    (shares : List (F × VerifiableSecretShare F P M)) : Prop where
  perm : (shares.map Prod.fst ++ bs.pendingShareholders).Perm bs.shareholders
  verified : ∀ s ∈ shares, s.2.x = bs.me ∧ s.2.verify vss bs.threshold bs.zeroHole bs.fullShare = .ok ()
  combined : bs.combinedShare = combine (shares.map Prod.snd) ∨
    bs.pendingShareholders = [] ∧ bs.combinedShare = none

/-- An accumulator of bivariate shares set up for the switch `d`. -/
structure BivariateShares.For (d : DimensionSwitch F P M V) (bs : BivariateShares F P M) : Prop where
  threshold_eq : bs.threshold = d.threshold
  zeroHole_eq : bs.zeroHole = d.zeroHole
  fullShare_eq : bs.fullShare = d.fullShare
  me_eq : bs.me = d.me
  shareholders_eq : bs.shareholders = d.shareholders

/-! ### One lemma per method -/

namespace VerifiableSecretShare

theorem verifyVerificationMatrix_eq_ok {s : VerifiableSecretShare F P M} {threshold : UInt8} {zeroHole : Bool}
    (h : s.verifyVerificationMatrix vss threshold zeroHole = .ok ()) :
    vss.dimensions s.vm = calculateDimensions threshold := by
  by_contra mismatch
  simp [verifyVerificationMatrix, mismatch] at h

theorem verifySecretShare_eq_ok {s : VerifiableSecretShare F P M} {threshold : UInt8} {fullShare : Bool}
    (h : s.verifySecretShare vss threshold fullShare = .ok ()) :
    vss.size s.p = shareSize threshold fullShare := by
  by_contra mismatch
  cases fullShare <;> simp_all [verifySecretShare, shareSize, calculateDimensions, Nat.mul_comm]

theorem fits_of_verify_eq_ok {s : VerifiableSecretShare F P M} {threshold : UInt8} {zeroHole fullShare : Bool}
    (h : s.verify vss threshold zeroHole fullShare = .ok ()) : Shareholder.Fits vss threshold fullShare ⟨s⟩ := by
  cases matrix : s.verifyVerificationMatrix vss threshold zeroHole with
  | error e => simp [verify, matrix] at h
  | ok u =>
    simp only [verify, matrix] at h
    exact ⟨verifySecretShare_eq_ok vss (by simpa using h), verifyVerificationMatrix_eq_ok vss matrix⟩

end VerifiableSecretShare

namespace SwitchPoints

theorem new_eq_ok {threshold : UInt8} {fullShare : Bool} {me : F} {vm : M} {sp : SwitchPoints F M V} :
    SwitchPoints.new vss threshold fullShare me vm = .ok sp ↔
      vss.dimensions vm = VerifiableSecretShare.calculateDimensions threshold ∧
      sp = ⟨shareSize threshold fullShare, some me, some vm, verificationVector vss fullShare vm me, []⟩ := by
  have dimensions : VerifiableSecretShare.calculateDimensions threshold =
      (threshold.toNat + 1, 2 * threshold.toNat + 1) := by
    simp [VerifiableSecretShare.calculateDimensions, Nat.mul_comm]
  rw [dimensions]
  by_cases dims : vss.dimensions vm = (threshold.toNat + 1, 2 * threshold.toNat + 1)
  · cases fullShare <;> simp [new, dims, shareSize, verificationVector, eq_comm]
  · simp [new, dims]

theorem reconstructShareholder_snd (sp : SwitchPoints F M V) :
    ∃ me vm, (sp.reconstructShareholder vss).2 = { sp with me, vm } ∧ (vm = sp.vm ∨ vm = none) := by
  unfold reconstructShareholder
  split
  · exact ⟨sp.me, sp.vm, rfl, .inl rfl⟩
  · split
    · exact ⟨sp.me, sp.vm, rfl, .inl rfl⟩
    · split
      · exact ⟨none, sp.vm, rfl, .inl rfl⟩
      · dsimp only
        split <;> exact ⟨none, none, rfl, .inr rfl⟩

theorem reconstructShareholder_eq_ok {sp : SwitchPoints F M V} {sh : Shareholder F P M}
    (h : (sp.reconstructShareholder vss).1 = .ok sh) :
    ∃ vm, sp.vm = some vm ∧ sh.verifiableShare.vm = vm ∧ vss.size sh.verifiableShare.p = sp.n := by
  unfold reconstructShareholder at h
  split at h
  · cases h
  · split at h
    · cases h
    · split at h
      · cases h
      · rename_i vm stored
        dsimp only at h
        split at h
        · cases h
        · rename_i sized
          cases h
          exact ⟨vm, stored, rfl, not_not.mp sized⟩

variable [DecidableEq F]

theorem addPoint_eq_ok {sp sp' : SwitchPoints F M V} {point : F × F} :
    sp.addPoint vss point = .ok sp' ↔
      sp.points.length < sp.n ∧ sp.hasPoint point.1 = false ∧ vss.verify sp.vv point.1 point.2 = true ∧
      sp' = { sp with points := sp.points ++ [point] } := by
  unfold addPoint
  by_cases full : sp.points.length ≥ sp.n
  · simp [full]
  · simp only [full, if_false]
    cases has : sp.hasPoint point.1 <;> cases valid : vss.verify sp.vv point.1 point.2 <;>
      simp [eq_comm, Nat.lt_of_not_le full]

end SwitchPoints

namespace BivariateShares

theorem new_eq_ok {threshold : UInt8} {zeroHole fullShare : Bool} {me : F} {shareholders : List F}
    {shareholder : Option (Shareholder F P M)} {bs : BivariateShares F P M} :
    BivariateShares.new threshold zeroHole fullShare me shareholders shareholder = .ok bs ↔
      shareholders ≠ [] ∧ bs = ⟨threshold, zeroHole, fullShare, me, shareholders, shareholders, shareholder, none⟩ := by
  cases shareholders <;> simp [new, eq_comm]

variable [Add P] [Add M]

theorem proactivizeShareholder_snd (bs : BivariateShares F P M) :
    (bs.proactivizeShareholder vss).2 = bs ∨
      bs.pendingShareholders = [] ∧ (bs.proactivizeShareholder vss).2 = { bs with combinedShare := none } := by
  unfold proactivizeShareholder
  split
  · exact .inl rfl
  · rename_i complete
    split
    · exact .inl rfl
    · exact .inr ⟨by simpa using complete, rfl⟩

theorem proactivizeShareholder_eq_ok {bs : BivariateShares F P M} {sh : Shareholder F P M}
    (h : (bs.proactivizeShareholder vss).1 = .ok sh) :
    sh.verifiableShare.verify vss bs.threshold false bs.fullShare = .ok () := by
  unfold proactivizeShareholder at h
  split at h
  · cases h
  · split at h
    · cases h
    · rename_i vs _
      -- The shareholder is built from the given one or from the combined share, then checked.
      have checked_ok : ∀ built : Shareholder F P M,
          (fun _ => built) <$> built.verifiableShare.verify vss bs.threshold false bs.fullShare = .ok sh →
            sh.verifiableShare.verify vss bs.threshold false bs.fullShare = .ok () := by
        intro built h
        cases checked : built.verifiableShare.verify vss bs.threshold false bs.fullShare with
        | error e => simp [checked] at h
        | ok u => simp [checked] at h; cases h; exact checked
      cases given : bs.shareholder with
      | none => exact checked_ok ⟨vs⟩ (by simpa [given] using h)
      | some shareholder =>
        cases proactivized : shareholder.proactivize vss vs.p vs.vm with
        | error e => simp [given, proactivized] at h
        | ok built => exact checked_ok built (by simpa [given, proactivized] using h)

variable [DecidableEq F]

theorem addBivariateShare_eq_ok {bs bs' : BivariateShares F P M} {x : F} {vs : VerifiableSecretShare F P M}
    {done : Bool} (h : bs.addBivariateShare vss x vs = .ok (bs', done)) :
    x ∈ bs.shareholders ∧ x ∈ bs.pendingShareholders ∧ vs.x = bs.me ∧
      vs.verify vss bs.threshold bs.zeroHole bs.fullShare = .ok () ∧
      bs' = { bs with
        combinedShare := some (match bs.combinedShare with
          | some cs => cs.add vs
          | none => vs)
        pendingShareholders := Store.swapRemove bs.pendingShareholders (bs.pendingShareholders.idxOf x) } ∧
      done = (Store.swapRemove bs.pendingShareholders (bs.pendingShareholders.idxOf x)).isEmpty := by
  have known : x ∈ bs.shareholders := by
    by_contra unknown
    simp [addBivariateShare, hasBivariateShare, unknown] at h
  have pending : x ∈ bs.pendingShareholders := by
    by_contra received
    simp [addBivariateShare, hasBivariateShare, needsBivariateShare, known, received] at h
  have identity : vs.x = bs.me := by
    by_contra stranger
    simp [addBivariateShare, hasBivariateShare, needsBivariateShare, known, pending, stranger] at h
  have verified : vs.verify vss bs.threshold bs.zeroHole bs.fullShare = .ok () := by
    cases result : vs.verify vss bs.threshold bs.zeroHole bs.fullShare with
    | error e => simp [addBivariateShare, hasBivariateShare, needsBivariateShare, known, pending, identity, result] at h
    | ok u => rfl
  simp [addBivariateShare, hasBivariateShare, needsBivariateShare, known, pending, identity, verified] at h
  obtain ⟨rfl, rfl⟩ := h
  exact ⟨known, pending, identity, verified, rfl, rfl⟩

end BivariateShares

/-! ### Each accumulator keeps what it holds -/

namespace SwitchPoints

variable {vss} {threshold : UInt8} {fullShare : Bool} {me : F} {vm : M} {sp sp' : SwitchPoints F M V}

theorem sound_of_new_eq_ok (h : SwitchPoints.new vss threshold fullShare me vm = .ok sp) :
    sp.Sound vss threshold fullShare me vm := by
  obtain ⟨dimensions, rfl⟩ := (new_eq_ok vss).mp h
  exact ⟨rfl, dimensions, rfl, by simp, by simp, by simp, by simp⟩

theorem Sound.reconstructShareholder (sound : sp.Sound vss threshold fullShare me vm) :
    (sp.reconstructShareholder vss).2.Sound vss threshold fullShare me vm := by
  obtain ⟨me', vm', rebuilt, taken⟩ := reconstructShareholder_snd vss sp
  rw [rebuilt]
  refine ⟨sound.n_eq, sound.dimensions_eq, sound.vv_eq, ?_, sound.distinct, sound.length_le, sound.verified⟩
  rcases taken with rfl | rfl
  · exact sound.vm_mem
  · simp

theorem Sound.fits_of_reconstructShareholder {sh : Shareholder F P M} (sound : sp.Sound vss threshold fullShare me vm)
    (h : (sp.reconstructShareholder vss).1 = .ok sh) : sh.Fits vss threshold fullShare := by
  obtain ⟨m, stored, matrix, sized⟩ := reconstructShareholder_eq_ok vss h
  have given : m = vm := sound.vm_mem m stored
  exact ⟨sized.trans sound.n_eq, by rw [matrix, given]; exact sound.dimensions_eq⟩

variable [DecidableEq F]

theorem Sound.addPoint {point : F × F} (sound : sp.Sound vss threshold fullShare me vm)
    (h : sp.addPoint vss point = .ok sp') : sp'.Sound vss threshold fullShare me vm := by
  obtain ⟨room, fresh, valid, rfl⟩ := (addPoint_eq_ok vss).mp h
  have absent : ∀ a b, (a, b) ∈ sp.points → a ≠ point.1 := by
    simpa [hasPoint] using fresh
  refine ⟨sound.n_eq, sound.dimensions_eq, sound.vv_eq, sound.vm_mem, ?_, ?_, ?_⟩
  · simpa [List.nodup_append] using ⟨sound.distinct, absent⟩
  · simp only [List.length_append, List.length_singleton]
    omega
  · intro pt mem
    rcases List.mem_append.mp mem with old | new
    · exact sound.verified pt old
    · rw [List.mem_singleton.mp new]
      exact valid

end SwitchPoints

namespace BivariateShares

variable {vss} [Add P] [Add M] {bs bs' : BivariateShares F P M} {shares : List (F × VerifiableSecretShare F P M)}

theorem received_of_new_eq_ok {threshold : UInt8} {zeroHole fullShare : Bool} {me : F} {shareholders : List F}
    {shareholder : Option (Shareholder F P M)}
    (h : BivariateShares.new threshold zeroHole fullShare me shareholders shareholder = .ok bs) :
    bs.Received vss [] := by
  obtain ⟨-, rfl⟩ := new_eq_ok.mp h
  exact ⟨by simp, by simp, .inl rfl⟩

theorem For.proactivizeShareholder {d : DimensionSwitch F P M V} (setup : bs.For d) :
    (bs.proactivizeShareholder vss).2.For d := by
  rcases proactivizeShareholder_snd vss bs with same | ⟨-, taken⟩
  · rw [same]
    exact setup
  · rw [taken]
    exact ⟨setup.threshold_eq, setup.zeroHole_eq, setup.fullShare_eq, setup.me_eq, setup.shareholders_eq⟩

theorem Received.proactivizeShareholder (received : bs.Received vss shares) :
    (bs.proactivizeShareholder vss).2.Received vss shares := by
  rcases proactivizeShareholder_snd vss bs with same | ⟨complete, taken⟩
  · rw [same]
    exact received
  · rw [taken]
    exact ⟨received.perm, received.verified, .inr ⟨complete, rfl⟩⟩

variable [DecidableEq F]

theorem Received.addBivariateShare {x : F} {vs : VerifiableSecretShare F P M} {done : Bool}
    (received : bs.Received vss shares) (h : bs.addBivariateShare vss x vs = .ok (bs', done)) :
    bs'.Received vss (shares ++ [(x, vs)]) := by
  obtain ⟨-, pending, identity, verified, rfl, -⟩ := addBivariateShare_eq_ok vss h
  refine ⟨?_, ?_, ?_⟩
  · -- `x` leaves the pending shareholders as it joins those received.
    have moved := (Store.perm_cons_swapRemove_idxOf pending).append_left (shares.map Prod.fst)
    simpa using moved.trans received.perm
  · intro s mem
    rcases List.mem_append.mp mem with old | new
    · exact received.verified s old
    · rw [List.mem_singleton.mp new]
      exact ⟨identity, verified⟩
  · rcases received.combined with combined | ⟨none_pending, -⟩
    · left
      simp only [List.map_append, List.map_cons, List.map_nil, combine_append_singleton, ← combined]
    · simp [none_pending] at pending

theorem For.addBivariateShare {d : DimensionSwitch F P M V} {x : F} {vs : VerifiableSecretShare F P M} {done : Bool}
    (setup : bs.For d) (h : bs.addBivariateShare vss x vs = .ok (bs', done)) : bs'.For d := by
  obtain ⟨-, -, -, -, rfl, -⟩ := addBivariateShare_eq_ok vss h
  exact ⟨setup.threshold_eq, setup.zeroHole_eq, setup.fullShare_eq, setup.me_eq, setup.shareholders_eq⟩

end BivariateShares

namespace DimensionSwitch

/-! ### What a method does to the phase -/

section Phases

theorem startAccumulating_snd (d : DimensionSwitch F P M V) (vm : M) :
    ∃ state, (d.startAccumulating vss vm).2 = { d with state } := by
  unfold DimensionSwitch.startAccumulating
  repeat' split
  all_goals exact ⟨_, rfl⟩

theorem startAccumulating_of_ne {d : DimensionSwitch F P M V} {vm : M}
    (waiting : d.state ≠ .waitingForVerificationMatrix) : d.startAccumulating vss vm = (.error .invalidState, d) := by
  unfold DimensionSwitch.startAccumulating
  split
  · contradiction
  · rfl

theorem startAccumulating_waiting {d : DimensionSwitch F P M V} {vm : M}
    (waiting : d.state = .waitingForVerificationMatrix) :
    d.startAccumulating vss vm = match SwitchPoints.new vss d.threshold d.fullShare d.me vm with
      | .ok sp => (.ok (), { d with state := .accumulating sp })
      | .error e => (.error e, d) := by
  -- The statement's match and the definition's are different matchers, equal by unfolding.
  obtain ⟨_, _, _, _, _, state⟩ := d
  subst waiting
  rfl

theorem getShareholder_eq_ok {d : DimensionSwitch F P M V} {sh : Shareholder F P M} :
    d.getShareholder = .ok sh ↔ d.state = .serving sh := by
  unfold DimensionSwitch.getShareholder
  split <;> simp_all

/-- While it accumulates, the switch checks switch points against the vector `v`. -/
def ChecksAgainst (v : V) (d : DimensionSwitch F P M V) : Prop :=
  ∀ sp, d.state = .accumulating sp → sp.vv = v

variable [DecidableEq F]

theorem addSwitchPoint_snd (d : DimensionSwitch F P M V) (point : F × F) :
    ∃ state, (d.addSwitchPoint vss point).2 = { d with state } := by
  unfold DimensionSwitch.addSwitchPoint
  repeat' split
  all_goals exact ⟨_, rfl⟩

theorem addSwitchPoint_of_ne {d : DimensionSwitch F P M V} {point : F × F}
    (accumulating : ∀ sp, d.state ≠ .accumulating sp) : d.addSwitchPoint vss point = (.error .invalidState, d) := by
  unfold DimensionSwitch.addSwitchPoint
  split
  · rename_i sp state
    exact absurd state (accumulating sp)
  · rfl

theorem ChecksAgainst.addSwitchPoint {d : DimensionSwitch F P M V} {v : V} (checks : d.ChecksAgainst v)
    (point : F × F) : (d.addSwitchPoint vss point).2.ChecksAgainst v := by
  unfold DimensionSwitch.addSwitchPoint
  split
  · rename_i sp state
    -- The points grow and reconstruction takes out the identity and the matrix; the vector stays.
    have keeps : ∀ sp' : SwitchPoints F M V, sp'.vv = sp.vv →
        ({ d with state := .accumulating sp' } : DimensionSwitch F P M V).ChecksAgainst v := by
      intro sp' same sp'' accumulating
      cases accumulating
      rw [same]
      exact checks sp state
    cases added : sp.addPoint vss point with
    | error e => exact checks
    | ok sp1 =>
      obtain ⟨-, -, -, rfl⟩ := (SwitchPoints.addPoint_eq_ok vss).mp added
      dsimp only
      split
      · exact keeps _ rfl
      · obtain ⟨me', vm', rebuilt, -⟩ :=
          SwitchPoints.reconstructShareholder_snd vss { sp with points := sp.points ++ [point] }
        cases reconstructed : SwitchPoints.reconstructShareholder vss { sp with points := sp.points ++ [point] } with
        | mk result sp2 =>
          rw [reconstructed] at rebuilt
          have same : sp2.vv = sp.vv := by
            rw [show sp2 = _ from rebuilt]
          cases result with
          | error e => exact keeps sp2 same
          | ok sh =>
            dsimp only
            split
            · intro _ serving
              cases serving
            · split
              · intro _ merging
                cases merging
              · exact keeps sp2 same
  · exact checks

variable [Add P] [Add M]

theorem addBivariateShare_snd (d : DimensionSwitch F P M V) (x : F) (vs : VerifiableSecretShare F P M) :
    ∃ state, (d.addBivariateShare vss x vs).2 = { d with state } := by
  unfold DimensionSwitch.addBivariateShare
  repeat' split
  all_goals exact ⟨_, rfl⟩

theorem addBivariateShare_of_ne {d : DimensionSwitch F P M V} {x : F} {vs : VerifiableSecretShare F P M}
    (merging : ∀ bs, d.state ≠ .merging bs) : d.addBivariateShare vss x vs = (.error .invalidState, d) := by
  unfold DimensionSwitch.addBivariateShare
  split
  · rename_i bs state
    exact absurd state (merging bs)
  · rfl

theorem addBivariateShare_eq_ok_true {d : DimensionSwitch F P M V} {x : F} {vs : VerifiableSecretShare F P M}
    (done : (d.addBivariateShare vss x vs).1 = .ok true) :
    (∃ bs, d.state = .merging bs) ∧ ∃ sh, (d.addBivariateShare vss x vs).2.state = .serving sh := by
  unfold DimensionSwitch.addBivariateShare at done ⊢
  split at done
  · rename_i bs state
    refine ⟨⟨bs, state⟩, ?_⟩
    revert done
    cases added : bs.addBivariateShare vss x vs with
    | error e => simp
    | ok result =>
      obtain ⟨bs1, finished⟩ := result
      cases finished with
      | false => simp
      | true =>
        dsimp only
        cases proactivized : bs1.proactivizeShareholder vss with
        | mk result bs2 =>
          cases result with
          | error e => simp
          | ok sh => exact fun _ => ⟨sh, rfl⟩
  · cases done

end Phases

/-! ### The invariant -/

/-- What every state of a switch holds, by the phase it is in. -/
def Sound [Add P] [Add M] (d : DimensionSwitch F P M V) : Prop :=
  match d.state with
  | .waitingForVerificationMatrix => True
  | .accumulating sp => ∃ vm, sp.Sound vss d.threshold d.fullShare d.me vm
  | .waitingForShareholder => True
  | .merging bs => (∃ shares, bs.Received vss shares) ∧ bs.For d
  | .serving sh => sh.Fits vss d.threshold d.fullShare

variable [Add P] [Add M]

section States

variable {vss} {d : DimensionSwitch F P M V}

@[simp] theorem sound_waitingForShareholder :
    ({ d with state := .waitingForShareholder } : DimensionSwitch F P M V).Sound vss := trivial

@[simp] theorem sound_accumulating {sp : SwitchPoints F M V} :
    ({ d with state := .accumulating sp } : DimensionSwitch F P M V).Sound vss ↔
      ∃ vm, sp.Sound vss d.threshold d.fullShare d.me vm := Iff.rfl

@[simp] theorem sound_merging {bs : BivariateShares F P M} :
    ({ d with state := .merging bs } : DimensionSwitch F P M V).Sound vss ↔
      (∃ shares, bs.Received vss shares) ∧ bs.For d :=
  ⟨fun ⟨received, setup⟩ => ⟨received, ⟨setup.1, setup.2, setup.3, setup.4, setup.5⟩⟩,
    fun ⟨received, setup⟩ => ⟨received, ⟨setup.1, setup.2, setup.3, setup.4, setup.5⟩⟩⟩

@[simp] theorem sound_serving {sh : Shareholder F P M} :
    ({ d with state := .serving sh } : DimensionSwitch F P M V).Sound vss ↔ sh.Fits vss d.threshold d.fullShare :=
  Iff.rfl

end States

section Methods

variable {vss} {d : DimensionSwitch F P M V}

theorem sound_merging_of_new_eq_ok {shareholder : Option (Shareholder F P M)} {bs : BivariateShares F P M}
    (h : BivariateShares.new d.threshold d.zeroHole d.fullShare d.me d.shareholders shareholder = .ok bs) :
    ({ d with state := .merging bs } : DimensionSwitch F P M V).Sound vss := by
  have received : bs.Received vss [] := BivariateShares.received_of_new_eq_ok h
  obtain ⟨-, rfl⟩ := BivariateShares.new_eq_ok.mp h
  exact ⟨⟨[], received⟩, ⟨rfl, rfl, rfl, rfl, rfl⟩⟩

theorem Sound.skipAccumulating (sound : d.Sound vss) : d.skipAccumulating.2.Sound vss := by
  unfold DimensionSwitch.skipAccumulating
  split
  · exact sound_waitingForShareholder
  · exact sound

theorem Sound.startAccumulating (sound : d.Sound vss) (vm : M) : (d.startAccumulating vss vm).2.Sound vss := by
  unfold DimensionSwitch.startAccumulating
  split
  · cases started : SwitchPoints.new vss d.threshold d.fullShare d.me vm with
    | ok sp => exact sound_accumulating.mpr ⟨vm, SwitchPoints.sound_of_new_eq_ok started⟩
    | error e => exact sound
  · exact sound

theorem Sound.startMerging (sound : d.Sound vss) (shareholder : Option (Shareholder F P M)) :
    (d.startMerging shareholder).2.Sound vss := by
  unfold DimensionSwitch.startMerging
  split
  · cases started : BivariateShares.new d.threshold d.zeroHole d.fullShare d.me d.shareholders shareholder with
    | ok bs => exact sound_merging_of_new_eq_ok started
    | error e => exact sound
  · exact sound

theorem sound_new (threshold : UInt8) (zeroHole fullShare : Bool) (me : F) (shareholders : List F) :
    (DimensionSwitch.new threshold zeroHole fullShare me shareholders : DimensionSwitch F P M V).Sound vss :=
  trivial

end Methods

/-- The methods of `DimensionSwitch` that change it. -/
inductive Call (F P M : Type) where
  | skipAccumulating
  | startAccumulating (vm : M)
  | addSwitchPoint (point : F × F)
  | startMerging (shareholder : Option (Shareholder F P M))
  | addBivariateShare (x : F) (vs : VerifiableSecretShare F P M)

variable [DecidableEq F]

def call (d : DimensionSwitch F P M V) : Call F P M → DimensionSwitch F P M V
  | .skipAccumulating => d.skipAccumulating.2
  | .startAccumulating vm => (d.startAccumulating vss vm).2
  | .addSwitchPoint point => (d.addSwitchPoint vss point).2
  | .startMerging shareholder => (d.startMerging shareholder).2
  | .addBivariateShare x vs => (d.addBivariateShare vss x vs).2

def run (d : DimensionSwitch F P M V) (calls : List (Call F P M)) : DimensionSwitch F P M V :=
  calls.foldl (call vss) d

variable {vss} {d : DimensionSwitch F P M V}

theorem Sound.addSwitchPoint (sound : d.Sound vss) (point : F × F) : (d.addSwitchPoint vss point).2.Sound vss := by
  unfold DimensionSwitch.addSwitchPoint
  split
  · rename_i sp state
    obtain ⟨vm, points⟩ : ∃ vm, sp.Sound vss d.threshold d.fullShare d.me vm := by
      simpa [Sound, state] using sound
    cases added : sp.addPoint vss point with
    | error e => exact sound
    | ok sp1 =>
      have points1 := points.addPoint added
      dsimp only
      split
      · exact sound_accumulating.mpr ⟨vm, points1⟩
      · -- Enough points are in: the share is reconstructed, then merged or served.
        have points2 := points1.reconstructShareholder
        cases rebuilt : sp1.reconstructShareholder vss with
        | mk result sp2 =>
          rw [rebuilt] at points2
          cases result with
          | error e => exact sound_accumulating.mpr ⟨vm, points2⟩
          | ok sh =>
            have fits := points1.fits_of_reconstructShareholder (by rw [rebuilt])
            dsimp only
            split
            · exact sound_serving.mpr fits
            · cases started : BivariateShares.new d.threshold d.zeroHole d.fullShare d.me d.shareholders (some sh) with
              | ok bs => exact sound_merging_of_new_eq_ok started
              | error e => exact sound_accumulating.mpr ⟨vm, points2⟩
  · exact sound

theorem Sound.addBivariateShare (sound : d.Sound vss) (x : F) (vs : VerifiableSecretShare F P M) :
    (d.addBivariateShare vss x vs).2.Sound vss := by
  unfold DimensionSwitch.addBivariateShare
  split
  · rename_i bs state
    obtain ⟨⟨shares, received⟩, setup⟩ : (∃ shares, bs.Received vss shares) ∧ bs.For d := by
      simpa [Sound, state] using sound
    cases added : bs.addBivariateShare vss x vs with
    | error e => exact sound
    | ok result =>
      obtain ⟨bs1, done⟩ := result
      have received1 := received.addBivariateShare added
      have setup1 := setup.addBivariateShare added
      cases done with
      | false => exact sound_merging.mpr ⟨⟨_, received1⟩, setup1⟩
      | true =>
        -- Every share is in: the shareholder is proactivized and served, or the switch keeps merging.
        dsimp only
        have received2 := received1.proactivizeShareholder
        have setup2 : (bs1.proactivizeShareholder vss).2.For d := setup1.proactivizeShareholder
        cases proactivized : bs1.proactivizeShareholder vss with
        | mk result bs2 =>
          rw [proactivized] at received2 setup2
          cases result with
          | error e => exact sound_merging.mpr ⟨⟨_, received2⟩, setup2⟩
          | ok sh =>
            have verified := BivariateShares.proactivizeShareholder_eq_ok vss (by rw [proactivized])
            have fits := VerifiableSecretShare.fits_of_verify_eq_ok vss verified
            rw [setup1.threshold_eq, setup1.fullShare_eq] at fits
            exact sound_serving.mpr fits
  · exact sound

theorem Sound.call (sound : d.Sound vss) (c : Call F P M) : (d.call vss c).Sound vss := by
  cases c with
  | skipAccumulating => exact sound.skipAccumulating
  | startAccumulating vm => exact sound.startAccumulating vm
  | addSwitchPoint point => exact sound.addSwitchPoint point
  | startMerging shareholder => exact sound.startMerging shareholder
  | addBivariateShare x vs => exact sound.addBivariateShare x vs

theorem Sound.run (sound : d.Sound vss) (calls : List (Call F P M)) : (d.run vss calls).Sound vss := by
  induction calls generalizing d with
  | nil => exact sound
  | cons c calls ih => exact ih (sound.call c)

end DimensionSwitch

end

end Orphiq.Churp

import OrphiqCore.Churp.Handoff
import OrphiqCore.Churp.SwitchSpec

/-!
# The handoff to a changed committee

A handoff to a changed committee runs two dimension switches: the share reduction, fed the old
committee's matrix, switch points and bivariate shares, and the full-share distribution, which
checks its switch points against the reduced share's matrix. The distribution is given that
matrix only by `add_bivariate_share`, when the reduction completes. So in every state the
handoff reaches, the distribution still waits for its matrix or the reduction serves, and every
full-share switch point the distribution holds passes the vector of the reduced share's matrix
(`run_distribution_checked`); and completing the reduction always starts the distribution,
because the reduced share's matrix has the dimensions the distribution checks
(`run_reduction_done_starts`).
-/

namespace Orphiq.Churp

open DimensionSwitch

variable {F P M V : Type} [Add P] [Add M]

namespace CommitteeChanged

section

variable (vss : Vss F P M V)

def run [DecidableEq F] (h : CommitteeChanged F P M V) (calls : List (HandoffCall F P M)) : CommitteeChanged F P M V :=
  calls.foldl (fun h c => (h.call vss c).2) h

/-- What every state of the handoff holds: both switches are sound, share the threshold and the
identity `me`, and the distribution has a matrix only once the reduction serves, and then checks
against the vector of the reduced share's matrix. -/
structure Linked (me : F) (h : CommitteeChanged F P M V) : Prop where
  reduction_sound : h.shareReduction.Sound vss
  distribution_sound : h.shareDistribution.Sound vss
  threshold_eq : h.shareDistribution.threshold = h.shareReduction.threshold
  fullShare_eq : h.shareDistribution.fullShare = true
  me_eq : h.shareDistribution.me = me
  follows : h.shareDistribution.state = .waitingForVerificationMatrix ∨
    ∃ reduced, h.shareReduction.state = .serving reduced ∧
      h.shareDistribution.ChecksAgainst (vss.verificationVectorForY reduced.verifiableShare.vm me)

end

variable {vss : Vss F P M V} {me : F} {h : CommitteeChanged F P M V}

theorem linked_of_new_eq_ok {threshold : UInt8} {shareholders : List F}
    (created : CommitteeChanged.new threshold me shareholders = .ok h) : h.Linked vss me := by
  unfold CommitteeChanged.new at created
  split at created
  · cases created
  · cases created
    exact ⟨trivial, trivial, rfl, rfl, rfl, .inl rfl⟩

theorem Linked.with_shareReduction (linked : h.Linked vss me) {r : DimensionSwitch F P M V}
    (sound : r.Sound vss) (threshold : r.threshold = h.shareReduction.threshold)
    (kept : ∀ sh, h.shareReduction.state = .serving sh → r = h.shareReduction) :
    ({ h with shareReduction := r } : CommitteeChanged F P M V).Linked vss me := by
  refine ⟨sound, linked.distribution_sound, linked.threshold_eq.trans threshold.symm, linked.fullShare_eq,
    linked.me_eq, ?_⟩
  rcases linked.follows with waiting | ⟨reduced, serving, checks⟩
  · exact .inl waiting
  · exact .inr ⟨reduced, by rw [kept reduced serving]; exact serving, checks⟩

theorem Linked.with_shareReduction_of_waiting (linked : h.Linked vss me)
    (waiting : h.shareDistribution.state = .waitingForVerificationMatrix) {r : DimensionSwitch F P M V}
    (sound : r.Sound vss) (threshold : r.threshold = h.shareReduction.threshold) :
    ({ h with shareReduction := r } : CommitteeChanged F P M V).Linked vss me :=
  ⟨sound, linked.distribution_sound, linked.threshold_eq.trans threshold.symm, linked.fullShare_eq, linked.me_eq,
    .inl waiting⟩

theorem Linked.waiting (linked : h.Linked vss me) (serving : ∀ sh, h.shareReduction.state ≠ .serving sh) :
    h.shareDistribution.state = .waitingForVerificationMatrix := by
  rcases linked.follows with waiting | ⟨reduced, served, -⟩
  · exact waiting
  · exact absurd served (serving reduced)

variable [DecidableEq F]

theorem Linked.setVerificationMatrix (linked : h.Linked vss me) (vm : M) :
    (h.call vss (.setVerificationMatrix vm)).2.Linked vss me := by
  obtain ⟨state, changed⟩ := startAccumulating_snd vss h.shareReduction vm
  show ({ h with shareReduction := (h.shareReduction.startAccumulating vss vm).2 } : CommitteeChanged F P M V).Linked vss me
  refine linked.with_shareReduction (linked.reduction_sound.startAccumulating vm) (by rw [changed]) ?_
  intro sh serving
  rw [startAccumulating_of_ne vss (by simp [serving])]

theorem Linked.addShareReductionSwitchPoint (linked : h.Linked vss me) (point : F × F) :
    (h.call vss (.addShareReductionSwitchPoint point)).2.Linked vss me := by
  obtain ⟨state, changed⟩ := addSwitchPoint_snd vss h.shareReduction point
  show ({ h with shareReduction := (h.shareReduction.addSwitchPoint vss point).2 } : CommitteeChanged F P M V).Linked vss me
  refine linked.with_shareReduction (linked.reduction_sound.addSwitchPoint point) (by rw [changed]) ?_
  intro sh serving
  rw [addSwitchPoint_of_ne vss (by simp [serving])]

theorem Linked.addFullShareDistributionSwitchPoint (linked : h.Linked vss me) (point : F × F) :
    (h.call vss (.addFullShareDistributionSwitchPoint point)).2.Linked vss me := by
  obtain ⟨state, changed⟩ := addSwitchPoint_snd vss h.shareDistribution point
  refine ⟨linked.reduction_sound, linked.distribution_sound.addSwitchPoint point, ?_, ?_, ?_, ?_⟩
  · simpa [call, changed] using linked.threshold_eq
  · simpa [call, changed] using linked.fullShare_eq
  · simpa [call, changed] using linked.me_eq
  · rcases linked.follows with waiting | ⟨reduced, serving, checks⟩
    · -- A distribution without its matrix refuses switch points.
      left
      simp only [call]
      rw [addSwitchPoint_of_ne vss (by simp [waiting])]
      exact waiting
    · exact .inr ⟨reduced, serving, checks.addSwitchPoint vss point⟩

theorem Linked.addBivariateShare (linked : h.Linked vss me) (x : F) (vs : VerifiableSecretShare F P M) :
    (h.addBivariateShare vss x vs).2.Linked vss me := by
  by_cases serving : ∃ sh, h.shareReduction.state = .serving sh
  · -- A serving reduction refuses the share, and nothing changes.
    obtain ⟨sh, serving⟩ := serving
    unfold CommitteeChanged.addBivariateShare
    rw [DimensionSwitch.addBivariateShare_of_ne vss (by simp [serving])]
    exact linked
  · have waiting := linked.waiting fun sh served => serving ⟨sh, served⟩
    have reduction_sound := linked.reduction_sound.addBivariateShare x vs
    obtain ⟨state, reduced⟩ := addBivariateShare_snd vss h.shareReduction x vs
    unfold CommitteeChanged.addBivariateShare
    cases added : h.shareReduction.addBivariateShare vss x vs with
    | mk result r =>
      rw [added] at reduction_sound reduced
      have threshold : r.threshold = h.shareReduction.threshold := by
        rw [show r = _ from reduced]
      cases result with
      | error e => exact linked.with_shareReduction_of_waiting waiting reduction_sound threshold
      | ok done =>
        cases done with
        | false => exact linked.with_shareReduction_of_waiting waiting reduction_sound threshold
        | true =>
          dsimp only
          cases got : r.getShareholder with
          | error e => exact linked.with_shareReduction_of_waiting waiting reduction_sound threshold
          | ok sh =>
            -- The reduction serves `sh`, whose matrix the distribution is started with.
            have served : r.state = .serving sh := getShareholder_eq_ok.mp got
            dsimp only
            rw [startAccumulating_waiting vss waiting]
            cases started : SwitchPoints.new vss h.shareDistribution.threshold h.shareDistribution.fullShare
                h.shareDistribution.me sh.verifiableShare.vm with
            | error e => exact linked.with_shareReduction_of_waiting waiting reduction_sound threshold
            | ok sp =>
              refine ⟨reduction_sound, sound_accumulating.mpr ⟨_, SwitchPoints.sound_of_new_eq_ok started⟩,
                linked.threshold_eq.trans threshold.symm, linked.fullShare_eq, linked.me_eq, .inr ⟨sh, served, ?_⟩⟩
              intro sp' accumulating
              cases accumulating
              obtain ⟨-, rfl⟩ := (SwitchPoints.new_eq_ok vss).mp started
              simp [verificationVector, linked.fullShare_eq, linked.me_eq]

theorem Linked.call (linked : h.Linked vss me) (c : HandoffCall F P M) : (h.call vss c).2.Linked vss me := by
  cases c with
  | setVerificationMatrix vm => exact linked.setVerificationMatrix vm
  | setShareholder shareholder => exact linked
  | addShareReductionSwitchPoint point => exact linked.addShareReductionSwitchPoint point
  | addFullShareDistributionSwitchPoint point => exact linked.addFullShareDistributionSwitchPoint point
  | addBivariateShare x vs => exact linked.addBivariateShare x vs

theorem Linked.run (linked : h.Linked vss me) (calls : List (HandoffCall F P M)) : (h.run vss calls).Linked vss me := by
  induction calls generalizing h with
  | nil => exact linked
  | cons c calls ih => exact ih (linked.call c)

/-- When the reduction completes, the handoff starts the distribution: the reduced share has the
dimensions the distribution's `SwitchPoints::new` checks. -/
theorem Linked.addBivariateShare_starts (linked : h.Linked vss me) {x : F} {vs : VerifiableSecretShare F P M}
    (done : (h.shareReduction.addBivariateShare vss x vs).1 = .ok true) :
    (h.addBivariateShare vss x vs).1 = .ok true := by
  obtain ⟨⟨bs, merging⟩, sh, served⟩ := addBivariateShare_eq_ok_true vss done
  have waiting := linked.waiting fun sh serving => by rw [merging] at serving; cases serving
  have reduction_sound := linked.reduction_sound.addBivariateShare x vs
  obtain ⟨state, reduced⟩ := addBivariateShare_snd vss h.shareReduction x vs
  unfold CommitteeChanged.addBivariateShare
  cases added : h.shareReduction.addBivariateShare vss x vs with
  | mk result r =>
    rw [added] at done served reduction_sound reduced
    dsimp only at done served reduction_sound reduced
    subst done
    -- The served share fits the reduction's threshold, which is the distribution's.
    have fits : sh.Fits vss r.threshold r.fullShare := by
      simpa [Sound, served] using reduction_sound
    have dimensions : vss.dimensions sh.verifiableShare.vm =
        VerifiableSecretShare.calculateDimensions h.shareDistribution.threshold := by
      rw [fits.dimensions_eq, linked.threshold_eq, show r = _ from reduced]
    have got : r.getShareholder = .ok sh := getShareholder_eq_ok.mpr served
    have started : SwitchPoints.new vss h.shareDistribution.threshold h.shareDistribution.fullShare
        h.shareDistribution.me sh.verifiableShare.vm = .ok _ := (SwitchPoints.new_eq_ok vss).mpr ⟨dimensions, rfl⟩
    simp only [got, startAccumulating_waiting vss waiting, started]

/-! ### Every state the handoff reaches -/

variable (vss)

theorem run_distribution_checked {threshold : UInt8} {shareholders : List F}
    (created : CommitteeChanged.new threshold me shareholders = .ok h) (calls : List (HandoffCall F P M)) :
    (h.run vss calls).shareDistribution.state = .waitingForVerificationMatrix ∨
      ∃ reduced, (h.run vss calls).shareReduction.state = .serving reduced ∧
        ∀ sp, (h.run vss calls).shareDistribution.state = .accumulating sp →
          ∀ point ∈ sp.points, vss.verify (vss.verificationVectorForY reduced.verifiableShare.vm me) point.1 point.2 :=
  by
  have linked : (h.run vss calls).Linked vss me := (linked_of_new_eq_ok created).run calls
  rcases linked.follows with waiting | ⟨reduced, served, checks⟩
  · exact .inl waiting
  · refine .inr ⟨reduced, served, fun sp accumulating point held => ?_⟩
    -- The distribution's points pass its vector, which is the reduced share's.
    obtain ⟨vm, points⟩ : ∃ vm, sp.Sound vss (h.run vss calls).shareDistribution.threshold
        (h.run vss calls).shareDistribution.fullShare (h.run vss calls).shareDistribution.me vm := by
      simpa [Sound, accumulating] using linked.distribution_sound
    rw [← checks sp accumulating]
    exact points.verified point held

theorem run_distribution_checked_reduced :
    let vss : Vss ℕ ℕ ℕ ℕ := ⟨fun _ => 1, fun _ => 0, fun _ => (1, 1), fun m => m == 0, fun _ _ _ => false,
      fun _ _ _ => true, fun _ _ _ => true, fun _ _ => 0, fun _ _ => 0, fun _ _ _ => true⟩
    let h : CommitteeChanged ℕ ℕ ℕ ℕ := ⟨.new 0 true false 1 [1], .new 0 true true 1 []⟩
    let calls : List (HandoffCall ℕ ℕ ℕ) :=
      [.setVerificationMatrix 5, .addShareReductionSwitchPoint (1, 7), .addBivariateShare 1 ⟨1, 0, 0⟩]
    CommitteeChanged.new 0 1 [1] = .ok h ∧
      ((h.run vss calls).shareDistribution.state = .waitingForVerificationMatrix ∨
        ∃ reduced, (h.run vss calls).shareReduction.state = .serving reduced ∧
          ∀ sp, (h.run vss calls).shareDistribution.state = .accumulating sp →
            ∀ point ∈ sp.points, vss.verify (vss.verificationVectorForY reduced.verifiableShare.vm 1) point.1 point.2) := by
  intro vss h calls
  have created : CommitteeChanged.new 0 1 [1] = .ok h := rfl
  exact ⟨created, run_distribution_checked vss created calls⟩

theorem run_reduction_done_starts {threshold : UInt8} {shareholders : List F}
    (created : CommitteeChanged.new threshold me shareholders = .ok h) (calls : List (HandoffCall F P M))
    {x : F} {vs : VerifiableSecretShare F P M}
    (done : ((h.run vss calls).shareReduction.addBivariateShare vss x vs).1 = .ok true) :
    ((h.run vss calls).addBivariateShare vss x vs).1 = .ok true :=
  ((linked_of_new_eq_ok created).run calls).addBivariateShare_starts done

theorem run_reduction_done_starts_one_dealer :
    let vss : Vss ℕ ℕ ℕ ℕ := ⟨fun _ => 1, fun _ => 0, fun _ => (1, 1), fun m => m == 0, fun _ _ _ => false,
      fun _ _ _ => true, fun _ _ _ => true, fun _ _ => 0, fun _ _ => 0, fun _ _ _ => true⟩
    let h : CommitteeChanged ℕ ℕ ℕ ℕ := ⟨.new 0 true false 1 [1], .new 0 true true 1 []⟩
    let calls : List (HandoffCall ℕ ℕ ℕ) := [.setVerificationMatrix 5, .addShareReductionSwitchPoint (1, 7)]
    CommitteeChanged.new 0 1 [1] = .ok h ∧
      ((h.run vss calls).shareReduction.addBivariateShare vss 1 ⟨1, 0, 0⟩).1 = .ok true ∧
      ((h.run vss calls).addBivariateShare vss 1 ⟨1, 0, 0⟩).1 = .ok true := by
  intro vss h calls
  have created : CommitteeChanged.new 0 1 [1] = .ok h := rfl
  have done : ((h.run vss calls).shareReduction.addBivariateShare vss 1 ⟨1, 0, 0⟩).1 = .ok true := rfl
  exact ⟨created, done, run_reduction_done_starts vss created calls done⟩

end CommitteeChanged

end Orphiq.Churp

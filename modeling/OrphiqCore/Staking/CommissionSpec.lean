import OrphiqCore.Staking.Commission

/-!
# What an amendment keeps

A schedule that passed validation keeps its steps in increasing order of their start epochs.
Pruning drops only steps that a later started step replaces, and an amendment that
`validateAmendmentAcceptable` lets through starts its rates after `now` and, once a schedule
has bounds, its bounds after `now + RateBoundLead`: the steps in effect before those epochs
stay, unless pruning forgot them.
-/

namespace Orphiq.Staking

namespace CommissionSchedule

/-- The rate bound step in effect at `now`, found as `CurrentRate` finds the rate step. -/
def currentBound (cs : CommissionSchedule) (now : EpochTime) : Option CommissionRateBoundStep :=
  (cs.bounds.takeWhile fun step => step.start ≤ now).getLast?

section Steps

variable {α : Type} (start : α → EpochTime)

def Increasing (steps : List α) : Prop := steps.IsChain fun a b => start a < start b

instance (steps : List α) : Decidable (Increasing start steps) :=
  inferInstanceAs (Decidable (steps.IsChain _))

variable {start}

theorem pruneSteps_suffix (now : EpochTime) (steps : List α) : List.IsSuffix (pruneSteps start now steps) steps := by
  fun_induction pruneSteps start now steps with
  | case1 first next steps later => exact List.suffix_refl _
  | case2 first next steps started ih => exact ih.trans (List.suffix_cons _ _)
  | case3 steps => exact List.suffix_refl _

theorem Increasing.pruneSteps {steps : List α} (increasing : Increasing start steps) (now : EpochTime) :
    Increasing start (pruneSteps start now steps) :=
  List.IsChain.infix increasing (pruneSteps_suffix now steps).isInfix

theorem getLast?_takeWhile_pruneSteps {steps : List α} (increasing : Increasing start steps) (now t : EpochTime) :
    ((pruneSteps start now steps).takeWhile (start · ≤ t)).getLast? = none ∨
      ((pruneSteps start now steps).takeWhile (start · ≤ t)).getLast? = (steps.takeWhile (start · ≤ t)).getLast? := by
  fun_induction pruneSteps start now steps with
  | case1 first next steps later => exact .inr rfl
  | case2 first next steps started ih =>
    have ordered := List.isChain_cons_cons.mp increasing
    rcases ih ordered.2 with forgotten | same
    · exact .inl forgotten
    rw [same]
    by_cases begun : start next ≤ t
    · right
      have first_begun : start first ≤ t := UInt64.le_of_lt (UInt64.lt_of_lt_of_le ordered.1 begun)
      have nextKept : (next :: steps).takeWhile (start · ≤ t) = next :: steps.takeWhile (start · ≤ t) :=
        List.takeWhile_cons_of_pos (by simpa using begun)
      rw [nextKept, List.takeWhile_cons_of_pos (by simpa using first_begun), nextKept, List.getLast?_cons_cons]
    · left
      rw [List.takeWhile_cons_of_neg (by simpa using begun)]
      rfl
  | case3 steps => exact .inr rfl

theorem getLast?_takeWhile_pruneSteps_of_le {steps : List α} (increasing : Increasing start steps)
    {now t : EpochTime} (later : now ≤ t) :
    ((pruneSteps start now steps).takeWhile (start · ≤ t)).getLast? = (steps.takeWhile (start · ≤ t)).getLast? := by
  fun_induction pruneSteps start now steps with
  | case1 first next steps notYet => rfl
  | case2 first next steps started ih =>
    have ordered := List.isChain_cons_cons.mp increasing
    have begun : start next ≤ t := UInt64.le_trans (UInt64.not_lt.mp started) later
    have first_begun : start first ≤ t := UInt64.le_of_lt (UInt64.lt_of_lt_of_le ordered.1 begun)
    have nextKept : (next :: steps).takeWhile (start · ≤ t) = next :: steps.takeWhile (start · ≤ t) :=
      List.takeWhile_cons_of_pos (by simpa using begun)
    rw [ih ordered.2, nextKept, List.takeWhile_cons_of_pos (by simpa using first_begun), nextKept,
      List.getLast?_cons_cons]
  | case3 steps => rfl

theorem takeWhile_amendSteps {t : EpochTime} (steps : List α) {amendment : List α}
    (later : ∀ first ∈ amendment.head?, t < start first) :
    (amendSteps start steps amendment).takeWhile (start · ≤ t) = steps.takeWhile (start · ≤ t) := by
  cases amendment with
  | nil => rfl
  | cons first amendment =>
    have after : t < start first := later first rfl
    have firstLater : (first :: amendment).takeWhile (start · ≤ t) = [] :=
      List.takeWhile_cons_of_neg (by simpa using UInt64.not_le.mpr after)
    rw [amendSteps]
    induction steps with
    | nil => rw [List.takeWhile_nil, List.nil_append, firstLater, List.takeWhile_nil]
    | cons step steps ih =>
      by_cases before : start step < start first
      · have kept : (step :: steps).takeWhile (fun step => start step < start first) =
            step :: steps.takeWhile (fun step => start step < start first) :=
          List.takeWhile_cons_of_pos (by simpa using before)
        rw [kept, List.cons_append]
        by_cases begun : start step ≤ t
        · rw [List.takeWhile_cons_of_pos (by simpa using begun), List.takeWhile_cons_of_pos (by simpa using begun), ih]
        · rw [List.takeWhile_cons_of_neg (by simpa using begun), List.takeWhile_cons_of_neg (by simpa using begun)]
      · have notBegun : ¬ start step ≤ t := fun begun =>
          before (UInt64.lt_of_le_of_lt begun after)
        have dropped : (step :: steps).takeWhile (fun step => start step < start first) = [] :=
          List.takeWhile_cons_of_neg (by simpa using before)
        rw [dropped, List.nil_append, firstLater, List.takeWhile_cons_of_neg (by simpa using notBegun)]

theorem mem_amendSteps {steps amendment : List α} {step : α} (mem : step ∈ amendSteps start steps amendment) :
    step ∈ steps ∨ step ∈ amendment := by
  cases amendment with
  | nil => exact .inl mem
  | cons first amendment =>
    rcases List.mem_append.mp mem with kept | added
    · exact .inl ((List.takeWhile_prefix _).subset kept)
    · exact .inr added

theorem Increasing.amendSteps {steps amendment : List α} (increasing : Increasing start steps)
    (increasing' : Increasing start amendment) : Increasing start (amendSteps start steps amendment) := by
  cases amendment with
  | nil => exact increasing
  | cons first amendment =>
    have kept : Increasing start (steps.takeWhile fun step => start step < start first) :=
      List.IsChain.infix increasing (List.takeWhile_prefix _).isInfix
    apply List.IsChain.append kept increasing'
    intro last lastMem next nextMem
    cases nextMem
    have kept := List.mem_takeWhile_imp (List.mem_of_getLast? lastMem)
    simpa using kept

end Steps

/-- The checks `validateNondegenerate` makes on one rate step. -/
def RateStepValid (rules : CommissionScheduleRules) (step : CommissionRateStep) : Prop :=
  step.start % rules.rateChangeInterval = 0 ∧ step.rate ≤ commissionRateDenominator ∧
    rules.minCommissionRate ≤ step.rate

/-- The checks `validateNondegenerate` makes on one bound step. -/
def BoundStepValid (rules : CommissionScheduleRules) (step : CommissionRateBoundStep) : Prop :=
  step.start % rules.rateChangeInterval = 0 ∧ step.rateMin ≤ commissionRateDenominator ∧
    step.rateMax ≤ commissionRateDenominator ∧ step.rateMin ≤ step.rateMax ∧
    rules.minCommissionRate ≤ step.rateMax ∧ rules.minCommissionRate ≤ step.rateMin

section Validation

variable {rules : CommissionScheduleRules}

theorem filter_eq_none_iff {previous : Option EpochTime} {start : EpochTime} :
    previous.filter (start ≤ ·) = none ↔ ∀ p ∈ previous, p < start := by
  cases previous <;> simp [Option.filter, UInt64.not_le]

theorem validateRateSteps_cons_eq_ok_iff (nonzero : rules.rateChangeInterval ≠ 0) {i : ℕ}
    {previous : Option EpochTime} {step : CommissionRateStep} {steps : List CommissionRateStep} :
    validateRateSteps rules i previous (step :: steps) = some (.ok ()) ↔
      RateStepValid rules step ∧ (∀ p ∈ previous, p < step.start) ∧
        validateRateSteps rules (i + 1) (some step.start) steps = some (.ok ()) := by
  rw [validateRateSteps, if_neg nonzero, ← filter_eq_none_iff]
  by_cases misaligned : step.start % rules.rateChangeInterval ≠ 0
  · rw [if_pos misaligned]
    simp [RateStepValid, misaligned]
  rw [if_neg misaligned]
  cases filtered : previous.filter (step.start ≤ ·) with
  | some p => simp
  | none =>
    dsimp only
    by_cases exceeds : step.rate > commissionRateDenominator
    · rw [if_pos exceeds]
      simp [RateStepValid]
      omega
    rw [if_neg exceeds]
    by_cases below : step.rate < rules.minCommissionRate
    · rw [if_pos below]
      simp [RateStepValid]
      omega
    rw [if_neg below]
    have valid : RateStepValid rules step := ⟨not_not.mp misaligned, not_lt.mp exceeds, not_lt.mp below⟩
    simp [valid]

theorem validateBoundSteps_cons_eq_ok_iff (nonzero : rules.rateChangeInterval ≠ 0) {i : ℕ}
    {previous : Option EpochTime} {step : CommissionRateBoundStep} {steps : List CommissionRateBoundStep} :
    validateBoundSteps rules i previous (step :: steps) = some (.ok ()) ↔
      BoundStepValid rules step ∧ (∀ p ∈ previous, p < step.start) ∧
        validateBoundSteps rules (i + 1) (some step.start) steps = some (.ok ()) := by
  rw [validateBoundSteps, if_neg nonzero, ← filter_eq_none_iff]
  by_cases misaligned : step.start % rules.rateChangeInterval ≠ 0
  · rw [if_pos misaligned]
    simp [BoundStepValid, misaligned]
  rw [if_neg misaligned]
  cases filtered : previous.filter (step.start ≤ ·) with
  | some p => simp
  | none =>
    dsimp only
    split_ifs with minimumOver maximumOver inverted maximumUnder minimumUnder
    all_goals first
      | (simp [BoundStepValid]; omega)
      | (have valid : BoundStepValid rules step := ⟨not_not.mp misaligned, not_lt.mp minimumOver,
            not_lt.mp maximumOver, not_lt.mp inverted, not_lt.mp maximumUnder, not_lt.mp minimumUnder⟩
         simp [valid])

theorem validateRateSteps_eq_ok_iff (nonzero : rules.rateChangeInterval ≠ 0) {i : ℕ}
    {previous : Option EpochTime} {steps : List CommissionRateStep} :
    validateRateSteps rules i previous steps = some (.ok ()) ↔
      (∀ step ∈ steps, RateStepValid rules step) ∧ (∀ p ∈ previous, ∀ first ∈ steps.head?, p < first.start) ∧
        Increasing (·.start) steps := by
  induction steps generalizing i previous with
  | nil => simp [validateRateSteps, Increasing]
  | cons step steps ih =>
    rw [validateRateSteps_cons_eq_ok_iff nonzero, ih]
    simp only [List.mem_cons, forall_eq_or_imp, Option.mem_def, List.head?_cons, Option.some.injEq,
      forall_eq', Increasing, List.isChain_cons]
    tauto

theorem validateBoundSteps_eq_ok_iff (nonzero : rules.rateChangeInterval ≠ 0) {i : ℕ}
    {previous : Option EpochTime} {steps : List CommissionRateBoundStep} :
    validateBoundSteps rules i previous steps = some (.ok ()) ↔
      (∀ step ∈ steps, BoundStepValid rules step) ∧ (∀ p ∈ previous, ∀ first ∈ steps.head?, p < first.start) ∧
        Increasing (·.start) steps := by
  induction steps generalizing i previous with
  | nil => simp [validateBoundSteps, Increasing]
  | cons step steps ih =>
    rw [validateBoundSteps_cons_eq_ok_iff nonzero, ih]
    simp only [List.mem_cons, forall_eq_or_imp, Option.mem_def, List.head?_cons, Option.some.injEq,
      forall_eq', Increasing, List.isChain_cons]
    tauto

theorem validateRateSteps_of_zero (zero : rules.rateChangeInterval = 0) {i : ℕ} {previous : Option EpochTime}
    {steps : List CommissionRateStep} :
    validateRateSteps rules i previous steps = if steps = [] then some (.ok ()) else none := by
  cases steps with
  | nil => rfl
  | cons step steps => simp [validateRateSteps, zero]

theorem validateBoundSteps_of_zero (zero : rules.rateChangeInterval = 0) {i : ℕ} {previous : Option EpochTime}
    {steps : List CommissionRateBoundStep} :
    validateBoundSteps rules i previous steps = if steps = [] then some (.ok ()) else none := by
  cases steps with
  | nil => rfl
  | cons step steps => simp [validateBoundSteps, zero]

end Validation

/-- What `validateNondegenerate` accepts. -/
structure Nondegenerate (rules : CommissionScheduleRules) (cs : CommissionSchedule) : Prop where
  interval : cs.rates ≠ [] ∨ cs.bounds ≠ [] → rules.rateChangeInterval ≠ 0
  rates : ∀ step ∈ cs.rates, RateStepValid rules step
  bounds : ∀ step ∈ cs.bounds, BoundStepValid rules step
  ratesIncreasing : Increasing (·.start) cs.rates
  boundsIncreasing : Increasing (·.start) cs.bounds

theorem validateNondegenerate_eq_ok_iff {cs : CommissionSchedule} {rules : CommissionScheduleRules} :
    cs.validateNondegenerate rules = some (.ok ()) ↔ Nondegenerate rules cs := by
  unfold validateNondegenerate
  by_cases zero : rules.rateChangeInterval = 0
  · rw [validateRateSteps_of_zero zero]
    constructor
    · intro ok
      split at ok
      · rename_i ratesOk
        rw [validateBoundSteps_of_zero zero] at ok
        have noRates : cs.rates = [] := by
          by_contra some
          simp [some] at ratesOk
        have noBounds : cs.bounds = [] := by
          by_contra some
          simp [some] at ok
        refine ⟨fun nonempty => absurd nonempty (by simp [noRates, noBounds]), ?_, ?_, ?_, ?_⟩ <;>
          simp [noRates, noBounds, Increasing]
      · rename_i result notOk
        exact (notOk ok).elim
    · intro nondegenerate
      have noSteps : cs.rates = [] ∧ cs.bounds = [] := by
        by_contra nonempty
        exact nondegenerate.interval (by tauto) zero
      rw [if_pos noSteps.1, validateBoundSteps_of_zero zero, if_pos noSteps.2]
  · have rates : validateRateSteps rules 0 none cs.rates = some (.ok ()) ↔ _ := validateRateSteps_eq_ok_iff zero
    have bounds : validateBoundSteps rules 0 none cs.bounds = some (.ok ()) ↔ _ := validateBoundSteps_eq_ok_iff zero
    constructor
    · intro ok
      split at ok
      · rename_i ratesOk
        obtain ⟨ratesValid, -, ratesIncreasing⟩ := rates.mp ratesOk
        obtain ⟨boundsValid, -, boundsIncreasing⟩ := bounds.mp ok
        exact ⟨fun _ => zero, ratesValid, boundsValid, ratesIncreasing, boundsIncreasing⟩
      · rename_i result notOk
        exact (notOk ok).elim
    · intro nondegenerate
      rw [rates.mpr ⟨nondegenerate.rates, by simp, nondegenerate.ratesIncreasing⟩]
      exact bounds.mpr ⟨nondegenerate.bounds, by simp, nondegenerate.boundsIncreasing⟩

theorem Nondegenerate.prune {rules : CommissionScheduleRules} {cs : CommissionSchedule}
    (nondegenerate : Nondegenerate rules cs) (now : EpochTime) : Nondegenerate rules (cs.prune now) where
  interval nonempty := by
    apply nondegenerate.interval
    rcases nonempty with rates | bounds
    · obtain ⟨step, mem⟩ := List.exists_mem_of_ne_nil _ rates
      exact .inl (List.ne_nil_of_mem ((pruneSteps_suffix now cs.rates).subset mem))
    · obtain ⟨step, mem⟩ := List.exists_mem_of_ne_nil _ bounds
      exact .inr (List.ne_nil_of_mem ((pruneSteps_suffix now cs.bounds).subset mem))
  rates step mem := nondegenerate.rates step ((pruneSteps_suffix now cs.rates).subset mem)
  bounds step mem := nondegenerate.bounds step ((pruneSteps_suffix now cs.bounds).subset mem)
  ratesIncreasing := nondegenerate.ratesIncreasing.pruneSteps now
  boundsIncreasing := nondegenerate.boundsIncreasing.pruneSteps now

theorem Nondegenerate.amend {rules : CommissionScheduleRules} {cs amendment : CommissionSchedule}
    (nondegenerate : Nondegenerate rules cs) (nondegenerate' : Nondegenerate rules amendment) :
    Nondegenerate rules (cs.amend amendment) where
  interval nonempty := by
    rcases nonempty with rates | bounds
    · obtain ⟨step, mem⟩ := List.exists_mem_of_ne_nil _ rates
      rcases mem_amendSteps mem with kept | added
      · exact nondegenerate.interval (.inl (List.ne_nil_of_mem kept))
      · exact nondegenerate'.interval (.inl (List.ne_nil_of_mem added))
    · obtain ⟨step, mem⟩ := List.exists_mem_of_ne_nil _ bounds
      rcases mem_amendSteps mem with kept | added
      · exact nondegenerate.interval (.inr (List.ne_nil_of_mem kept))
      · exact nondegenerate'.interval (.inr (List.ne_nil_of_mem added))
  rates step mem := (mem_amendSteps mem).elim (nondegenerate.rates step) (nondegenerate'.rates step)
  bounds step mem := (mem_amendSteps mem).elim (nondegenerate.bounds step) (nondegenerate'.bounds step)
  ratesIncreasing := nondegenerate.ratesIncreasing.amendSteps nondegenerate'.ratesIncreasing
  boundsIncreasing := nondegenerate.boundsIncreasing.amendSteps nondegenerate'.boundsIncreasing

theorem pruneAndValidate_eq_ok {cs₀ cs : CommissionSchedule} {rules : CommissionScheduleRules} {now : EpochTime}
    (validated : cs₀.pruneAndValidate rules now = some (cs, .ok ())) :
    Nondegenerate rules cs₀ ∧ cs = cs₀.prune now := by
  unfold pruneAndValidate at validated
  split at validated
  · simp at validated
  split at validated
  · cases validated
  · simp at validated
  rename_i nondegenerate
  dsimp only at validated
  split at validated
  · simp at validated
  simp only [Option.some.injEq, Prod.mk.injEq] at validated
  exact ⟨validateNondegenerate_eq_ok_iff.mp nondegenerate, validated.1.symm⟩

theorem amendAndPruneAndValidate_eq_ok {cs amendment cs' : CommissionSchedule} {rules : CommissionScheduleRules}
    {now : EpochTime} (amended : cs.amendAndPruneAndValidate amendment rules now = some (cs', .ok ())) :
    Nondegenerate rules amendment ∧ amendment.validateAmendmentAcceptable rules now cs.bounds.isEmpty = .ok () ∧
      cs' = (cs.prune now).amend amendment ∧ cs'.validateComplexity rules = .ok () ∧
      cs'.validateWithinBound now = .ok () := by
  unfold amendAndPruneAndValidate at amended
  split at amended
  · simp at amended
  split at amended
  · cases amended
  · simp at amended
  rename_i nondegenerate
  split at amended
  · simp at amended
  rename_i acceptable
  dsimp only at amended
  split at amended
  · simp at amended
  rename_i complexity
  split at amended
  · simp at amended
  rename_i withinBound
  simp only [Option.some.injEq, Prod.mk.injEq] at amended
  obtain ⟨rfl, -⟩ := amended
  exact ⟨validateNondegenerate_eq_ok_iff.mp nondegenerate, acceptable, rfl, complexity, withinBound⟩

theorem validateAmendmentAcceptable_eq_ok {amendment : CommissionSchedule} {rules : CommissionScheduleRules}
    {now : EpochTime} {initialSchedule : Bool}
    (acceptable : amendment.validateAmendmentAcceptable rules now initialSchedule = .ok ()) :
    (∀ first ∈ amendment.rates.head?, now < first.start) ∧
    ∀ first ∈ amendment.bounds.head?,
      (if initialSchedule then now + 1 else now + 1 + rules.rateBoundLead) ≤ first.start := by
  have boundsAcceptable : validateAmendmentAcceptable.boundsAcceptable amendment rules now initialSchedule = .ok () →
      ∀ first ∈ amendment.bounds.head?,
        (if initialSchedule then now + 1 else now + 1 + rules.rateBoundLead) ≤ first.start := by
    unfold validateAmendmentAcceptable.boundsAcceptable
    intro ok first mem
    cases bounds : amendment.bounds with
    | nil => simp [bounds] at mem
    | cons head rest =>
      rw [bounds] at ok mem
      cases mem
      dsimp only at ok
      by_cases early : first.start < (if initialSchedule then now + 1 else now + 1 + rules.rateBoundLead)
      · rw [if_pos early] at ok
        cases ok
      · exact UInt64.not_lt.mp early
  unfold validateAmendmentAcceptable at acceptable
  cases rates : amendment.rates with
  | nil =>
    rw [rates] at acceptable
    exact ⟨by simp, boundsAcceptable acceptable⟩
  | cons first rest =>
    rw [rates] at acceptable
    dsimp only at acceptable
    split_ifs at acceptable with early
    refine ⟨fun step mem => ?_, boundsAcceptable acceptable⟩
    cases mem
    exact UInt64.not_le.mp early

theorem amendAndPruneAndValidate_keeps_past {cs₀ cs amendment cs' : CommissionSchedule}
    {rules : CommissionScheduleRules} {t0 now : EpochTime}
    (validated : cs₀.pruneAndValidate rules t0 = some (cs, .ok ()))
    (amended : cs.amendAndPruneAndValidate amendment rules now = some (cs', .ok ())) :
    (cs'.validateComplexity rules = .ok () ∧ cs'.validateNondegenerate rules = some (.ok ()) ∧
      cs'.validateWithinBound now = .ok ()) ∧
    (∀ t ≤ now, cs'.currentRate t = none ∨ cs'.currentRate t = cs.currentRate t) ∧
    cs'.currentRate now = cs.currentRate now ∧
    (cs.bounds ≠ [] → now.toNat + 1 + rules.rateBoundLead.toNat < 2 ^ 64 →
      ∀ t : EpochTime, t.toNat ≤ now.toNat + rules.rateBoundLead.toNat →
        (cs'.currentBound t = none ∨ cs'.currentBound t = cs.currentBound t) ∧
        (now ≤ t → cs'.currentBound t = cs.currentBound t)) := by
  obtain ⟨nondegenerate₀, pruned⟩ := pruneAndValidate_eq_ok validated
  have nondegenerate : Nondegenerate rules cs := pruned ▸ nondegenerate₀.prune t0
  obtain ⟨amendmentNondegenerate, acceptable, rfl, complexity, withinBound⟩ := amendAndPruneAndValidate_eq_ok amended
  obtain ⟨ratesLater, boundsLater⟩ := validateAmendmentAcceptable_eq_ok acceptable
  -- Before the amendment's first rate, the amended rates are the pruned ones.
  have ratesKept : ∀ t ≤ now, ((cs.prune now).amend amendment).rates.takeWhile (·.start ≤ t) =
      (cs.prune now).rates.takeWhile (·.start ≤ t) := fun t before =>
    takeWhile_amendSteps _ fun first mem => UInt64.lt_of_le_of_lt before (ratesLater first mem)
  refine ⟨⟨complexity, validateNondegenerate_eq_ok_iff.mpr ((nondegenerate.prune now).amend amendmentNondegenerate),
    withinBound⟩, fun t before => ?_, ?_, fun hasBounds noWrap t within => ?_⟩
  · unfold currentRate
    rw [ratesKept t before]
    rcases getLast?_takeWhile_pruneSteps nondegenerate.ratesIncreasing now t with forgotten | same
    · exact .inl (by simp only [prune] at forgotten ⊢; rw [forgotten]; rfl)
    · exact .inr (by simp only [prune] at same ⊢; rw [same])
  · unfold currentRate
    rw [ratesKept now (UInt64.le_refl _)]
    simp only [prune]
    rw [getLast?_takeWhile_pruneSteps_of_le nondegenerate.ratesIncreasing (UInt64.le_refl _)]
  · -- A schedule with bounds takes new bounds only from `now + 1 + RateBoundLead` on.
    have notInitial : cs.bounds.isEmpty = false := List.isEmpty_eq_false_iff.mpr hasBounds
    rw [notInitial] at boundsLater
    have boundsKept : ((cs.prune now).amend amendment).bounds.takeWhile (·.start ≤ t) =
        (cs.prune now).bounds.takeWhile (·.start ≤ t) := by
      apply takeWhile_amendSteps
      intro first mem
      have earliest := boundsLater first mem
      simp only [Bool.false_eq_true, if_false] at earliest
      rw [UInt64.le_iff_toNat_le, UInt64.toNat_add, UInt64.toNat_add, UInt64.toNat_one] at earliest
      rw [UInt64.lt_iff_toNat_lt]
      omega
    unfold currentBound
    rw [boundsKept]
    simp only [prune]
    exact ⟨getLast?_takeWhile_pruneSteps nondegenerate.boundsIncreasing now t,
      fun later => getLast?_takeWhile_pruneSteps_of_le nondegenerate.boundsIncreasing later⟩

theorem amendAndPruneAndValidate_keeps_past_raise :
    let rules : CommissionScheduleRules := ⟨1, 0, 10, 10, 0⟩
    let cs : CommissionSchedule := ⟨[⟨0, 5⟩, ⟨10, 7⟩], [⟨0, 0, 100000⟩]⟩
    let amendment : CommissionSchedule := ⟨[⟨30, 6⟩], [⟨40, 0, 90000⟩]⟩
    let cs' : CommissionSchedule := ⟨[⟨10, 7⟩, ⟨30, 6⟩], [⟨0, 0, 100000⟩, ⟨40, 0, 90000⟩]⟩
    cs.pruneAndValidate rules 0 = some (cs, .ok ()) ∧
    cs.amendAndPruneAndValidate amendment rules 20 = some (cs', .ok ()) ∧
    (cs'.validateComplexity rules = .ok () ∧ cs'.validateNondegenerate rules = some (.ok ()) ∧
      cs'.validateWithinBound 20 = .ok ()) ∧
    (∀ t ≤ 20, cs'.currentRate t = none ∨ cs'.currentRate t = cs.currentRate t) ∧
    cs'.currentRate 20 = cs.currentRate 20 ∧
    (cs.bounds ≠ [] → (20 : EpochTime).toNat + 1 + rules.rateBoundLead.toNat < 2 ^ 64 →
      ∀ t : EpochTime, t.toNat ≤ (20 : EpochTime).toNat + rules.rateBoundLead.toNat →
        (cs'.currentBound t = none ∨ cs'.currentBound t = cs.currentBound t) ∧
        (20 ≤ t → cs'.currentBound t = cs.currentBound t)) := by
  intro rules cs amendment cs'
  have validated : cs.pruneAndValidate rules 0 = some (cs, .ok ()) := by decide
  have amended : cs.amendAndPruneAndValidate amendment rules 20 = some (cs', .ok ()) := by decide
  exact ⟨validated, amended, amendAndPruneAndValidate_keeps_past validated amended⟩

/-- Pruning at `now` forgets the steps a later started step replaced, so the rate of an earlier
epoch is lost even with an empty amendment. And a rate bound lead that makes
`now + 1 + RateBoundLead` wrap around lets an amendment replace the bound in effect at `now`. -/
theorem amendAndPruneAndValidate_forgets_pruned_steps :
    let rules : CommissionScheduleRules := ⟨1, 0, 10, 10, 0⟩
    let cs : CommissionSchedule := ⟨[⟨0, 5⟩, ⟨10, 7⟩], [⟨0, 0, 100000⟩]⟩
    let cs' : CommissionSchedule := ⟨[⟨10, 7⟩], [⟨0, 0, 100000⟩]⟩
    let wrapping : CommissionScheduleRules := ⟨1, UInt64.ofNat (2 ^ 64 - 1), 10, 10, 0⟩
    let single : CommissionSchedule := ⟨[⟨0, 50000⟩], [⟨0, 0, 100000⟩]⟩
    let lowered : CommissionSchedule := ⟨[⟨0, 50000⟩], [⟨0, 0, 100000⟩, ⟨10, 0, 60000⟩]⟩
    (cs.pruneAndValidate rules 0 = some (cs, .ok ()) ∧
      cs.amendAndPruneAndValidate ⟨[], []⟩ rules 20 = some (cs', .ok ()) ∧
      cs.currentRate 5 = some 5 ∧ cs'.currentRate 5 = none) ∧
    (single.pruneAndValidate wrapping 0 = some (single, .ok ()) ∧
      single.amendAndPruneAndValidate ⟨[], [⟨10, 0, 60000⟩]⟩ wrapping 10 = some (lowered, .ok ()) ∧
      single.currentBound 10 = some ⟨0, 0, 100000⟩ ∧ lowered.currentBound 10 = some ⟨10, 0, 60000⟩) := by
  decide

end CommissionSchedule

end Orphiq.Staking

import Mathlib

/-!
# Commission schedules

`staking/api/commission.go`: a schedule of commission rate steps and rate bound steps, each
starting at an epoch, its validation, pruning and amendment. Epochs are the `uint64` of
`beacon.EpochTime`, rates the `Nat` of `quantity.Quantity`. An error is the constructor of
its `fmt.Errorf` with the values the message prints; a wrapped error keeps the wrapping.
Validation panics (`none`) when it takes a start epoch modulo a zero rate change interval.
-/

namespace Orphiq.Staking

abbrev EpochTime := UInt64

/-- `CommissionRateDenominator`: rates are in thousandths of a percent. -/
def commissionRateDenominator : ℕ := 10 ^ 5

structure CommissionScheduleRules where
  rateChangeInterval : EpochTime
  rateBoundLead : EpochTime
  maxRateSteps : UInt16
  maxBoundSteps : UInt16
  minCommissionRate : ℕ
  deriving DecidableEq, Repr

structure CommissionRateStep where
  start : EpochTime
  rate : ℕ
  deriving DecidableEq, Repr

structure CommissionRateBoundStep where
  start : EpochTime
  rateMin : ℕ
  rateMax : ℕ
  deriving DecidableEq, Repr

structure CommissionSchedule where
  rates : List CommissionRateStep
  bounds : List CommissionRateBoundStep
  deriving DecidableEq, Repr

/-- The errors of `commission.go`. -/
inductive CommissionError where
  | rateStepsExceedMaximum (steps : ℕ) (maximum : UInt16)
  | boundStepsExceedMaximum (steps : ℕ) (maximum : UInt16)
  | rateStepNotAligned (i : ℕ) (start interval : EpochTime)
  | rateStepNotAfterPrevious (i : ℕ) (start previous : EpochTime)
  | rateOverUnity (i : ℕ) (rate denominator : ℕ)
  | rateBelowMinimumAllowed (i : ℕ) (rate minimum : ℕ)
  | boundStepNotAligned (i : ℕ) (start interval : EpochTime)
  | boundStepNotAfterPrevious (i : ℕ) (start previous : EpochTime)
  | boundMinimumOverUnity (i : ℕ) (rateMin denominator : ℕ)
  | boundMaximumOverUnity (i : ℕ) (rateMax denominator : ℕ)
  | boundMaximumBelowMinimum (i : ℕ) (rateMax denominator rateMin denominator' : ℕ)
  | boundMaximumBelowMinimumAllowed (i : ℕ) (rateMax minimum : ℕ)
  | boundMinimumBelowMinimumAllowed (i : ℕ) (rateMax minimum : ℕ)
  | rateAlteredTooEarly (start now : EpochTime)
  | boundAlteredTooEarly (start earliestAllowedChange : EpochTime)
  | ratesMissing
  | boundsMissing
  | scheduleStartsDiffer (rateStart boundStart : EpochTime)
  | rateBelowBound (rate denominator : ℕ) (rateIndex : ℕ) (rateMin denominator' : ℕ) (boundIndex : ℕ)
      (epoch : EpochTime)
  | rateAboveBound (rate denominator : ℕ) (rateIndex : ℕ) (rateMax denominator' : ℕ) (boundIndex : ℕ)
      (epoch : EpochTime)
  | afterPruning (err : CommissionError)
  | amendment (err : CommissionError)
  | afterPruningAndAmending (err : CommissionError)
  deriving DecidableEq, Repr

namespace CommissionSchedule

def validateComplexity (cs : CommissionSchedule) (rules : CommissionScheduleRules) :
    Except CommissionError Unit :=
  if cs.rates.length > rules.maxRateSteps.toNat then
    .error (.rateStepsExceedMaximum cs.rates.length rules.maxRateSteps)
  else if cs.bounds.length > rules.maxBoundSteps.toNat then
    .error (.boundStepsExceedMaximum cs.bounds.length rules.maxBoundSteps)
  else .ok ()

/-- The rate loop of `validateNondegenerate`, from step `i`, after the step that started at
`previous`. -/
def validateRateSteps (rules : CommissionScheduleRules) :
    ℕ → Option EpochTime → List CommissionRateStep → Option (Except CommissionError Unit)
  | _, _, [] => some (.ok ())
  | i, previous, step :: steps =>
    if rules.rateChangeInterval = 0 then none
    else if step.start % rules.rateChangeInterval ≠ 0 then
      some (.error (.rateStepNotAligned i step.start rules.rateChangeInterval))
    else if let some p := previous.filter (step.start ≤ ·) then
      some (.error (.rateStepNotAfterPrevious i step.start p))
    else if step.rate > commissionRateDenominator then
      some (.error (.rateOverUnity i step.rate commissionRateDenominator))
    else if step.rate < rules.minCommissionRate then
      some (.error (.rateBelowMinimumAllowed i step.rate rules.minCommissionRate))
    else validateRateSteps rules (i + 1) (some step.start) steps

/-- The bound loop of `validateNondegenerate`. The last message prints the maximum rate where
it names the minimum one. -/
def validateBoundSteps (rules : CommissionScheduleRules) :
    ℕ → Option EpochTime → List CommissionRateBoundStep → Option (Except CommissionError Unit)
  | _, _, [] => some (.ok ())
  | i, previous, step :: steps =>
    if rules.rateChangeInterval = 0 then none
    else if step.start % rules.rateChangeInterval ≠ 0 then
      some (.error (.boundStepNotAligned i step.start rules.rateChangeInterval))
    else if let some p := previous.filter (step.start ≤ ·) then
      some (.error (.boundStepNotAfterPrevious i step.start p))
    else if step.rateMin > commissionRateDenominator then
      some (.error (.boundMinimumOverUnity i step.rateMin commissionRateDenominator))
    else if step.rateMax > commissionRateDenominator then
      some (.error (.boundMaximumOverUnity i step.rateMax commissionRateDenominator))
    else if step.rateMax < step.rateMin then
      some (.error (.boundMaximumBelowMinimum i step.rateMax commissionRateDenominator step.rateMin
        commissionRateDenominator))
    else if step.rateMax < rules.minCommissionRate then
      some (.error (.boundMaximumBelowMinimumAllowed i step.rateMax rules.minCommissionRate))
    else if step.rateMin < rules.minCommissionRate then
      some (.error (.boundMinimumBelowMinimumAllowed i step.rateMax rules.minCommissionRate))
    else validateBoundSteps rules (i + 1) (some step.start) steps

def validateNondegenerate (cs : CommissionSchedule) (rules : CommissionScheduleRules) :
    Option (Except CommissionError Unit) :=
  match validateRateSteps rules 0 none cs.rates with
  | some (.ok ()) => validateBoundSteps rules 0 none cs.bounds
  | result => result

def validateAmendmentAcceptable (cs : CommissionSchedule) (rules : CommissionScheduleRules) (now : EpochTime)
    (initialSchedule : Bool) : Except CommissionError Unit :=
  match cs.rates with
  | first :: _ =>
    if first.start ≤ now then .error (.rateAlteredTooEarly first.start now)
    else boundsAcceptable
  | [] => boundsAcceptable
where
  boundsAcceptable : Except CommissionError Unit :=
    match cs.bounds with
    | first :: _ =>
      let earliestAllowedChange := if initialSchedule then now + 1 else now + 1 + rules.rateBoundLead
      if first.start < earliestAllowedChange then .error (.boundAlteredTooEarly first.start earliestAllowedChange)
      else .ok ()
    | [] => .ok ()

/-- One loop of `Prune`: drop the first step while the next one has started. -/
def pruneSteps {α : Type} (start : α → EpochTime) (now : EpochTime) : List α → List α
  | first :: next :: steps => if start next > now then first :: next :: steps else pruneSteps start now (next :: steps)
  | steps => steps

def prune (cs : CommissionSchedule) (now : EpochTime) : CommissionSchedule :=
  ⟨pruneSteps (·.start) now cs.rates, pruneSteps (·.start) now cs.bounds⟩

/-- One splice of `amend`: keep the steps that start before the amendment's first step. -/
def amendSteps {α : Type} (start : α → EpochTime) (steps : List α) : List α → List α
  | [] => steps
  | first :: amendment => steps.takeWhile (fun step => start step < start first) ++ first :: amendment

def amend (cs amendment : CommissionSchedule) : CommissionSchedule :=
  ⟨amendSteps (·.start) cs.rates amendment.rates, amendSteps (·.start) cs.bounds amendment.bounds⟩

/-- The loop of `validateWithinBound`, with the steps after the current rate and bound. It
takes one step of at least one of the two lists a turn, so their lengths are enough fuel. -/
def validateWithinBoundLoop : ℕ → EpochTime → ℕ → CommissionRateStep → List CommissionRateStep → ℕ →
    CommissionRateBoundStep → List CommissionRateBoundStep → Except CommissionError Unit
  | fuel, diagnosticTime, currentRateIndex, currentRate, rates, currentBoundIndex, currentBound, bounds =>
    if currentRate.rate < currentBound.rateMin then
      .error (.rateBelowBound currentRate.rate commissionRateDenominator currentRateIndex currentBound.rateMin
        commissionRateDenominator currentBoundIndex diagnosticTime)
    else if currentRate.rate > currentBound.rateMax then
      .error (.rateAboveBound currentRate.rate commissionRateDenominator currentRateIndex currentBound.rateMax
        commissionRateDenominator currentBoundIndex diagnosticTime)
    else match fuel, rates, bounds with
    | _, [], [] => .ok ()
    | 0, _, _ => .ok ()
    | fuel + 1, nextRate :: rates, [] =>
      validateWithinBoundLoop fuel nextRate.start (currentRateIndex + 1) nextRate rates currentBoundIndex
        currentBound []
    | fuel + 1, [], nextBound :: bounds =>
      validateWithinBoundLoop fuel nextBound.start currentRateIndex currentRate [] (currentBoundIndex + 1)
        nextBound bounds
    | fuel + 1, nextRate :: rates, nextBound :: bounds =>
      if nextRate.start < nextBound.start then
        validateWithinBoundLoop fuel nextRate.start (currentRateIndex + 1) nextRate rates currentBoundIndex
          currentBound (nextBound :: bounds)
      else if nextBound.start < nextRate.start then
        validateWithinBoundLoop fuel nextBound.start currentRateIndex currentRate (nextRate :: rates)
          (currentBoundIndex + 1) nextBound bounds
      else
        validateWithinBoundLoop fuel nextBound.start (currentRateIndex + 1) nextRate rates
          (currentBoundIndex + 1) nextBound bounds

def validateWithinBound (cs : CommissionSchedule) (now : EpochTime) : Except CommissionError Unit :=
  match cs.rates, cs.bounds with
  | [], [] => .ok ()
  | [], _ :: _ => .error .ratesMissing
  | _ :: _, [] => .error .boundsMissing
  | currentRate :: rates, currentBound :: bounds =>
    if currentRate.start > now ∨ currentBound.start > now then
      if currentRate.start ≠ currentBound.start then
        .error (.scheduleStartsDiffer currentRate.start currentBound.start)
      else
        validateWithinBoundLoop (rates.length + bounds.length) currentRate.start 0 currentRate rates 0
          currentBound bounds
    else
      validateWithinBoundLoop (rates.length + bounds.length) now 0 currentRate rates 0 currentBound bounds

/-- `CommissionSchedule.PruneAndValidate`: the schedule after the call, which may be pruned
even when it fails, and the call's error. -/
def pruneAndValidate (cs : CommissionSchedule) (rules : CommissionScheduleRules) (now : EpochTime) :
    Option (CommissionSchedule × Except CommissionError Unit) :=
  match cs.validateComplexity rules with
  | .error e => some (cs, .error e)
  | .ok () =>
    match cs.validateNondegenerate rules with
    | none => none
    | some (.error e) => some (cs, .error e)
    | some (.ok ()) =>
      let cs := cs.prune now
      match cs.validateWithinBound now with
      | .error e => some (cs, .error (.afterPruning e))
      | .ok () => some (cs, .ok ())

def amendAndPruneAndValidate (cs amendment : CommissionSchedule) (rules : CommissionScheduleRules)
    (now : EpochTime) : Option (CommissionSchedule × Except CommissionError Unit) :=
  match amendment.validateComplexity rules with
  | .error e => some (cs, .error (.amendment e))
  | .ok () =>
    match amendment.validateNondegenerate rules with
    | none => none
    | some (.error e) => some (cs, .error (.amendment e))
    | some (.ok ()) =>
      match amendment.validateAmendmentAcceptable rules now cs.bounds.isEmpty with
      | .error e => some (cs, .error (.amendment e))
      | .ok () =>
        let cs := (cs.prune now).amend amendment
        match cs.validateComplexity rules with
        | .error e => some (cs, .error (.afterPruningAndAmending e))
        | .ok () =>
          match cs.validateWithinBound now with
          | .error e => some (cs, .error (.afterPruningAndAmending e))
          | .ok () => some (cs, .ok ())

/-- `CommissionSchedule.CurrentRate`: the rate of the last step that has started by `now`. -/
def currentRate (cs : CommissionSchedule) (now : EpochTime) : Option ℕ :=
  ((cs.rates.takeWhile fun step => step.start ≤ now).getLast?).map (·.rate)

end CommissionSchedule

end Orphiq.Staking

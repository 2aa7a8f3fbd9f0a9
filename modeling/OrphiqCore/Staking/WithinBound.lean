import OrphiqCore.Staking.CommissionSpec

/-!
# The bound check, epoch by epoch

`validateWithinBound` walks the rate steps and the bound steps together, advancing whichever
changes next, and checks the rate against the bound at every stop. On steps in increasing
order of their start epochs it accepts exactly when, at every epoch, the rate step in force
lies within the bound step in force, where a schedule counts its first step as in force
before any of its steps has started (`validateWithinBound_eq_ok_iff`).
-/

namespace Orphiq.Staking

namespace CommissionSchedule

section Steps

variable {α : Type} (start : α → EpochTime)

/-- The step in force at `t` among `first :: rest`: the last step of `rest` started by `t`, or
`first` when none has. -/
def stepAt (first : α) (rest : List α) (t : EpochTime) : α :=
  (rest.takeWhile fun step => start step ≤ t).getLastD first

variable {start}

theorem stepAt_cons (first next : α) (rest : List α) (t : EpochTime) :
    stepAt start first (next :: rest) t = if start next ≤ t then stepAt start next rest t else first := by
  unfold stepAt
  by_cases started : start next ≤ t
  · rw [List.takeWhile_cons_of_pos (by simpa using started), if_pos started, List.getLastD_cons]
  · rw [List.takeWhile_cons_of_neg (by simpa using started), if_neg started]
    rfl

theorem stepAt_eq_first {first : α} {rest : List α} {t : EpochTime} (early : ∀ next ∈ rest, t < start next) :
    stepAt start first rest t = first := by
  cases rest with
  | nil => rfl
  | cons next rest =>
    rw [stepAt_cons, if_neg (UInt64.not_le.mpr (early next List.mem_cons_self))]

theorem Increasing.lt_of_mem {first next : α} {rest : List α} (increasing : Increasing start (first :: rest))
    (mem : next ∈ rest) : start first < start next :=
  List.rel_of_pairwise_cons increasing.pairwise mem

theorem stepAt_zero {first : α} {rest : List α} (increasing : Increasing start (first :: rest)) :
    stepAt start first rest 0 = first :=
  stepAt_eq_first fun _ mem => UInt64.lt_of_le_of_lt UInt64.zero_le (increasing.lt_of_mem mem)

end Steps

def Within (rate : CommissionRateStep) (bound : CommissionRateBoundStep) : Prop :=
  bound.rateMin ≤ rate.rate ∧ rate.rate ≤ bound.rateMax

instance (rate : CommissionRateStep) (bound : CommissionRateBoundStep) : Decidable (Within rate bound) :=
  inferInstanceAs (Decidable (_ ∧ _))

/-- At every epoch the rate step in force lies within the bound step in force. -/
def WithinAt (r : CommissionRateStep) (rs : List CommissionRateStep) (b : CommissionRateBoundStep)
    (bs : List CommissionRateBoundStep) : Prop :=
  ∀ t, Within (stepAt (·.start) r rs t) (stepAt (·.start) b bs t)

section Walk

variable {r r' : CommissionRateStep} {rs : List CommissionRateStep} {b b' : CommissionRateBoundStep}
  {bs : List CommissionRateBoundStep}

theorem WithinAt.within (within : WithinAt r rs b bs) (rates : Increasing (·.start) (r :: rs))
    (bounds : Increasing (·.start) (b :: bs)) : Within r b := by
  have first := within 0
  rwa [stepAt_zero rates, stepAt_zero bounds] at first

theorem withinAt_rate_cons (rates : Increasing (·.start) (r :: r' :: rs))
    (later : ∀ next ∈ bs, r'.start < next.start) :
    WithinAt r (r' :: rs) b bs ↔ Within r b ∧ WithinAt r' rs b bs := by
  have ordered := List.isChain_cons_cons.mp rates
  have rest : ∀ next ∈ rs, r'.start < next.start := fun _ mem => Increasing.lt_of_mem ordered.2 mem
  have boundBefore {t : EpochTime} (early : t ≤ r'.start) : stepAt (·.start) b bs t = b :=
    stepAt_eq_first fun next mem => UInt64.lt_of_le_of_lt early (later next mem)
  have rateBefore {t : EpochTime} (early : t < r'.start) : stepAt (·.start) r (r' :: rs) t = r := by
    rw [stepAt_cons, if_neg (UInt64.not_le.mpr early)]
  have rateAfter {t : EpochTime} (late : r'.start ≤ t) :
      stepAt (·.start) r (r' :: rs) t = stepAt (·.start) r' rs t := by
    rw [stepAt_cons, if_pos late]
  have nextFirst {t : EpochTime} (early : t ≤ r'.start) : stepAt (·.start) r' rs t = r' :=
    stepAt_eq_first fun next mem => UInt64.lt_of_le_of_lt early (rest next mem)
  constructor
  · intro within
    have atNext := within r'.start
    rw [rateAfter (UInt64.le_refl _), nextFirst (UInt64.le_refl _), boundBefore (UInt64.le_refl _)] at atNext
    refine ⟨?_, fun t => ?_⟩
    · have atZero := within 0
      rwa [rateBefore (UInt64.lt_of_le_of_lt UInt64.zero_le ordered.1), boundBefore UInt64.zero_le]
        at atZero
    · by_cases late : r'.start ≤ t
      · rw [← rateAfter late]
        exact within t
      · have early := UInt64.not_le.mp late
        rwa [nextFirst (UInt64.le_of_lt early), boundBefore (UInt64.le_of_lt early)]
  · rintro ⟨first, within⟩ t
    by_cases late : r'.start ≤ t
    · rw [rateAfter late]
      exact within t
    · have early := UInt64.not_le.mp late
      rwa [rateBefore early, boundBefore (UInt64.le_of_lt early)]

theorem withinAt_bound_cons (bounds : Increasing (·.start) (b :: b' :: bs))
    (later : ∀ next ∈ rs, b'.start < next.start) :
    WithinAt r rs b (b' :: bs) ↔ Within r b ∧ WithinAt r rs b' bs := by
  have ordered := List.isChain_cons_cons.mp bounds
  have rest : ∀ next ∈ bs, b'.start < next.start := fun _ mem => Increasing.lt_of_mem ordered.2 mem
  have rateBefore {t : EpochTime} (early : t ≤ b'.start) : stepAt (·.start) r rs t = r :=
    stepAt_eq_first fun next mem => UInt64.lt_of_le_of_lt early (later next mem)
  have boundBefore {t : EpochTime} (early : t < b'.start) : stepAt (·.start) b (b' :: bs) t = b := by
    rw [stepAt_cons, if_neg (UInt64.not_le.mpr early)]
  have boundAfter {t : EpochTime} (late : b'.start ≤ t) :
      stepAt (·.start) b (b' :: bs) t = stepAt (·.start) b' bs t := by
    rw [stepAt_cons, if_pos late]
  have nextFirst {t : EpochTime} (early : t ≤ b'.start) : stepAt (·.start) b' bs t = b' :=
    stepAt_eq_first fun next mem => UInt64.lt_of_le_of_lt early (rest next mem)
  constructor
  · intro within
    have atNext := within b'.start
    rw [boundAfter (UInt64.le_refl _), nextFirst (UInt64.le_refl _), rateBefore (UInt64.le_refl _)] at atNext
    refine ⟨?_, fun t => ?_⟩
    · have atZero := within 0
      rwa [boundBefore (UInt64.lt_of_le_of_lt UInt64.zero_le ordered.1), rateBefore UInt64.zero_le]
        at atZero
    · by_cases late : b'.start ≤ t
      · rw [← boundAfter late]
        exact within t
      · have early := UInt64.not_le.mp late
        rwa [nextFirst (UInt64.le_of_lt early), rateBefore (UInt64.le_of_lt early)]
  · rintro ⟨first, within⟩ t
    by_cases late : b'.start ≤ t
    · rw [boundAfter late]
      exact within t
    · have early := UInt64.not_le.mp late
      rwa [boundBefore early, rateBefore (UInt64.le_of_lt early)]

theorem withinAt_both_cons (rates : Increasing (·.start) (r :: r' :: rs))
    (bounds : Increasing (·.start) (b :: b' :: bs)) (same : r'.start = b'.start) :
    WithinAt r (r' :: rs) b (b' :: bs) ↔ Within r b ∧ WithinAt r' rs b' bs := by
  have rateOrdered := List.isChain_cons_cons.mp rates
  have boundOrdered := List.isChain_cons_cons.mp bounds
  have before {t : EpochTime} (early : t < r'.start) :
      stepAt (·.start) r (r' :: rs) t = r ∧ stepAt (·.start) b (b' :: bs) t = b := by
    rw [stepAt_cons, stepAt_cons, if_neg (UInt64.not_le.mpr early), if_neg (UInt64.not_le.mpr (same ▸ early))]
    exact ⟨rfl, rfl⟩
  have after {t : EpochTime} (late : r'.start ≤ t) :
      stepAt (·.start) r (r' :: rs) t = stepAt (·.start) r' rs t ∧
        stepAt (·.start) b (b' :: bs) t = stepAt (·.start) b' bs t := by
    rw [stepAt_cons, stepAt_cons, if_pos late, if_pos (same ▸ late)]
    exact ⟨rfl, rfl⟩
  have nextFirst {t : EpochTime} (early : t ≤ r'.start) :
      stepAt (·.start) r' rs t = r' ∧ stepAt (·.start) b' bs t = b' :=
    ⟨stepAt_eq_first fun _ mem => UInt64.lt_of_le_of_lt early (Increasing.lt_of_mem rateOrdered.2 mem),
      stepAt_eq_first fun _ mem => UInt64.lt_of_le_of_lt (same ▸ early) (Increasing.lt_of_mem boundOrdered.2 mem)⟩
  constructor
  · intro within
    have atNext := within r'.start
    rw [(after (UInt64.le_refl _)).1, (after (UInt64.le_refl _)).2, (nextFirst (UInt64.le_refl _)).1,
      (nextFirst (UInt64.le_refl _)).2] at atNext
    refine ⟨?_, fun t => ?_⟩
    · have atZero := within 0
      rwa [(before (UInt64.lt_of_le_of_lt UInt64.zero_le rateOrdered.1)).1,
        (before (UInt64.lt_of_le_of_lt UInt64.zero_le rateOrdered.1)).2] at atZero
    · by_cases late : r'.start ≤ t
      · rw [← (after late).1, ← (after late).2]
        exact within t
      · have early := UInt64.not_le.mp late
        rwa [(nextFirst (UInt64.le_of_lt early)).1, (nextFirst (UInt64.le_of_lt early)).2]
  · rintro ⟨first, within⟩ t
    by_cases late : r'.start ≤ t
    · rw [(after late).1, (after late).2]
      exact within t
    · have early := UInt64.not_le.mp late
      rw [(before early).1, (before early).2]
      exact first

theorem not_withinAt (rates : Increasing (·.start) (r :: rs)) (bounds : Increasing (·.start) (b :: bs))
    (outside : ¬ Within r b) : ¬ WithinAt r rs b bs :=
  fun within => outside (within.within rates bounds)

/-- With a turn of fuel for every step left, the walk accepts exactly when the rate in force
lies within the bound in force at every epoch. -/
theorem validateWithinBoundLoop_eq_ok_iff {fuel : ℕ} {diagnosticTime : EpochTime} {i j : ℕ}
    (rates : Increasing (·.start) (r :: rs)) (bounds : Increasing (·.start) (b :: bs))
    (enough : rs.length + bs.length ≤ fuel) :
    validateWithinBoundLoop fuel diagnosticTime i r rs j b bs = .ok () ↔ WithinAt r rs b bs := by
  induction fuel generalizing diagnosticTime i j r rs b bs with
  | zero =>
    obtain ⟨rfl, rfl⟩ : rs = [] ∧ bs = [] :=
      ⟨List.eq_nil_of_length_eq_zero (by omega), List.eq_nil_of_length_eq_zero (by omega)⟩
    unfold validateWithinBoundLoop
    split_ifs with below above
    · exact iff_of_false (by simp) (not_withinAt rates bounds fun within => Nat.not_le.mpr below within.1)
    · exact iff_of_false (by simp) (not_withinAt rates bounds fun within => Nat.not_le.mpr above within.2)
    · exact iff_of_true rfl fun _ => ⟨Nat.not_lt.mp below, Nat.not_lt.mp above⟩
  | succ fuel ih =>
    unfold validateWithinBoundLoop
    split_ifs with below above
    · exact iff_of_false (by simp) (not_withinAt rates bounds fun within => Nat.not_le.mpr below within.1)
    · exact iff_of_false (by simp) (not_withinAt rates bounds fun within => Nat.not_le.mpr above within.2)
    have first : Within r b := ⟨Nat.not_lt.mp below, Nat.not_lt.mp above⟩
    have rateRest := (List.isChain_cons.mp rates).2
    have boundRest := (List.isChain_cons.mp bounds).2
    -- One case per branch of the walk: which of the two lists has the next change.
    rcases rs with _ | ⟨r', rs⟩ <;> rcases bs with _ | ⟨b', bs⟩
    · exact iff_of_true rfl fun _ => first
    · simp only [List.length_cons, List.length_nil] at enough
      rw [ih rates (List.isChain_cons_cons.mp bounds).2 (by simp; omega), withinAt_bound_cons bounds (by simp)]
      exact (and_iff_right first).symm
    · simp only [List.length_cons, List.length_nil] at enough
      rw [ih (List.isChain_cons_cons.mp rates).2 bounds (by simp; omega), withinAt_rate_cons rates (by simp)]
      exact (and_iff_right first).symm
    · simp only [List.length_cons] at enough
      have rateOrdered := List.isChain_cons_cons.mp rates
      have boundOrdered := List.isChain_cons_cons.mp bounds
      dsimp only
      split_ifs with rateFirst boundFirst
      · rw [ih rateOrdered.2 bounds (by simp; omega), withinAt_rate_cons rates fun next mem => by
          rcases List.mem_cons.mp mem with rfl | mem
          · exact rateFirst
          · exact UInt64.lt_trans rateFirst (Increasing.lt_of_mem boundOrdered.2 mem)]
        exact (and_iff_right first).symm
      · rw [ih rates boundOrdered.2 (by simp; omega), withinAt_bound_cons bounds fun next mem => by
          rcases List.mem_cons.mp mem with rfl | mem
          · exact boundFirst
          · exact UInt64.lt_trans boundFirst (Increasing.lt_of_mem rateOrdered.2 mem)]
        exact (and_iff_right first).symm
      · have same : r'.start = b'.start :=
          UInt64.le_antisymm (UInt64.not_lt.mp boundFirst) (UInt64.not_lt.mp rateFirst)
        rw [ih rateOrdered.2 boundOrdered.2 (by omega), withinAt_both_cons rates bounds same]
        exact (and_iff_right first).symm

end Walk

theorem validateWithinBound_eq_ok_iff {cs : CommissionSchedule} (rates : Increasing (·.start) cs.rates)
    (bounds : Increasing (·.start) cs.bounds) (now : EpochTime) :
    cs.validateWithinBound now = .ok () ↔
      (cs.rates = [] ∧ cs.bounds = []) ∨
      ∃ r rs b bs, cs.rates = r :: rs ∧ cs.bounds = b :: bs ∧
        ((now < r.start ∨ now < b.start) → r.start = b.start) ∧
        ∀ t, Within (stepAt (·.start) r rs t) (stepAt (·.start) b bs t) := by
  obtain ⟨rateList, boundList⟩ := cs
  simp only at rates bounds ⊢
  rcases rateList with _ | ⟨r, rs⟩ <;> rcases boundList with _ | ⟨b, bs⟩
  · simp [validateWithinBound]
  · simp [validateWithinBound]
  · simp [validateWithinBound]
  · have spec : ((r :: rs = [] ∧ b :: bs = []) ∨ ∃ r' rs' b' bs', r :: rs = r' :: rs' ∧ b :: bs = b' :: bs' ∧
        ((now < r'.start ∨ now < b'.start) → r'.start = b'.start) ∧
        ∀ t, Within (stepAt (·.start) r' rs' t) (stepAt (·.start) b' bs' t)) ↔
        (((now < r.start ∨ now < b.start) → r.start = b.start) ∧ WithinAt r rs b bs) := by
      constructor
      · rintro (⟨nonempty, -⟩ | ⟨r', rs', b', bs', sameRates, sameBounds, starts, within⟩)
        · exact absurd nonempty (List.cons_ne_nil r rs)
        · obtain ⟨rfl, rfl⟩ := List.cons.inj sameRates
          obtain ⟨rfl, rfl⟩ := List.cons.inj sameBounds
          exact ⟨starts, within⟩
      · rintro ⟨starts, within⟩
        exact .inr ⟨r, rs, b, bs, rfl, rfl, starts, within⟩
    rw [spec]
    unfold validateWithinBound
    dsimp only
    by_cases future : r.start > now ∨ b.start > now
    · rw [if_pos future]
      by_cases differ : r.start ≠ b.start
      · rw [if_pos differ]
        exact iff_of_false (by simp) fun ⟨starts, _⟩ => differ (starts future)
      · rw [if_neg differ, validateWithinBoundLoop_eq_ok_iff rates bounds le_rfl]
        exact ⟨fun within => ⟨fun _ => not_not.mp differ, within⟩, fun ⟨_, within⟩ => within⟩
    · rw [if_neg future, validateWithinBoundLoop_eq_ok_iff rates bounds le_rfl]
      exact ⟨fun within => ⟨fun started => absurd started future, within⟩, fun ⟨_, within⟩ => within⟩

theorem validateWithinBound_eq_ok_iff_raise :
    Increasing (·.start) [(⟨0, 5⟩ : CommissionRateStep), ⟨10, 8⟩] ∧
      Increasing (·.start) [(⟨0, 0, 10⟩ : CommissionRateBoundStep)] ∧
      ((⟨[⟨0, 5⟩, ⟨10, 8⟩], [⟨0, 0, 10⟩]⟩ : CommissionSchedule).validateWithinBound 3 = .ok () ↔
        ((⟨[⟨0, 5⟩, ⟨10, 8⟩], [⟨0, 0, 10⟩]⟩ : CommissionSchedule).rates = [] ∧
          (⟨[⟨0, 5⟩, ⟨10, 8⟩], [⟨0, 0, 10⟩]⟩ : CommissionSchedule).bounds = []) ∨
        ∃ r rs b bs, (⟨[⟨0, 5⟩, ⟨10, 8⟩], [⟨0, 0, 10⟩]⟩ : CommissionSchedule).rates = r :: rs ∧
          (⟨[⟨0, 5⟩, ⟨10, 8⟩], [⟨0, 0, 10⟩]⟩ : CommissionSchedule).bounds = b :: bs ∧
          ((3 < r.start ∨ 3 < b.start) → r.start = b.start) ∧
          ∀ t, Within (stepAt (·.start) r rs t) (stepAt (·.start) b bs t)) :=
  ⟨by decide, by decide, @validateWithinBound_eq_ok_iff ⟨[⟨0, 5⟩, ⟨10, 8⟩], [⟨0, 0, 10⟩]⟩ (by decide) (by decide) 3⟩

/-- The walk compares the first rate step with the first bound step even when they do not
start together. A rate schedule that starts before its bounds passes although at epoch 0 no
bound is in force; and one whose first rate, replaced before any bound starts, is above the
first bound fails although every rate in force while a bound is in force lies within it. -/
theorem validateWithinBound_checks_steps_not_in_force :
    ((⟨[⟨0, 5⟩], [⟨5, 0, 10⟩]⟩ : CommissionSchedule).validateWithinBound 10 = .ok () ∧
      (⟨[⟨0, 5⟩], [⟨5, 0, 10⟩]⟩ : CommissionSchedule).currentRate 0 = some 5 ∧
      (⟨[⟨0, 5⟩], [⟨5, 0, 10⟩]⟩ : CommissionSchedule).currentBound 0 = none) ∧
    ((⟨[⟨0, 50⟩, ⟨3, 5⟩], [⟨5, 0, 10⟩]⟩ : CommissionSchedule).validateWithinBound 10 ≠ .ok () ∧
      ∀ t rate bound, (⟨[⟨0, 50⟩, ⟨3, 5⟩], [⟨5, 0, 10⟩]⟩ : CommissionSchedule).currentRate t = some rate →
        (⟨[⟨0, 50⟩, ⟨3, 5⟩], [⟨5, 0, 10⟩]⟩ : CommissionSchedule).currentBound t = some bound →
        bound.rateMin ≤ rate ∧ rate ≤ bound.rateMax) := by
  refine ⟨⟨by decide, by decide, by decide⟩, by decide, fun t rate bound rated bounded => ?_⟩
  -- A bound is in force only from epoch 5, when the second rate step has replaced the first.
  have started : (5 : UInt64) ≤ t := by
    by_contra early
    simp [currentBound, early] at bounded
  have second : (3 : UInt64) ≤ t := UInt64.le_trans (by decide) started
  simp [currentRate, second] at rated
  simp [currentBound, started] at bounded
  subst rated bounded
  decide

end CommissionSchedule

end Orphiq.Staking

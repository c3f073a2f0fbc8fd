import Verdandi.Common.Clock

/-! The business clock follows the local elapsed time and works off what it owes to the last
observation at a bounded extra rate. Its readings never jump and do not depend on how often
the clock was read.
-/

namespace Astra

structure Slew where
  ppm : Nat
  positive : 0 < ppm
  limited : ppm ≤ 1000

/-- The rate a clock is built with. The constructor throws on any other. -/
def Slew.of? (ppm : Nat) : Option Slew :=
  if valid : 0 < ppm ∧ ppm ≤ 1000 then
    some { ppm, positive := valid.1, limited := valid.2 }
  else
    none

structure Clock.Estimate where
  time : Int
  sampled : Int
  uncertainty : Nat := 0
  rtt : Nat := 0
  deriving DecidableEq, Repr

/-- The published time, what it still owes, and the local time both belong to. -/
structure Clock where
  slew : Slew
  estimate : Option Clock.Estimate := none
  local_ : Int := 0
  epoch : Int := 0
  debt : Int := 0
  fraction : Nat := 0
  trusted : Bool := false
  failed : Bool := false

namespace Clock

def freshness : Nat := 5000000000

def uncertaintyLimit : Nat := 500000000

/-- How far a clock may drift in `age` nanoseconds, rounded up. -/
def drift (age ppm : Nat) : Nat :=
  age / 1000000 * ppm + (age % 1000000 * ppm + 999999) / 1000000

/-- Moves the clock to a local time and works off part of the debt. False when the local time
goes back or the result is not representable, which stays so. -/
def advance (clock : Clock) (local_ : Int) : Clock × Bool :=
  if clock.failed ∨ local_ < clock.local_ then
    ({ clock with failed := true }, false)
  else
    let elapsed := (local_ - clock.local_).toNat
    let fraction := elapsed % 1000000 * clock.slew.ppm + clock.fraction
    let budget := elapsed / 1000000 * clock.slew.ppm + fraction / 1000000
    let correction := min clock.debt.natAbs budget
    let step := if clock.debt < 0 then elapsed - correction else elapsed + correction
    if (step : Int) > maximum - clock.epoch then
      ({ clock with failed := true }, false)
    else
      let debt := if clock.debt < 0 then clock.debt + correction else clock.debt - correction
      ({ clock with
          epoch := clock.epoch + step
          debt
          fraction := if debt = 0 then 0 else fraction % 1000000
          local_ }, true)

/-- The reading of a clock that has just been advanced to `local_`. -/
def reading (clock : Clock) (estimate : Estimate) (local_ : Int) : Reading :=
  let age := (local_ - estimate.sampled).toNat
  let uncertainty := estimate.uncertainty + drift age 2000 + clock.debt.natAbs
  { time := clock.epoch, uncertainty, rtt := estimate.rtt, sampled := estimate.sampled
    ready := true
    synchronized :=
      clock.trusted && decide (age ≤ freshness) && decide (uncertainty ≤ uncertaintyLimit) }

/-- Reads the clock at a local time; nothing before the first observation or after a failure. -/
def now (clock : Clock) (local_ : Int) : Clock × Option Reading :=
  match clock.estimate with
  | none => (clock, none)
  | some estimate =>
      match clock.advance local_ with
      | (advanced, true) => (advanced, some (advanced.reading estimate local_))
      | (failed, false) => (failed, none)

/-- What an observation must fulfil before the clock looks at its own state. -/
def admissible (clock : Clock) (estimate : Estimate) (local_ : Int) : Bool :=
  !clock.failed && decide (0 ≤ estimate.time) && decide (0 ≤ estimate.sampled)
    && decide (estimate.sampled ≤ local_) && decide (estimate.uncertainty ≤ 1000000000)
    && decide (estimate.rtt ≤ 200000000)
    && clock.estimate.all fun previous => decide (previous.sampled < estimate.sampled)

/-- Takes up an observation. The first one anchors the clock, every later one only replaces
the debt. -/
def publish (clock : Clock) (estimate : Estimate) (local_ : Int) : Clock × Bool :=
  if !clock.admissible estimate local_ then
    (clock, false)
  else
    let age := local_ - estimate.sampled
    if age.toNat > freshness ∨ estimate.time > maximum - age then
      (clock, false)
    else
      let predicted := estimate.time + age
      if clock.estimate.isNone then
        if estimate.uncertainty + drift age.toNat 2000 > uncertaintyLimit then
          (clock, false)
        else
          ({ clock with
              epoch := predicted
              local_
              estimate := some estimate
              trusted := true }, true)
      else
        match clock.advance local_ with
        | (failed, false) => (failed, false)
        | (advanced, true) =>
            let debt := predicted - advanced.epoch
            let turned := decide (debt < 0) != decide (advanced.debt < 0) || debt == 0
            ({ advanced with
                fraction := if turned then 0 else advanced.fraction
                debt
                estimate := some estimate
                trusted := true }, true)

/-- The source of the observations is no longer trusted; the clock goes on. -/
def revoke (clock : Clock) : Clock :=
  { clock with trusted := false }

inductive Call where
  | publish (estimate : Estimate) (local_ : Int)
  | now (local_ : Int)
  | revoke

def Call.local? : Call → Option Int
  | .publish _ local_ => some local_
  | .now local_ => some local_
  | .revoke => none

def step (clock : Clock) : Call → Clock
  | .publish estimate local_ => (clock.publish estimate local_).1
  | .now local_ => (clock.now local_).1
  | .revoke => clock.revoke

def run (clock : Clock) (calls : List Call) : Clock :=
  calls.foldl step clock

@[simp]
theorem run_nil (clock : Clock) : clock.run [] = clock := rfl

@[simp]
theorem run_cons (clock : Clock) (call : Call) (calls : List Call)
    : clock.run (call :: calls) = (clock.step call).run calls :=
  rfl

def Ordered (calls : List Call) : Prop :=
  (calls.filterMap Call.local?).Pairwise (· ≤ ·)

-- One advance

/-- What the clock may correct in `elapsed` nanoseconds: its rate over that time and the
remainder carried from before, in whole nanoseconds. -/
def budget (clock : Clock) (elapsed : Nat) : Nat :=
  (elapsed * clock.slew.ppm + clock.fraction) / 1000000

def carried (clock : Clock) (elapsed : Nat) : Nat :=
  (elapsed * clock.slew.ppm + clock.fraction) % 1000000

def correction (clock : Clock) (elapsed : Nat) : Nat :=
  min clock.debt.natAbs (clock.budget elapsed)

/-- How far the published time moves in `elapsed` nanoseconds. -/
def progress (clock : Clock) (elapsed : Nat) : Int :=
  if clock.debt < 0 then elapsed - clock.correction elapsed
  else elapsed + clock.correction elapsed

def remaining (clock : Clock) (elapsed : Nat) : Int :=
  if clock.debt < 0 then clock.debt + clock.correction elapsed
  else clock.debt - clock.correction elapsed

/-- Dividing before multiplying loses nothing, as the remainder is multiplied too. -/
theorem divided_first (elapsed ppm fraction : Nat)
    : elapsed * ppm + fraction
      = 1000000 * (elapsed / 1000000 * ppm) + (elapsed % 1000000 * ppm + fraction) := by
  have split : elapsed * ppm = 1000000 * (elapsed / 1000000 * ppm) + elapsed % 1000000 * ppm := by
    calc elapsed * ppm = (1000000 * (elapsed / 1000000) + elapsed % 1000000) * ppm := by
          simp [Nat.div_add_mod]
      _ = _ := by ring
  omega

/-- The budget the code computes. -/
theorem budget_eq (clock : Clock) (elapsed : Nat)
    : clock.budget elapsed = elapsed / 1000000 * clock.slew.ppm
        + (elapsed % 1000000 * clock.slew.ppm + clock.fraction) / 1000000 := by
  have whole := divided_first elapsed clock.slew.ppm clock.fraction
  simp only [budget]
  omega

/-- The remainder the code computes. -/
theorem carried_eq (clock : Clock) (elapsed : Nat)
    : clock.carried elapsed = (elapsed % 1000000 * clock.slew.ppm + clock.fraction) % 1000000 := by
  have whole := divided_first elapsed clock.slew.ppm clock.fraction
  simp only [carried]
  omega

/-- Budget and remainder are what the time and the old remainder give together. -/
theorem budget_carried (clock : Clock) (elapsed : Nat)
    : 1000000 * clock.budget elapsed + clock.carried elapsed
      = elapsed * clock.slew.ppm + clock.fraction :=
  Nat.div_add_mod _ _

def Carries (clock : Clock) : Prop :=
  clock.fraction < 1000000

/-- At a rate of at most one thousandth no correction is longer than the time itself, so the
unsigned difference in a slowed step does not underflow. -/
theorem Carries.budget_le {clock : Clock} (carries : clock.Carries) (elapsed : Nat)
    : clock.budget elapsed ≤ elapsed := by
  have slowly : elapsed * clock.slew.ppm ≤ elapsed * 1000 :=
    Nat.mul_le_mul_left _ clock.slew.limited
  have whole := clock.budget_carried elapsed
  simp only [Carries] at carries
  omega

theorem correction_eq (clock : Clock) (elapsed : Nat)
    : min clock.debt.natAbs (clock.budget elapsed) = clock.correction elapsed :=
  rfl

theorem correction_le (clock : Clock) (elapsed : Nat)
    : clock.correction elapsed ≤ clock.debt.natAbs :=
  Nat.min_le_left _ _

theorem correction_le_budget (clock : Clock) (elapsed : Nat)
    : clock.correction elapsed ≤ clock.budget elapsed :=
  Nat.min_le_right _ _

/-- A clock advanced by `elapsed` nanoseconds, while its time stays representable. -/
def advanced (clock : Clock) (elapsed : Nat) : Clock :=
  { clock with
    epoch := clock.epoch + clock.progress elapsed
    debt := clock.remaining elapsed
    fraction := if clock.remaining elapsed = 0 then 0 else clock.carried elapsed
    local_ := clock.local_ + elapsed }

/-- When an advance succeeds: the clock has not failed, the local time does not go back and
the result is representable. -/
def Advances (clock : Clock) (local_ : Int) : Prop :=
  clock.failed = false ∧ clock.local_ ≤ local_
    ∧ clock.epoch + clock.progress (local_ - clock.local_).toNat ≤ maximum

instance (clock : Clock) (local_ : Int) : Decidable (clock.Advances local_) :=
  inferInstanceAs (Decidable (_ ∧ _ ∧ _))

/-- Everything an advance can do, by its two guards. -/
theorem advance_eq {clock : Clock} (carries : clock.Carries) (local_ : Int)
    : clock.advance local_ = if clock.Advances local_ then
          (clock.advanced (local_ - clock.local_).toNat, true)
        else
          ({ clock with failed := true }, false) := by
  by_cases refused : clock.failed ∨ local_ < clock.local_
  · have stuck : ¬ clock.Advances local_ := by
      rintro ⟨working, later, _⟩
      rcases refused with failed | earlier
      · simp [failed] at working
      · omega
    simp [advance, refused, stuck]
  · simp only [not_or, Bool.not_eq_true, not_lt] at refused
    obtain ⟨working, later⟩ := refused
    obtain ⟨elapsed, passed⟩ := Int.eq_ofNat_of_zero_le (Int.sub_nonneg.mpr later)
    have short := clock.correction_le_budget elapsed
    have within := carries.budget_le elapsed
    have moved : ((if clock.debt < 0 then elapsed - clock.correction elapsed
        else elapsed + clock.correction elapsed : Nat) : Int) = clock.progress elapsed := by
      by_cases negative : clock.debt < 0
      · simp only [negative, if_true, progress]
        omega
      · simp [negative, progress]
    have isLocal : clock.local_ + elapsed = local_ := by omega
    simp only [advance, Advances, working, later, passed, Int.toNat_natCast, ← budget_eq,
      ← carried_eq, correction_eq, moved, advanced, remaining, isLocal, true_and]
    by_cases fits : clock.epoch + clock.progress elapsed ≤ maximum
    · have small : ¬ clock.progress elapsed > maximum - clock.epoch := by omega
      simp only [fits, small, not_lt.mpr later, if_true, if_false, or_self, Bool.false_eq_true]
    · have large : clock.progress elapsed > maximum - clock.epoch := by omega
      simp only [fits, large, not_lt.mpr later, if_true, if_false, or_self, Bool.false_eq_true]

/-- What is corrected is exactly what is no longer owed. -/
theorem progress_remaining (clock : Clock) (elapsed : Nat)
    : clock.progress elapsed + clock.remaining elapsed = elapsed + clock.debt := by
  by_cases negative : clock.debt < 0
  · simp only [progress, remaining, negative, if_true]
    omega
  · simp only [progress, remaining, negative, if_false]
    omega

/-- The progress differs from the elapsed time by the correction. -/
theorem progress_sub (clock : Clock) (elapsed : Nat)
    : (clock.progress elapsed - elapsed).natAbs = clock.correction elapsed := by
  by_cases negative : clock.debt < 0
  · simp only [progress, negative, if_true]
    omega
  · simp only [progress, negative, if_false]
    omega

/-- A correction never overshoots: the debt left lies between nothing and the debt before. -/
theorem remaining_between (clock : Clock) (elapsed : Nat)
    : (0 ≤ clock.debt → 0 ≤ clock.remaining elapsed ∧ clock.remaining elapsed ≤ clock.debt)
      ∧ (clock.debt ≤ 0 → clock.debt ≤ clock.remaining elapsed ∧ clock.remaining elapsed ≤ 0)
    := by
  have within := clock.correction_le elapsed
  by_cases negative : clock.debt < 0
  · simp only [remaining, negative, if_true]
    omega
  · simp only [remaining, negative, if_false]
    omega

/-- The debt is used up exactly when the budget covers it. -/
theorem remaining_eq_zero_iff (clock : Clock) (elapsed : Nat)
    : clock.remaining elapsed = 0 ↔ clock.debt.natAbs ≤ clock.budget elapsed := by
  by_cases negative : clock.debt < 0
  · simp only [remaining, correction, negative, if_true]
    omega
  · simp only [remaining, correction, negative, if_false]
    omega

/-- The published time does not go back. -/
theorem Carries.progress_nonneg {clock : Clock} (carries : clock.Carries) (elapsed : Nat)
    : 0 ≤ clock.progress elapsed := by
  have within := carries.budget_le elapsed
  have short := clock.correction_le_budget elapsed
  by_cases negative : clock.debt < 0
  · simp only [progress, negative, if_true]
    omega
  · simp only [progress, negative, if_false]
    omega

theorem carried_lt (clock : Clock) (elapsed : Nat) : clock.carried elapsed < 1000000 :=
  Nat.mod_lt _ (by simp)

/-- An advanced clock again carries less than one nanosecond. -/
theorem carries_advanced (clock : Clock) (elapsed : Nat) : (clock.advanced elapsed).Carries := by
  have small := clock.carried_lt elapsed
  by_cases spent : clock.remaining elapsed = 0
  · simp [Carries, advanced, spent]
  · simpa [Carries, advanced, spent] using small

-- Two advances are one

/-- While a debt is left, the budget of a longer time is the sum of the budgets of its parts:
the second part starts with the remainder of the first. -/
theorem budget_add {clock : Clock} {first : Nat} (owing : clock.remaining first ≠ 0) (second : Nat)
    : clock.budget (first + second) = clock.budget first + (clock.advanced first).budget second
      ∧ clock.carried (first + second) = (clock.advanced first).carried second := by
  have one := clock.budget_carried first
  have two := (clock.advanced first).budget_carried second
  have both := clock.budget_carried (first + second)
  have small := (clock.advanced first).carried_lt second
  have small' := clock.carried_lt (first + second)
  have isSlew : (clock.advanced first).slew = clock.slew := rfl
  have isFraction : (clock.advanced first).fraction = clock.carried first := by
    simp [advanced, owing]
  simp only [isSlew, isFraction] at two
  simp only [Nat.add_mul] at both
  omega

/-- A longer time has at least the budget of its first part. -/
theorem budget_mono (clock : Clock) (first second : Nat)
    : clock.budget first ≤ clock.budget (first + second) := by
  apply Nat.div_le_div_right
  simp only [Nat.add_mul]
  omega

/-- The corrections of two parts add up to the correction of the whole. Once the debt is used
up both have nothing more to correct. -/
theorem correction_add (clock : Clock) (first second : Nat)
    : clock.correction (first + second)
      = clock.correction first + (clock.advanced first).correction second := by
  have isDebt : (clock.advanced first).debt = clock.remaining first := rfl
  have left := clock.remaining_between first
  have owed := clock.progress_remaining first
  have corrected := clock.progress_sub first
  have used := clock.remaining_eq_zero_iff first
  have longer := clock.budget_mono first second
  by_cases spent : clock.remaining first = 0
  · simp only [correction, isDebt] at corrected ⊢
    omega
  · have sums := (budget_add spent second).1
    simp only [correction, isDebt] at corrected ⊢
    omega

/-- Advancing twice is advancing once by the whole time: same published time, same debt and
same carried remainder. -/
theorem advanced_advanced (clock : Clock) (first second : Nat)
    : (clock.advanced first).advanced second = clock.advanced (first + second) := by
  have adds := clock.correction_add first second
  have isDebt : (clock.advanced first).debt = clock.remaining first := rfl
  have within := (clock.advanced first).correction_le second
  have left := clock.remaining_between first
  have isRemaining :
      (clock.advanced first).remaining second = clock.remaining (first + second) := by
    simp only [remaining, isDebt] at within left ⊢
    split at left <;> split <;> omega
  have isProgress : clock.progress first + (clock.advanced first).progress second
      = clock.progress (first + second) := by
    have one := clock.progress_remaining first
    have two := (clock.advanced first).progress_remaining second
    have both := clock.progress_remaining (first + second)
    omega
  have isCarried : (if clock.remaining (first + second) = 0 then 0
        else (clock.advanced first).carried second)
      = if clock.remaining (first + second) = 0 then 0 else clock.carried (first + second) := by
    by_cases spent : clock.remaining first = 0
    · have still := (clock.advanced first).remaining_between second
      have none_ : clock.remaining (first + second) = 0 := by omega
      simp [none_]
    · simp [(budget_add spent second).2]
  have isLocal : clock.local_ + first + second = clock.local_ + (first + second : Nat) := by
    omega
  simp only [advanced] at isRemaining isProgress isCarried ⊢
  simp only [isRemaining, isCarried, isLocal, Int.add_assoc, isProgress]

variable {last : Int}

/-- The whole advance succeeds exactly when both parts do. -/
theorem advances_split {clock : Clock} {middle : Int} (early : clock.local_ ≤ middle)
    (late : middle ≤ last)
    : clock.Advances last ↔ clock.Advances middle
        ∧ (clock.advanced (middle - clock.local_).toNat).Advances last := by
  obtain ⟨first, isFirst⟩ := Int.eq_ofNat_of_zero_le (Int.sub_nonneg.mpr early)
  obtain ⟨second, isSecond⟩ := Int.eq_ofNat_of_zero_le (Int.sub_nonneg.mpr late)
  have isWhole : (last - clock.local_).toNat = first + second := by omega
  have isRest : (last - (clock.advanced first).local_).toNat = second := by
    simp only [advanced]
    omega
  have whole := congrArg Clock.epoch (clock.advanced_advanced first second)
  have onward := (clock.carries_advanced first).progress_nonneg second
  simp only [Advances, isFirst, isWhole, isRest, Int.toNat_natCast]
  have isEpoch : (clock.advanced first).epoch + (clock.advanced first).progress second
      = clock.epoch + clock.progress (first + second) := whole
  have isMiddle : (clock.advanced first).epoch = clock.epoch + clock.progress first := rfl
  have isLocal : (clock.advanced first).local_ = clock.local_ + first := rfl
  have isFailed : (clock.advanced first).failed = clock.failed := rfl
  simp only [isFailed, isLocal]
  constructor
  · rintro ⟨working, _, fits⟩
    exact ⟨⟨working, early, by omega⟩, working, by omega, by omega⟩
  · rintro ⟨⟨working, _, _⟩, _, _, fits⟩
    exact ⟨working, by omega, by omega⟩

-- One call

/-- A failed clock gives no reading any more. -/
theorem now_of_failed {clock : Clock} (failed : clock.failed) (local_ : Int)
    : (clock.now local_).2 = none ∧ (clock.now local_).1 = clock := by
  obtain ⟨slew, estimate, anchor, epoch, debt, fraction, trusted, _⟩ := clock
  cases failed
  cases estimate <;> simp [now, advance]

/-- What a reading does, by whether the clock is anchored and whether it advances. -/
theorem now_eq {clock : Clock} (carries : clock.Carries) (local_ : Int)
    : clock.now local_ = match clock.estimate with
        | none => (clock, none)
        | some estimate =>
            if clock.Advances local_ then
              let next := clock.advanced (local_ - clock.local_).toNat
              (next, some (next.reading estimate local_))
            else
              ({ clock with failed := true }, none) := by
  cases anchored : clock.estimate with
  | none => simp [now, anchored]
  | some estimate =>
      by_cases advances : clock.Advances local_
      · simp [now, anchored, advance_eq carries, advances]
      · simp [now, anchored, advance_eq carries, advances]

/-- A reading that succeeds is that of an anchored clock advanced to the local time. -/
theorem now_some {clock : Clock} (carries : clock.Carries) {local_ : Int} {result : Reading}
    (reads : (clock.now local_).2 = some result)
    : clock.estimate.isSome ∧ clock.Advances local_
      ∧ (clock.now local_).1 = clock.advanced (local_ - clock.local_).toNat
      ∧ result.time = (clock.now local_).1.epoch
      ∧ (clock.now local_).1.local_ = local_ := by
  simp only [now_eq carries] at reads ⊢
  cases anchored : clock.estimate with
  | none => simp [anchored] at reads
  | some estimate =>
      by_cases advances : clock.Advances local_
      · simp only [anchored, advances, if_true, Option.some.injEq] at reads ⊢
        subst reads
        have later := advances.2.1
        refine ⟨by simp, by simp, by simp, rfl, ?_⟩
        simp only [advanced]
        omega
      · simp [anchored, advances] at reads

/-- From one state of an anchored clock to a later one: neither the local nor the published
time goes back, and what the two differ by is covered by the rate and the remainder carried
at the start. -/
structure Tracks (before after : Clock) : Prop where
  slew : after.slew = before.slew
  anchored : after.estimate.isSome
  carries : after.Carries
  later : before.local_ ≤ after.local_
  forward : before.epoch ≤ after.epoch
  within : 1000000 * ((after.epoch - before.epoch) - (after.local_ - before.local_)).natAbs
      + after.fraction
    ≤ (after.local_ - before.local_).toNat * before.slew.ppm + before.fraction

variable {clock before middle after : Clock}

theorem Tracks.refl (anchored : clock.estimate.isSome) (carries : clock.Carries)
    : clock.Tracks clock :=
  ⟨rfl, anchored, carries, le_rfl, le_rfl, by simp⟩

/-- The differences add up, and what the first part carries on the second starts with. -/
theorem Tracks.trans (first : before.Tracks middle) (second : middle.Tracks after)
    : before.Tracks after := by
  refine ⟨second.slew.trans first.slew, second.anchored, second.carries,
    first.later.trans second.later, first.forward.trans second.forward, ?_⟩
  have one := first.within
  have two := second.within
  have early := first.later
  have late := second.later
  have splits : (after.local_ - before.local_).toNat
      = (middle.local_ - before.local_).toNat + (after.local_ - middle.local_).toNat := by
    omega
  simp only [first.slew] at two
  simp only [splits, Nat.add_mul]
  omega

/-- A bound on the difference in whole nanoseconds. -/
theorem Tracks.bounded (tracks : before.Tracks after)
    : ((after.epoch - before.epoch) - (after.local_ - before.local_)).natAbs
      ≤ before.budget (after.local_ - before.local_).toNat := by
  have within := tracks.within
  apply (Nat.le_div_iff_mul_le (by simp)).mpr
  omega

/-- Giving up part of the remainder, or changing anything but the times, keeps the bound. -/
theorem Tracks.of_le (tracks : before.Tracks middle) (slew : after.slew = middle.slew)
    (anchored : after.estimate.isSome) (local_ : after.local_ = middle.local_)
    (epoch : after.epoch = middle.epoch) (fraction : after.fraction ≤ middle.fraction)
    : before.Tracks after := by
  have within := tracks.within
  have carries := tracks.carries
  refine ⟨slew.trans tracks.slew, anchored, Nat.lt_of_le_of_lt fraction carries,
    local_ ▸ tracks.later, epoch ▸ tracks.forward, ?_⟩
  simp only [local_, epoch]
  omega

/-- An advance keeps to the budget of its time. -/
theorem Tracks.advanced (anchored : clock.estimate.isSome) (carries : clock.Carries) (elapsed : Nat)
    : clock.Tracks (clock.advanced elapsed) := by
  have onward := carries.progress_nonneg elapsed
  have corrected := clock.progress_sub elapsed
  have short := clock.correction_le_budget elapsed
  have whole := clock.budget_carried elapsed
  have small : (clock.advanced elapsed).fraction ≤ clock.carried elapsed := by
    by_cases spent : clock.remaining elapsed = 0 <;> simp [Clock.advanced, spent]
  refine ⟨rfl, anchored, clock.carries_advanced elapsed, ?_, ?_, ?_⟩
  · simp [Clock.advanced]
  · simpa [Clock.advanced] using onward
  · have isEpoch : (clock.advanced elapsed).epoch - clock.epoch = clock.progress elapsed := by
      simp [Clock.advanced]
    have isLocal : (clock.advanced elapsed).local_ - clock.local_ = elapsed := by
      simp [Clock.advanced]
    simp only [isEpoch, isLocal, Int.toNat_natCast]
    omega

/-- Every advance tracks, whether or not it succeeds. -/
theorem Tracks.advance (anchored : clock.estimate.isSome) (carries : clock.Carries) (local_ : Int)
    : clock.Tracks (clock.advance local_).1 := by
  by_cases advances : clock.Advances local_
  · simpa [advance_eq carries, advances] using Tracks.advanced anchored carries _
  · have stays := Tracks.refl anchored carries
    simp only [advance_eq carries, advances, if_false]
    exact stays.of_le rfl anchored rfl rfl le_rfl

/-- What an observation does: it is refused and changes nothing, it anchors a clock that had
no time yet, or it advances the clock and then replaces what is owed. -/
theorem publish_cases (clock : Clock) (estimate : Estimate) (local_ : Int)
    : (clock.publish estimate local_).1 = clock
      ∨ (clock.estimate = none ∧ (clock.publish estimate local_).1.fraction = clock.fraction
          ∧ (clock.publish estimate local_).1.slew = clock.slew
          ∧ (clock.publish estimate local_).1.local_ = local_)
      ∨ (clock.estimate.isSome ∧ (clock.publish estimate local_).1 = (clock.advance local_).1)
      ∨ ∃ debt fraction, clock.estimate.isSome ∧ fraction ≤ (clock.advance local_).1.fraction
          ∧ (clock.publish estimate local_).1 = { (clock.advance local_).1 with
                fraction, debt, estimate := some estimate, trusted := true } := by
  by_cases admitted : clock.admissible estimate local_
  case neg => simp [publish, admitted]
  by_cases late : (local_ - estimate.sampled).toNat > freshness
      ∨ estimate.time > maximum - (local_ - estimate.sampled)
  case pos => simp only [publish, admitted, late]; simp
  simp only [publish, admitted, late]
  cases anchored : clock.estimate with
  | none =>
      by_cases poor : estimate.uncertainty
          + drift (local_ - estimate.sampled).toNat 2000 > uncertaintyLimit
      · simp [poor]
      · simp [poor]
  | some previous =>
      cases moved : clock.advance local_ with
      | mk next succeeded =>
          cases succeeded with
          | false => simp
          | true =>
              refine .inr (.inr (.inr ⟨_, _, rfl, ?_, rfl⟩))
              simp only
              split <;> simp

/-- An observation of an anchored clock does not move its times by more than an advance. -/
theorem Tracks.publish (anchored : clock.estimate.isSome) (carries : clock.Carries)
    (estimate : Estimate) (local_ : Int)
    : clock.Tracks (clock.publish estimate local_).1 := by
  rcases clock.publish_cases estimate local_ with same | fresh | moved | corrected
  · simpa only [same] using Tracks.refl anchored carries
  · simp [fresh.1] at anchored
  · simpa only [moved.2] using Tracks.advance anchored carries local_
  · obtain ⟨debt, fraction, _, less, result⟩ := corrected
    simp only [result]
    exact (Tracks.advance anchored carries local_).of_le rfl rfl rfl rfl less

/-- A reading only advances. -/
theorem Tracks.now (anchored : clock.estimate.isSome) (carries : clock.Carries) (local_ : Int)
    : clock.Tracks (clock.now local_).1 := by
  have same : (clock.now local_).1 = (clock.advance local_).1 := by
    obtain ⟨estimate, isEstimate⟩ := Option.isSome_iff_exists.mp anchored
    simp only [Clock.now, isEstimate]
    split <;> simp_all
  simpa only [same] using Tracks.advance anchored carries local_

/-- One call on an anchored clock. -/
theorem Tracks.step (anchored : clock.estimate.isSome) (carries : clock.Carries) (call : Call)
    : clock.Tracks (clock.step call) := by
  cases call with
  | publish estimate local_ => exact .publish anchored carries estimate local_
  | now local_ => exact .now anchored carries local_
  | revoke => exact (Tracks.refl anchored carries).of_le rfl anchored rfl rfl le_rfl

/-- Any calls on an anchored clock, by induction on them. -/
theorem Tracks.run (anchored : clock.estimate.isSome) (carries : clock.Carries) (calls : List Call)
    : clock.Tracks (clock.run calls) := by
  induction calls generalizing clock with
  | nil => exact .refl anchored carries
  | cons call calls ih =>
      have one := Tracks.step anchored carries call
      exact one.trans (ih one.anchored one.carries)

/-- Until its first observation a clock does nothing. -/
theorem step_of_fresh (fresh : clock.estimate = none) (call : Call)
    : (clock.step call).fraction = clock.fraction ∧ (clock.step call).slew = clock.slew
      ∧ ((clock.step call).estimate = none ∨ call.local? = some (clock.step call).local_) := by
  cases call with
  | publish estimate local_ =>
      rcases clock.publish_cases estimate local_ with same | first | moved | corrected
      · simp [step, same, fresh]
      · simp [step, first, Call.local?]
      · simp [fresh] at moved
      · obtain ⟨_, _, anchored, _⟩ := corrected
        simp [fresh] at anchored
  | now local_ => simp [step, now, fresh]
  | revoke => simp [step, revoke, fresh]

/-- Every call leaves less than one nanosecond carried. -/
theorem Carries.step (carries : clock.Carries) (call : Call) : (clock.step call).Carries := by
  cases anchored : clock.estimate with
  | none => simpa [Carries, (step_of_fresh anchored call).1] using carries
  | some estimate => exact (Tracks.step (by simp [anchored]) carries call).carries

theorem Carries.run (carries : clock.Carries) (calls : List Call) : (clock.run calls).Carries := by
  induction calls generalizing clock with
  | nil => exact carries
  | cons call calls ih => exact ih (carries.step call)

/-- An advance leaves the local anchor or moves it to the given time. -/
theorem advance_local (carries : clock.Carries) (local_ : Int)
    : (clock.advance local_).1.local_ = clock.local_
      ∨ (clock.advance local_).1.local_ = local_ := by
  by_cases advances : clock.Advances local_
  · have later := advances.2.1
    right
    simp only [advance_eq carries, advances, if_true, advanced]
    omega
  · left
    simp [advance_eq carries, advances]

/-- No call changes the rate. -/
theorem step_slew (carries : clock.Carries) (call : Call)
    : (clock.step call).slew = clock.slew := by
  cases anchored : clock.estimate with
  | none => exact (step_of_fresh anchored call).2.1
  | some previous => exact (Tracks.step (by simp [anchored]) carries call).slew

theorem run_slew (carries : clock.Carries) (calls : List Call)
    : (clock.run calls).slew = clock.slew := by
  induction calls generalizing clock with
  | nil => rfl
  | cons call calls ih => exact (ih (carries.step call)).trans (step_slew carries call)

/-- The local anchor after a call is the one before or the local time of the call. -/
theorem step_local (carries : clock.Carries) (call : Call)
    : (clock.step call).estimate = none ∨ call.local? = some (clock.step call).local_
      ∨ (clock.estimate.isSome ∧ (clock.step call).local_ = clock.local_) := by
  cases anchored : clock.estimate with
  | none =>
      rcases (step_of_fresh anchored call).2.2 with fresh | isLocal
      · exact .inl fresh
      · exact .inr (.inl isLocal)
  | some previous =>
      right
      cases call with
      | revoke => exact .inr ⟨rfl, rfl⟩
      | now local_ =>
          have same : (clock.now local_).1 = (clock.advance local_).1 := by
            simp only [now, anchored]
            split <;> simp_all
          rcases advance_local carries local_ with stays | moved
          · exact .inr ⟨rfl, by simp [step, same, stays]⟩
          · exact .inl (by simp [step, same, moved, Call.local?])
      | publish estimate local_ =>
          have cases_ : (clock.publish estimate local_).1.local_ = clock.local_
              ∨ (clock.publish estimate local_).1.local_ = (clock.advance local_).1.local_ := by
            rcases clock.publish_cases estimate local_ with same | first | moved | corrected
            · exact .inl (by simp [same])
            · simp [first.1] at anchored
            · exact .inr (by simp [moved.2])
            · obtain ⟨_, _, _, _, result⟩ := corrected
              exact .inr (by simp [result])
          rcases cases_ with stays | same
          · exact .inr ⟨rfl, by simp [step, stays]⟩
          · rcases advance_local carries local_ with stays | moved
            · exact .inr ⟨rfl, by simp [step, same, stays]⟩
            · exact .inl (by simp [step, same, moved, Call.local?])

/-- The local anchor of a clock that has one is the local time of some call, by induction on
the calls. -/
theorem local_of_run (carries : clock.Carries) {past : List Call}
    (given : clock.estimate = none ∨ clock.local_ ∈ past.filterMap Call.local?)
    (calls : List Call)
    : (clock.run calls).estimate = none
      ∨ (clock.run calls).local_ ∈ (past ++ calls).filterMap Call.local? := by
  induction calls generalizing clock past with
  | nil => simpa using given
  | cons call calls ih =>
      have next : (clock.step call).estimate = none
          ∨ (clock.step call).local_ ∈ (past ++ [call]).filterMap Call.local? := by
        rcases step_local carries call with fresh | isLocal | ⟨anchored, stays⟩
        · exact .inl fresh
        · exact .inr (by simp [isLocal])
        · rcases given with fresh | isPast
          · simp [fresh] at anchored
          · right
            simp only [stays, List.filterMap_append, List.mem_append]
            exact .inl isPast
      simpa using ih (carries.step call) next

-- Readings

/-- Reading a clock once more in between changes neither a later reading nor the clock after
it. -/
theorem now_now (carries : clock.Carries) {middle : Int}
    (ordered : clock.estimate = none ∨ clock.local_ ≤ middle) (late : middle ≤ last)
    : (((clock.now middle).1.now last).2 = (clock.now last).2)
      ∧ ((clock.now last).2.isSome → (clock.now middle).1.now last = clock.now last) := by
  cases anchored : clock.estimate with
  | none => simp [now, anchored]
  | some estimate =>
      have early : clock.local_ ≤ middle := by simpa [anchored] using ordered
      have splits := clock.advances_split early late
      by_cases whole : clock.Advances last
      · obtain ⟨first, second⟩ := splits.mp whole
        have joined : (clock.advanced (middle - clock.local_).toNat).advanced
            (last - (clock.advanced (middle - clock.local_).toNat).local_).toNat
            = clock.advanced (last - clock.local_).toNat := by
          have isRest : (middle - clock.local_).toNat
              + (last - (clock.advanced (middle - clock.local_).toNat).local_).toNat
              = (last - clock.local_).toNat := by
            simp only [advanced]
            omega
          simp only [advanced_advanced, isRest]
        have isEstimate : (clock.advanced (middle - clock.local_).toNat).estimate
            = some estimate := anchored
        have same : (clock.now middle).1.now last = clock.now last := by
          simp only [now_eq carries, anchored, first, whole, if_true,
            now_eq (clock.carries_advanced _), isEstimate, second, joined]
        simp [same]
      · have none_ : (clock.now last).2 = none := by
          simp [now_eq carries, anchored, whole]
        refine ⟨?_, by simp [none_]⟩
        by_cases first : clock.Advances middle
        · have second : ¬ (clock.advanced (middle - clock.local_).toNat).Advances last :=
            fun second => whole (splits.mpr ⟨first, second⟩)
          have isEstimate : (clock.advanced (middle - clock.local_).toNat).estimate
              = some estimate := anchored
          simp only [none_]
          simp [now_eq carries, anchored, first, now_eq (clock.carries_advanced _), isEstimate,
            second]
        · simp only [none_]
          apply (now_of_failed ?_ last).1
          simp [now_eq carries, anchored, first]

/-- Any number of readings in between changes neither the last reading nor the clock after it,
by induction on the readings. -/
theorem now_of_readings (carries : clock.Carries) {locals : List Int}
    (anchor : clock.estimate = none ∨ ∀ local_ ∈ locals ++ [last], clock.local_ ≤ local_)
    (ordered : (locals ++ [last]).Pairwise (· ≤ ·))
    : (((clock.run (locals.map .now)).now last).2 = (clock.now last).2)
      ∧ ((clock.now last).2.isSome
        → (clock.run (locals.map .now)).now last = clock.now last) := by
  induction locals generalizing clock with
  | nil => simp
  | cons first locals ih =>
      have early : clock.estimate = none ∨ clock.local_ ≤ first :=
        anchor.imp_right fun bound => bound first (by simp)
      have later : ∀ local_ ∈ locals ++ [last], first ≤ local_ :=
        fun _ listed => List.rel_of_pairwise_cons ordered listed
      have once := now_now carries early (later last (by simp))
      have next : (clock.now first).1.estimate = none
          ∨ ∀ local_ ∈ locals ++ [last], (clock.now first).1.local_ ≤ local_ := by
        rcases step_local carries (.now first) with fresh | isLocal | ⟨_, stays⟩
        · exact .inl fresh
        · right
          intro local_ listed
          have isFirst : first = (clock.now first).1.local_ := by
            simpa [Call.local?, step] using isLocal
          exact isFirst ▸ later local_ listed
        · rcases anchor with fresh | bound
          · left
            simp [now, fresh]
          · right
            intro local_ listed
            have same : (clock.now first).1.local_ = clock.local_ := stays
            exact same ▸ bound local_ (List.mem_cons_of_mem _ listed)
      have rest := ih (carries.step (.now first)) next ordered.of_cons
      refine ⟨rest.1.trans once.1, fun reads => ?_⟩
      have reads' : ((clock.now first).1.now last).2.isSome := by simpa [once.1] using reads
      exact (rest.2 reads').trans (once.2 reads)

/-- The clock after any calls, in any order of observations, readings and revocations.

Between two readings neither the local nor the published time goes back, and they differ by at
most the budget of the time between, which is the rate times that time and less than one
nanosecond carried on from before. Every advance works off what is owed without passing it.
Readings in between change neither a later reading nor the clock after it.
-/
theorem run_law (slew : Slew) (past : List Call)
    : let clock := run { slew } past
      (∀ first between last early late, (clock.now first).2 = some early
        → (((clock.now first).1.run between).now last).2 = some late
        → first ≤ last ∧ early.time ≤ late.time ∧ ((late.time - early.time) - (last - first)).natAbs
            ≤ (clock.now first).1.budget (last - first).toNat
          ∧ (clock.now first).1.slew = slew ∧ (clock.now first).1.fraction < 1000000)
      ∧ (∀ local_ next, clock.advance local_ = (next, true)
        → next.epoch + next.debt = clock.epoch + clock.debt + (local_ - clock.local_)
          ∧ clock.epoch ≤ next.epoch
          ∧ (0 ≤ clock.debt → 0 ≤ next.debt ∧ next.debt ≤ clock.debt)
          ∧ (clock.debt ≤ 0 → clock.debt ≤ next.debt ∧ next.debt ≤ 0))
      ∧ (∀ (locals : List Int) last, Ordered (past ++ locals.map .now ++ [.now last])
        → ((clock.run (locals.map .now)).now last).2 = (clock.now last).2
          ∧ ((clock.now last).2.isSome
            → (clock.run (locals.map .now)).now last = clock.now last)) := by
  intro clock
  have fresh : Carries { slew } := by simp [Carries]
  have carries : clock.Carries := fresh.run past
  refine ⟨?_, ?_, ?_⟩
  · intro first between last early late isEarly isLate
    obtain ⟨anchored, _, _, earlyTime, earlyLocal⟩ := now_some carries isEarly
    have start := Tracks.now anchored carries first
    have onward := Tracks.run start.anchored start.carries between
    obtain ⟨_, _, _, lateTime, lateLocal⟩ := now_some onward.carries isLate
    have whole := onward.trans (.now onward.anchored onward.carries last)
    have bounded := whole.bounded
    have later := whole.later
    have forward := whole.forward
    simp only [← earlyTime, ← lateTime, earlyLocal, lateLocal] at bounded later forward
    exact ⟨later, forward, bounded, start.slew.trans (run_slew fresh past), start.carries⟩
  · intro local_ next moved
    by_cases advances : clock.Advances local_
    · have later := advances.2.1
      simp only [advance_eq carries, advances, if_true, Prod.mk.injEq, and_true] at moved
      subst moved
      have whole := clock.progress_remaining (local_ - clock.local_).toNat
      have onward := carries.progress_nonneg (local_ - clock.local_).toNat
      refine ⟨?_, ?_, clock.remaining_between _⟩
      · simp only [advanced]
        omega
      · simp only [advanced]
        omega
    · simp [advance_eq carries, advances] at moved
  · intro locals last ordered
    have times : (past.filterMap Call.local? ++ (locals ++ [last])).Pairwise (· ≤ ·) := by
      have asNow : (locals.map Call.now).filterMap Call.local? = locals := by
        simp [List.filterMap_map, Function.comp_def, Call.local?]
      simpa [Ordered, asNow, Call.local?] using ordered
    have parts := List.pairwise_append.mp times
    apply now_of_readings carries ?_ parts.2.1
    have given := @local_of_run { slew } fresh [] (.inl rfl) past
    exact given.imp_right fun isPast local_ listed => parts.2.2 _ isPast _ listed

/-- A clock that has been told a later time and works off the difference. -/
def behind : Clock :=
  run { slew := ⟨1000, by simp, by simp⟩ }
    [.publish { time := 5000000, sampled := 10 } 10, .now 500,
      .publish { time := 5002000, sampled := 600 } 600]

/-- Between two of its readings it gains eight nanoseconds and works off as many; the reading
in between leaves the last one what it would have been. -/
theorem run_law_behind
    : ((behind.now 9000).2.map Reading.time = some 5008998
        ∧ (behind.run [.now 2100]).now 9000 = behind.now 9000)
      ∧ ((behind.now 600).1.budget 8400 = 8
        ∧ (5008998 - 5000590 - (9000 - 600 : Int)).natAbs ≤ (behind.now 600).1.budget 8400)
      ∧ (behind.advance 9000).1.debt = 1402 ∧ (behind.advance 9000).1.debt ≤ behind.debt := by
  have law := run_law ⟨1000, by simp, by simp⟩
    [.publish { time := 5000000, sampled := 10 } 10, .now 500,
      .publish { time := 5002000, sampled := 600 } 600]
  have split := law.2.2 [2100] 9000 (by simp [Ordered, Call.local?])
  have two := law.1 600 [] 9000
    { time := 5000590, uncertainty := 1410, rtt := 0, sampled := 600, ready := true
      synchronized := true }
    { time := 5008998, uncertainty := 1419, rtt := 0, sampled := 600, ready := true
      synchronized := true } (by decide) (by decide)
  have one := (law.2.1 9000 (behind.advance 9000).1 rfl).2.2.1 (by decide)
  exact ⟨⟨by decide, split.2 (by decide)⟩, ⟨by decide, two.2.2.1⟩, by decide, one.2⟩

end Clock

end Astra

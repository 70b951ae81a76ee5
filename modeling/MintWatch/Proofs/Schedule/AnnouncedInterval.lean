import Mathlib
import MintWatch.Proofs.Schedule.DispatchHistory
/-!
# Announced intervals

A registration announces the interval at which a task will run and warns if that is not the
interval that was asked for.  The task runs every so many ticks, and the time that these
take is the interval rounded up to whole periods.  This time is what is announced if the
number of ticks fits 32 bits, cut off at the longest duration.  For more ticks the longest
duration is announced, however short the time is.
-/

namespace MintWatch

theorem Duration.eq_iff
    {first second : Duration} :
    first = second ↔ first.nanoseconds = second.nanoseconds := by
  constructor
  · intro hsame
    rw [hsame]
  · intro hnanoseconds
    cases first
    cases second
    cases hnanoseconds
    rfl

namespace Scheduler

/-! ## Rounding up to whole periods -/

section Rounding

variable {period every : Nat}

theorem ticksFor_of_pos
    (hperiod : 0 < period)
    (hevery : 0 < every) :
    ticksFor period every = (every + period - 1) / period := by
  have hone : 1 ≤ (every + period - 1) / period := Nat.div_pos (by omega) hperiod
  exact Nat.max_eq_left hone

theorem le_mul_ticksFor
    (hperiod : 0 < period) :
    every ≤ period * ticksFor period every := by
  have hquotient := Nat.lt_mul_div_succ (every + period - 1) hperiod
  have hticks : (every + period - 1) / period ≤ ticksFor period every := Nat.le_max_left _ _
  have hproduct := Nat.mul_le_mul_left period hticks
  rw [Nat.mul_add, Nat.mul_one] at hquotient
  omega

theorem mul_ticksFor_lt
    (hperiod : 0 < period)
    (hevery : 0 < every) :
    period * ticksFor period every < every + period := by
  have hquotient := Nat.mul_div_le (every + period - 1) period
  rw [ticksFor_of_pos hperiod hevery]
  omega

/-- Multiples of the period are not rounded, apart from zero. -/
theorem mul_ticksFor_eq_iff
    (hperiod : 0 < period) :
    period * ticksFor period every = every ↔ every % period = 0 ∧ 0 < every := by
  constructor
  · intro hexact
    have hone : 1 ≤ ticksFor period every := Nat.le_max_right _ 1
    have hpos := Nat.mul_pos hperiod hone
    constructor
    · rw [← hexact]
      exact Nat.mul_mod_right _ _
    · omega
  · rintro ⟨hmultiple, hevery⟩
    obtain ⟨count, hcount⟩ := Nat.dvd_of_mod_eq_zero hmultiple
    have hlower : period * count ≤ period * ticksFor period every := by
      rw [← hcount]
      exact le_mul_ticksFor hperiod
    have hupper : period * ticksFor period every < period * (count + 1) := by
      rw [Nat.mul_add, Nat.mul_one, ← hcount]
      exact mul_ticksFor_lt hperiod hevery
    have hle := Nat.le_of_mul_le_mul_left hlower hperiod
    have hlt := Nat.lt_of_mul_lt_mul_left hupper
    have hsame : ticksFor period every = count := by omega
    rw [hsame, hcount]

theorem isRounded_iff
    (hperiod : 0 < period) :
    isRounded period every = true ↔ period * ticksFor period every ≠ every := by
  rw [Ne, mul_ticksFor_eq_iff hperiod]
  unfold isRounded
  rw [Bool.or_eq_true, bne_iff_ne, beq_iff_eq, not_and_or, Nat.not_lt, Nat.le_zero]

end Rounding

/-! ## The announcement -/

section Announcement

variable {period every : Duration}

theorem nanoseconds_announcedInterval
    {ticks : Nat}
    (period : Duration)
    (hfew : ticks < 2 ^ 32) :
    (announcedInterval period ticks).nanoseconds =
      min (period.nanoseconds * ticks) longestNanoseconds := by
  have hnarrow : ticks < UInt32.size := hfew
  unfold announcedInterval Duration.times? Duration.ofNanoseconds?
  rw [if_pos hnarrow]
  by_cases hfits : period.nanoseconds * ticks ≤ longestNanoseconds
  · rw [dif_pos hfits, Nat.min_eq_left hfits]
    rfl
  · rw [dif_neg hfits, Nat.min_eq_right (Nat.le_of_not_le hfits)]
    rfl

theorem announcedInterval_of_many
    {ticks : Nat}
    (period : Duration)
    (hmany : 2 ^ 32 ≤ ticks) :
    announcedInterval period ticks = Duration.longest :=
  if_neg (Nat.not_lt.mpr hmany)

theorem le_announcedInterval
    (hperiod : 0 < period.nanoseconds) :
    every.nanoseconds ≤
      (announcedInterval period (ticksFor period.nanoseconds every.nanoseconds)).nanoseconds := by
  by_cases hfew : ticksFor period.nanoseconds every.nanoseconds < 2 ^ 32
  · rw [nanoseconds_announcedInterval period hfew]
    exact le_min (le_mul_ticksFor hperiod) every.le_longest
  · rw [announcedInterval_of_many period (Nat.le_of_not_lt hfew)]
    exact every.le_longest

theorem announcedInterval_lt
    (hperiod : 0 < period.nanoseconds)
    (hevery : 0 < every.nanoseconds)
    (hfew : ticksFor period.nanoseconds every.nanoseconds < 2 ^ 32) :
    (announcedInterval period (ticksFor period.nanoseconds every.nanoseconds)).nanoseconds <
      every.nanoseconds + period.nanoseconds := by
  rw [nanoseconds_announcedInterval period hfew]
  exact Nat.lt_of_le_of_lt (min_le_left _ _) (mul_ticksFor_lt hperiod hevery)

/-- What is cut off stays longer than any interval but the longest. -/
theorem announcedInterval_eq_iff
    (hfew : ticksFor period.nanoseconds every.nanoseconds < 2 ^ 32)
    (hshorter : every ≠ Duration.longest) :
    announcedInterval period (ticksFor period.nanoseconds every.nanoseconds) = every ↔
      period.nanoseconds * ticksFor period.nanoseconds every.nanoseconds = every.nanoseconds := by
  have hbelow : every.nanoseconds ≠ longestNanoseconds := by
    rw [Ne, Duration.eq_iff] at hshorter
    exact hshorter
  have hlongest := every.le_longest
  rw [Duration.eq_iff, nanoseconds_announcedInterval period hfew]
  omega

def roundingWarning (name : String) (every effective : Duration) : LogEvent :=
  .warn "interval is not a multiple of the tick period, rounding up"
    [("task", name), ("requested", every.display), ("effective", effective.display)]

def announcement (name : String) (effective : Duration) : LogEvent :=
  .info "task scheduled" [("task", name), ("every", effective.display)]

theorem registrationEvents_eq
    (period : Duration) (name : String) (every : Duration) :
    let effective := announcedInterval period (ticksFor period.nanoseconds every.nanoseconds)
    registrationEvents period name every =
      (if isRounded period.nanoseconds every.nanoseconds then
        [roundingWarning name every effective] else []) ++ [announcement name effective] := by
  intro effective
  unfold registrationEvents
  cases isRounded period.nanoseconds every.nanoseconds <;> rfl

end Announcement

/-! ## Announced and real intervals -/

/-- The task of a registration is dispatched by the ticks whose number since then is a
multiple of the ticks that it waits for. -/
theorem exists_registered_task
    (period : Duration) (before : List ScheduleOperation) (name : String) (every : Duration)
    (outcomes : List { outcome : RunOutcome // outcome.ends }) :
    let place := before.countP ScheduleOperation.isAdd
    let registered := (Scheduler.new period).after (before ++ [.add name every outcomes])
    ∃ task, registered.tasks[place]? = some task ∧ task.name = name ∧
      task.dueAfter.toNat =
        min (ticksFor (max period.nanoseconds 1000000) every.nanoseconds) (2 ^ 64 - 1) ∧
      ∀ after, place ∈ (registered.after after).tick.2.map Dispatch.task ↔
        task.dueAfter.toNat ∣ after.countP ScheduleOperation.isTick + 1 := by
  intro place registered
  have htask := (Scheduler.new period).registered_task before name every outcomes
  have hplace : (Scheduler.new period).tasks.length + place = place := Nat.zero_add _
  rw [hplace, new_period_nanoseconds] at htask
  refine ⟨_, htask, rfl, toNat_clampTicks _, ?_⟩
  intro after
  have hstart := inCycle_registered name (max period.nanoseconds 1000000) every.nanoseconds
  obtain ⟨later, hlater, -, hdue, hcycle⟩ := after_inCycle htask hstart after
  rw [mem_tick_places_iff hlater, hcycle.isDue_iff, hdue, Nat.zero_add]

/-- The announced interval is the time between two dispatches, cut off at the longest
duration, and the warning is given exactly if that time is not the interval that was asked
for, as long as the number of ticks fits 32 bits.  For more ticks the longest duration is
announced instead. -/
theorem announced_interval_is_spacing
    (period : Duration) (before : List ScheduleOperation) (name : String) (every : Duration)
    (outcomes : List { outcome : RunOutcome // outcome.ends }) :
    let tick := max period.nanoseconds 1000000
    let place := before.countP ScheduleOperation.isAdd
    let scheduler := (Scheduler.new period).after before
    let registered := (Scheduler.new period).after (before ++ [.add name every outcomes])
    ∃ (task : ScheduledTask) (effective : Duration) (warned : Bool),
      registered.tasks[place]? = some task ∧ task.name = name ∧
      (∀ after, place ∈ (registered.after after).tick.2.map Dispatch.task ↔
        task.dueAfter.toNat ∣ after.countP ScheduleOperation.isTick + 1) ∧
      registrationEvents scheduler.period name every =
        (if warned then [roundingWarning name every effective] else []) ++
          [announcement name effective] ∧
      every.nanoseconds ≤ effective.nanoseconds ∧
      (task.dueAfter.toNat < 2 ^ 32 →
        effective.nanoseconds = min (task.dueAfter.toNat * tick) longestNanoseconds ∧
        (0 < every.nanoseconds → effective.nanoseconds < every.nanoseconds + tick) ∧
        (warned = true ↔ task.dueAfter.toNat * tick ≠ every.nanoseconds) ∧
        (every ≠ Duration.longest → (warned = true ↔ effective ≠ every))) ∧
      (2 ^ 32 ≤ task.dueAfter.toNat →
        effective = Duration.longest ∧
        (warned = true ↔ ¬(every.nanoseconds % tick = 0 ∧ 0 < every.nanoseconds))) := by
  intro tick place scheduler registered
  have hperiod : scheduler.period.nanoseconds = tick := by
    rw [after_period, new_period_nanoseconds]
  have htick : 0 < scheduler.period.nanoseconds := by
    omega
  obtain ⟨task, htask, hname, hdue, hdispatched⟩ :=
    exists_registered_task period before name every outcomes
  have hticks : task.dueAfter.toNat =
      min (ticksFor scheduler.period.nanoseconds every.nanoseconds) (2 ^ 64 - 1) := by
    rw [hperiod]
    exact hdue
  refine ⟨task, _, _, htask, hname, hdispatched,
    registrationEvents_eq scheduler.period name every, le_announcedInterval htick, ?_, ?_⟩
  · intro hfew
    have hsame : ticksFor scheduler.period.nanoseconds every.nanoseconds =
        task.dueAfter.toNat := by
      omega
    have hnarrow : ticksFor scheduler.period.nanoseconds every.nanoseconds < 2 ^ 32 := by
      omega
    refine ⟨?_, ?_, ?_, ?_⟩
    · rw [nanoseconds_announcedInterval _ hnarrow, hsame, hperiod, Nat.mul_comm]
    · intro hevery
      rw [← hperiod]
      exact announcedInterval_lt htick hevery hnarrow
    · rw [isRounded_iff htick, hsame, hperiod, Nat.mul_comm]
    · intro hshorter
      rw [isRounded_iff htick, Ne, Ne, announcedInterval_eq_iff hnarrow hshorter]
  · intro hmany
    constructor
    · exact announcedInterval_of_many _ (by omega)
    · rw [isRounded_iff htick, Ne, mul_ticksFor_eq_iff htick, hperiod]

/-! An interval of 2^32 ticks of a millisecond, which are about fifty days. -/

def fiftyDays : Duration :=
  ⟨4294967296000000, by decide⟩

theorem announces_longest_for_fifty_days :
    ((Scheduler.new .millisecond).add "backup" fiftyDays).tasks = [⟨"backup", 4294967296, 0⟩] ∧
      4294967296 * Duration.millisecond.nanoseconds = fiftyDays.nanoseconds ∧
      registrationEvents (Scheduler.new .millisecond).period "backup" fiftyDays =
        [announcement "backup" Duration.longest] ∧
      Duration.longest ≠ fiftyDays := by
  have hrounded : isRounded (Scheduler.new .millisecond).period.nanoseconds
      fiftyDays.nanoseconds = false := by
    rfl
  have hannounced : announcedInterval (Scheduler.new .millisecond).period
      (ticksFor (Scheduler.new .millisecond).period.nanoseconds fiftyDays.nanoseconds) =
        Duration.longest :=
    announcedInterval_of_many _ (by decide)
  refine ⟨rfl, rfl, ?_, by decide⟩
  rw [registrationEvents_eq, hrounded, hannounced]
  rfl

end Scheduler
end MintWatch

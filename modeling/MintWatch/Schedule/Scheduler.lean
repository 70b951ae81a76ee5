import MintWatch.Log
import MintWatch.Schedule.Duration
/-!
# The scheduler

The scheduler counts ticks of a fixed period.  A task is due after a number of ticks,
the smallest that is not shorter than the interval it was registered with, and then
again after as many.  A tick only decides which tasks are due; their runs go on by
themselves, and are numbered in the order in which they are dispatched.
-/

namespace MintWatch

structure ScheduledTask where
  name : String
  /-- The number of ticks after which the task is due. -/
  dueAfter : UInt64
  /-- The number of ticks since the task was last due. -/
  elapsed : UInt64
deriving DecidableEq

structure Dispatch where
  task : Nat
  name : String
  run : UInt64
deriving DecidableEq

structure Scheduler where
  period : Duration
  tasks : List ScheduledTask
  nextRun : UInt64
deriving DecidableEq

namespace Scheduler

def new (period : Duration) : Scheduler :=
  ⟨period.max Duration.millisecond, [], 0⟩

def ticksFor (period every : Nat) : Nat :=
  Nat.max ((every + period - 1) / period) 1

def clampTicks (ticks : Nat) : UInt64 :=
  UInt64.ofNat (Nat.min ticks (UInt64.size - 1))

/--
The interval that is announced for a number of ticks: as many periods, or the longest
duration if the number does not fit 32 bits or the product is too long.
-/
def announcedInterval (period : Duration) (ticks : Nat) : Duration :=
  if ticks < UInt32.size then (period.times? ticks).getD Duration.longest else Duration.longest

def isRounded (period every : Nat) : Bool :=
  every % period != 0 || every == 0

def registrationEvents (period : Duration) (name : String) (every : Duration) : List LogEvent :=
  let effective := announcedInterval period (ticksFor period.nanoseconds every.nanoseconds)
  let warning : LogEvent :=
    .warn "interval is not a multiple of the tick period, rounding up"
      [("task", name), ("requested", every.display), ("effective", effective.display)]
  let announcement : LogEvent :=
    .info "task scheduled" [("task", name), ("every", effective.display)]
  if isRounded period.nanoseconds every.nanoseconds then [warning, announcement]
  else [announcement]

def add (scheduler : Scheduler) (name : String) (every : Duration) : Scheduler :=
  let ticks := ticksFor scheduler.period.nanoseconds every.nanoseconds
  { scheduler with tasks := scheduler.tasks ++ [⟨name, clampTicks ticks, 0⟩] }

/--
Advances tasks by one tick: the tasks after it and the runs of those that became due,
numbered from `run` on.  The first of the tasks has the given place.
-/
def tickTasks (place : Nat) (run : UInt64) :
    List ScheduledTask → List ScheduledTask × List Dispatch
  | [] => ([], [])
  | task :: rest =>
    let elapsed := task.elapsed + 1
    if elapsed < task.dueAfter then
      let ticked := tickTasks (place + 1) run rest
      ({ task with elapsed } :: ticked.1, ticked.2)
    else
      let ticked := tickTasks (place + 1) (run + 1) rest
      ({ task with elapsed := 0 } :: ticked.1, ⟨place, task.name, run⟩ :: ticked.2)

def runAfter (run : UInt64) (dispatched : List Dispatch) : UInt64 :=
  dispatched.foldl (fun next _ => next + 1) run

def tick (scheduler : Scheduler) : Scheduler × List Dispatch :=
  let ticked := tickTasks 0 scheduler.nextRun scheduler.tasks
  ({ scheduler with tasks := ticked.1, nextRun := runAfter scheduler.nextRun ticked.2 }, ticked.2)

def ticks : Nat → Scheduler → Scheduler × List (List Dispatch)
  | 0, scheduler => (scheduler, [])
  | count + 1, scheduler =>
    let first := scheduler.tick
    let others := ticks count first.1
    (others.1, first.2 :: others.2)

/-- One run of each task, numbered from `run` on; the first task has the given place. -/
def dispatchEach (place : Nat) (run : UInt64) : List ScheduledTask → List Dispatch
  | [] => []
  | task :: rest => ⟨place, task.name, run⟩ :: dispatchEach (place + 1) (run + 1) rest

def onceEach (scheduler : Scheduler) : Scheduler × List Dispatch :=
  let dispatched := dispatchEach 0 scheduler.nextRun scheduler.tasks
  ({ scheduler with nextRun := runAfter scheduler.nextRun dispatched }, dispatched)

/-- The number of ticks in a span of time: the first comes one period after the start. -/
def ticksWithin (scheduler : Scheduler) (span : Duration) : Nat :=
  span.nanoseconds / scheduler.period.nanoseconds

def onceEvent (scheduler : Scheduler) : LogEvent :=
  .info "running all tasks once" [("tasks", toString scheduler.tasks.length)]

def startedEvent (scheduler : Scheduler) : LogEvent :=
  .info "scheduler started"
    [("tick", scheduler.period.display), ("tasks", toString scheduler.tasks.length)]

end Scheduler

inductive RunOutcome where
  | success
  | failure (chain : List String)
  | crash
  | endless
deriving DecidableEq

def RunOutcome.ends : RunOutcome → Bool
  | .endless => false
  | _ => true

def Dispatch.report (dispatch : Dispatch) (outcome : RunOutcome) : List LogEvent :=
  let label := "task " ++ dispatch.name ++ "#" ++ toString dispatch.run.toNat
  let fields := [("task", dispatch.name), ("run", toString dispatch.run.toNat)]
  match outcome with
  | .success => []
  | .failure chain => [.error (label ++ " failed: " ++ String.intercalate ": " chain) fields]
  | .crash => [.error (label ++ " panicked") fields]
  | .endless => []

end MintWatch

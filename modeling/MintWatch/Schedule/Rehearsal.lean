import MintWatch.Schedule.Scheduler
/-!
# Rehearsals

A schedule whose tasks have prescribed outcomes, so that it can be run through without
the work behind it.  The runs of a task use its outcomes in turn, and the last one from
then on.
-/

namespace MintWatch

structure RehearsedTask where
  outcomes : List RunOutcome
  runs : Nat

namespace RehearsedTask

def nextOutcome (task : RehearsedTask) : RunOutcome :=
  match task.outcomes[task.runs]? with
  | some outcome => outcome
  | none => task.outcomes.getLastD .success

def afterRun (task : RehearsedTask) : RehearsedTask :=
  { task with runs := task.runs + 1 }

end RehearsedTask

structure Rehearsal where
  scheduler : Option Scheduler
  tasks : List RehearsedTask

/-- What running some dispatches gives: the events in order, and how many of the runs end. -/
structure Performance where
  log : List LogEvent
  ended : Nat

namespace Rehearsal

def new (period : Duration) : Rehearsal :=
  ⟨some (Scheduler.new period), []⟩

def perform : List RehearsedTask → List Dispatch → List RehearsedTask × Performance
  | tasks, [] => (tasks, ⟨[], 0⟩)
  | tasks, dispatch :: rest =>
    match tasks[dispatch.task]? with
    | none => perform tasks rest
    | some task =>
      let outcome := task.nextOutcome
      let others := perform (tasks.set dispatch.task task.afterRun) rest
      (others.1,
        ⟨dispatch.report outcome ++ others.2.log,
          (if outcome.ends then 1 else 0) + others.2.ended⟩)

def add (rehearsal : Rehearsal) (name : String) (every : Duration) (outcomes : List RunOutcome) :
    Rehearsal × List LogEvent :=
  match rehearsal.scheduler with
  | none => (rehearsal, [])
  | some scheduler =>
    (⟨some (scheduler.add name every), rehearsal.tasks ++ [⟨outcomes, 0⟩]⟩,
      Scheduler.registrationEvents scheduler.period name every)

def tick (rehearsal : Rehearsal) (count : Nat) : Rehearsal × List Nat × Performance :=
  match rehearsal.scheduler with
  | none => (rehearsal, [], ⟨[], 0⟩)
  | some scheduler =>
    let ticked := scheduler.ticks count
    let performed := perform rehearsal.tasks ticked.2.flatten
    (⟨some ticked.1, performed.1⟩, ticked.2.map List.length, performed.2)

def once (rehearsal : Rehearsal) : Rehearsal × List LogEvent :=
  match rehearsal.scheduler with
  | none => (rehearsal, [])
  | some scheduler =>
    let run := scheduler.onceEach
    let performed := perform rehearsal.tasks run.2
    (⟨some run.1, performed.1⟩, scheduler.onceEvent :: performed.2.log)

def runFor (rehearsal : Rehearsal) (span : Duration) : Rehearsal × List LogEvent :=
  match rehearsal.scheduler with
  | none => (rehearsal, [])
  | some scheduler =>
    let ticked := scheduler.ticks (scheduler.ticksWithin span)
    let performed := perform rehearsal.tasks ticked.2.flatten
    (⟨none, performed.1⟩, scheduler.startedEvent :: performed.2.log)

end Rehearsal
end MintWatch

import Mathlib
import MintWatch.Schedule.Rehearsal
import MintWatch.Proofs.Schedule.Ticks
/-!
# Dispatch histories

Tasks may be registered, ticked and all run once in any order, and their runs may return
in any way.  A task is dispatched by the ticks whose number since its registration is a
multiple of the ticks of its interval, a run of all tasks dispatches each once and moves
no counter, and the dispatches are numbered in their order.  A rehearsal of the same
operations runs each task as often as it is dispatched.
-/

namespace MintWatch

/-- An operation on a schedule. The runs of a registered task return with its outcomes. -/
inductive ScheduleOperation where
  | add (name : String) (every : Duration)
      (outcomes : List { outcome : RunOutcome // outcome.ends })
  | tick
  | once

namespace ScheduleOperation

def isAdd : ScheduleOperation → Bool
  | .add .. => true
  | _ => false

def isTick : ScheduleOperation → Bool
  | .tick => true
  | _ => false

def isOnce : ScheduleOperation → Bool
  | .once => true
  | _ => false

end ScheduleOperation

/-- An operation of a history with the runs that it dispatched. -/
structure ScheduleStep where
  operation : ScheduleOperation
  dispatched : List Dispatch

def dispatchesOf (steps : List ScheduleStep) : List Dispatch :=
  steps.flatMap ScheduleStep.dispatched

def tickDispatchesOf (steps : List ScheduleStep) : List Dispatch :=
  dispatchesOf (steps.filter (·.operation.isTick))

/-- How many of the runs are of the task at a place. -/
def countAt (place : Nat) (dispatched : List Dispatch) : Nat :=
  (dispatched.map Dispatch.task).count place

theorem dispatchesOf_append (first second : List ScheduleStep) :
    dispatchesOf (first ++ second) = dispatchesOf first ++ dispatchesOf second :=
  List.flatMap_append

theorem tickDispatchesOf_append (first second : List ScheduleStep) :
    tickDispatchesOf (first ++ second) = tickDispatchesOf first ++ tickDispatchesOf second := by
  rw [tickDispatchesOf, List.filter_append, dispatchesOf_append]
  rfl

theorem countAt_cons (place : Nat) (dispatch : Dispatch) (rest : List Dispatch) :
    countAt place (dispatch :: rest) =
      (if dispatch.task = place then 1 else 0) + countAt place rest := by
  rw [countAt, List.map_cons, List.count_cons, Nat.add_comm]
  simp only [beq_iff_eq]
  rfl

theorem countAt_append (place : Nat) (first second : List Dispatch) :
    countAt place (first ++ second) = countAt place first + countAt place second := by
  rw [countAt, List.map_append, List.count_append]
  rfl

namespace Scheduler

def act (scheduler : Scheduler) : ScheduleOperation → Scheduler × List Dispatch
  | .add name every _ => (scheduler.add name every, [])
  | .tick => scheduler.tick
  | .once => scheduler.onceEach

def after (scheduler : Scheduler) (operations : List ScheduleOperation) : Scheduler :=
  operations.foldl (fun current operation => (current.act operation).1) scheduler

def stepOf (scheduler : Scheduler) (operation : ScheduleOperation) : ScheduleStep :=
  ⟨operation, (scheduler.act operation).2⟩

def history (scheduler : Scheduler) : List ScheduleOperation → List ScheduleStep
  | [] => []
  | operation :: rest =>
    scheduler.stepOf operation :: (scheduler.act operation).1.history rest

theorem history_cons
    (scheduler : Scheduler)
    (operation : ScheduleOperation)
    (rest : List ScheduleOperation) :
    scheduler.history (operation :: rest) =
      [scheduler.stepOf operation] ++ (scheduler.act operation).1.history rest :=
  rfl

theorem after_append
    (scheduler : Scheduler)
    (first second : List ScheduleOperation) :
    scheduler.after (first ++ second) = (scheduler.after first).after second :=
  List.foldl_append

/-! ## What an operation leaves -/

@[simp] theorem act_period (scheduler : Scheduler) (operation : ScheduleOperation) :
    (scheduler.act operation).1.period = scheduler.period := by
  cases operation <;> rfl

theorem act_length (scheduler : Scheduler) (operation : ScheduleOperation) :
    (scheduler.act operation).1.tasks.length =
      scheduler.tasks.length + [operation].countP ScheduleOperation.isAdd := by
  cases operation with
  | add name every outcomes => exact List.length_append
  | tick =>
      change scheduler.tick.1.tasks.length = _
      rw [tick_tasks, List.length_map]
      rfl
  | once => rfl

theorem act_inCycle
    {scheduler : Scheduler}
    {place ticks : Nat}
    {task : ScheduledTask}
    (htask : scheduler.tasks[place]? = some task)
    (hcycle : task.InCycle ticks)
    (operation : ScheduleOperation) :
    ∃ later, (scheduler.act operation).1.tasks[place]? = some later ∧
      later.name = task.name ∧ later.dueAfter = task.dueAfter ∧
      later.InCycle (ticks + [operation].countP ScheduleOperation.isTick) := by
  cases operation with
  | add name every outcomes =>
      have hplace : place < scheduler.tasks.length :=
        (List.getElem?_eq_some_iff.1 htask).1
      exact ⟨task, (List.getElem?_append_left hplace).trans htask, rfl, rfl, hcycle⟩
  | tick =>
      refine ⟨task.advance, ?_, rfl, rfl, hcycle.advance⟩
      change scheduler.tick.1.tasks[place]? = _
      rw [tick_tasks, List.getElem?_map, htask]
      rfl
  | once => exact ⟨task, htask, rfl, rfl, hcycle⟩

theorem act_numbered (scheduler : Scheduler) (operation : ScheduleOperation) :
    NumberedFrom scheduler.nextRun (scheduler.act operation).2 ∧
      (scheduler.act operation).1.nextRun =
        scheduler.nextRun + UInt64.ofNat (scheduler.act operation).2.length := by
  cases operation with
  | add name every outcomes => exact ⟨rfl, (UInt64.add_zero _).symm⟩
  | tick =>
      refine ⟨?_, scheduler.tick_nextRun⟩
      change NumberedFrom _ scheduler.tick.2
      rw [tick_dispatched]
      exact numberedFrom_numberedRuns _ _
  | once =>
      refine ⟨?_, scheduler.onceEach_nextRun⟩
      change NumberedFrom _ scheduler.onceEach.2
      rw [onceEach_dispatched]
      exact numberedFrom_numberedRuns _ _

/-- An operation dispatches a task if its ticks complete a cycle of the task. -/
theorem count_tickDispatches_stepOf
    {scheduler : Scheduler}
    {place ticks : Nat}
    {task : ScheduledTask}
    (htask : scheduler.tasks[place]? = some task)
    (hcycle : task.InCycle ticks)
    (operation : ScheduleOperation) :
    ticks / task.dueAfter.toNat +
        countAt place (tickDispatchesOf [scheduler.stepOf operation]) =
      (ticks + [operation].countP ScheduleOperation.isTick) / task.dueAfter.toNat := by
  cases operation with
  | add name every outcomes => rfl
  | tick =>
      have hcount : countAt place (tickDispatchesOf [scheduler.stepOf .tick]) =
          if task.dueAfter.toNat ∣ ticks + 1 then 1 else 0 := by
        change countAt place (scheduler.tick.2 ++ []) = _
        rw [List.append_nil, countAt, count_tick_places htask]
        exact if_congr hcycle.isDue_iff rfl rfl
      rw [hcount]
      exact Nat.succ_div.symm
  | once => rfl

theorem count_dispatches_stepOf
    {scheduler : Scheduler}
    {place : Nat}
    (hplace : place < scheduler.tasks.length)
    (operation : ScheduleOperation) :
    countAt place (dispatchesOf [scheduler.stepOf operation]) =
      countAt place (tickDispatchesOf [scheduler.stepOf operation]) +
        [operation].countP ScheduleOperation.isOnce := by
  cases operation with
  | add name every outcomes => rfl
  | tick => rfl
  | once =>
      change countAt place (scheduler.onceEach.2 ++ []) = 1
      rw [List.append_nil, countAt, count_onceEach_places hplace]

/-! ## Whole histories -/

@[simp] theorem after_period (scheduler : Scheduler) (operations : List ScheduleOperation) :
    (scheduler.after operations).period = scheduler.period := by
  induction operations generalizing scheduler with
  | nil => rfl
  | cons operation rest ih => exact (ih _).trans (scheduler.act_period operation)

theorem after_length (scheduler : Scheduler) (operations : List ScheduleOperation) :
    (scheduler.after operations).tasks.length =
      scheduler.tasks.length + operations.countP ScheduleOperation.isAdd := by
  induction operations generalizing scheduler with
  | nil => rfl
  | cons operation rest ih =>
      calc
        ((scheduler.act operation).1.after rest).tasks.length =
            scheduler.tasks.length + [operation].countP ScheduleOperation.isAdd +
              rest.countP ScheduleOperation.isAdd := by
          rw [ih, act_length]
        _ = scheduler.tasks.length +
            ([operation] ++ rest).countP ScheduleOperation.isAdd := by
          rw [List.countP_append, Nat.add_assoc]

theorem history_numbered (scheduler : Scheduler) (operations : List ScheduleOperation) :
    NumberedFrom scheduler.nextRun (dispatchesOf (scheduler.history operations)) := by
  induction operations generalizing scheduler with
  | nil => rfl
  | cons operation rest ih =>
      -- The next number is kept in the scheduler, whichever operation has given out the last one.
      have hstep := scheduler.act_numbered operation
      refine hstep.1.append ?_
      rw [← hstep.2]
      exact ih _

theorem after_inCycle
    {scheduler : Scheduler}
    {place ticks : Nat}
    {task : ScheduledTask}
    (htask : scheduler.tasks[place]? = some task)
    (hcycle : task.InCycle ticks)
    (operations : List ScheduleOperation) :
    ∃ later, (scheduler.after operations).tasks[place]? = some later ∧
      later.name = task.name ∧ later.dueAfter = task.dueAfter ∧
      later.InCycle (ticks + operations.countP ScheduleOperation.isTick) := by
  induction operations generalizing scheduler ticks task with
  | nil => exact ⟨task, htask, rfl, rfl, hcycle⟩
  | cons operation rest ih =>
      obtain ⟨next, hnext, hname, hdue, hturn⟩ := act_inCycle htask hcycle operation
      obtain ⟨later, hlater, hname', hdue', hturn'⟩ := ih hnext hturn
      refine ⟨later, hlater, hname'.trans hname, hdue'.trans hdue, ?_⟩
      rw [Nat.add_assoc, ← List.countP_append] at hturn'
      exact hturn'

/--
The ticks of a history dispatch a task once for each multiple of the ticks of its interval
that the number of ticks since its registration reaches.
-/
theorem count_tickDispatches
    {scheduler : Scheduler}
    {place ticks : Nat}
    {task : ScheduledTask}
    (htask : scheduler.tasks[place]? = some task)
    (hcycle : task.InCycle ticks)
    (operations : List ScheduleOperation) :
    ticks / task.dueAfter.toNat +
        countAt place (tickDispatchesOf (scheduler.history operations)) =
      (ticks + operations.countP ScheduleOperation.isTick) / task.dueAfter.toNat := by
  induction operations generalizing scheduler ticks task with
  | nil => rfl
  | cons operation rest ih =>
      -- The rest of the history starts in the middle of a cycle, so the ticks before it are
      -- carried along in the quotient.
      obtain ⟨next, hnext, -, hdue, hturn⟩ := act_inCycle htask hcycle operation
      have hstep := count_tickDispatches_stepOf htask hcycle operation
      have hrest := ih hnext hturn
      rw [hdue, ← hstep, Nat.add_assoc, Nat.add_assoc, ← List.countP_append] at hrest
      rw [history_cons, tickDispatchesOf_append, countAt_append]
      exact hrest

/-- Every task is dispatched once more by each run of all tasks. -/
theorem count_dispatches
    {scheduler : Scheduler}
    {place : Nat}
    (hplace : place < scheduler.tasks.length)
    (operations : List ScheduleOperation) :
    countAt place (dispatchesOf (scheduler.history operations)) =
      countAt place (tickDispatchesOf (scheduler.history operations)) +
        operations.countP ScheduleOperation.isOnce := by
  induction operations generalizing scheduler with
  | nil => rfl
  | cons operation rest ih =>
      have hlater : place < (scheduler.act operation).1.tasks.length := by
        rw [act_length]
        exact Nat.lt_add_right _ hplace
      calc
        countAt place (dispatchesOf (scheduler.history (operation :: rest))) =
            countAt place (dispatchesOf [scheduler.stepOf operation]) +
              countAt place (dispatchesOf ((scheduler.act operation).1.history rest)) := by
          rw [history_cons, dispatchesOf_append, countAt_append]
        _ = countAt place (tickDispatchesOf [scheduler.stepOf operation]) +
              [operation].countP ScheduleOperation.isOnce +
            (countAt place (tickDispatchesOf ((scheduler.act operation).1.history rest)) +
              rest.countP ScheduleOperation.isOnce) := by
          rw [count_dispatches_stepOf hplace, ih hlater]
        _ = countAt place (tickDispatchesOf (scheduler.history (operation :: rest))) +
            ([operation] ++ rest).countP ScheduleOperation.isOnce := by
          rw [history_cons, tickDispatchesOf_append, countAt_append, List.countP_append]
          omega

end Scheduler
/-! ## Rehearsals -/

namespace RehearsedTask

def afterRuns (task : RehearsedTask) (count : Nat) : RehearsedTask :=
  { task with runs := task.runs + count }

end RehearsedTask

namespace Rehearsal

def play (rehearsal : Rehearsal) : ScheduleOperation → Rehearsal
  | .add name every outcomes => (rehearsal.add name every (outcomes.map Subtype.val)).1
  | .tick => (rehearsal.tick 1).1
  | .once => rehearsal.once.1

def playAll (rehearsal : Rehearsal) (operations : List ScheduleOperation) : Rehearsal :=
  operations.foldl play rehearsal

/-- The rehearsal runs the tasks of the scheduler, each at its place. -/
structure Follows (rehearsal : Rehearsal) (scheduler : Scheduler) : Prop where
  scheduler_eq : rehearsal.scheduler = some scheduler
  length_eq : rehearsal.tasks.length = scheduler.tasks.length

/-- A task runs as often as it is dispatched, whatever its runs return. -/
theorem getElem?_perform
    (tasks : List RehearsedTask)
    (dispatched : List Dispatch)
    (place : Nat) :
    (perform tasks dispatched).1[place]? =
      tasks[place]?.map (·.afterRuns (countAt place dispatched)) := by
  induction dispatched generalizing tasks with
  | nil => exact Option.map_id'.symm
  | cons dispatch rest ih =>
      rw [perform, countAt_cons]
      cases htask : tasks[dispatch.task]? with
      | none =>
          simp only [ih]
          by_cases hplace : dispatch.task = place
          · subst hplace
            rw [htask]
            rfl
          · rw [if_neg hplace, Nat.zero_add]
      | some task =>
          simp only [ih]
          by_cases hplace : dispatch.task = place
          · subst hplace
            have hbound : dispatch.task < tasks.length := (List.getElem?_eq_some_iff.1 htask).1
            rw [List.getElem?_set_self hbound, htask, if_pos rfl]
            simp only [Option.map_some, RehearsedTask.afterRuns, RehearsedTask.afterRun,
              Nat.add_assoc]
          · rw [List.getElem?_set_ne hplace, if_neg hplace, Nat.zero_add]

theorem length_perform (tasks : List RehearsedTask) (dispatched : List Dispatch) :
    (perform tasks dispatched).1.length = tasks.length := by
  induction dispatched generalizing tasks with
  | nil => rfl
  | cons dispatch rest ih =>
      rw [perform]
      cases tasks[dispatch.task]? with
      | none => exact ih tasks
      | some task => exact (ih _).trans List.length_set

theorem Follows.play_tick
    {rehearsal : Rehearsal}
    {scheduler : Scheduler}
    (hfollows : rehearsal.Follows scheduler) :
    rehearsal.play .tick =
      ⟨some scheduler.tick.1, (perform rehearsal.tasks scheduler.tick.2).1⟩ := by
  simp only [play, tick, hfollows.scheduler_eq, Scheduler.ticks, List.flatten_cons,
    List.flatten_nil, List.append_nil]

theorem Follows.play_once
    {rehearsal : Rehearsal}
    {scheduler : Scheduler}
    (hfollows : rehearsal.Follows scheduler) :
    rehearsal.play .once =
      ⟨some scheduler.onceEach.1, (perform rehearsal.tasks scheduler.onceEach.2).1⟩ := by
  simp only [play, once, hfollows.scheduler_eq]

theorem Follows.play_add
    {rehearsal : Rehearsal}
    {scheduler : Scheduler}
    (hfollows : rehearsal.Follows scheduler)
    (name : String)
    (every : Duration)
    (outcomes : List { outcome : RunOutcome // outcome.ends }) :
    rehearsal.play (.add name every outcomes) =
      ⟨some (scheduler.add name every),
        rehearsal.tasks ++ [⟨outcomes.map Subtype.val, 0⟩]⟩ := by
  simp only [play, add, hfollows.scheduler_eq]

theorem Follows.play
    {rehearsal : Rehearsal}
    {scheduler : Scheduler}
    (hfollows : rehearsal.Follows scheduler)
    (operation : ScheduleOperation) :
    (rehearsal.play operation).Follows (scheduler.act operation).1 := by
  have hlength := scheduler.act_length operation
  rw [← hfollows.length_eq] at hlength
  cases operation with
  | add name every outcomes =>
      rw [hfollows.play_add]
      exact ⟨rfl, List.length_append.trans hlength.symm⟩
  | tick =>
      rw [hfollows.play_tick]
      exact ⟨rfl, (length_perform _ _).trans hlength.symm⟩
  | once =>
      rw [hfollows.play_once]
      exact ⟨rfl, (length_perform _ _).trans hlength.symm⟩

theorem Follows.play_task
    {rehearsal : Rehearsal}
    {scheduler : Scheduler}
    {place : Nat}
    {task : RehearsedTask}
    (hfollows : rehearsal.Follows scheduler)
    (htask : rehearsal.tasks[place]? = some task)
    (operation : ScheduleOperation) :
    (rehearsal.play operation).tasks[place]? =
      some (task.afterRuns (countAt place (dispatchesOf [scheduler.stepOf operation]))) := by
  have hbound : place < rehearsal.tasks.length := (List.getElem?_eq_some_iff.1 htask).1
  cases operation with
  | add name every outcomes =>
      rw [hfollows.play_add]
      exact (List.getElem?_append_left hbound).trans htask
  | tick =>
      rw [hfollows.play_tick]
      simp only [getElem?_perform, htask, Option.map_some]
      rw [← List.append_nil scheduler.tick.2]
      rfl
  | once =>
      rw [hfollows.play_once]
      simp only [getElem?_perform, htask, Option.map_some]
      rw [← List.append_nil scheduler.onceEach.2]
      rfl

theorem Follows.playAll
    {rehearsal : Rehearsal}
    {scheduler : Scheduler}
    (hfollows : rehearsal.Follows scheduler)
    (operations : List ScheduleOperation) :
    (rehearsal.playAll operations).Follows (scheduler.after operations) := by
  induction operations generalizing rehearsal scheduler with
  | nil => exact hfollows
  | cons operation rest ih => exact ih (hfollows.play operation)

theorem Follows.playAll_task
    {rehearsal : Rehearsal}
    {scheduler : Scheduler}
    {place : Nat}
    {task : RehearsedTask}
    (hfollows : rehearsal.Follows scheduler)
    (htask : rehearsal.tasks[place]? = some task)
    (operations : List ScheduleOperation) :
    (rehearsal.playAll operations).tasks[place]? =
      some (task.afterRuns (countAt place (dispatchesOf (scheduler.history operations)))) := by
  induction operations generalizing rehearsal scheduler task with
  | nil => exact htask
  | cons operation rest ih =>
      have hnext := ih (hfollows.play operation) (hfollows.play_task htask operation)
      rw [Scheduler.history_cons, dispatchesOf_append, countAt_append]
      refine hnext.trans ?_
      simp only [RehearsedTask.afterRuns, Nat.add_assoc]

theorem follows_new (period : Duration) :
    (new period).Follows (Scheduler.new period) :=
  ⟨rfl, rfl⟩

end Rehearsal
/-! ## The schedule in closed form -/

theorem Scheduler.new_period_nanoseconds (period : Duration) :
    (Scheduler.new period).period.nanoseconds = max period.nanoseconds 1000000 := by
  change (if period.nanoseconds ≤ 1000000 then Duration.millisecond else period).nanoseconds = _
  split
  · rename_i hshort
    exact (Nat.max_eq_right hshort).symm
  · rename_i hlong
    exact (Nat.max_eq_left (Nat.le_of_not_le hlong)).symm

theorem NumberedFrom.toNat_run
    {dispatched : List Dispatch}
    (hnumbered : NumberedFrom 0 dispatched) :
    dispatched.map (·.run.toNat) = (List.range dispatched.length).map (· % 2 ^ 64) := by
  have hnumbers := congrArg (List.map UInt64.toNat) hnumbered
  rw [List.map_map, List.map_map] at hnumbers
  refine hnumbers.trans (List.map_congr_left fun number _ => ?_)
  rw [Function.comp_apply, UInt64.zero_add]
  exact UInt64.toNat_ofNat

/-- A new task stands behind those that were registered before, at the start of its cycle. -/
theorem Scheduler.registered_task
    (scheduler : Scheduler)
    (before : List ScheduleOperation)
    (name : String)
    (every : Duration)
    (outcomes : List { outcome : RunOutcome // outcome.ends }) :
    ((scheduler.after (before ++ [.add name every outcomes])).tasks)[
        scheduler.tasks.length + before.countP ScheduleOperation.isAdd]? =
      some ⟨name, clampTicks (ticksFor scheduler.period.nanoseconds every.nanoseconds), 0⟩ := by
  rw [after_append, ← after_length]
  change ((scheduler.after before).add name every).tasks[_]? = _
  rw [add_tasks, List.getElem?_concat_length, after_period]

theorem Rehearsal.registered_task
    (period : Duration)
    (before : List ScheduleOperation)
    (name : String)
    (every : Duration)
    (outcomes : List { outcome : RunOutcome // outcome.ends }) :
    ((new period).playAll (before ++ [.add name every outcomes])).tasks[
        before.countP ScheduleOperation.isAdd]? =
      some ⟨outcomes.map Subtype.val, 0⟩ := by
  have hfollows := (follows_new period).playAll before
  have hlength : ((new period).playAll before).tasks.length =
      before.countP ScheduleOperation.isAdd := by
    rw [hfollows.length_eq, Scheduler.after_length]
    exact Nat.zero_add _
  rw [playAll, List.foldl_append]
  change (((new period).playAll before).play (.add name every outcomes)).tasks[_]? = _
  rw [hfollows.play_add, ← hlength]
  exact List.getElem?_concat_length

theorem dispatches_in_closed_form
    (period : Duration) :
    (∀ operations : List ScheduleOperation,
      let scheduler := (Scheduler.new period).after operations
      let dispatched := dispatchesOf ((Scheduler.new period).history operations)
      ((Rehearsal.new period).playAll operations).scheduler = some scheduler ∧
      dispatched.map (·.run.toNat) = (List.range dispatched.length).map (· % 2 ^ 64) ∧
      (dispatched.length ≤ 2 ^ 64 →
        dispatched.map (·.run.toNat) = List.range dispatched.length) ∧
      (scheduler.tick.2.map Dispatch.task).Pairwise (· < ·) ∧
      (∀ dispatch ∈ scheduler.tick.2,
        (scheduler.tasks[dispatch.task]?).map ScheduledTask.name = some dispatch.name) ∧
      scheduler.onceEach.2.map Dispatch.task = List.range scheduler.tasks.length ∧
      scheduler.onceEach.2.map Dispatch.name = scheduler.tasks.map ScheduledTask.name ∧
      scheduler.onceEach.1.tasks = scheduler.tasks) ∧
    (∀ (before after : List ScheduleOperation) (name : String) (every : Duration)
        (outcomes : List { outcome : RunOutcome // outcome.ends }),
      let place := before.countP ScheduleOperation.isAdd
      let ticks := after.countP ScheduleOperation.isTick
      let registered := (Scheduler.new period).after (before ++ [.add name every outcomes])
      let scheduler := registered.after after
      ∃ task rehearsed,
        scheduler.tasks[place]? = some task ∧
        task.name = name ∧
        task.dueAfter.toNat =
          min (max 1 ⌈(every.nanoseconds : ℚ) / (max period.nanoseconds 1000000 : ℕ)⌉₊)
            (2 ^ 64 - 1) ∧
        task.elapsed.toNat = ticks % task.dueAfter.toNat ∧
        (task.elapsed + 1).toNat = task.elapsed.toNat + 1 ∧
        (place ∈ scheduler.tick.2.map Dispatch.task ↔ task.dueAfter.toNat ∣ ticks + 1) ∧
        countAt place (tickDispatchesOf (registered.history after)) =
          ticks / task.dueAfter.toNat ∧
        ((Rehearsal.new period).playAll
            (before ++ [.add name every outcomes] ++ after)).tasks[place]? = some rehearsed ∧
        rehearsed.outcomes = outcomes.map Subtype.val ∧
        rehearsed.runs =
          ticks / task.dueAfter.toNat + after.countP ScheduleOperation.isOnce) := by
  constructor
  · intro operations scheduler dispatched
    have hnumbers : dispatched.map (·.run.toNat) =
        (List.range dispatched.length).map (· % 2 ^ 64) :=
      ((Scheduler.new period).history_numbered operations).toNat_run
    refine ⟨((Rehearsal.follows_new period).playAll operations).scheduler_eq, hnumbers, ?_,
      scheduler.tick_places_ascending, fun _ => Scheduler.tick_name_of_mem,
      scheduler.onceEach_places, scheduler.onceEach_names, rfl⟩
    intro hfew
    rw [hnumbers]
    refine (List.map_congr_left fun number hnumber => ?_).trans (List.map_id _)
    exact Nat.mod_eq_of_lt ((List.mem_range.1 hnumber).trans_le hfew)
  · intro before after name every outcomes place ticks registered scheduler
    have hplace := (Scheduler.new period).registered_task before name every outcomes
    rw [show (Scheduler.new period).tasks.length + before.countP ScheduleOperation.isAdd = place
      from Nat.zero_add _] at hplace
    have hstart := Scheduler.inCycle_registered name
      (Scheduler.new period).period.nanoseconds every.nanoseconds
    obtain ⟨task, htask, hname, hdue, hcycle⟩ := Scheduler.after_inCycle hplace hstart after
    have hticks := Scheduler.count_tickDispatches hplace hstart after
    rw [← hdue, Nat.zero_div, Nat.zero_add, Nat.zero_add] at hticks
    rw [Nat.zero_add] at hcycle
    have hall := Scheduler.count_dispatches (List.getElem?_eq_some_iff.1 hplace).1 after
    have hrehearsed := ((Rehearsal.follows_new period).playAll _).playAll_task
      (Rehearsal.registered_task period before name every outcomes) after
    rw [hall, hticks] at hrehearsed
    let runs := ticks / task.dueAfter.toNat + after.countP ScheduleOperation.isOnce
    refine ⟨task, ⟨outcomes.map Subtype.val, 0 + runs⟩, htask, hname, ?_,
      hcycle.elapsed_eq, hcycle.elapsed_succ, ?_, hticks, ?_, rfl, Nat.zero_add _⟩
    · rw [hdue, Scheduler.toNat_clampTicks, Scheduler.new_period_nanoseconds,
        Scheduler.ticksFor_eq_ceil]
      omega
    · exact (Scheduler.mem_tick_places_iff htask).trans hcycle.isDue_iff
    · rw [Rehearsal.playAll, List.foldl_append]
      exact hrehearsed

/-! ## An interval that is rounded up -/

section UnalignedInterval

def fiveSeconds : Duration :=
  Duration.ofSeconds 5

/-- Twelve seconds are three ticks of five seconds, counted from the second tick on. -/
def unalignedSchedule : List ScheduleOperation :=
  [.add "aligned" fiveSeconds [], .tick,
    .add "unaligned" (Duration.ofSeconds 12) [⟨.failure ["boom"], rfl⟩, ⟨.crash, rfl⟩],
    .tick, .once, .tick, .tick, .tick]

theorem dispatches_in_closed_form_unaligned :
    let dispatched := dispatchesOf ((Scheduler.new fiveSeconds).history unalignedSchedule)
    dispatched.length ≤ 2 ^ 64 ∧ dispatched.map (·.run.toNat) = List.range 8 ∧
      dispatched.map Dispatch.task = [0, 0, 0, 1, 0, 0, 1, 0] := by
  have hfew : (dispatchesOf ((Scheduler.new fiveSeconds).history unalignedSchedule)).length ≤
      2 ^ 64 := by
    decide
  exact ⟨hfew,
    ((dispatches_in_closed_form fiveSeconds).1 unalignedSchedule).2.2.1 hfew, by decide⟩

end UnalignedInterval

end MintWatch

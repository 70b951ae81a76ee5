import Mathlib
import MintWatch.Proofs.Lists
import MintWatch.Schedule.Scheduler
/-!
# One tick

What a tick does to the tasks is said task by task: each advances by itself, and the
runs that a tick dispatches are those of the tasks that are due, at their places and
numbered in that order.  A task that has not overrun its interval stays in a cycle of as
many ticks as the interval has; the number of ticks after which it is due is the interval
divided by the period, rounded up.
-/

namespace MintWatch

/-! ## The cycle of a task -/

namespace ScheduledTask

def IsDue (task : ScheduledTask) : Prop :=
  ¬task.elapsed + 1 < task.dueAfter

instance (task : ScheduledTask) : Decidable task.IsDue :=
  inferInstanceAs (Decidable (¬_))

def advance (task : ScheduledTask) : ScheduledTask :=
  { task with elapsed := if task.IsDue then 0 else task.elapsed + 1 }

theorem advance_dueAfter (task : ScheduledTask) :
    task.advance.dueAfter = task.dueAfter :=
  rfl

/-- The task stands where its cycle is after a number of ticks. -/
structure InCycle (task : ScheduledTask) (ticks : Nat) : Prop where
  due_pos : 0 < task.dueAfter.toNat
  elapsed_eq : task.elapsed.toNat = ticks % task.dueAfter.toNat

/-- A counter below the number of ticks it is compared with has room for one more. -/
theorem InCycle.elapsed_succ
    {task : ScheduledTask}
    {ticks : Nat}
    (hcycle : task.InCycle ticks) :
    (task.elapsed + 1).toNat = task.elapsed.toNat + 1 := by
  have hbelow : task.elapsed.toNat < task.dueAfter.toNat := by
    rw [hcycle.elapsed_eq]
    exact Nat.mod_lt _ hcycle.due_pos
  have hbound : task.dueAfter.toNat < 2 ^ 64 := task.dueAfter.toNat_lt
  rw [UInt64.toNat_add, UInt64.toNat_one]
  exact Nat.mod_eq_of_lt (by omega)

theorem InCycle.isDue_iff
    {task : ScheduledTask}
    {ticks : Nat}
    (hcycle : task.InCycle ticks) :
    task.IsDue ↔ task.dueAfter.toNat ∣ ticks + 1 := by
  have hrest := Nat.mod_lt ticks hcycle.due_pos
  rw [IsDue, UInt64.lt_iff_toNat_lt, hcycle.elapsed_succ, hcycle.elapsed_eq,
    Nat.dvd_iff_mod_eq_zero, ← Nat.mod_add_mod]
  constructor
  · intro hdue
    have hlast : ticks % task.dueAfter.toNat + 1 = task.dueAfter.toNat := by omega
    rw [hlast, Nat.mod_self]
  · intro hzero hearly
    rw [Nat.mod_eq_of_lt hearly] at hzero
    omega

theorem InCycle.advance
    {task : ScheduledTask}
    {ticks : Nat}
    (hcycle : task.InCycle ticks) :
    task.advance.InCycle (ticks + 1) := by
  refine ⟨hcycle.due_pos, ?_⟩
  rw [advance_dueAfter]
  by_cases hdue : task.IsDue
  · have hturn : (ticks + 1) % task.dueAfter.toNat = 0 :=
      Nat.mod_eq_zero_of_dvd (hcycle.isDue_iff.1 hdue)
    rw [hturn, ScheduledTask.advance, if_pos hdue]
    rfl
  · have hearly : ticks % task.dueAfter.toNat + 1 < task.dueAfter.toNat := by
      rw [IsDue, not_not, UInt64.lt_iff_toNat_lt, hcycle.elapsed_succ,
        hcycle.elapsed_eq] at hdue
      exact hdue
    rw [ScheduledTask.advance, if_neg hdue, hcycle.elapsed_succ, hcycle.elapsed_eq,
      ← Nat.mod_add_mod, Nat.mod_eq_of_lt hearly]

end ScheduledTask

/-! ## Numbered runs -/

/-- Runs of some tasks, each given with its place, numbered from `run` on. -/
def numberedRuns (run : UInt64) : List (ScheduledTask × Nat) → List Dispatch
  | [] => []
  | (task, place) :: rest => ⟨place, task.name, run⟩ :: numberedRuns (run + 1) rest

/-- The runs carry the numbers from `run` on, each one more than the number before. -/
def NumberedFrom (run : UInt64) (dispatched : List Dispatch) : Prop :=
  dispatched.map Dispatch.run =
    (List.range dispatched.length).map fun number => run + UInt64.ofNat number

@[simp] theorem task_numberedRuns (run : UInt64) (due : List (ScheduledTask × Nat)) :
    (numberedRuns run due).map Dispatch.task = due.map Prod.snd := by
  induction due generalizing run with
  | nil => rfl
  | cons entry rest ih => simp only [numberedRuns, List.map_cons, ih]

@[simp] theorem name_numberedRuns (run : UInt64) (due : List (ScheduledTask × Nat)) :
    (numberedRuns run due).map Dispatch.name = due.map (·.1.name) := by
  induction due generalizing run with
  | nil => rfl
  | cons entry rest ih => simp only [numberedRuns, List.map_cons, ih]

theorem exists_of_mem_numberedRuns
    {run : UInt64}
    {due : List (ScheduledTask × Nat)}
    {dispatch : Dispatch}
    (hmem : dispatch ∈ numberedRuns run due) :
    ∃ task, (task, dispatch.task) ∈ due ∧ task.name = dispatch.name := by
  induction due generalizing run with
  | nil => exact absurd hmem (List.not_mem_nil)
  | cons entry rest ih =>
      rcases List.mem_cons.1 hmem with heq | hrest
      · subst heq
        exact ⟨entry.1, List.mem_cons_self, rfl⟩
      · obtain ⟨task, hin, hname⟩ := ih hrest
        exact ⟨task, List.mem_cons_of_mem _ hin, hname⟩

theorem NumberedFrom.cons
    {dispatch : Dispatch}
    {rest : List Dispatch}
    (hrest : NumberedFrom (dispatch.run + 1) rest) :
    NumberedFrom dispatch.run (dispatch :: rest) := by
  rw [NumberedFrom] at hrest ⊢
  rw [List.map_cons, hrest, List.length_cons, List.range_succ_eq_map, List.map_cons,
    List.map_map]
  simp only [Function.comp_def, Nat.succ_eq_add_one, ← add_ofNat_succ]
  rw [show dispatch.run + UInt64.ofNat 0 = dispatch.run from UInt64.add_zero _]

theorem numberedFrom_numberedRuns (run : UInt64) (due : List (ScheduledTask × Nat)) :
    NumberedFrom run (numberedRuns run due) := by
  induction due generalizing run with
  | nil => rfl
  | cons entry rest ih => exact NumberedFrom.cons (ih (run + 1))

theorem NumberedFrom.append
    {run : UInt64}
    {first second : List Dispatch}
    (hfirst : NumberedFrom run first)
    (hsecond : NumberedFrom (run + UInt64.ofNat first.length) second) :
    NumberedFrom run (first ++ second) := by
  rw [NumberedFrom] at hfirst hsecond ⊢
  rw [List.map_append, hfirst, hsecond, List.length_append, List.range_add, List.map_append,
    List.map_map]
  simp only [Function.comp_def, UInt64.ofNat_add, UInt64.add_assoc]

namespace Scheduler

theorem runAfter_eq (run : UInt64) (dispatched : List Dispatch) :
    runAfter run dispatched = run + UInt64.ofNat dispatched.length := by
  induction dispatched generalizing run with
  | nil => exact (UInt64.add_zero run).symm
  | cons dispatch rest ih =>
      rw [List.length_cons, ← add_ofNat_succ, ← ih (run + 1)]
      rfl

/-! ## The number of ticks of an interval -/

theorem ticksFor_eq_ceil
    {period : Nat}
    (every : Nat)
    (hperiod : 0 < period) :
    ticksFor period every = max 1 ⌈(every : ℚ) / period⌉₊ := by
  have hceil : (every + period - 1) / period = ⌈(every : ℚ) / period⌉₊ := by
    apply eq_of_forall_ge_iff
    intro bound
    rw [← Nat.ceilDiv_eq_add_pred_div, ceilDiv_le_iff_le_mul hperiod, Nat.ceil_le,
      div_le_iff₀ (by exact_mod_cast hperiod), mul_comm period bound]
    exact_mod_cast Iff.rfl
  rw [ticksFor, hceil]
  exact Nat.max_comm _ _

theorem toNat_clampTicks (ticks : Nat) :
    (clampTicks ticks).toNat = min ticks (2 ^ 64 - 1) := by
  have hbelow : min ticks (2 ^ 64 - 1) < 2 ^ 64 := by omega
  exact UInt64.toNat_ofNat_of_lt hbelow

theorem add_tasks (scheduler : Scheduler) (name : String) (every : Duration) :
    (scheduler.add name every).tasks =
      scheduler.tasks ++
        [⟨name, clampTicks (ticksFor scheduler.period.nanoseconds every.nanoseconds), 0⟩] :=
  rfl

/-- A task is registered at the start of its cycle. -/
theorem inCycle_registered (name : String) (period every : Nat) :
    (ScheduledTask.mk name (clampTicks (ticksFor period every)) 0).InCycle 0 := by
  refine ⟨?_, (Nat.zero_mod _).symm⟩
  have hone : 1 ≤ ticksFor period every := Nat.le_max_right _ 1
  rw [toNat_clampTicks]
  omega

/-! ## The parts of a tick -/

theorem tickTasks_cons_of_isDue
    (place : Nat)
    (run : UInt64)
    {task : ScheduledTask}
    (rest : List ScheduledTask)
    (hdue : task.IsDue) :
    tickTasks place run (task :: rest) =
      (task.advance :: (tickTasks (place + 1) (run + 1) rest).1,
        ⟨place, task.name, run⟩ :: (tickTasks (place + 1) (run + 1) rest).2) := by
  rw [ScheduledTask.advance, if_pos hdue]
  exact if_neg hdue

theorem tickTasks_cons_of_not_isDue
    (place : Nat)
    (run : UInt64)
    {task : ScheduledTask}
    (rest : List ScheduledTask)
    (hearly : ¬task.IsDue) :
    tickTasks place run (task :: rest) =
      (task.advance :: (tickTasks (place + 1) run rest).1,
        (tickTasks (place + 1) run rest).2) := by
  rw [ScheduledTask.advance, if_neg hearly]
  exact if_pos (not_not.1 hearly)

theorem tickTasks_tasks (place : Nat) (run : UInt64) (tasks : List ScheduledTask) :
    (tickTasks place run tasks).1 = tasks.map ScheduledTask.advance := by
  induction tasks generalizing place run with
  | nil => rfl
  | cons task rest ih =>
      by_cases hdue : task.IsDue
      · rw [tickTasks_cons_of_isDue place run rest hdue, List.map_cons, ih]
      · rw [tickTasks_cons_of_not_isDue place run rest hdue, List.map_cons, ih]

theorem tickTasks_dispatched (place : Nat) (run : UInt64) (tasks : List ScheduledTask) :
    (tickTasks place run tasks).2 =
      numberedRuns run ((tasks.zipIdx place).filter (·.1.IsDue)) := by
  induction tasks generalizing place run with
  | nil => rfl
  | cons task rest ih =>
      rw [List.zipIdx_cons]
      by_cases hdue : task.IsDue
      · rw [tickTasks_cons_of_isDue place run rest hdue,
          List.filter_cons_of_pos (by simpa using hdue), ih, numberedRuns]
      · rw [tickTasks_cons_of_not_isDue place run rest hdue,
          List.filter_cons_of_neg (by simpa using hdue), ih]

theorem dispatchEach_eq (place : Nat) (run : UInt64) (tasks : List ScheduledTask) :
    dispatchEach place run tasks = numberedRuns run (tasks.zipIdx place) := by
  induction tasks generalizing place run with
  | nil => rfl
  | cons task rest ih => rw [List.zipIdx_cons, numberedRuns, dispatchEach, ih]

theorem ascending_places (place : Nat) (tasks : List ScheduledTask) :
    ((tasks.zipIdx place).map Prod.snd).Pairwise (· < ·) := by
  rw [List.zipIdx_map_snd]
  exact List.pairwise_lt_range' _

/-! ## A tick and a run of all tasks -/

@[simp] theorem tick_tasks (scheduler : Scheduler) :
    scheduler.tick.1.tasks = scheduler.tasks.map ScheduledTask.advance :=
  tickTasks_tasks 0 scheduler.nextRun scheduler.tasks

theorem tick_dispatched (scheduler : Scheduler) :
    scheduler.tick.2 =
      numberedRuns scheduler.nextRun (scheduler.tasks.zipIdx.filter (·.1.IsDue)) :=
  tickTasks_dispatched 0 scheduler.nextRun scheduler.tasks

theorem tick_nextRun (scheduler : Scheduler) :
    scheduler.tick.1.nextRun =
      scheduler.nextRun + UInt64.ofNat scheduler.tick.2.length :=
  runAfter_eq scheduler.nextRun scheduler.tick.2

theorem onceEach_dispatched (scheduler : Scheduler) :
    scheduler.onceEach.2 = numberedRuns scheduler.nextRun scheduler.tasks.zipIdx :=
  dispatchEach_eq 0 scheduler.nextRun scheduler.tasks

theorem onceEach_nextRun (scheduler : Scheduler) :
    scheduler.onceEach.1.nextRun =
      scheduler.nextRun + UInt64.ofNat scheduler.onceEach.2.length :=
  runAfter_eq scheduler.nextRun scheduler.onceEach.2

theorem tick_places_ascending (scheduler : Scheduler) :
    (scheduler.tick.2.map Dispatch.task).Pairwise (· < ·) := by
  rw [tick_dispatched, task_numberedRuns]
  exact (ascending_places 0 scheduler.tasks).sublist (List.filter_sublist.map _)

theorem onceEach_places (scheduler : Scheduler) :
    scheduler.onceEach.2.map Dispatch.task = List.range scheduler.tasks.length := by
  rw [onceEach_dispatched, task_numberedRuns, List.zipIdx_map_snd, List.range_eq_range']

theorem onceEach_names (scheduler : Scheduler) :
    scheduler.onceEach.2.map Dispatch.name = scheduler.tasks.map ScheduledTask.name := by
  rw [onceEach_dispatched, name_numberedRuns]
  calc
    scheduler.tasks.zipIdx.map (·.1.name) =
        (scheduler.tasks.zipIdx.map Prod.fst).map ScheduledTask.name :=
      List.map_map.symm
    _ = scheduler.tasks.map ScheduledTask.name := by rw [List.zipIdx_map_fst]

theorem mem_tick_places_iff
    {scheduler : Scheduler}
    {place : Nat}
    {task : ScheduledTask}
    (htask : scheduler.tasks[place]? = some task) :
    place ∈ scheduler.tick.2.map Dispatch.task ↔ task.IsDue := by
  rw [tick_dispatched, task_numberedRuns]
  simp [List.mem_zipIdx_iff_getElem?, htask]

/-- A tick dispatches a task once if it is due, and not at all otherwise. -/
theorem count_tick_places
    {scheduler : Scheduler}
    {place : Nat}
    {task : ScheduledTask}
    (htask : scheduler.tasks[place]? = some task) :
    (scheduler.tick.2.map Dispatch.task).count place = if task.IsDue then 1 else 0 := by
  have hnodup : (scheduler.tick.2.map Dispatch.task).Nodup :=
    scheduler.tick_places_ascending.imp Nat.ne_of_lt
  rw [hnodup.count]
  exact if_congr (mem_tick_places_iff htask) rfl rfl

theorem count_onceEach_places
    {scheduler : Scheduler}
    {place : Nat}
    (hplace : place < scheduler.tasks.length) :
    (scheduler.onceEach.2.map Dispatch.task).count place = 1 := by
  rw [onceEach_places]
  exact List.count_eq_one_of_mem List.nodup_range (List.mem_range.2 hplace)

theorem tick_name_of_mem
    {scheduler : Scheduler}
    {dispatch : Dispatch}
    (hmem : dispatch ∈ scheduler.tick.2) :
    (scheduler.tasks[dispatch.task]?).map ScheduledTask.name = some dispatch.name := by
  rw [tick_dispatched] at hmem
  obtain ⟨task, hdue, hname⟩ := exists_of_mem_numberedRuns hmem
  have hentry : (task, dispatch.task) ∈ scheduler.tasks.zipIdx := (List.mem_filter.1 hdue).1
  rw [List.mem_zipIdx_iff_getElem?.1 hentry, Option.map_some, hname]

end Scheduler
end MintWatch

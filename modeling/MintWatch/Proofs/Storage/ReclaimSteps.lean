import Mathlib
import MintWatch.Proofs.Record.ObjectTable
import MintWatch.Storage.Reclaim
/-!
# Steps of a reclaim pass

What one step of a pass can do, case by case.  A step removes the row of an object only
while the row is scheduled as the pass has read it, and asks for the removal of a blob only
in the step behind that.
-/

namespace MintWatch

namespace BlobStore

variable {store : BlobStore} {reference : String}

def blob? (store : BlobStore) (reference : String) : Option Blob :=
  (store.blobs.find? fun entry => entry.1 = reference).map Prod.snd

/-- The blobs that are not taken out. -/
def without (store : BlobStore) (gone : String → Bool) : BlobStore :=
  ⟨store.blobs.filter fun entry => !gone entry.1⟩

theorem remove_eq_without
    (store : BlobStore) (reference : String) :
    store.remove reference = store.without fun other => other = reference := by
  unfold remove without
  simp only [ne_eq, decide_not]

theorem without_without
    (gone gone' : String → Bool) :
    (store.without gone).without gone' = store.without fun other => gone other || gone' other := by
  unfold without
  rw [List.filter_filter]
  congr 1
  apply List.filter_congr
  intro entry _
  rw [Bool.not_or, Bool.and_comm]

theorem without_nothing
    (store : BlobStore) :
    (store.without fun _ => false) = store := by
  unfold without
  simp

theorem blob?_without
    (gone : String → Bool) :
    (store.without gone).blob? reference =
      if gone reference then none else store.blob? reference := by
  unfold blob? without
  rw [List.find?_filter]
  by_cases hgone : gone reference = true
  · rw [if_pos hgone, Option.map_eq_none_iff, List.find?_eq_none]
    intro entry _ hentry
    simp only [Bool.not_eq_true', decide_eq_true_eq] at hentry
    rw [hentry.2, hgone] at hentry
    exact Bool.noConfusion hentry.1
  · rw [if_neg hgone]
    congr 2
    funext entry
    by_cases hentry : entry.1 = reference
    · simp [hentry, hgone]
    · simp [hentry]

end BlobStore

namespace ReclaimRun

variable {faults : ReclaimFaults} {run next : ReclaimRun} {object : StorageObject}
  {left : List StorageObject}

/-- What a step does to a run. -/
inductive Step (faults : ReclaimFaults) : ReclaimRun → ReclaimRun → Prop where
  | finish {run : ReclaimRun}
      (hstage : run.pass.stage = .deleting []) :
      Step faults run { run with pass := run.pass.finish }
  | fail {run : ReclaimRun} {object : StorageObject} {left : List StorageObject} {text : String}
      (hstage : run.pass.stage = .deleting (object :: left))
      (hfault : faults.delete = some text) :
      Step faults run { run with pass := { run.pass with stage := .failed text } }
  | keep {run : ReclaimRun} {object : StorageObject} {left : List StorageObject}
      (hstage : run.pass.stage = .deleting (object :: left))
      (hfault : faults.delete = none)
      (hother : ¬ run.table.IsScheduledAs object) :
      Step faults run { run with pass := { run.pass with stage := .deleting left } }
  | delete {run : ReclaimRun} {object : StorageObject} {left : List StorageObject}
      (hstage : run.pass.stage = .deleting (object :: left))
      (hfault : faults.delete = none)
      (hscheduled : run.table.IsScheduledAs object) :
      Step faults run
        { run with
          pass := { run.pass with stage := .removing object left }
          table := run.table.without fun row => row.cid = object.cid }
  | refuse {run : ReclaimRun} {object : StorageObject} {left : List StorageObject}
      {chain : List String}
      (hstage : run.pass.stage = .removing object left)
      (hfault : faults.refusal object.cid = some chain) :
      Step faults run
        { run with
          pass :=
            { run.pass with
              stage := .deleting left
              log := run.pass.log ++ [ReclaimPass.refusedEvent object chain] } }
  | remove {run : ReclaimRun} {object : StorageObject} {left : List StorageObject}
      (hstage : run.pass.stage = .removing object left)
      (hfault : faults.refusal object.cid = none) :
      Step faults run
        { run with
          pass := { run.pass with stage := .deleting left, removed := run.pass.removed + 1 }
          blobs := run.blobs.without fun reference => reference = object.cid }
  | rest {run : ReclaimRun}
      (hover : run.pass.stage = .done ∨ ∃ text, run.pass.stage = .failed text) :
      Step faults run run

theorem step_spec
    (faults : ReclaimFaults) (run : ReclaimRun) :
    Step faults run (step faults run) := by
  unfold step
  cases hstage : run.pass.stage with
  | deleting left =>
      cases left with
      | nil => exact Step.finish hstage
      | cons object left =>
          cases hfault : faults.delete with
          | some text => exact Step.fail hstage hfault
          | none =>
              by_cases hscheduled : run.table.IsScheduledAs object
              · simp only [ObjectTable.delete_of_isScheduledAs hscheduled, if_true]
                exact Step.delete hstage hfault hscheduled
              · simp only [ObjectTable.delete_of_not_isScheduledAs hscheduled,
                  Bool.false_eq_true, if_false]
                exact Step.keep hstage hfault hscheduled
  | removing object left =>
      cases hfault : faults.refusal object.cid with
      | some chain =>
          simp only [hfault]
          exact Step.refuse hstage hfault
      | none =>
          simp only [hfault, BlobStore.remove_eq_without]
          exact Step.remove hstage hfault
  | done => exact Step.rest (Or.inl hstage)
  | failed text => exact Step.rest (Or.inr ⟨text, hstage⟩)

theorem steps_add
    (faults : ReclaimFaults) (first second : Nat) (run : ReclaimRun) :
    steps faults (first + second) run = steps faults second (steps faults first run) := by
  induction first generalizing run with
  | zero =>
      rw [Nat.zero_add]
      rfl
  | succ first ih =>
      rw [Nat.add_right_comm]
      exact ih _

end ReclaimRun
end MintWatch

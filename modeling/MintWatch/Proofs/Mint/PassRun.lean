import Mathlib
import MintWatch.Mint.Pass
import MintWatch.Proofs.Record.ContentTable
/-!
# Runs of a verification pass

What one step of a pass can do, case by case, and what holds at every moment of a pass
that has the table to itself: the records it has not dealt with have distinct ids, and
none of them is confirmed in the table.
-/

namespace MintWatch
namespace VerifyRun

/-! ## Steps -/

section Steps

variable (verifier : Verifier) (node : Node) (faults : StoreFaults)

/-- What a step does to a run. -/
inductive Step : VerifyRun → VerifyRun → Prop where
  | finish {run : VerifyRun}
      (hstage : run.pass.stage = .asking []) :
      Step run { run with pass := run.pass.finish }
  | lose {run : VerifyRun} {record : ContentRecord} {left : List ContentRecord}
      {client : Client} {error : RpcError}
      (hstage : run.pass.stage = .asking (record :: left))
      (hverify : verifier.verify run.client node record = (client, .error error)) :
      Step run { run with pass := { run.pass with stage := .failed (.rpc error) }, client }
  | confirm {run : VerifyRun} {record : ContentRecord} {left : List ContentRecord}
      {client : Client}
      (hstage : run.pass.stage = .asking (record :: left))
      (hverify : verifier.verify run.client node record = (client, .ok .confirmed)) :
      Step run { run with pass := { run.pass with stage := .saving record.confirm left }, client }
  | reject {run : VerifyRun} {record : ContentRecord} {left : List ContentRecord}
      {client : Client} {reason : Rejection}
      (hstage : run.pass.stage = .asking (record :: left))
      (hverify : verifier.verify run.client node record = (client, .ok (.rejected reason))) :
      Step run
        { run with pass := run.pass.hear record left (.ok (.rejected reason)), client }
  | refuse {run : VerifyRun} {record : ContentRecord} {left : List ContentRecord} {text : String}
      (hstage : run.pass.stage = .saving record left)
      (hfault : faults.write = some text) :
      Step run { run with pass := { run.pass with stage := .failed (.store text) } }
  | store {run : VerifyRun} {record : ContentRecord} {left : List ContentRecord}
      (hstage : run.pass.stage = .saving record left)
      (hfault : faults.write = none) :
      Step run { run with pass := run.pass.stored record left, table := run.table.save record }
  | rest {run : VerifyRun} : Step run run

theorem step_spec
    (run : VerifyRun) :
    Step verifier node faults run (step verifier node faults run) := by
  unfold step
  cases hstage : run.pass.stage with
  | asking left =>
      cases left with
      | nil => exact Step.finish hstage
      | cons record left =>
          simp only
          rcases hverify : verifier.verify run.client node record with ⟨client, error | verdict⟩
          · exact Step.lose hstage hverify
          · cases verdict with
            | confirmed => exact Step.confirm hstage hverify
            | rejected reason => exact Step.reject hstage hverify
  | saving record left =>
      cases hfault : faults.write with
      | none => exact Step.store hstage hfault
      | some text => exact Step.refuse hstage hfault
  | done => exact Step.rest
  | failed error => exact Step.rest

/-- The moments of a run: before each of a number of steps, and after the last. -/
def trail : Nat → VerifyRun → List VerifyRun
  | 0, run => [run]
  | count + 1, run => run :: trail count (step verifier node faults run)

theorem steps_mem_trail
    (count : Nat) (run : VerifyRun) :
    steps verifier node faults count run ∈ trail verifier node faults count run := by
  induction count generalizing run with
  | zero => exact List.mem_cons_self
  | succ count ih => exact List.mem_cons_of_mem _ (ih _)

end Steps

/-! ## What is left to do -/

/-- The record whose transaction the next step asks the node for. -/
def asked? (run : VerifyRun) : Option ContentRecord :=
  match run.pass.stage with
  | .asking (record :: _) => some record
  | _ => none

/-- The records that a pass has not dealt with. -/
def remaining (run : VerifyRun) : List ContentRecord :=
  match run.pass.stage with
  | .asking left => left
  | .saving record left => record :: left
  | _ => []

theorem remaining_of_asking
    {run : VerifyRun} {left : List ContentRecord}
    (hstage : run.pass.stage = .asking left) :
    run.remaining = left := by
  unfold remaining
  rw [hstage]

theorem remaining_of_saving
    {run : VerifyRun} {record : ContentRecord} {left : List ContentRecord}
    (hstage : run.pass.stage = .saving record left) :
    run.remaining = record :: left := by
  unfold remaining
  rw [hstage]

theorem mem_remaining_of_asked?
    {run : VerifyRun} {record : ContentRecord}
    (hasked : run.asked? = some record) :
    record ∈ run.remaining := by
  unfold asked? at hasked
  unfold remaining
  split at hasked
  · rename_i first left hstage
    cases hasked
    rw [hstage]
    exact List.mem_cons_self
  · cases hasked

/-- What holds while a pass has the table to itself. -/
structure IsUndisturbed (run : VerifyRun) : Prop where
  distinct : run.remaining.Pairwise fun first second => first.id ≠ second.id
  unconfirmed : ∀ record ∈ run.remaining, run.table.confirms record.id = false
  confirming : ∀ record left, run.pass.stage = .saving record left → record.confirmed = true

theorem isUndisturbed_start
    (faults : StoreFaults) (client : Client) (table : ContentTable) :
    IsUndisturbed ⟨VerifyPass.start faults table, table, client⟩ := by
  unfold VerifyPass.start
  cases faults.read with
  | some text =>
      constructor
      · exact List.Pairwise.nil
      · intro record hmember
        cases hmember
      · intro record left hstage
        cases hstage
  | none =>
      constructor
      · apply List.Pairwise.filter
        apply table.ascending.imp
        intro first second hlt
        omega
      · intro record hmember
        obtain ⟨hfound, hopen, -⟩ := ContentTable.mem_query_awaitingConfirmation_iff.mp hmember
        unfold ContentTable.confirms
        simp only [hfound, Option.any_some, hopen]
      · intro record left hstage
        cases hstage

variable {verifier : Verifier} {node : Node} {faults : StoreFaults} {run next : VerifyRun}

theorem isUndisturbed_of_over
    (hnothing : next.remaining = [])
    (hstage : ∀ record left, next.pass.stage ≠ .saving record left) :
    next.IsUndisturbed := by
  constructor
  · rw [hnothing]
    exact List.Pairwise.nil
  · intro record hmember
    rw [hnothing] at hmember
    cases hmember
  · intro record left hsaving
    exact absurd hsaving (hstage record left)

theorem IsUndisturbed.step
    (hsound : run.IsUndisturbed)
    (hstep : Step verifier node faults run next) :
    next.IsUndisturbed := by
  have hdistinct := hsound.distinct
  have hunconfirmed := hsound.unconfirmed
  cases hstep with
  | finish hstage => exact isUndisturbed_of_over rfl fun _ _ hsaving => by cases hsaving
  | lose hstage hverify => exact isUndisturbed_of_over rfl fun _ _ hsaving => by cases hsaving
  | @confirm record left client hstage hverify =>
      rw [remaining_of_asking hstage, List.pairwise_cons] at hdistinct
      rw [remaining_of_asking hstage, List.forall_mem_cons] at hunconfirmed
      constructor
      · exact List.pairwise_cons.mpr hdistinct
      · exact List.forall_mem_cons.mpr hunconfirmed
      · intro other others hsaving
        obtain ⟨rfl, -⟩ := PassStage.saving.inj hsaving
        rfl
  | @reject record left client reason hstage hverify =>
      rw [remaining_of_asking hstage, List.pairwise_cons] at hdistinct
      rw [remaining_of_asking hstage, List.forall_mem_cons] at hunconfirmed
      constructor
      · exact hdistinct.2
      · exact hunconfirmed.2
      · intro other others hsaving
        cases hsaving
  | refuse hstage hfault => exact isUndisturbed_of_over rfl fun _ _ hsaving => by cases hsaving
  | @store record left hstage hfault =>
      rw [remaining_of_saving hstage, List.pairwise_cons] at hdistinct
      rw [remaining_of_saving hstage, List.forall_mem_cons] at hunconfirmed
      constructor
      · exact hdistinct.2
      · -- The save confirms one record, and the ids of the others are different.
        intro other hmember
        have hdiffers := hdistinct.1 other hmember
        change (run.table.save record).confirms other.id = false
        rw [ContentTable.confirms_save, hunconfirmed.2 other hmember]
        simp [hdiffers]
      · intro other others hsaving
        cases hsaving
  | rest => exact hsound

theorem IsUndisturbed.trail
    {count : Nat} {moment : VerifyRun}
    (hsound : run.IsUndisturbed)
    (hmoment : moment ∈ trail verifier node faults count run) :
    moment.IsUndisturbed := by
  induction count generalizing run with
  | zero =>
      rw [List.mem_singleton.mp hmoment]
      exact hsound
  | succ count ih =>
      rcases List.mem_cons.mp hmoment with hnow | hlater
      · rw [hnow]
        exact hsound
      · exact ih (hsound.step (step_spec verifier node faults run)) hlater

end VerifyRun
end MintWatch

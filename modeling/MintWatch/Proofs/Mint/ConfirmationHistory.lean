import Mathlib
import MintWatch.Proofs.Mint.PassRun
/-!
# Histories of the record store

Saves, deletions and passes follow each other on one table.  A stored confirmation is
never lost as long as the record is not deleted, and no pass asks about a confirmed
record or reports it again.  Reports are accounted for by confirmations: each step of a
pass that reports an id also turns its row from unconfirmed to confirmed, which can
happen once.
-/

namespace MintWatch

/-! ## Reports -/

/-- Whether an event reports that the record with an id was confirmed. -/
def LogEvent.reportsConfirmed (id : Int) (event : LogEvent) : Bool :=
  event.level = .info && event.message = "content confirmed" &&
    event.fields.contains ("record", toString id)

theorem reportsConfirmed_stored
    (id : Int) (record : ContentRecord) :
    (LogEvent.info "content confirmed" (VerifyPass.recordFields record)).reportsConfirmed id =
      decide (record.id = id) := by
  simp [LogEvent.reportsConfirmed, LogEvent.info, VerifyPass.recordFields, eq_comm]

/-- One if the stored row of an id is confirmed. -/
def ContentTable.credit (table : ContentTable) (id : Int) : Nat :=
  (table.confirms id).toNat

namespace VerifyRun

variable {verifier : Verifier} {node : Node} {faults : StoreFaults} {run next : VerifyRun}
  {id : Int}

theorem confirms_of_step
    (hstep : Step verifier node faults run next)
    (hconfirms : run.table.confirms id = true) :
    next.table.confirms id = true := by
  cases hstep with
  | store hstage hfault =>
      change (run.table.save _).confirms id = true
      rw [ContentTable.confirms_save, hconfirms, Bool.true_or]
  | finish hstage => exact hconfirms
  | lose hstage hverify => exact hconfirms
  | confirm hstage hverify => exact hconfirms
  | reject hstage hverify => exact hconfirms
  | refuse hstage hfault => exact hconfirms
  | rest => exact hconfirms

theorem report_balance_of_step
    (id : Int)
    (hsound : run.IsUndisturbed)
    (hstep : Step verifier node faults run next) :
    next.pass.log.countP (LogEvent.reportsConfirmed id) + run.table.credit id ≤
      run.pass.log.countP (LogEvent.reportsConfirmed id) + next.table.credit id := by
  cases hstep with
  | finish hstage =>
      change (run.pass.log ++ [LogEvent.info _ []]).countP _ + _ ≤ _
      rw [List.countP_append, List.countP_singleton]
      simp [LogEvent.reportsConfirmed, LogEvent.info]
  | reject hstage hverify =>
      change (run.pass.log ++ [LogEvent.warn _ _]).countP _ + _ ≤ _
      rw [List.countP_append, List.countP_singleton]
      simp [LogEvent.reportsConfirmed, LogEvent.warn]
  | @store record left hstage hfault =>
      change (run.pass.log ++ [LogEvent.info "content confirmed" _]).countP _ + _ ≤
        _ + (run.table.save record).credit id
      have hconfirmed := hsound.confirming record left hstage
      have hopen : run.table.confirms record.id = false := by
        apply hsound.unconfirmed
        rw [remaining_of_saving hstage]
        exact List.mem_cons_self
      rw [List.countP_append, List.countP_singleton, reportsConfirmed_stored]
      unfold ContentTable.credit
      rw [ContentTable.confirms_save, hconfirmed]
      by_cases hsame : record.id = id
      · rw [hsame] at hopen
        simp [hsame, hopen]
      · simp [hsame]
  | lose hstage hverify => exact le_rfl
  | confirm hstage hverify => exact le_rfl
  | refuse hstage hfault => exact le_rfl
  | rest => exact le_rfl

theorem report_balance_of_steps
    (id : Int) (count : Nat)
    (hsound : run.IsUndisturbed) :
    (steps verifier node faults count run).pass.log.countP (LogEvent.reportsConfirmed id) +
        run.table.credit id ≤
      run.pass.log.countP (LogEvent.reportsConfirmed id) +
        (steps verifier node faults count run).table.credit id := by
  induction count generalizing run with
  | zero => exact le_rfl
  | succ count ih =>
      have hstep := step_spec verifier node faults run
      have hfirst := report_balance_of_step id hsound hstep
      have hlater := ih (hsound.step hstep)
      unfold steps
      omega

theorem confirms_of_mem_trail
    {count : Nat} {moment : VerifyRun}
    (hmoment : moment ∈ trail verifier node faults count run)
    (hconfirms : run.table.confirms id = true) :
    moment.table.confirms id = true := by
  induction count generalizing run with
  | zero =>
      rw [List.mem_singleton.mp hmoment]
      exact hconfirms
  | succ count ih =>
      rcases List.mem_cons.mp hmoment with hnow | hlater
      · rw [hnow]
        exact hconfirms
      · exact ih hlater (confirms_of_step (step_spec verifier node faults run) hconfirms)

theorem confirms_steps_of_mem_trail
    {count : Nat} {moment : VerifyRun}
    (hmoment : moment ∈ trail verifier node faults count run)
    (hconfirms : moment.table.confirms id = true) :
    (steps verifier node faults count run).table.confirms id = true := by
  induction count generalizing run with
  | zero =>
      rw [List.mem_singleton.mp hmoment] at hconfirms
      exact hconfirms
  | succ count ih =>
      rcases List.mem_cons.mp hmoment with hnow | hlater
      · rw [hnow] at hconfirms
        have hnext := confirms_of_step (step_spec verifier node faults run) hconfirms
        exact confirms_of_mem_trail (steps_mem_trail verifier node faults count _) hnext
      · exact ih hlater

theorem pairwise_trail
    (count : Nat) (run : VerifyRun) :
    (trail verifier node faults count run).Pairwise fun earlier later =>
      earlier.table.confirms id = true → later.table.confirms id = true := by
  induction count generalizing run with
  | zero => exact List.pairwise_singleton _ _
  | succ count ih =>
      unfold trail
      apply List.Pairwise.cons
      · intro later hlater hconfirms
        have hnext := confirms_of_step (step_spec verifier node faults run) hconfirms
        exact confirms_of_mem_trail hlater hnext
      · exact ih _

end VerifyRun

/-! ## Histories -/

/-- An operation on the store of content records. -/
inductive StoreOperation where
  | save (record : ContentRecord)
  | delete (record : ContentRecord)
  /-- A pass from its start to its end, which may be a failure. -/
  | pass (verifier : Verifier) (node : Node) (faults : StoreFaults) (client : Client)

/-- A state of the table, with the record about which the node is asked in it. -/
structure Moment where
  table : ContentTable
  asked? : Option ContentRecord

def VerifyRun.moment (run : VerifyRun) : Moment :=
  ⟨run.table, run.asked?⟩

/-- Whether the node is asked about the record with an id. -/
def Moment.AsksFor (moment : Moment) (id : Int) : Prop :=
  ∃ record, moment.asked? = some record ∧ record.id = id

namespace StoreOperation

/-- Whether an operation leaves the record with an id in the table. -/
def Keeps (id : Int) : StoreOperation → Prop
  | .delete record => record.id ≠ id
  | _ => True

def after (table : ContentTable) : StoreOperation → ContentTable
  | .save record => table.save record
  | .delete record => (table.delete record).1
  | .pass verifier node faults client =>
    (VerifyRun.complete verifier node faults client table).table

/-- The moments of an operation, from the table it finds. -/
def moments (table : ContentTable) : StoreOperation → List Moment
  | .save _ => [⟨table, none⟩]
  | .delete _ => [⟨table, none⟩]
  | .pass verifier node faults client =>
    let pass := VerifyPass.start faults table
    (VerifyRun.trail verifier node faults (2 * pass.total + 1) ⟨pass, table, client⟩).map
      VerifyRun.moment

def log (table : ContentTable) : StoreOperation → List LogEvent
  | .pass verifier node faults client =>
    (VerifyRun.complete verifier node faults client table).pass.log
  | _ => []

/-- The moments of a history, the last one included. -/
def momentsOf : ContentTable → List StoreOperation → List Moment
  | table, [] => [⟨table, none⟩]
  | table, operation :: rest =>
    operation.moments table ++ momentsOf (operation.after table) rest

/-- What the passes of a history log. -/
def logOf : ContentTable → List StoreOperation → List LogEvent
  | _, [] => []
  | table, operation :: rest => operation.log table ++ logOf (operation.after table) rest

variable {operation : StoreOperation} {table : ContentTable} {moment : Moment} {id : Int}

theorem confirms_of_mem_moments
    (hmoment : moment ∈ operation.moments table)
    (hconfirms : table.confirms id = true) :
    moment.table.confirms id = true := by
  cases operation with
  | save record =>
      rw [List.mem_singleton.mp hmoment]
      exact hconfirms
  | delete record =>
      rw [List.mem_singleton.mp hmoment]
      exact hconfirms
  | pass verifier node faults client =>
      obtain ⟨run, hrun, rfl⟩ := List.mem_map.mp hmoment
      exact VerifyRun.confirms_of_mem_trail hrun hconfirms

theorem confirms_after
    (hkeeps : operation.Keeps id)
    (hconfirms : table.confirms id = true) :
    (operation.after table).confirms id = true := by
  cases operation with
  | save record =>
      change (table.save record).confirms id = true
      rw [ContentTable.confirms_save, hconfirms, Bool.true_or]
  | delete record =>
      change (table.delete record).1.confirms id = true
      rw [ContentTable.confirms_delete hkeeps, hconfirms]
  | pass verifier node faults client =>
      exact VerifyRun.confirms_of_mem_trail (VerifyRun.steps_mem_trail _ _ _ _ _) hconfirms

theorem confirms_after_of_mem_moments
    (hkeeps : operation.Keeps id)
    (hmoment : moment ∈ operation.moments table)
    (hconfirms : moment.table.confirms id = true) :
    (operation.after table).confirms id = true := by
  cases operation with
  | save record =>
      rw [List.mem_singleton.mp hmoment] at hconfirms
      exact confirms_after hkeeps hconfirms
  | delete record =>
      rw [List.mem_singleton.mp hmoment] at hconfirms
      exact confirms_after hkeeps hconfirms
  | pass verifier node faults client =>
      obtain ⟨run, hrun, rfl⟩ := List.mem_map.mp hmoment
      exact VerifyRun.confirms_steps_of_mem_trail hrun hconfirms

theorem not_asksFor_of_confirms
    (hmoment : moment ∈ operation.moments table)
    (hconfirms : moment.table.confirms id = true) :
    ¬ moment.AsksFor id := by
  intro hasks
  obtain ⟨record, hasked, hid⟩ := hasks
  cases operation with
  | save record =>
      rw [List.mem_singleton.mp hmoment] at hasked
      cases hasked
  | delete record =>
      rw [List.mem_singleton.mp hmoment] at hasked
      cases hasked
  | pass verifier node faults client =>
      obtain ⟨run, hrun, rfl⟩ := List.mem_map.mp hmoment
      have hsound := (VerifyRun.isUndisturbed_start faults client table).trail hrun
      have hopen := hsound.unconfirmed record (VerifyRun.mem_remaining_of_asked? hasked)
      rw [hid] at hopen
      change run.table.confirms id = true at hconfirms
      rw [hopen] at hconfirms
      cases hconfirms

theorem pairwise_moments
    (operation : StoreOperation) (table : ContentTable) (id : Int) :
    (operation.moments table).Pairwise fun earlier later =>
      earlier.table.confirms id = true → later.table.confirms id = true := by
  cases operation with
  | save record => exact List.pairwise_singleton _ _
  | delete record => exact List.pairwise_singleton _ _
  | pass verifier node faults client =>
      exact List.pairwise_map.mpr (VerifyRun.pairwise_trail _ _)

theorem report_balance_of_operation
    (table : ContentTable)
    (hkeeps : operation.Keeps id) :
    (operation.log table).countP (LogEvent.reportsConfirmed id) + table.credit id ≤
      (operation.after table).credit id := by
  cases operation with
  | save record =>
      change 0 + table.credit id ≤ (table.save record).credit id
      unfold ContentTable.credit
      rw [ContentTable.confirms_save]
      cases table.confirms id <;> simp
  | delete record =>
      change 0 + table.credit id ≤ (table.delete record).1.credit id
      unfold ContentTable.credit
      rw [ContentTable.confirms_delete hkeeps, Nat.zero_add]
  | pass verifier node faults client =>
      have hsound := VerifyRun.isUndisturbed_start faults client table
      have hempty : (VerifyPass.start faults table).log = [] := by
        unfold VerifyPass.start
        cases faults.read <;> rfl
      have hbalance :
          (VerifyRun.complete verifier node faults client table).pass.log.countP _ + _ ≤
            (VerifyPass.start faults table).log.countP _ + _ :=
        VerifyRun.report_balance_of_steps id _ hsound
      rw [hempty, List.countP_nil, Nat.zero_add] at hbalance
      exact hbalance

section Histories

variable {history : List StoreOperation}

theorem confirms_of_mem_momentsOf
    (hkept : ∀ operation ∈ history, operation.Keeps id)
    (hmoment : moment ∈ momentsOf table history)
    (hconfirms : table.confirms id = true) :
    moment.table.confirms id = true := by
  induction history generalizing table with
  | nil =>
      rw [List.mem_singleton.mp hmoment]
      exact hconfirms
  | cons operation rest ih =>
      rw [List.forall_mem_cons] at hkept
      rcases List.mem_append.mp hmoment with hnow | hlater
      · exact confirms_of_mem_moments hnow hconfirms
      · exact ih hkept.2 hlater (confirms_after hkept.1 hconfirms)

theorem pairwise_momentsOf
    (table : ContentTable)
    (hkept : ∀ operation ∈ history, operation.Keeps id) :
    (momentsOf table history).Pairwise fun earlier later =>
      earlier.table.confirms id = true → later.table.confirms id = true := by
  induction history generalizing table with
  | nil => exact List.pairwise_singleton _ _
  | cons operation rest ih =>
      rw [List.forall_mem_cons] at hkept
      apply List.pairwise_append.mpr
      refine ⟨pairwise_moments operation table id, ih _ hkept.2, ?_⟩
      intro earlier hearlier later hlater hconfirms
      have hafter := confirms_after_of_mem_moments hkept.1 hearlier hconfirms
      exact confirms_of_mem_momentsOf hkept.2 hlater hafter

theorem not_asksFor_of_mem_momentsOf
    (hmoment : moment ∈ momentsOf table history)
    (hconfirms : moment.table.confirms id = true) :
    ¬ moment.AsksFor id := by
  induction history generalizing table with
  | nil =>
      rw [List.mem_singleton.mp hmoment]
      intro hasks
      obtain ⟨record, hasked, -⟩ := hasks
      cases hasked
  | cons operation rest ih =>
      rcases List.mem_append.mp hmoment with hnow | hlater
      · exact not_asksFor_of_confirms hnow hconfirms
      · exact ih hlater

theorem report_balance_of_history
    (table : ContentTable)
    (hkept : ∀ operation ∈ history, operation.Keeps id) :
    (logOf table history).countP (LogEvent.reportsConfirmed id) + table.credit id ≤ 1 := by
  induction history generalizing table with
  | nil =>
      change 0 + table.credit id ≤ 1
      unfold ContentTable.credit
      cases table.confirms id <;> simp
  | cons operation rest ih =>
      rw [List.forall_mem_cons] at hkept
      have hnow := report_balance_of_operation table hkept.1
      have hlater := ih (operation.after table) hkept.2
      change (operation.log table ++ logOf (operation.after table) rest).countP _ + _ ≤ 1
      rw [List.countP_append]
      omega

theorem confirmation_happens_once
    (id : Int) (table : ContentTable) (history : List StoreOperation)
    (hkept : ∀ operation ∈ history, operation.Keeps id) :
    (∀ moment ∈ momentsOf table history,
        moment.table.confirms id = true → ¬ moment.AsksFor id) ∧
      (momentsOf table history).Pairwise (fun earlier later =>
        earlier.table.confirms id = true →
          later.table.confirms id = true ∧ ¬ later.AsksFor id) ∧
      (logOf table history).countP (LogEvent.reportsConfirmed id) ≤ 1 := by
  have hasks : ∀ moment ∈ momentsOf table history,
      moment.table.confirms id = true → ¬ moment.AsksFor id :=
    fun moment hmoment => not_asksFor_of_mem_momentsOf hmoment
  refine ⟨hasks, ?_, ?_⟩
  · apply (pairwise_momentsOf table hkept).imp_of_mem
    intro earlier later _ hlater hstays hconfirms
    have hconfirmed := hstays hconfirms
    exact ⟨hconfirmed, hasks later hlater hconfirmed⟩
  · have hbalance := report_balance_of_history table hkept
    omega

end Histories

/-! A record that is confirmed by a pass, saved again as it was before, and then found by
no other pass. -/

def waitingRecord : ContentRecord where
  id := 7
  ownerAddress := (Octets.zero 20).hex
  metadataRef := some "ipfs://meta"
  txHash := some "0x12"
  confirmed := false

def waitingMint : DecodedCall where
  name := "mint"
  signature := "mint(address,string)"
  arguments :=
    [⟨"address", "to", .address (Octets.zero 20)⟩, ⟨"string", "reference", .string "ipfs://meta"⟩]

/-- A pass in which every transaction is found and is the mint of the waiting record. -/
def waitingPass : StoreOperation :=
  .pass ⟨fun _ => .ok waitingMint, "mint"⟩
    (fun _ => .ok (.object
      [("result", .object
        [("hash", .string (Octets.zero 32).hex), ("from", .string (Octets.zero 20).hex),
          ("gas", .string "0x1"), ("nonce", .string "0x0"), ("input", .string "0x")])]))
    .none .fresh

def staleHistory : List StoreOperation :=
  [.save waitingRecord, waitingPass, .save waitingRecord, waitingPass]

theorem confirmation_happens_once_stale :
    (∀ operation ∈ staleHistory, operation.Keeps 7) ∧
      (momentsOf .empty staleHistory).map (fun moment => moment.table.confirms 7) =
        [false, false, false, true, true, true, true, true, true] ∧
      (momentsOf .empty staleHistory).Pairwise (fun earlier later =>
        earlier.table.confirms 7 = true →
          later.table.confirms 7 = true ∧ ¬ later.AsksFor 7) ∧
      (logOf .empty staleHistory).countP (LogEvent.reportsConfirmed 7) ≤ 1 := by
  have hkept : ∀ operation ∈ staleHistory, operation.Keeps 7 := by
    simp [staleHistory, waitingPass, Keeps]
  have hmoments :
      (momentsOf .empty staleHistory).map (fun moment => moment.table.confirms 7) =
        [false, false, false, true, true, true, true, true, true] := by
    decide +kernel
  exact ⟨hkept, hmoments, (confirmation_happens_once 7 .empty staleHistory hkept).2⟩

end StoreOperation
end MintWatch

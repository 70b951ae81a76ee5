import MintWatch.Log
import MintWatch.Record.ObjectTable
import MintWatch.Storage.Blobs
/-!
# Reclaiming storage

A reclaim pass reads the objects that are scheduled for removal, and removes those whose
time has passed: first the row, if it is still scheduled as it was read, and then, only
if the row was removed, the blob.  Like a verification pass it is a sequence of steps.
-/

namespace MintWatch

structure ReclaimFaults where
  read : Option String
  delete : Option String
  /-- The texts of the failure to remove a blob, the outermost first; none if it succeeds. -/
  refusal : String → Option (List String)

def ReclaimFaults.none : ReclaimFaults :=
  ⟨Option.none, Option.none, fun _ => Option.none⟩

inductive ReclaimStage where
  | deleting (left : List StorageObject)
  | removing (object : StorageObject) (left : List StorageObject)
  | done
  | failed (text : String)

structure ReclaimPass where
  stage : ReclaimStage
  total : Nat
  removed : Nat
  log : List LogEvent

namespace ReclaimPass

def start (faults : ReclaimFaults) (now : Timestamp) (table : ObjectTable) : ReclaimPass :=
  match faults.read with
  | some text => ⟨.failed text, 0, 0, []⟩
  | none =>
    let scheduled := table.query .scheduledForRemoval
    ⟨.deleting (scheduled.filter fun object => object.isExpired now), scheduled.length, 0, []⟩

def refusedEvent (object : StorageObject) (chain : List String) : LogEvent :=
  .warn ("row removed but blob left behind: " ++ String.intercalate ": " chain)
    [("cid", object.cid)]

def finish (pass : ReclaimPass) : ReclaimPass :=
  { pass with
    stage := .done
    log := pass.log ++
      [.info ("removed " ++ toString pass.removed ++ " of " ++ toString pass.total) []] }

def outcome (pass : ReclaimPass) : Except String Unit :=
  match pass.stage with
  | .failed text => .error text
  | _ => .ok ()

end ReclaimPass

structure ReclaimRun where
  pass : ReclaimPass
  table : ObjectTable
  blobs : BlobStore

namespace ReclaimRun

/-- One step of a pass; a pass that is over stays as it is. -/
def step (faults : ReclaimFaults) (run : ReclaimRun) : ReclaimRun :=
  match run.pass.stage with
  | .deleting [] => { run with pass := run.pass.finish }
  | .deleting (object :: left) =>
    match faults.delete with
    | some text => { run with pass := { run.pass with stage := .failed text } }
    | none =>
      let deleted := run.table.delete object
      { run with
        pass := { run.pass with stage := if deleted.2 then .removing object left else .deleting left }
        table := deleted.1 }
  | .removing object left =>
    match faults.refusal object.cid with
    | some chain =>
      { run with
        pass :=
          { run.pass with
            stage := .deleting left
            log := run.pass.log ++ [ReclaimPass.refusedEvent object chain] } }
    | none =>
      { run with
        pass := { run.pass with stage := .deleting left, removed := run.pass.removed + 1 }
        blobs := run.blobs.remove object.cid }
  | .done => run
  | .failed _ => run

def steps (faults : ReclaimFaults) : Nat → ReclaimRun → ReclaimRun
  | 0, run => run
  | count + 1, run => steps faults count (step faults run)

/-- Runs a pass that has read its objects to its end: two steps for each object, and one to end. -/
def finish (faults : ReclaimFaults) (run : ReclaimRun) : ReclaimRun :=
  steps faults (2 * run.pass.total + 1) run

def complete (faults : ReclaimFaults) (now : Timestamp) (table : ObjectTable) (blobs : BlobStore) :
    ReclaimRun :=
  finish faults ⟨ReclaimPass.start faults now table, table, blobs⟩

end ReclaimRun

def reclaimTaskName : String := "reclaim_expired"

end MintWatch

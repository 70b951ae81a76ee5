import MintWatch.Log
import MintWatch.Mint.Verifier
import MintWatch.Record.ContentTable
/-!
# Verification passes

A pass reads the records that await confirmation, verifies one after the other and
stores those that are confirmed.  It is a sequence of steps, each of which reads the
table, asks the node or writes one record, so that passes can be run alone or with
other work between any two steps.  A pass works on what it has read: it stores a
confirmed record as a whole.
-/

namespace MintWatch

/-- Store operations that fail, with the text of the failure. -/
structure StoreFaults where
  read : Option String
  write : Option String

def StoreFaults.none : StoreFaults :=
  ⟨Option.none, Option.none⟩

inductive PassError where
  | rpc (error : RpcError)
  | store (text : String)

def PassError.chain : PassError → List String
  | .rpc error => [error.message]
  | .store text => [text]

inductive PassStage where
  /-- Verifies the first of the records that are left, or ends if there is none. -/
  | asking (left : List ContentRecord)
  | saving (record : ContentRecord) (left : List ContentRecord)
  | done
  | failed (error : PassError)

structure VerifyPass where
  stage : PassStage
  total : Nat
  confirmed : Nat
  log : List LogEvent

namespace VerifyPass

def recordFields (record : ContentRecord) : List (String × String) :=
  [("record", toString record.id), ("tx_hash", record.txHash.getD "")]

def start (faults : StoreFaults) (table : ContentTable) : VerifyPass :=
  match faults.read with
  | some text => ⟨.failed (.store text), 0, 0, []⟩
  | none =>
    let left := table.query .awaitingConfirmation
    ⟨.asking left, left.length, 0, []⟩

def hear (pass : VerifyPass) (record : ContentRecord) (left : List ContentRecord)
    (verdict : Except RpcError Verdict) : VerifyPass :=
  match verdict with
  | .error error => { pass with stage := .failed (.rpc error) }
  | .ok .confirmed => { pass with stage := .saving record.confirm left }
  | .ok (.rejected reason) =>
    { pass with
      stage := .asking left
      log := pass.log ++ [.warn ("not confirmed: " ++ reason.message) (recordFields record)] }

def stored (pass : VerifyPass) (record : ContentRecord) (left : List ContentRecord) : VerifyPass :=
  { pass with
    stage := .asking left
    confirmed := pass.confirmed + 1
    log := pass.log ++ [.info "content confirmed" (recordFields record)] }

def finish (pass : VerifyPass) : VerifyPass :=
  { pass with
    stage := .done
    log := pass.log ++
      [.info ("confirmed " ++ toString pass.confirmed ++ " of " ++ toString pass.total) []] }

def outcome (pass : VerifyPass) : Except PassError Unit :=
  match pass.stage with
  | .failed error => .error error
  | _ => .ok ()

end VerifyPass

structure VerifyRun where
  pass : VerifyPass
  table : ContentTable
  client : Client

namespace VerifyRun

/-- One step of a pass; a pass that is over stays as it is. -/
def step (verifier : Verifier) (node : Node) (faults : StoreFaults) (run : VerifyRun) : VerifyRun :=
  match run.pass.stage with
  | .asking [] => { run with pass := run.pass.finish }
  | .asking (record :: left) =>
    let verified := verifier.verify run.client node record
    { run with pass := run.pass.hear record left verified.2, client := verified.1 }
  | .saving record left =>
    match faults.write with
    | some text => { run with pass := { run.pass with stage := .failed (.store text) } }
    | none => { run with pass := run.pass.stored record left, table := run.table.save record }
  | .done => run
  | .failed _ => run

def steps (verifier : Verifier) (node : Node) (faults : StoreFaults) : Nat → VerifyRun → VerifyRun
  | 0, run => run
  | count + 1, run => steps verifier node faults count (step verifier node faults run)

/-- A pass from its start to its end: two steps for each record, and one to end. -/
def complete (verifier : Verifier) (node : Node) (faults : StoreFaults) (client : Client)
    (table : ContentTable) : VerifyRun :=
  let pass := VerifyPass.start faults table
  steps verifier node faults (2 * pass.total + 1) ⟨pass, table, client⟩

end VerifyRun

def verifyTaskName : String := "verify_content"

end MintWatch

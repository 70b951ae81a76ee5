import Mathlib
import MintWatch.Proofs.Chain.TransactionReply
import MintWatch.Proofs.Mint.Evidence
import MintWatch.Proofs.Mint.PassRun
import MintWatch.Proofs.Lists
import MintWatch.Proofs.Record.Confirming
/-!
# The effect of a verification pass

A pass deals with the awaiting records one after the other, and what it does for one of
them depends on the reply to the request for its transaction alone.  A run of the records
that are answered is followed record by record; it ends with the last record, or with the
first one for which the node is not reached.  What has been dealt with by then, and
nothing else, is in the table and in the log.
-/

namespace MintWatch

/-! ## Verdicts -/

def Verdict.isConfirmed : Verdict → Bool
  | .confirmed => true
  | .rejected _ => false

/-- The line that a pass logs for a record. -/
def VerifyPass.report (record : ContentRecord) : Verdict → LogEvent
  | .confirmed => .info "content confirmed" (recordFields record)
  | .rejected reason => .warn ("not confirmed: " ++ reason.message) (recordFields record)

/-- Whether the request for the transaction of a record ends in a failure to reach the node. -/
def IsLost (replies : String → Reply) (record : ContentRecord) (error : RpcError) : Prop :=
  ∃ hash, record.txHash = some hash ∧ lookupOf hash (replies hash) = .error error ∧
    error.isTransport = true

theorem ContentRecord.txHash_confirm
    (record : ContentRecord) :
    record.confirm.txHash = record.txHash :=
  rfl

/-- Only what a record claims counts for a mint, not whether it has been confirmed. -/
theorem checkMint_confirm
    (call : DecodedCall) (record : ContentRecord) (mintFunction : String) :
    checkMint call record.confirm mintFunction = checkMint call record mintFunction := by
  simp only [checkMint, ContentRecord.owner?, ContentRecord.confirm]

namespace Verifier

/-- The verdict on a record, if the node is reached. -/
def verdictOn (verifier : Verifier) (replies : String → Reply) (record : ContentRecord) :
    Verdict :=
  match record.txHash with
  | none => .rejected .noTransaction
  | some hash =>
    match lookupOf hash (replies hash) with
    | .ok transaction => verifier.judgeTransaction record transaction
    | .error error => .rejected (.lookup error)

/-- Whether the reply for a record's transaction has an input that decodes and that is a mint
of the record. -/
def Proves (verifier : Verifier) (replies : String → Reply) (record : ContentRecord) : Prop :=
  ∃ hash transaction call, record.txHash = some hash ∧
    lookupOf hash (replies hash) = .ok transaction ∧
    verifier.decode transaction.rawInput = .ok call ∧
    checkMint call record verifier.mintFunction = .ok ()

variable {verifier : Verifier} {replies : String → Reply} {record : ContentRecord}
  {client : Client} {node : Node} {hash : String} {error : RpcError}

theorem isConfirmed_judgeTransaction_iff
    {transaction : Transaction} :
    (verifier.judgeTransaction record transaction).isConfirmed = true ↔
      ∃ call, verifier.decode transaction.rawInput = .ok call ∧
        checkMint call record verifier.mintFunction = .ok () := by
  have hjudge : verifier.judge record (.ok transaction) = .ok .confirmed ↔ _ :=
    judge_eq_confirmed_iff
  simp only [judge, Except.ok.injEq, exists_and_left, exists_eq_left'] at hjudge
  rw [← hjudge]
  cases verifier.judgeTransaction record transaction <;> simp [Verdict.isConfirmed]

theorem isConfirmed_verdictOn_iff :
    (verifier.verdictOn replies record).isConfirmed = true ↔ verifier.Proves replies record := by
  unfold verdictOn Proves
  cases record.txHash with
  | none => simp [Verdict.isConfirmed]
  | some hash =>
      cases hlookup : lookupOf hash (replies hash) with
      | error error => simp [Verdict.isConfirmed, hlookup]
      | ok transaction => simp [isConfirmed_judgeTransaction_iff, hlookup]

instance decidableProves (verifier : Verifier) (replies : String → Reply)
    (record : ContentRecord) : Decidable (verifier.Proves replies record) :=
  decidable_of_iff ((verifier.verdictOn replies record).isConfirmed = true)
    isConfirmed_verdictOn_iff

theorem decide_proves :
    decide (verifier.Proves replies record) = (verifier.verdictOn replies record).isConfirmed := by
  rw [Bool.eq_iff_iff, decide_eq_true_iff, isConfirmed_verdictOn_iff]

theorem proves_confirm :
    verifier.Proves replies record.confirm ↔ verifier.Proves replies record := by
  unfold Proves
  simp only [checkMint_confirm, ContentRecord.txHash_confirm]

theorem verify_of_txHash
    (hhash : record.txHash = some hash) :
    verifier.verify client node record =
      (⟨client.lastId + 1⟩,
        verifier.judge record (lookupOf hash (node (client.transaction hash none).2.envelope))) := by
  unfold verify
  rw [hhash]
  rfl

/-- What has been received for a record that is found to be confirmed. -/
theorem proof_of_verify
    (hconfirmed : (verifier.verify client node record).2 = .ok .confirmed) :
    ∃ hash transaction call, record.txHash = some hash ∧
      lookupOf hash (node (client.transaction hash none).2.envelope) = .ok transaction ∧
      verifier.decode transaction.rawInput = .ok call ∧
      checkMint call record verifier.mintFunction = .ok () := by
  cases hhash : record.txHash with
  | none => simp [verify, hhash] at hconfirmed
  | some hash =>
      rw [verify_of_txHash hhash, judge_eq_confirmed_iff] at hconfirmed
      obtain ⟨transaction, call, hlookup, hcall, hmint⟩ := hconfirmed
      exact ⟨hash, transaction, call, rfl, hlookup, hcall, hmint⟩

/-- A request either ends in a failure to reach the node or settles the record. -/
theorem judge_lookupOf
    (verifier : Verifier) (replies : String → Reply)
    (hhash : record.txHash = some hash) :
    verifier.judge record (lookupOf hash (replies hash)) =
        .ok (verifier.verdictOn replies record) ∧ (∀ error, ¬ IsLost replies record error) ∨
      ∃ error, verifier.judge record (lookupOf hash (replies hash)) = .error error ∧
        IsLost replies record error := by
  unfold verdictOn judge IsLost
  rw [hhash]
  cases hlookup : lookupOf hash (replies hash) with
  | ok transaction =>
      left
      simp [hlookup]
  | error error =>
      by_cases htransport : error.isTransport = true
      · right
        exact ⟨error, by simp [htransport], hash, rfl, hlookup, htransport⟩
      · left
        simp [hlookup, htransport]

end Verifier

namespace VerifyRun

/-! ## Requests -/

/-- The request that the next step posts. -/
def posted? (run : VerifyRun) : Option Json :=
  run.asked?.bind fun record =>
    record.txHash.map fun hash => (run.client.transaction hash none).2.envelope

/-- The requests that a number of steps post, in their order. -/
def posts (verifier : Verifier) (node : Node) (faults : StoreFaults) :
    Nat → VerifyRun → List Json
  | 0, _ => []
  | count + 1, run =>
    run.posted?.toList ++ posts verifier node faults count (step verifier node faults run)

/-- The request for the transaction of a record, by its place among the requests of a client. -/
def requestFor (client : Client) (place : Nat) (record : ContentRecord) : Json :=
  envelope (client.lastId + .ofNat (place + 1)) "eth_getTransactionByHash"
    [.string (record.txHash.getD "")]

section Requests

variable {verifier : Verifier} {node : Node} {faults : StoreFaults} {run : VerifyRun}

theorem steps_add
    (first second : Nat) (run : VerifyRun) :
    steps verifier node faults (first + second) run =
      steps verifier node faults second (steps verifier node faults first run) := by
  induction first generalizing run with
  | zero =>
      rw [Nat.zero_add]
      rfl
  | succ first ih =>
      rw [Nat.add_right_comm]
      exact ih _

theorem posts_add
    (first second : Nat) (run : VerifyRun) :
    posts verifier node faults (first + second) run =
      posts verifier node faults first run ++
        posts verifier node faults second (steps verifier node faults first run) := by
  induction first generalizing run with
  | zero =>
      rw [Nat.zero_add]
      rfl
  | succ first ih =>
      rw [Nat.add_right_comm, posts, posts, ih, List.append_assoc]
      rfl

end Requests

/-! ## Runs of records -/

section Dealing

variable {verifier : Verifier} {node : Node} {replies : String → Reply} {run : VerifyRun}
  {record : ContentRecord} {dealt left : List ContentRecord} {error : RpcError}

/-- Whether a pass is over. -/
def IsOver (run : VerifyRun) : Prop :=
  run.pass.stage = .done ∨ ∃ error, run.pass.stage = .failed error

theorem step_of_isOver
    (verifier : Verifier) (node : Node)
    (hover : run.IsOver) :
    step verifier node .none run = run ∧ run.posted? = none := by
  unfold step posted? asked?
  rcases hover with hdone | ⟨error, hfailed⟩
  · rw [hdone]
    exact ⟨rfl, rfl⟩
  · rw [hfailed]
    exact ⟨rfl, rfl⟩

theorem ne_asking_of_isOver
    (hover : run.IsOver) (left : List ContentRecord) :
    run.pass.stage ≠ .asking left := by
  rcases hover with hdone | ⟨error, hfailed⟩
  · simp [hdone]
  · simp [hfailed]

theorem ne_saving_of_isOver
    (hover : run.IsOver) (record : ContentRecord) (left : List ContentRecord) :
    run.pass.stage ≠ .saving record left := by
  rcases hover with hdone | ⟨error, hfailed⟩
  · simp [hdone]
  · simp [hfailed]

theorem remaining_of_isOver
    (hover : run.IsOver) :
    run.remaining = [] := by
  unfold remaining
  rcases hover with hdone | ⟨error, hfailed⟩
  · rw [hdone]
  · rw [hfailed]

theorem steps_of_isOver
    (verifier : Verifier) (node : Node) (count : Nat)
    (hover : run.IsOver) :
    steps verifier node .none count run = run ∧ posts verifier node .none count run = [] := by
  obtain ⟨hstep, hposted⟩ := step_of_isOver verifier node hover
  induction count with
  | zero => exact ⟨rfl, rfl⟩
  | succ count ih =>
      unfold steps posts
      rw [hstep, hposted]
      exact ih

/-- A run after the next records have been dealt with as the verdicts on them say. -/
def afterDealing (run : VerifyRun) (verdict : ContentRecord → Verdict)
    (dealt left : List ContentRecord) : VerifyRun where
  pass :=
    { run.pass with
      stage := .asking left
      confirmed := run.pass.confirmed + dealt.countP fun record => (verdict record).isConfirmed
      log := run.pass.log ++ dealt.map fun record => VerifyPass.report record (verdict record) }
  table :=
    (dealt.filter fun record => (verdict record).isConfirmed).foldl
      (fun table record => table.save record.confirm) run.table
  client := ⟨run.client.lastId + .ofNat dealt.length⟩

theorem afterDealing_cons
    (run : VerifyRun) (verdict : ContentRecord → Verdict) (record : ContentRecord)
    (dealt left : List ContentRecord) :
    (run.afterDealing verdict [record] (dealt ++ left)).afterDealing verdict dealt left =
      run.afterDealing verdict (record :: dealt) left := by
  have hclient := add_ofNat_succ run.client.lastId dealt.length
  unfold afterDealing
  simp only [List.length_cons, ← hclient, List.map_cons, List.map_nil, List.append_assoc,
    List.singleton_append, List.countP_cons, List.countP_nil, List.filter_cons, List.filter_nil]
  cases (verdict record).isConfirmed with
  | true => simp [Nat.add_assoc, Nat.add_comm]
  | false => simp

/-- One record takes one step, or two if it is confirmed. -/
theorem exists_steps_of_verdict
    (verdict : ContentRecord → Verdict)
    (hstage : run.pass.stage = .asking (record :: left))
    (hhash : record.txHash.isSome = true)
    (hverify : (verifier.verify run.client node record).2 = .ok (verdict record)) :
    ∃ count ≤ 2,
      steps verifier node .none count run = run.afterDealing verdict [record] left ∧
        posts verifier node .none count run = [requestFor run.client 0 record] := by
  obtain ⟨hash, hsome⟩ := Option.isSome_iff_exists.mp hhash
  have hposted : run.posted? = some (requestFor run.client 0 record) := by
    unfold posted? asked?
    rw [hstage, Option.bind_some, hsome, requestFor, hsome]
    rfl
  have hclient : (verifier.verify run.client node record).1 = ⟨run.client.lastId + 1⟩ := by
    rw [Verifier.verify_of_txHash hsome]
  have hstep : step verifier node .none run =
      { run with
        pass := run.pass.hear record left (.ok (verdict record))
        client := ⟨run.client.lastId + 1⟩ } := by
    unfold step
    rw [hstage]
    simp only [hverify, hclient]
  cases hverdict : verdict record with
  | confirmed =>
      rw [hverdict] at hstep
      refine ⟨2, le_rfl, ?_, ?_⟩
      · unfold steps afterDealing
        rw [hstep]
        simp only [steps, step, VerifyPass.hear, StoreFaults.none, VerifyPass.stored, hverdict,
          Verdict.isConfirmed, List.filter_cons, List.filter_nil]
        simp [hverdict]
        rfl
      · unfold posts
        rw [hstep, hposted]
        rfl
  | rejected reason =>
      rw [hverdict] at hstep
      refine ⟨1, by omega, ?_, ?_⟩
      · unfold steps afterDealing
        rw [hstep]
        simp [steps, VerifyPass.hear, VerifyPass.report, Verdict.isConfirmed, hverdict]
      · unfold posts
        rw [hposted]
        rfl

/-- Whether the node is reached for records that a client asks for one after the other. -/
def Hears (verifier : Verifier) (node : Node) (verdict : ContentRecord → Verdict) :
    Client → List ContentRecord → Prop
  | _, [] => True
  | client, record :: rest =>
    record.txHash.isSome = true ∧
      (verifier.verify client node record).2 = .ok (verdict record) ∧
      Hears verifier node verdict ⟨client.lastId + 1⟩ rest

theorem exists_steps_of_hears
    {verdict : ContentRecord → Verdict}
    (hstage : run.pass.stage = .asking (dealt ++ left))
    (hhears : Hears verifier node verdict run.client dealt) :
    ∃ count ≤ 2 * dealt.length,
      steps verifier node .none count run = run.afterDealing verdict dealt left ∧
        posts verifier node .none count run = dealt.mapIdx (requestFor run.client) := by
  induction dealt generalizing run with
  | nil =>
      refine ⟨0, le_rfl, ?_, rfl⟩
      unfold afterDealing
      rw [List.nil_append] at hstage
      simp [steps, ← hstage]
  | cons record dealt ih =>
      obtain ⟨hhash, hverify, hrest⟩ := hhears
      rw [List.cons_append] at hstage
      obtain ⟨first, hfirst, hsteps, hposts⟩ :=
        exists_steps_of_verdict verdict hstage hhash hverify
      have hnext : (run.afterDealing verdict [record] (dealt ++ left)).pass.stage =
          .asking (dealt ++ left) := rfl
      obtain ⟨second, hsecond, hlater, hlaterPosts⟩ := ih hnext hrest
      refine ⟨first + second, ?_, ?_, ?_⟩
      · rw [List.length_cons]
        omega
      · rw [steps_add, hsteps, hlater, afterDealing_cons]
      · rw [posts_add, hsteps, hposts, hlaterPosts, List.mapIdx_cons]
        have hshift : requestFor (run.afterDealing verdict [record] (dealt ++ left)).client =
            fun place => requestFor run.client (place + 1) := by
          funext place later
          unfold requestFor
          rw [← add_ofNat_succ run.client.lastId (place + 1)]
          rfl
        rw [hshift, List.singleton_append]

/-- Once the records have been dealt with, one more step ends the pass. -/
theorem steps_of_hears
    {verdict : ContentRecord → Verdict} {count : Nat} {last : VerifyRun}
    (hstage : run.pass.stage = .asking (dealt ++ left))
    (hhears : Hears verifier node verdict run.client dealt)
    (hlast : step verifier node .none (run.afterDealing verdict dealt left) = last)
    (hover : last.IsOver)
    (hcount : 2 * dealt.length < count) :
    steps verifier node .none count run = last ∧
      posts verifier node .none count run =
        dealt.mapIdx (requestFor run.client) ++
          (run.afterDealing verdict dealt left).posted?.toList := by
  obtain ⟨first, hfirst, hsteps, hposts⟩ := exists_steps_of_hears hstage hhears
  obtain ⟨rest, rfl⟩ : ∃ rest, count = first + (rest + 1) := ⟨count - first - 1, by omega⟩
  obtain ⟨hrest, hrestPosts⟩ := steps_of_isOver verifier node rest hover
  rw [steps_add, posts_add, hsteps, hposts, steps, posts, hlast, hrest, hrestPosts,
    List.append_nil]
  exact ⟨rfl, rfl⟩

theorem steps_of_reached
    {verdict : ContentRecord → Verdict} {count : Nat}
    (hstage : run.pass.stage = .asking dealt)
    (hhears : Hears verifier node verdict run.client dealt)
    (hcount : 2 * dealt.length < count) :
    steps verifier node .none count run =
        { run.afterDealing verdict dealt [] with
          pass := (run.afterDealing verdict dealt []).pass.finish } ∧
      posts verifier node .none count run = dealt.mapIdx (requestFor run.client) := by
  rw [← List.append_nil dealt] at hstage
  obtain ⟨hsteps, hposts⟩ := steps_of_hears hstage hhears rfl (Or.inl rfl) hcount
  refine ⟨hsteps, ?_⟩
  rw [hposts]
  exact List.append_nil _

theorem steps_of_lost
    {verdict : ContentRecord → Verdict} {count : Nat}
    (hstage : run.pass.stage = .asking (dealt ++ record :: left))
    (hhears : Hears verifier node verdict run.client dealt)
    (hhash : record.txHash.isSome = true)
    (hlost : (verifier.verify ⟨run.client.lastId + .ofNat dealt.length⟩ node record).2 =
      .error error)
    (hcount : 2 * dealt.length < count) :
    steps verifier node .none count run =
        { run.afterDealing verdict dealt (record :: left) with
          pass :=
            { (run.afterDealing verdict dealt (record :: left)).pass with
              stage := .failed (.rpc error) }
          client := ⟨run.client.lastId + .ofNat (dealt.length + 1)⟩ } ∧
      posts verifier node .none count run =
        (dealt ++ [record]).mapIdx (requestFor run.client) := by
  obtain ⟨hash, hsome⟩ := Option.isSome_iff_exists.mp hhash
  have hclient : run.client.lastId + .ofNat dealt.length + 1 =
      run.client.lastId + UInt64.ofNat (dealt.length + 1) := by
    rw [UInt64.ofNat_add, add_assoc]
    rfl
  have hnext : (verifier.verify ⟨run.client.lastId + .ofNat dealt.length⟩ node record).1 =
      ⟨run.client.lastId + .ofNat (dealt.length + 1)⟩ := by
    rw [Verifier.verify_of_txHash hsome, ← hclient]
  have hlast : step verifier node .none (run.afterDealing verdict dealt (record :: left)) =
      { run.afterDealing verdict dealt (record :: left) with
        pass :=
          { (run.afterDealing verdict dealt (record :: left)).pass with
            stage := .failed (.rpc error) }
        client := ⟨run.client.lastId + .ofNat (dealt.length + 1)⟩ } := by
    simp only [step, afterDealing, hlost, hnext, VerifyPass.hear]
  have hposted : (run.afterDealing verdict dealt (record :: left)).posted? =
      some (requestFor run.client dealt.length record) := by
    simp only [posted?, asked?, afterDealing, Option.bind_some, hsome, Option.map_some,
      requestFor, ← hclient, Option.getD_some]
    rfl
  obtain ⟨hsteps, hposts⟩ := steps_of_hears hstage hhears hlast (Or.inr ⟨_, rfl⟩) hcount
  refine ⟨hsteps, ?_⟩
  rw [hposts, hposted]
  simp [List.mapIdx_append]

end Dealing

/-! ## The effect of a whole pass -/

section Effect

variable {verifier : Verifier} {node : Node} {replies : String → Reply} {client : Client}
  {table : ContentTable} {record : ContentRecord} {dealt left : List ContentRecord}

/-- The requests that a pass posts from its start to its end. -/
def completePosts (verifier : Verifier) (node : Node) (faults : StoreFaults) (client : Client)
    (table : ContentTable) : List Json :=
  let pass := VerifyPass.start faults table
  posts verifier node faults (2 * pass.total + 1) ⟨pass, table, client⟩

theorem stage_start
    (client : Client) (table : ContentTable) :
    (VerifyRun.mk (VerifyPass.start .none table) table client).pass.stage =
      .asking (table.query .awaitingConfirmation) :=
  rfl

theorem txHash_isSome_of_mem_query
    (hmember : record ∈ table.query .awaitingConfirmation) :
    record.txHash.isSome = true :=
  (ContentTable.mem_query_awaitingConfirmation_iff.mp hmember).2.2

theorem hears_of_reached
    (hnode : node.RepliesByHash replies)
    (hhashes : ∀ record ∈ dealt, record.txHash.isSome = true)
    (hreached : ∀ record ∈ dealt, ∀ error, ¬ IsLost replies record error) :
    Hears verifier node (verifier.verdictOn replies) client dealt := by
  induction dealt generalizing client with
  | nil => trivial
  | cons record dealt ih =>
      rw [List.forall_mem_cons] at hhashes hreached
      refine ⟨hhashes.1, ?_, ih hhashes.2 hreached.2⟩
      obtain ⟨hash, hsome⟩ := Option.isSome_iff_exists.mp hhashes.1
      rw [Verifier.verify_of_txHash hsome, hnode]
      rcases Verifier.judge_lookupOf verifier replies hsome with
        ⟨hjudge, -⟩ | ⟨error, -, hlost⟩
      · exact hjudge
      · exact absurd hlost (hreached.1 error)

/-- The table after a pass that has dealt with the first of the awaiting records. -/
theorem table_afterDealing
    (verifier : Verifier) (replies : String → Reply) (client : Client)
    (hawaiting : table.query .awaitingConfirmation = dealt ++ left) :
    ((VerifyRun.mk (VerifyPass.start .none table) table client).afterDealing
        (verifier.verdictOn replies) dealt left).table =
      table.confirmWhere fun row => row ∈ dealt ∧ verifier.Proves replies row := by
  have hdealt : ∀ record ∈ dealt, record ∈ table.query .awaitingConfirmation := by
    intro record hmember
    rw [hawaiting]
    exact List.mem_append_left _ hmember
  have hdistinct : dealt.Pairwise fun first second => first.id ≠ second.id := by
    have hascending := table.ascendingIds_query .awaitingConfirmation
    rw [hawaiting] at hascending
    apply (List.pairwise_append.mp hascending).1.imp
    intro first second hlt
    omega
  unfold afterDealing
  rw [ContentTable.foldl_save_confirm _ (hdistinct.filter _)]
  · apply ContentTable.confirmWhere_congr
    intro row _
    unfold ContentRecord.confirmIf
    simp [List.mem_filter, Verifier.isConfirmed_verdictOn_iff]
  · intro record hmember
    have hawaits := hdealt record (List.mem_filter.mp hmember).1
    exact (ContentTable.mem_query_awaitingConfirmation_iff.mp hawaits).1

theorem rows_confirmWhere
    (table : ContentTable) (chosen : ContentRecord → Prop) [DecidablePred chosen] :
    (table.confirmWhere fun row => chosen row).rows =
      table.rows.map fun row => if chosen row then row.confirm else row := by
  unfold ContentTable.confirmWhere ContentRecord.confirmIf
  simp only [decide_eq_true_eq]

theorem complete_effect
    (verifier : Verifier) (client : Client) (table : ContentTable)
    {node : Node} {replies : String → Reply}
    (hnode : node.RepliesByHash replies) :
    let awaiting := table.query .awaitingConfirmation
    let run := complete verifier node .none client table
    let posted := completePosts verifier node .none client table
    AscendingIds awaiting ∧
      ((∀ record ∈ awaiting, ∀ error, ¬ IsLost replies record error) →
        run.pass.stage = .done ∧ run.pass.outcome = .ok () ∧
          posted = awaiting.mapIdx (requestFor client) ∧
          run.table.rows =
            table.rows.map (fun row =>
              if row ∈ awaiting ∧ verifier.Proves replies row then row.confirm else row) ∧
          run.pass.log =
            awaiting.map (fun record =>
              VerifyPass.report record (verifier.verdictOn replies record)) ++
            [.info ("confirmed " ++
              toString (awaiting.countP fun record => verifier.Proves replies record) ++
              " of " ++ toString awaiting.length) []]) ∧
      ∀ earlier record later error, awaiting = earlier ++ record :: later →
        (∀ other ∈ earlier, ∀ error, ¬ IsLost replies other error) →
        IsLost replies record error →
          run.pass.outcome = .error (.rpc error) ∧
            posted = (earlier ++ [record]).mapIdx (requestFor client) ∧
            run.table.rows =
              table.rows.map (fun row =>
                if row ∈ earlier ∧ verifier.Proves replies row then row.confirm else row) ∧
            run.pass.log =
              earlier.map (fun record =>
                VerifyPass.report record (verifier.verdictOn replies record)) := by
  intro awaiting run posted
  refine ⟨table.ascendingIds_query _, ?_, ?_⟩
  · intro hreached
    have hhears : Hears verifier node (verifier.verdictOn replies) client awaiting :=
      hears_of_reached hnode (fun record => txHash_isSome_of_mem_query) hreached
    obtain ⟨hrun, hposted⟩ := steps_of_reached (stage_start client table) hhears
      (Nat.lt_succ_self _)
    have htable := table_afterDealing verifier replies client (List.append_nil awaiting).symm
    change run = _ at hrun
    rw [hrun]
    refine ⟨rfl, rfl, hposted, ?_, ?_⟩
    · rw [← rows_confirmWhere, ← htable]
    · simp only [Verifier.decide_proves]
      simp [VerifyPass.finish, afterDealing, VerifyPass.start, StoreFaults.none, awaiting]
  · intro earlier record later error hsplit hreached hlost
    have hhashes : ∀ other ∈ earlier ++ record :: later, other.txHash.isSome = true := by
      intro other hmember
      rw [← hsplit] at hmember
      exact txHash_isSome_of_mem_query hmember
    rw [List.forall_mem_append, List.forall_mem_cons] at hhashes
    have hhears : Hears verifier node (verifier.verdictOn replies) client earlier :=
      hears_of_reached hnode hhashes.1 hreached
    have hverify : (verifier.verify ⟨client.lastId + .ofNat earlier.length⟩ node record).2 =
        .error error := by
      obtain ⟨hash, hsome, hlookup, htransport⟩ := hlost
      rw [Verifier.verify_of_txHash hsome, hnode, hlookup]
      simp only [Verifier.judge, htransport, if_true]
    have hcount : 2 * earlier.length < 2 * awaiting.length + 1 := by
      rw [hsplit, List.length_append]
      omega
    obtain ⟨hrun, hposted⟩ := steps_of_lost
      ((stage_start client table).trans (congrArg PassStage.asking hsplit)) hhears hhashes.2.1
      hverify hcount
    have htable := table_afterDealing verifier replies client hsplit
    change run = _ at hrun
    rw [hrun]
    refine ⟨rfl, hposted, ?_, ?_⟩
    · rw [← rows_confirmWhere, ← htable]
    · simp [afterDealing, VerifyPass.start, StoreFaults.none]

end Effect

/-! A pass over four records: one is minted, one has no transaction yet, the transaction of
one is unknown, and the node is not reached for the last. -/

def submittedRecord (id : Int) (txHash : Option String) : ContentRecord where
  id := id
  ownerAddress := (Octets.zero 20).hex
  metadataRef := some "ipfs://meta"
  txHash := txHash
  confirmed := false

def submittedRecords : ContentTable :=
  (((ContentTable.empty.save (submittedRecord 1 (some "0xa"))).save (submittedRecord 2 none)).save
    (submittedRecord 3 (some "0xb"))).save (submittedRecord 5 (some "0xc"))

/-- A verifier to which every input is the mint of the submitted records. -/
def lenientVerifier : Verifier where
  decode := fun _ => .ok
    ⟨"mint", "mint(address,string)",
      [⟨"address", "to", .address (Octets.zero 20)⟩,
        ⟨"string", "reference", .string "ipfs://meta"⟩]⟩
  mintFunction := "mint"

def minedReply : Reply :=
  .ok (.object [("result", .object (bareMembers (Octets.zero 20) []))])

def unknownReply : Reply :=
  .ok (.object [("result", .null)])

def failingReplies (hash : String) : Reply :=
  if hash = "0xa" then minedReply
  else if hash = "0xb" then unknownReply
  else .error (.status 503)

theorem complete_effect_unavailable :
    (Node.byHash failingReplies).RepliesByHash failingReplies ∧
      IsLost failingReplies (submittedRecord 5 (some "0xc")) (.status 503) ∧
      (complete lenientVerifier (Node.byHash failingReplies) .none .fresh
          submittedRecords).pass.outcome =
        .error (.rpc (.status 503)) ∧
      (complete lenientVerifier (Node.byHash failingReplies) .none .fresh
          submittedRecords).table.rows =
        [(submittedRecord 1 (some "0xa")).confirm, submittedRecord 2 none,
          submittedRecord 3 (some "0xb"), submittedRecord 5 (some "0xc")] := by
  have hnode := Node.repliesByHash_byHash failingReplies
  have hlost : IsLost failingReplies (submittedRecord 5 (some "0xc")) (.status 503) :=
    ⟨"0xc", rfl, rfl, rfl⟩
  have hreached : ∀ record ∈ [submittedRecord 1 (some "0xa"), submittedRecord 3 (some "0xb")],
      ∀ error, ¬ IsLost failingReplies record error := by
    intro record hmember error hfailed
    obtain ⟨hash, hsome, hlookup, htransport⟩ := hfailed
    have hreply : failingReplies hash = .error error := eq_error_of_lookupOf hlookup htransport
    rcases List.mem_pair.mp hmember with rfl | rfl
    · cases hsome
      cases hreply
    · cases hsome
      cases hreply
  obtain ⟨-, -, hfailing⟩ := complete_effect lenientVerifier .fresh submittedRecords hnode
  obtain ⟨houtcome, -, hrows, -⟩ := hfailing _ _ [] _ rfl hreached hlost
  refine ⟨hnode, hlost, houtcome, hrows.trans ?_⟩
  decide +kernel

end VerifyRun
end MintWatch

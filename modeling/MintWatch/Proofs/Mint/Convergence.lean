import Mathlib
import MintWatch.Proofs.Mint.PassEffect
/-!
# Interrupted passes

Passes that fail on the way leave the rest of their work to later ones.  A table is
settled once every row is confirmed whose transaction proves it; a pass confirms some of
these rows, a pass that ends confirms all of them, and neither changes which rows they
are.  So the settled table is reached however the work has been interrupted, and it is
kept.
-/

namespace MintWatch
namespace VerifyRun

/-! ## What an interrupted pass does -/

section Interrupted

variable {verifier : Verifier} {node : Node} {replies : String → Reply} {client : Client}
  {table : ContentTable} {records : List ContentRecord}

/-- The records up to the first one for which the node is not reached. -/
theorem exists_hears_of_repliesOrFails
    (verifier : Verifier) (client : Client)
    (hnode : node.RepliesOrFails replies)
    (hhashes : ∀ record ∈ records, record.txHash.isSome = true) :
    ∃ dealt left, records = dealt ++ left ∧
      Hears verifier node (verifier.verdictOn replies) client dealt ∧
      (left = [] ∨ ∃ record rest error, left = record :: rest ∧
        (verifier.verify ⟨client.lastId + .ofNat dealt.length⟩ node record).2 =
          .error error) := by
  induction records generalizing client with
  | nil => exact ⟨[], [], rfl, trivial, Or.inl rfl⟩
  | cons record records ih =>
      rw [List.forall_mem_cons] at hhashes
      obtain ⟨hash, hsome⟩ := Option.isSome_iff_exists.mp hhashes.1
      have hverify : (verifier.verify client node record).2 =
            .ok (verifier.verdictOn replies record) ∨
          ∃ error, (verifier.verify client node record).2 = .error error := by
        rw [Verifier.verify_of_txHash hsome]
        rcases hnode client hash with hreply | ⟨error, htransport, hfailed⟩
        · rw [hreply]
          rcases Verifier.judge_lookupOf verifier replies hsome with
            ⟨hjudge, -⟩ | ⟨error, hjudge, -⟩
          · exact Or.inl hjudge
          · exact Or.inr ⟨error, hjudge⟩
        · right
          rw [hfailed, lookupOf_error]
          exact ⟨error, by simp only [Verifier.judge, htransport, if_true]⟩
      rcases hverify with hheard | ⟨error, hlost⟩
      · obtain ⟨dealt, left, hsplit, hhears, hend⟩ :=
          ih ⟨client.lastId + 1⟩ hhashes.2
        refine ⟨record :: dealt, left, by rw [hsplit, List.cons_append],
          ⟨hhashes.1, hheard, hhears⟩, ?_⟩
        rw [List.length_cons, ← add_ofNat_succ client.lastId dealt.length]
        exact hend
      · refine ⟨[], record :: records, rfl, trivial, Or.inr ⟨record, records, error, rfl, ?_⟩⟩
        have hclient : client.lastId + UInt64.ofNat 0 = client.lastId := UInt64.add_zero _
        rw [List.length_nil, hclient]
        exact hlost

theorem complete_of_hears
    (hhears : Hears verifier node (verifier.verdictOn replies) client
      (table.query .awaitingConfirmation)) :
    (complete verifier node .none client table).pass.stage = .done ∧
      (complete verifier node .none client table).table =
        table.confirmWhere fun row =>
          row ∈ table.query .awaitingConfirmation ∧ verifier.Proves replies row := by
  obtain ⟨hrun, -⟩ := steps_of_reached (stage_start client table) hhears (Nat.lt_succ_self _)
  change complete verifier node .none client table = _ at hrun
  rw [hrun]
  exact ⟨rfl, table_afterDealing verifier replies client (List.append_nil _).symm⟩

theorem complete_of_repliesOrFails
    (verifier : Verifier) (client : Client) (table : ContentTable)
    (hnode : node.RepliesOrFails replies) :
    ∃ dealt left, table.query .awaitingConfirmation = dealt ++ left ∧
      (complete verifier node .none client table).table =
        table.confirmWhere (fun row => row ∈ dealt ∧ verifier.Proves replies row) ∧
      ((complete verifier node .none client table).pass.stage = .done → left = []) := by
  have hhashes : ∀ record ∈ table.query .awaitingConfirmation, record.txHash.isSome = true :=
    fun record => txHash_isSome_of_mem_query
  obtain ⟨dealt, left, hsplit, hhears, hend⟩ :=
    exists_hears_of_repliesOrFails verifier client hnode hhashes
  refine ⟨dealt, left, hsplit, ?_⟩
  rcases hend with rfl | ⟨record, rest, error, rfl, hlost⟩
  · rw [List.append_nil] at hsplit
    subst hsplit
    exact ⟨(complete_of_hears hhears).2, fun _ => rfl⟩
  · have hhash : record.txHash.isSome = true := by
      apply hhashes
      rw [hsplit]
      exact List.mem_append_right _ List.mem_cons_self
    have hcount : 2 * dealt.length < 2 * (table.query .awaitingConfirmation).length + 1 := by
      rw [hsplit, List.length_append]
      omega
    obtain ⟨hrun, -⟩ := steps_of_lost
      ((stage_start client table).trans (congrArg PassStage.asking hsplit)) hhears hhash hlost
      hcount
    change complete verifier node .none client table = _ at hrun
    rw [hrun]
    refine ⟨table_afterDealing verifier replies client hsplit, ?_⟩
    intro hdone
    cases hdone

end Interrupted

end VerifyRun

/-! ## Settled tables -/

namespace ContentTable

variable {verifier : Verifier} {replies : String → Reply} {table : ContentTable}
  {chosen : ContentRecord → Prop} [DecidablePred chosen]

/-- The table in which every row is confirmed whose transaction proves it. -/
def settle (verifier : Verifier) (replies : String → Reply) (table : ContentTable) :
    ContentTable :=
  table.confirmWhere fun row => verifier.Proves replies row

theorem proves_confirmIf
    (chosen : ContentRecord → Bool) (row : ContentRecord) :
    verifier.Proves replies (row.confirmIf chosen) ↔ verifier.Proves replies row := by
  unfold ContentRecord.confirmIf
  split
  · exact Verifier.proves_confirm
  · exact Iff.rfl

theorem settle_confirmWhere
    (hchosen : ∀ row, chosen row → verifier.Proves replies row) :
    (table.confirmWhere fun row => chosen row).settle verifier replies =
      table.settle verifier replies := by
  unfold settle
  rw [confirmWhere_confirmWhere]
  apply confirmWhere_congr
  intro row _
  congr 1
  funext row
  have hproves := hchosen row
  simp only [proves_confirmIf]
  by_cases hrow : chosen row
  · simp [hrow, hproves hrow]
  · simp [hrow]

theorem settle_settle
    (verifier : Verifier) (replies : String → Reply) (table : ContentTable) :
    (table.settle verifier replies).settle verifier replies = table.settle verifier replies :=
  settle_confirmWhere fun _ hproves => hproves

/-- Of the rows that are proved only those that await confirmation are still to be confirmed. -/
theorem confirmWhere_awaiting :
    (table.confirmWhere fun row =>
        row ∈ table.query .awaitingConfirmation ∧ verifier.Proves replies row) =
      table.settle verifier replies := by
  apply confirmWhere_congr
  intro row hrow
  by_cases hproves : verifier.Proves replies row
  · have hproved : row.confirmIf (fun row => verifier.Proves replies row) = row.confirm :=
      ContentRecord.confirmIf_of_chosen (by simpa using hproves)
    rw [hproved]
    by_cases hawaits : row ∈ table.query .awaitingConfirmation
    · exact ContentRecord.confirmIf_of_chosen (by simp [hawaits, hproves])
    · have hconfirmed : row.confirmed = true := by
        obtain ⟨hash, -, -, hsome, -⟩ := hproves
        rw [mem_query_awaitingConfirmation_iff, hsome] at hawaits
        simpa [mem_rows_iff.mp hrow] using hawaits
      rw [ContentRecord.confirm_of_confirmed hconfirmed]
      exact ContentRecord.confirmIf_of_not_chosen (by simp [hawaits])
  · rw [ContentRecord.confirmIf_of_not_chosen (by simp [hproves]),
      ContentRecord.confirmIf_of_not_chosen (by simp [hproves])]

/-- No row of a settled table is left that a pass could confirm. -/
theorem confirmWhere_eq_self_of_settled
    (hsettled : table.settle verifier replies = table)
    (hchosen : ∀ row, chosen row →
      row ∈ table.query .awaitingConfirmation ∧ verifier.Proves replies row) :
    (table.confirmWhere fun row => chosen row) = table := by
  apply confirmWhere_eq_self
  intro row hrow
  apply ContentRecord.confirmIf_of_not_chosen
  rw [decide_eq_false_iff_not]
  intro hrowChosen
  obtain ⟨hawaits, hproves⟩ := hchosen row hrowChosen
  obtain ⟨hfound, hopen, -⟩ := mem_query_awaitingConfirmation_iff.mp hawaits
  have hkept : some (row.confirmIf fun row => verifier.Proves replies row) = some row := by
    have hsame := congrArg (fun table => table.find? row.id) hsettled
    simp only [settle, find?_confirmWhere, hfound, Option.map_some] at hsame
    exact hsame
  rw [ContentRecord.confirmIf_of_chosen (by simpa using hproves), Option.some.injEq] at hkept
  have hconfirmed : row.confirm.confirmed = true := rfl
  rw [hkept, hopen] at hconfirmed
  cases hconfirmed

end ContentTable

/-! ## Passes in turn -/

namespace VerifyRun

/-- The table and the client after one more pass. -/
def passInTurn (verifier : Verifier) (state : ContentTable × Client) (node : Node) :
    ContentTable × Client :=
  let run := complete verifier node .none state.2 state.1
  (run.table, run.client)

/-- The table and the client after passes that follow each other, each with the node as it
is then. -/
def passesInTurn (verifier : Verifier) (state : ContentTable × Client) (nodes : List Node) :
    ContentTable × Client :=
  nodes.foldl (passInTurn verifier) state

section InTurn

variable {verifier : Verifier} {node : Node} {nodes : List Node} {replies : String → Reply}
  {state : ContentTable × Client} {client : Client} {table : ContentTable}

theorem settle_complete
    (hnode : node.RepliesOrFails replies) :
    (complete verifier node .none client table).table.settle verifier replies =
      table.settle verifier replies := by
  obtain ⟨dealt, left, -, htable, -⟩ :=
    complete_of_repliesOrFails verifier client table hnode
  rw [htable]
  exact ContentTable.settle_confirmWhere fun row hchosen => hchosen.2

theorem complete_table_of_done
    (hnode : node.RepliesOrFails replies)
    (hdone : (complete verifier node .none client table).pass.stage = .done) :
    (complete verifier node .none client table).table = table.settle verifier replies := by
  obtain ⟨dealt, left, hsplit, htable, hleft⟩ :=
    complete_of_repliesOrFails verifier client table hnode
  rw [hleft hdone, List.append_nil] at hsplit
  rw [htable, ← hsplit, ContentTable.confirmWhere_awaiting]

theorem complete_table_of_settled
    (hnode : node.RepliesOrFails replies)
    (hsettled : table.settle verifier replies = table) :
    (complete verifier node .none client table).table = table := by
  obtain ⟨dealt, left, hsplit, htable, -⟩ :=
    complete_of_repliesOrFails verifier client table hnode
  rw [htable]
  apply ContentTable.confirmWhere_eq_self_of_settled hsettled
  intro row hchosen
  refine ⟨?_, hchosen.2⟩
  rw [hsplit]
  exact List.mem_append_left _ hchosen.1

/-- A pass ends if the node can always be reached. -/
theorem complete_stage_of_reached
    (hreplies : ∀ hash, IsReached (replies hash))
    (hnode : node.RepliesByHash replies) :
    (complete verifier node .none client table).pass.stage = .done := by
  have hreached : ∀ record ∈ table.query .awaitingConfirmation,
      ∀ error, ¬ IsLost replies record error := by
    intro record _ error hlost
    obtain ⟨hash, -, hlookup, htransport⟩ := hlost
    have hreply := hreplies hash error (eq_error_of_lookupOf hlookup htransport)
    rw [hreply] at htransport
    cases htransport
  exact (complete_of_hears (hears_of_reached hnode
    (fun record => txHash_isSome_of_mem_query) hreached)).1

theorem settle_passesInTurn
    (hnodes : ∀ node ∈ nodes, node.RepliesOrFails replies) :
    (passesInTurn verifier state nodes).1.settle verifier replies =
      state.1.settle verifier replies := by
  induction nodes generalizing state with
  | nil => rfl
  | cons node nodes ih =>
      rw [List.forall_mem_cons] at hnodes
      exact (ih hnodes.2).trans (settle_complete hnodes.1)

theorem passesInTurn_of_settled
    (hnodes : ∀ node ∈ nodes, node.RepliesOrFails replies)
    (hsettled : state.1.settle verifier replies = state.1) :
    (passesInTurn verifier state nodes).1 = state.1 := by
  induction nodes generalizing state with
  | nil => rfl
  | cons node nodes ih =>
      rw [List.forall_mem_cons] at hnodes
      have hkept : (passInTurn verifier state node).1 = state.1 :=
        complete_table_of_settled hnodes.1 hsettled
      have hstill : (passInTurn verifier state node).1.settle verifier replies =
          (passInTurn verifier state node).1 := by
        rw [hkept, hsettled]
      exact (ih hnodes.2 hstill).trans hkept

/-- Once a pass among others has ended, the table is settled. -/
theorem passesInTurn_eq_settle
    {before after : List Node}
    (hbefore : ∀ other ∈ before, other.RepliesOrFails replies)
    (hnode : node.RepliesOrFails replies)
    (hafter : ∀ other ∈ after, other.RepliesOrFails replies)
    (hdone :
      (complete verifier node .none (passesInTurn verifier state before).2
        (passesInTurn verifier state before).1).pass.stage = .done) :
    (passesInTurn verifier state (before ++ node :: after)).1 =
      state.1.settle verifier replies := by
  have hsplit : passesInTurn verifier state (before ++ node :: after) =
      passesInTurn verifier
        (passInTurn verifier (passesInTurn verifier state before) node) after := by
    unfold passesInTurn
    rw [List.foldl_append, List.foldl_cons]
  have htable : (passInTurn verifier (passesInTurn verifier state before) node).1 =
      state.1.settle verifier replies :=
    (complete_table_of_done hnode hdone).trans (settle_passesInTurn hbefore)
  rw [hsplit, passesInTurn_of_settled hafter, htable]
  rw [htable, ContentTable.settle_settle]

theorem interrupted_passes_converge
    (verifier : Verifier) (client : Client) (table : ContentTable)
    {replies : String → Reply} {nodes : List Node}
    (hreplies : ∀ hash, IsReached (replies hash))
    (hnodes : ∀ node ∈ nodes, node.RepliesOrFails replies)
    (hdone : ∃ before node after, nodes = before ++ node :: after ∧
      (complete verifier node .none (passesInTurn verifier (table, client) before).2
        (passesInTurn verifier (table, client) before).1).pass.stage = .done) :
    (∀ (steady : Node) (fresh : Client), steady.RepliesByHash replies →
        (complete verifier steady .none fresh table).pass.stage = .done ∧
          (passesInTurn verifier (table, client) nodes).1 =
            (complete verifier steady .none fresh table).table) ∧
      ∀ further : List Node, (∀ node ∈ further, node.RepliesOrFails replies) →
        (passesInTurn verifier (passesInTurn verifier (table, client) nodes) further).1 =
          (passesInTurn verifier (table, client) nodes).1 := by
  obtain ⟨before, node, after, rfl, hdone⟩ := hdone
  rw [List.forall_mem_append, List.forall_mem_cons] at hnodes
  have hsettled := passesInTurn_eq_settle hnodes.1 hnodes.2.1 hnodes.2.2 hdone
  constructor
  · intro steady fresh hsteady
    have hended : (complete verifier steady .none fresh table).pass.stage = .done :=
      complete_stage_of_reached hreplies hsteady
    refine ⟨hended, ?_⟩
    rw [hsettled, complete_table_of_done hsteady.repliesOrFails hended]
  · intro further hfurther
    apply passesInTurn_of_settled hfurther
    rw [hsettled, ContentTable.settle_settle]

end InTurn

/-! Two outages: the first pass confirms one record and fails at the next, the second one
reaches nothing, and the third one ends. -/

def minedReplies (hash : String) : Reply :=
  if hash = "0xb" then unknownReply else minedReply

def unreachableNode : Node :=
  fun _ => .error (.status 503)

def partlyReachableNode : Node :=
  .byHash fun hash => if hash = "0xb" then .error (.status 503) else minedReplies hash

theorem interrupted_passes_converge_outages :
    (∀ hash, IsReached (minedReplies hash)) ∧
      (∀ node ∈ [partlyReachableNode, unreachableNode, Node.byHash minedReplies],
        node.RepliesOrFails minedReplies) ∧
      (passesInTurn lenientVerifier (submittedRecords, .fresh)
          [partlyReachableNode, unreachableNode, Node.byHash minedReplies]).1.rows =
        [(submittedRecord 1 (some "0xa")).confirm, submittedRecord 2 none,
          submittedRecord 3 (some "0xb"), (submittedRecord 5 (some "0xc")).confirm] := by
  have hreplies : ∀ hash, IsReached (minedReplies hash) := by
    intro hash
    unfold minedReplies
    split <;> exact isReached_ok _
  have hsteady := Node.repliesByHash_byHash minedReplies
  have hpartly : partlyReachableNode.RepliesOrFails minedReplies := by
    intro client hash
    unfold partlyReachableNode
    rw [Node.repliesByHash_byHash]
    split
    · exact Or.inr ⟨.status 503, rfl, rfl⟩
    · exact Or.inl rfl
  have hnodes : ∀ node ∈ [partlyReachableNode, unreachableNode, Node.byHash minedReplies],
      node.RepliesOrFails minedReplies := by
    simp only [List.forall_mem_cons]
    refine ⟨hpartly, ?_, hsteady.repliesOrFails, by simp⟩
    intro client hash
    exact Or.inr ⟨.status 503, rfl, rfl⟩
  have hconverge := interrupted_passes_converge lenientVerifier .fresh submittedRecords hreplies
    hnodes ⟨[partlyReachableNode, unreachableNode], _, [], rfl,
      complete_stage_of_reached hreplies hsteady⟩
  refine ⟨hreplies, hnodes, ?_⟩
  rw [(hconverge.1 _ .fresh hsteady).2]
  decide +kernel

end VerifyRun
end MintWatch

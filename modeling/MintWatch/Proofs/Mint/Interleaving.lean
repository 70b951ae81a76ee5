import Mathlib
import MintWatch.Proofs.Mint.ConfirmationHistory
import MintWatch.Proofs.Mint.PassEffect
/-!
# Overlapping passes

Passes over one table take turns: one starts, one is answered, one saves a record, in any
order, and the application may write between any two turns.  A pass works on what it has
read, so what it still holds has to be compared with the rows that are stored by then.
As long as only passes write, the two agree but for confirmations: the table is the one
at the start with some rows confirmed, and each of these has been paid for by an answer
that some pass received.
-/

namespace MintWatch

/-- What the application has submitted of a record: all but whether it is confirmed. -/
def ContentRecord.submission (record : ContentRecord) :
    Int × String × Option String × Option String :=
  (record.id, record.ownerAddress, record.metadataRef, record.txHash)

theorem ContentRecord.submission_confirm
    (record : ContentRecord) :
    record.confirm.submission = record.submission :=
  rfl

theorem ContentRecord.submission_confirmIf
    (chosen : ContentRecord → Bool) (row : ContentRecord) :
    (row.confirmIf chosen).submission = row.submission := by
  unfold confirmIf
  split <;> rfl

theorem ContentTable.submissions_confirmWhere
    (table : ContentTable) (chosen : ContentRecord → Bool) :
    (table.confirmWhere chosen).rows.map ContentRecord.submission =
      table.rows.map ContentRecord.submission := by
  unfold confirmWhere
  rw [List.map_map]
  apply List.map_congr_left
  intro row _
  exact ContentRecord.submission_confirmIf chosen row

/-! ## Turns -/

/-- A pass on its way, with what it verifies records with. -/
structure RunningPass where
  verifier : Verifier
  pass : VerifyPass

/-- A table with the passes that work on it, and the client by which all of them post. -/
structure PassPool where
  table : ContentTable
  client : Client
  running : List RunningPass

inductive Turn where
  /-- A pass starts and reads the table. -/
  | enter (verifier : Verifier) (faults : StoreFaults)
  /-- The pass at a place takes its next step, with the node and the store as they are then. -/
  | advance (place : Nat) (node : Node) (faults : StoreFaults)
  /-- The application saves a record. -/
  | save (record : ContentRecord)
  /-- The application deletes a record. -/
  | delete (record : ContentRecord)

/-- Whether a turn belongs to a pass and not to the application. -/
def Turn.IsOfPass : Turn → Prop
  | .enter _ _ => True
  | .advance _ _ _ => True
  | .save _ => False
  | .delete _ => False

namespace PassPool

/-- The run of a pass, to which the table and the client are as they are now. -/
def runOf (pool : PassPool) (running : RunningPass) : VerifyRun :=
  ⟨running.pass, pool.table, pool.client⟩

def take (pool : PassPool) : Turn → PassPool
  | .enter verifier faults =>
    { pool with running := pool.running ++ [⟨verifier, .start faults pool.table⟩] }
  | .advance place node faults =>
    match pool.running[place]? with
    | none => pool
    | some running =>
      let run := VerifyRun.step running.verifier node faults (pool.runOf running)
      ⟨run.table, run.client, pool.running.set place ⟨running.verifier, run.pass⟩⟩
  | .save record => { pool with table := pool.table.save record }
  | .delete record => { pool with table := (pool.table.delete record).1 }

def play (pool : PassPool) (turns : List Turn) : PassPool :=
  turns.foldl take pool

/-- The turns that are taken, each with the pool in which it is taken. -/
def history : PassPool → List Turn → List (PassPool × Turn)
  | _, [] => []
  | pool, turn :: rest => (pool, turn) :: history (pool.take turn) rest

/-- Whether in a turn a pass that asks about a row receives its transaction, and the
transaction's input decodes to a mint of the row. -/
def ReceivesMintOf (pool : PassPool) (turn : Turn) (row : ContentRecord) : Prop :=
  ∃ place node faults running record left hash transaction call,
    turn = .advance place node faults ∧ pool.running[place]? = some running ∧
      running.pass.stage = .asking (record :: left) ∧ record.id = row.id ∧
      row.txHash = some hash ∧
      lookupOf hash (node (pool.client.transaction hash none).2.envelope) = .ok transaction ∧
      running.verifier.decode transaction.rawInput = .ok call ∧
      checkMint call row running.verifier.mintFunction = .ok ()

/-- Whether a mint of a row has been received in a number of turns. -/
def IsReceived (past : List (PassPool × Turn)) (row : ContentRecord) : Prop :=
  ∃ moment ∈ past, moment.1.ReceivesMintOf moment.2 row

theorem IsReceived.append
    {past : List (PassPool × Turn)} {row : ContentRecord}
    (hreceived : IsReceived past row)
    (later : List (PassPool × Turn)) :
    IsReceived (past ++ later) row := by
  obtain ⟨moment, hmember, hmint⟩ := hreceived
  exact ⟨moment, List.mem_append_left _ hmember, hmint⟩

theorem play_append
    (pool : PassPool) (earlier later : List Turn) :
    pool.play (earlier ++ later) = (pool.play earlier).play later :=
  List.foldl_append

theorem take_advance_of_absent
    {pool : PassPool} {place : Nat}
    (habsent : pool.running[place]? = none)
    (node : Node) (faults : StoreFaults) :
    pool.take (.advance place node faults) = pool := by
  unfold take
  simp only [habsent]

theorem take_advance
    {pool : PassPool} {place : Nat} {running : RunningPass}
    (hplace : pool.running[place]? = some running)
    (node : Node) (faults : StoreFaults) :
    pool.take (.advance place node faults) =
      let run := VerifyRun.step running.verifier node faults (pool.runOf running)
      ⟨run.table, run.client, pool.running.set place ⟨running.verifier, run.pass⟩⟩ := by
  unfold take
  simp only [hplace]

end PassPool

/-! ## What one pass holds -/

namespace VerifyRun

variable {verifier : Verifier} {node : Node} {faults : StoreFaults} {run next : VerifyRun}
  {start : ContentTable} {received received' : ContentRecord → Prop}

/-- Whether a row is what a record was read from, up to confirmations since. -/
def IsSourceOf (start : ContentTable) (record row : ContentRecord) : Prop :=
  start.find? record.id = some row ∧ row.confirm = record.confirm

/-- What holds of a pass among others: what it has left has been read from rows of the
table at the start, and a mint has been received of the row that it is about to save. -/
structure IsFaithful (start : ContentTable) (received : ContentRecord → Prop)
    (run : VerifyRun) : Prop where
  read : ∀ record ∈ run.remaining, ∃ row, IsSourceOf start record row
  found : ∀ record left, run.pass.stage = .saving record left →
    record.confirmed = true ∧ ∃ row, IsSourceOf start record row ∧ received row

theorem IsFaithful.mono
    (hfaithful : run.IsFaithful start received)
    (hmono : ∀ row, received row → received' row) :
    run.IsFaithful start received' := by
  refine ⟨hfaithful.read, ?_⟩
  intro record left hstage
  obtain ⟨hconfirmed, row, hsource, hreceived⟩ := hfaithful.found record left hstage
  exact ⟨hconfirmed, row, hsource, hmono row hreceived⟩

theorem isFaithful_of_isOver
    (hover : next.IsOver) :
    next.IsFaithful start received := by
  constructor
  · rw [remaining_of_isOver hover]
    intro record hmember
    cases hmember
  · intro record left hsaving
    exact absurd hsaving (ne_saving_of_isOver hover record left)

/-- A step keeps a pass faithful, if the mint that it may receive is taken into account. -/
theorem IsFaithful.step
    (hfaithful : run.IsFaithful start received)
    (hstep : Step verifier node faults run next)
    (hreceive : ∀ record left row, run.pass.stage = .asking (record :: left) →
      (verifier.verify run.client node record).2 = .ok .confirmed →
      IsSourceOf start record row → received row) :
    next.IsFaithful start received := by
  have hread := hfaithful.read
  cases hstep with
  | finish hstage => exact isFaithful_of_isOver (Or.inl rfl)
  | lose hstage hverify => exact isFaithful_of_isOver (Or.inr ⟨_, rfl⟩)
  | @confirm record left client hstage hverify =>
      rw [remaining_of_asking hstage, List.forall_mem_cons] at hread
      obtain ⟨row, hsource⟩ := hread.1
      constructor
      · exact List.forall_mem_cons.mpr ⟨⟨row, hsource⟩, hread.2⟩
      · intro other others hsaving
        obtain ⟨rfl, rfl⟩ := PassStage.saving.inj hsaving
        have hreceived := hreceive record left row hstage (by rw [hverify]) hsource
        exact ⟨rfl, row, hsource, hreceived⟩
  | @reject record left client reason hstage hverify =>
      rw [remaining_of_asking hstage, List.forall_mem_cons] at hread
      constructor
      · exact hread.2
      · intro other others hsaving
        cases hsaving
  | refuse hstage hfault => exact isFaithful_of_isOver (Or.inr ⟨_, rfl⟩)
  | @store record left hstage hfault =>
      rw [remaining_of_saving hstage, List.forall_mem_cons] at hread
      constructor
      · exact hread.2
      · intro other others hsaving
        cases hsaving
  | rest => exact hfaithful

/-- A step leaves the table as it is, or saves the record that the pass holds. -/
theorem table_of_step
    (hstep : Step verifier node faults run next) :
    next.table = run.table ∨
      ∃ record left, run.pass.stage = .saving record left ∧
        next.table = run.table.save record := by
  cases hstep with
  | @store record left hstage hfault => exact Or.inr ⟨record, left, hstage, rfl⟩
  | finish hstage => exact Or.inl rfl
  | lose hstage hverify => exact Or.inl rfl
  | confirm hstage hverify => exact Or.inl rfl
  | reject hstage hverify => exact Or.inl rfl
  | refuse hstage hfault => exact Or.inl rfl
  | rest => exact Or.inl rfl

end VerifyRun

/-! ## What all passes keep -/

namespace PassPool

variable {start : ContentTable} {past : List (PassPool × Turn)} {pool : PassPool}
  {running : RunningPass} {place : Nat} {node : Node} {faults : StoreFaults}

/-- What holds after a number of turns if only passes have taken turns. -/
structure IsFaithful (start : ContentTable) (past : List (PassPool × Turn))
    (pool : PassPool) : Prop where
  table : ∃ chosen, pool.table = start.confirmWhere chosen
  passes : ∀ running ∈ pool.running, (pool.runOf running).IsFaithful start (IsReceived past)
  earned : ∀ row, start.find? row.id = some row → pool.table.confirms row.id = true →
    row.confirmed = true ∨ IsReceived past row

theorem receivesMintOf_of_verify
    {record row : ContentRecord} {left : List ContentRecord}
    (hplace : pool.running[place]? = some running)
    (hstage : running.pass.stage = .asking (record :: left))
    (hconfirmed : (running.verifier.verify pool.client node record).2 = .ok .confirmed)
    (hsource : VerifyRun.IsSourceOf start record row) :
    pool.ReceivesMintOf (.advance place node faults) row := by
  obtain ⟨hash, transaction, call, hhash, hlookup, hcall, hmint⟩ :=
    Verifier.proof_of_verify hconfirmed
  obtain ⟨hfound, hsame⟩ := hsource
  have hid : record.id = row.id := (ContentTable.find?_eq_some_iff.mp hfound).2.symm
  have hrowHash : row.txHash = some hash := by
    rw [← ContentRecord.txHash_confirm, hsame, ContentRecord.txHash_confirm, hhash]
  have hrowMint : checkMint call row running.verifier.mintFunction = .ok () := by
    rw [← checkMint_confirm, hsame, checkMint_confirm, hmint]
  exact ⟨place, node, faults, running, record, left, hash, transaction, call, rfl, hplace,
    hstage, hid, hrowHash, hlookup, hcall, hrowMint⟩

theorem isFaithful_opened
    (table : ContentTable) (client : Client) :
    IsFaithful table [] ⟨table, client, []⟩ := by
  refine ⟨⟨fun _ => false, ?_⟩, ?_, ?_⟩
  · rw [ContentTable.confirmWhere_eq_self]
    intro row _
    exact ContentRecord.confirmIf_of_not_chosen rfl
  · intro running hmember
    cases hmember
  · intro row hfound hconfirms
    left
    unfold ContentTable.confirms at hconfirms
    rwa [hfound, Option.any_some] at hconfirms

theorem isSourceOf_of_mem_query
    {record : ContentRecord}
    (htable : ∃ chosen, pool.table = start.confirmWhere chosen)
    (hmember : record ∈ pool.table.query .awaitingConfirmation) :
    ∃ row, VerifyRun.IsSourceOf start record row := by
  obtain ⟨chosen, hchosen⟩ := htable
  have hfound := (ContentTable.mem_query_awaitingConfirmation_iff.mp hmember).1
  rw [hchosen, ContentTable.find?_confirmWhere] at hfound
  obtain ⟨row, hrow, hsame⟩ := Option.map_eq_some_iff.mp hfound
  refine ⟨row, hrow, ?_⟩
  rw [← hsame, ContentRecord.confirm_confirmIf]

/-- A pass starts faithful: it reads rows that are as at the start, up to confirmations. -/
theorem isFaithful_start
    {received : ContentRecord → Prop}
    (htable : ∃ chosen, pool.table = start.confirmWhere chosen)
    (verifier : Verifier) (faults : StoreFaults) :
    (pool.runOf ⟨verifier, .start faults pool.table⟩).IsFaithful start received := by
  unfold runOf VerifyPass.start
  cases faults.read with
  | some text => exact VerifyRun.isFaithful_of_isOver (Or.inr ⟨_, rfl⟩)
  | none =>
      constructor
      · intro record hmember
        exact isSourceOf_of_mem_query htable hmember
      · intro record left hsaving
        cases hsaving

/-- What a faithful pass saves is a row as at the start, confirmed. -/
theorem save_of_isFaithful
    {record row : ContentRecord}
    (htable : ∃ chosen, pool.table = start.confirmWhere chosen)
    (hconfirmed : record.confirmed = true)
    (hsource : VerifyRun.IsSourceOf start record row) :
    ∃ chosen, pool.table.save record = start.confirmWhere chosen := by
  obtain ⟨chosen, hchosen⟩ := htable
  have hstored : (pool.table.find? record.id).map ContentRecord.confirm = some record.confirm := by
    rw [hchosen, ContentTable.find?_confirmWhere, hsource.1]
    simp only [Option.map_some, ContentRecord.confirm_confirmIf, hsource.2]
  have hsave := ContentTable.save_confirm hstored
  rw [ContentRecord.confirm_of_confirmed hconfirmed, hchosen,
    ContentTable.confirmWhere_confirmWhere] at hsave
  exact ⟨_, hchosen ▸ hsave⟩

theorem IsFaithful.append
    (hfaithful : pool.IsFaithful start past)
    (later : List (PassPool × Turn)) :
    pool.IsFaithful start (past ++ later) := by
  refine ⟨hfaithful.table, ?_, ?_⟩
  · intro running hmember
    exact (hfaithful.passes running hmember).mono fun row hreceived => hreceived.append later
  · intro row hfound hconfirms
    exact (hfaithful.earned row hfound hconfirms).imp_right
      fun hreceived => hreceived.append later

theorem IsFaithful.enter
    (hfaithful : pool.IsFaithful start past)
    (verifier : Verifier) (faults : StoreFaults) :
    (pool.take (.enter verifier faults)).IsFaithful start past := by
  refine ⟨hfaithful.table, ?_, hfaithful.earned⟩
  intro running hmember
  rcases List.mem_append.mp hmember with hold | hnew
  · have hkept := hfaithful.passes running hold
    exact ⟨hkept.read, hkept.found⟩
  · rw [List.mem_singleton.mp hnew]
    exact isFaithful_start hfaithful.table verifier faults

/-- The mint that a pass receives in its step counts as received when the step is over. -/
theorem IsFaithful.advance
    (hfaithful : pool.IsFaithful start past)
    (hreceive : ∀ row, pool.ReceivesMintOf (.advance place node faults) row →
      IsReceived past row) :
    (pool.take (.advance place node faults)).IsFaithful start past := by
  cases hplace : pool.running[place]? with
  | none =>
      rw [take_advance_of_absent hplace]
      exact hfaithful
  | some running =>
      have hpass := hfaithful.passes running (List.mem_of_getElem? hplace)
      have hstep := VerifyRun.step_spec running.verifier node faults (pool.runOf running)
      have hnext := hpass.step hstep fun record left row hstage hconfirmed hsource =>
        hreceive row (receivesMintOf_of_verify hplace hstage hconfirmed hsource)
      rw [take_advance hplace]
      refine ⟨?_, ?_, ?_⟩
      · rcases VerifyRun.table_of_step hstep with hsame | ⟨record, left, hstage, hsave⟩
        · simp only [hsame]
          exact hfaithful.table
        · obtain ⟨hconfirmed, row, hsource, -⟩ := hpass.found record left hstage
          simp only [hsave]
          exact save_of_isFaithful hfaithful.table hconfirmed hsource
      · intro other hother
        rcases List.mem_or_eq_of_mem_set hother with hold | rfl
        · have hkept := hfaithful.passes other hold
          exact ⟨hkept.read, hkept.found⟩
        · exact hnext
      · intro row hfound hconfirms
        rcases VerifyRun.table_of_step hstep with hsame | ⟨record, left, hstage, hsave⟩
        · simp only [hsame] at hconfirms
          exact hfaithful.earned row hfound hconfirms
        · simp only [hsave] at hconfirms
          rw [ContentTable.confirms_save, Bool.or_eq_true] at hconfirms
          rcases hconfirms with hbefore | hnow
          · exact hfaithful.earned row hfound hbefore
          · obtain ⟨-, source, hsource, hreceived⟩ := hpass.found record left hstage
            have hid : record.id = row.id := by simpa using (Bool.and_eq_true_iff.mp hnow).1
            rw [VerifyRun.IsSourceOf, hid, hfound, Option.some.injEq] at hsource
            exact Or.inr (hsource.1 ▸ hreceived)

theorem isReceived_append_of_receivesMintOf
    {turn : Turn} {row : ContentRecord}
    (past : List (PassPool × Turn))
    (hmint : pool.ReceivesMintOf turn row) :
    IsReceived (past ++ [(pool, turn)]) row :=
  ⟨(pool, turn), List.mem_append_right _ List.mem_cons_self, hmint⟩

theorem IsFaithful.play
    {turns : List Turn}
    (hfaithful : pool.IsFaithful start past)
    (hpasses : ∀ turn ∈ turns, turn.IsOfPass) :
    (pool.play turns).IsFaithful start (past ++ pool.history turns) := by
  induction turns generalizing pool past with
  | nil =>
      rw [history, List.append_nil]
      exact hfaithful
  | cons turn turns ih =>
      rw [List.forall_mem_cons] at hpasses
      have hsofar := hfaithful.append [(pool, turn)]
      have hnext : (pool.take turn).IsFaithful start (past ++ [(pool, turn)]) := by
        cases turn with
        | enter verifier faults => exact hsofar.enter verifier faults
        | advance place node faults =>
            exact hsofar.advance fun row => isReceived_append_of_receivesMintOf past
        | save record => exact hpasses.1.elim
        | delete record => exact hpasses.1.elim
      have hlater := ih hnext hpasses.2
      rw [List.append_assoc] at hlater
      exact hlater

theorem confirms_take
    {turn : Turn} {id : Int}
    (hpass : turn.IsOfPass)
    (hconfirms : pool.table.confirms id = true) :
    (pool.take turn).table.confirms id = true := by
  cases turn with
  | enter verifier faults => exact hconfirms
  | advance place node faults =>
      cases hplace : pool.running[place]? with
      | none =>
          rw [take_advance_of_absent hplace]
          exact hconfirms
      | some running =>
          rw [take_advance hplace]
          exact VerifyRun.confirms_of_step
            (VerifyRun.step_spec running.verifier node faults (pool.runOf running)) hconfirms
  | save record => exact hpass.elim
  | delete record => exact hpass.elim

theorem confirms_play
    {turns : List Turn} {id : Int}
    (hpasses : ∀ turn ∈ turns, turn.IsOfPass)
    (hconfirms : pool.table.confirms id = true) :
    (pool.play turns).table.confirms id = true := by
  induction turns generalizing pool with
  | nil => exact hconfirms
  | cons turn turns ih =>
      rw [List.forall_mem_cons] at hpasses
      exact ih hpasses.2 (confirms_take hpasses.1 hconfirms)

theorem overlapping_passes_only_confirm
    (table : ContentTable) (client : Client) (turns : List Turn)
    (hpasses : ∀ turn ∈ turns, turn.IsOfPass) :
    let start : PassPool := ⟨table, client, []⟩
    (start.play turns).table.rows.map ContentRecord.submission =
        table.rows.map ContentRecord.submission ∧
      (∀ earlier later, turns = earlier ++ later →
        ∀ id, (start.play earlier).table.confirms id = true →
          (start.play turns).table.confirms id = true) ∧
      ∀ row ∈ table.rows, row.confirmed = false →
        (start.play turns).table.confirms row.id = true →
          ∃ moment ∈ start.history turns, moment.1.ReceivesMintOf moment.2 row := by
  intro start
  have hfaithful : (start.play turns).IsFaithful table ([] ++ start.history turns) :=
    (isFaithful_opened table client).play hpasses
  refine ⟨?_, ?_, ?_⟩
  · obtain ⟨chosen, hchosen⟩ := hfaithful.table
    rw [hchosen, ContentTable.submissions_confirmWhere]
  · intro earlier later hsplit id hconfirms
    subst hsplit
    rw [play_append]
    exact confirms_play (List.forall_mem_append.mp hpasses).2 hconfirms
  · intro row hmember hopen hconfirms
    rcases hfaithful.earned row (ContentTable.mem_rows_iff.mp hmember) hconfirms with
      hconfirmed | hreceived
    · rw [hopen] at hconfirmed
      cases hconfirmed
    · exact hreceived

/-! Two passes over one table: to the first one a transaction is mined that the second one
does not know of, and the second one has gone on when the first one saves. -/

def overlappingTurns : List Turn :=
  [.enter VerifyRun.lenientVerifier .none, .enter VerifyRun.lenientVerifier .none,
    .advance 0 (fun _ => VerifyRun.minedReply) .none,
    .advance 1 (fun _ => VerifyRun.unknownReply) .none,
    .advance 0 (fun _ => VerifyRun.unknownReply) .none,
    .advance 1 (fun _ => .error (.status 503)) .none]

theorem overlapping_passes_only_confirm_two :
    let start : PassPool := ⟨VerifyRun.submittedRecords, .fresh, []⟩
    let minted := VerifyRun.submittedRecord 1 (some "0xa")
    (∀ turn ∈ overlappingTurns, turn.IsOfPass) ∧
      (start.play overlappingTurns).table.confirms 1 = true ∧
      ∃ moment ∈ start.history overlappingTurns, moment.1.ReceivesMintOf moment.2 minted := by
  intro start minted
  have hpasses : ∀ turn ∈ overlappingTurns, turn.IsOfPass := by
    simp [overlappingTurns, Turn.IsOfPass]
  have hconfirms : (start.play overlappingTurns).table.confirms 1 = true := by
    decide +kernel
  obtain ⟨-, -, hearned⟩ := overlapping_passes_only_confirm VerifyRun.submittedRecords .fresh
    overlappingTurns hpasses
  exact ⟨hpasses, hconfirms, hearned minted List.mem_cons_self rfl hconfirms⟩

end PassPool
end MintWatch

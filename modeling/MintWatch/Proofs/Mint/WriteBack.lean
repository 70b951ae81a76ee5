import Mathlib
import MintWatch.Proofs.Mint.Convergence
import MintWatch.Proofs.Mint.Interleaving
/-!
# What a pass writes back

A pass saves the record that it has read, as a whole, and the application may write the
row between the two.  So the save does not keep what the application has made of the row:
it brings back what was read, confirmed, even where the row was deleted.  The other rows
stay as they are, and what is confirmed is what was verified.
-/

namespace MintWatch

/-- Whether a turn starts a pass. -/
def Turn.StartsPass : Turn → Prop
  | .enter _ _ => True
  | .advance _ _ _ => False
  | .save _ => False
  | .delete _ => False

namespace ContentTable

/-- What the application alone makes of a table in a turn. -/
def write (table : ContentTable) : Turn → ContentTable
  | .enter _ _ => table
  | .advance _ _ _ => table
  | .save record => table.save record
  | .delete record => (table.delete record).1

def writeAll (table : ContentTable) (turns : List Turn) : ContentTable :=
  turns.foldl write table

variable {table written : ContentTable} {id : Int}

/-- Equal writes do not tell two rows of one id apart. -/
theorem find?_save_congr
    (record : ContentRecord)
    (hsame : table.find? id = written.find? id) :
    (table.save record).find? id = (written.save record).find? id := by
  rw [find?_save, find?_save, hsame]

theorem find?_delete_congr
    (record : ContentRecord)
    (hsame : table.find? id = written.find? id) :
    (table.delete record).1.find? id = (written.delete record).1.find? id := by
  rw [find?_delete, find?_delete, hsame]

end ContentTable

/-! ## What a pass works on -/

namespace VerifyRun

variable {verifier : Verifier} {node : Node} {faults : StoreFaults} {run next : VerifyRun}
  {read : List ContentRecord} {table written : ContentTable}
  {received received' : ContentRecord → Prop}

/-- What holds of a pass whose table only the application writes beside it: it has the last
of the records that it has read, and their rows are as the application has written them. -/
structure WorksOn (read : List ContentRecord) (written : ContentTable)
    (received : ContentRecord → Prop) (run : VerifyRun) : Prop where
  asking : ∀ left, run.pass.stage = .asking left → left <:+ read
  saving : ∀ record left, run.pass.stage = .saving record left →
    ∃ snapshot, record = snapshot.confirm ∧ snapshot :: left <:+ read ∧ received snapshot
  untouched : ∀ record ∈ run.remaining, run.table.find? record.id = written.find? record.id

theorem WorksOn.mono
    (hworks : run.WorksOn read written received)
    (hmono : ∀ row, received row → received' row) :
    run.WorksOn read written received' := by
  refine ⟨hworks.asking, ?_, hworks.untouched⟩
  intro record left hstage
  obtain ⟨snapshot, hrecord, hsuffix, hreceived⟩ := hworks.saving record left hstage
  exact ⟨snapshot, hrecord, hsuffix, hmono snapshot hreceived⟩

/-- A write of the application that is the same to both tables. -/
theorem WorksOn.write
    (hworks : run.WorksOn read written received)
    {table' written' : ContentTable}
    (hsame : ∀ id, run.table.find? id = written.find? id → table'.find? id = written'.find? id) :
    WorksOn read written' received { run with table := table' } :=
  ⟨hworks.asking, hworks.saving, fun record hmember =>
    hsame record.id (hworks.untouched record hmember)⟩

theorem worksOn_of_isOver
    (hover : next.IsOver) :
    next.WorksOn read written received := by
  refine ⟨?_, ?_, ?_⟩
  · intro left hstage
    exact absurd hstage (ne_asking_of_isOver hover left)
  · intro record left hstage
    exact absurd hstage (ne_saving_of_isOver hover record left)
  · rw [remaining_of_isOver hover]
    intro record hmember
    cases hmember

theorem worksOn_start
    (faults : StoreFaults) (client : Client) (table : ContentTable) :
    WorksOn (table.query .awaitingConfirmation) table received
      ⟨.start faults table, table, client⟩ := by
  unfold VerifyPass.start
  cases faults.read with
  | some text => exact worksOn_of_isOver (Or.inr ⟨_, rfl⟩)
  | none =>
      refine ⟨?_, ?_, fun _ _ => rfl⟩
      · intro left hstage
        rw [← PassStage.asking.inj hstage]
      · intro record left hstage
        cases hstage

theorem WorksOn.step
    (hworks : run.WorksOn read written received)
    (hascending : AscendingIds read)
    (hstep : Step verifier node faults run next)
    (hreceive : ∀ record left, run.pass.stage = .asking (record :: left) → record ∈ read →
      (verifier.verify run.client node record).2 = .ok .confirmed → received record) :
    next.WorksOn read written received := by
  have huntouched := hworks.untouched
  cases hstep with
  | finish hstage => exact worksOn_of_isOver (Or.inl rfl)
  | lose hstage hverify => exact worksOn_of_isOver (Or.inr ⟨_, rfl⟩)
  | @confirm record left client hstage hverify =>
      have hsuffix := hworks.asking _ hstage
      rw [remaining_of_asking hstage, List.forall_mem_cons] at huntouched
      refine ⟨?_, ?_, List.forall_mem_cons.mpr huntouched⟩
      · intro others hasking
        cases hasking
      · intro other others hsaving
        obtain ⟨rfl, rfl⟩ := PassStage.saving.inj hsaving
        have hmember : record ∈ read := hsuffix.mem List.mem_cons_self
        exact ⟨record, rfl, hsuffix, hreceive record left hstage hmember (by rw [hverify])⟩
  | @reject record left client reason hstage hverify =>
      have hsuffix := hworks.asking _ hstage
      rw [remaining_of_asking hstage, List.forall_mem_cons] at huntouched
      refine ⟨?_, ?_, huntouched.2⟩
      · intro others hasking
        rw [← PassStage.asking.inj hasking]
        exact (List.suffix_cons record left).trans hsuffix
      · intro other others hsaving
        cases hsaving
  | refuse hstage hfault => exact worksOn_of_isOver (Or.inr ⟨_, rfl⟩)
  | @store record left hstage hfault =>
      obtain ⟨snapshot, rfl, hsuffix, -⟩ := hworks.saving record left hstage
      rw [remaining_of_saving hstage, List.forall_mem_cons] at huntouched
      refine ⟨?_, ?_, ?_⟩
      · intro others hasking
        rw [← PassStage.asking.inj hasking]
        exact (List.suffix_cons snapshot left).trans hsuffix
      · intro other others hsaving
        cases hsaving
      · -- The records that have been read have different ids, so the save is of another row.
        intro other hmember
        have hlater : snapshot.id < other.id :=
          (List.pairwise_cons.mp (hascending.sublist hsuffix.sublist)).1 other hmember
        have hdiffers : snapshot.confirm.id ≠ other.id := hlater.ne
        change (run.table.save snapshot.confirm).find? other.id = _
        rw [ContentTable.find?_save, if_neg hdiffers]
        exact huntouched.2 other hmember
  | rest => exact hworks

end VerifyRun

/-! ## One pass and the application -/

namespace PassPool

variable {verifier : Verifier} {table written : ContentTable} {past : List (PassPool × Turn)}
  {pool : PassPool} {running : RunningPass} {node : Node} {faults : StoreFaults}

/-- A pool with one pass, which has just read the table. -/
def onePass (verifier : Verifier) (client : Client) (table : ContentTable) : PassPool :=
  ⟨table, client, [⟨verifier, .start .none table⟩]⟩

/-- What holds after a number of turns in which no further pass has started. -/
structure WorksAlone (table written : ContentTable) (past : List (PassPool × Turn))
    (pool : PassPool) : Prop where
  only : ∃ running, pool.running = [running]
  works : ∀ running ∈ pool.running,
    (pool.runOf running).WorksOn (table.query .awaitingConfirmation) written (IsReceived past)

theorem worksAlone_onePass
    (verifier : Verifier) (client : Client) (table : ContentTable) :
    (onePass verifier client table).WorksAlone table table [] := by
  refine ⟨⟨_, rfl⟩, ?_⟩
  intro running hmember
  rw [List.mem_singleton.mp hmember]
  exact VerifyRun.worksOn_start .none client table

theorem WorksAlone.append
    (halone : pool.WorksAlone table written past)
    (later : List (PassPool × Turn)) :
    pool.WorksAlone table written (past ++ later) := by
  refine ⟨halone.only, ?_⟩
  intro running hmember
  exact (halone.works running hmember).mono fun row hreceived => hreceived.append later

theorem WorksAlone.write
    (halone : pool.WorksAlone table written past)
    {table' written' : ContentTable}
    (hsame : ∀ id, pool.table.find? id = written.find? id → table'.find? id = written'.find? id) :
    WorksAlone table written' past { pool with table := table' } := by
  refine ⟨halone.only, ?_⟩
  intro running hmember
  exact (halone.works running hmember).write hsame

theorem WorksAlone.advance
    {place : Nat}
    (halone : pool.WorksAlone table written past)
    (hreceive : ∀ row, pool.ReceivesMintOf (.advance place node faults) row →
      IsReceived past row) :
    (pool.take (.advance place node faults)).WorksAlone table written past := by
  obtain ⟨running, hrunning⟩ := halone.only
  cases place with
  | succ place =>
      have habsent : pool.running[place + 1]? = none := by
        rw [hrunning]
        rfl
      rw [take_advance_of_absent habsent]
      exact halone
  | zero =>
      have hplace : pool.running[0]? = some running := by
        rw [hrunning]
        rfl
      have hworks := halone.works running (List.mem_of_getElem? hplace)
      have hstep := VerifyRun.step_spec running.verifier node faults (pool.runOf running)
      have hnext := hworks.step (table.ascendingIds_query _) hstep
        fun record left hstage hread hconfirmed =>
          hreceive record (receivesMintOf_of_verify hplace hstage hconfirmed
            ⟨(ContentTable.mem_query_awaitingConfirmation_iff.mp hread).1, rfl⟩)
      rw [take_advance hplace, hrunning]
      refine ⟨⟨_, rfl⟩, ?_⟩
      intro other hother
      rw [List.mem_singleton.mp hother]
      exact hnext

theorem WorksAlone.play
    {turns : List Turn}
    (halone : pool.WorksAlone table written past)
    (hsingle : ∀ turn ∈ turns, ¬ turn.StartsPass) :
    (pool.play turns).WorksAlone table (written.writeAll turns) (past ++ pool.history turns) := by
  induction turns generalizing pool past written with
  | nil =>
      rw [history, List.append_nil]
      exact halone
  | cons turn turns ih =>
      rw [List.forall_mem_cons] at hsingle
      have hsofar := halone.append [(pool, turn)]
      have hnext : (pool.take turn).WorksAlone table (written.write turn)
          (past ++ [(pool, turn)]) := by
        cases turn with
        | enter verifier faults => exact absurd trivial hsingle.1
        | advance place node faults =>
            exact hsofar.advance fun row => isReceived_append_of_receivesMintOf past
        | save record => exact hsofar.write fun id => ContentTable.find?_save_congr record
        | delete record => exact hsofar.write fun id => ContentTable.find?_delete_congr record
      have hlater := ih hnext hsingle.2
      rw [List.append_assoc] at hlater
      exact hlater

theorem table_take_advance
    {record : ContentRecord} {left : List ContentRecord}
    (hplace : pool.running[0]? = some running)
    (hstage : running.pass.stage = .saving record left)
    (hstored : faults.write = none) :
    (pool.take (.advance 0 node faults)).table = pool.table.save record := by
  rw [take_advance hplace]
  unfold VerifyRun.step runOf
  simp only [hstage, hstored]

theorem save_restores_what_was_read
    (verifier : Verifier) (client : Client) (table : ContentTable) (turns : List Turn)
    (node : Node) {faults : StoreFaults} {running : RunningPass} {record : ContentRecord}
    {left : List ContentRecord}
    (hsingle : ∀ turn ∈ turns, ¬ turn.StartsPass)
    (hplace : ((onePass verifier client table).play turns).running[0]? = some running)
    (hstage : running.pass.stage = .saving record left)
    (hstored : faults.write = none) :
    let start := onePass verifier client table
    let written := table.writeAll turns
    let before := (start.play turns).table
    let after := ((start.play turns).take (.advance 0 node faults)).table
    ∃ snapshot ∈ table.query .awaitingConfirmation,
      record = snapshot.confirm ∧
        (∃ moment ∈ start.history turns, moment.1.ReceivesMintOf moment.2 snapshot) ∧
        before.find? snapshot.id = written.find? snapshot.id ∧
        after.find? snapshot.id = some snapshot.confirm ∧
        (∀ id, id ≠ snapshot.id → after.find? id = before.find? id) ∧
        ((after.find? snapshot.id).map ContentRecord.submission =
            (written.find? snapshot.id).map ContentRecord.submission ↔
          (written.find? snapshot.id).map ContentRecord.submission =
            some snapshot.submission) := by
  intro start written before after
  have halone : (start.play turns).WorksAlone table written ([] ++ start.history turns) :=
    (worksAlone_onePass verifier client table).play hsingle
  have hworks := halone.works running (List.mem_of_getElem? hplace)
  obtain ⟨snapshot, rfl, hsuffix, hreceived⟩ := hworks.saving record left hstage
  have huntouched := hworks.untouched
  rw [VerifyRun.remaining_of_saving hstage, List.forall_mem_cons] at huntouched
  have hafter : after = before.save snapshot.confirm := table_take_advance hplace hstage hstored
  have hrow : after.find? snapshot.id = some snapshot.confirm := by
    rw [hafter, ContentTable.find?_save, ContentRecord.id_confirm, if_pos rfl,
      ContentRecord.over_confirm]
  refine ⟨snapshot, hsuffix.mem List.mem_cons_self, rfl, hreceived, huntouched.1, hrow, ?_, ?_⟩
  · intro id hdiffers
    rw [hafter, ContentTable.find?_save, ContentRecord.id_confirm, if_neg (Ne.symm hdiffers)]
  · rw [hrow, Option.map_some, ContentRecord.submission_confirm]
    exact eq_comm

/-! The application corrects the transaction of a record, or deletes the record, when the
pass has found the old transaction and has not saved yet. -/

section Overtaken

def readRecord : ContentRecord :=
  VerifyRun.submittedRecord 1 (some "0xa")

def correctedRecord : ContentRecord :=
  VerifyRun.submittedRecord 1 (some "0xd")

def foundTurn : Turn :=
  .advance 0 (fun _ => VerifyRun.minedReply) .none

/-- The pass that has found the transaction that was read, and is about to save the record. -/
def savingPass : RunningPass :=
  ⟨VerifyRun.lenientVerifier,
    ⟨.saving readRecord.confirm
      [VerifyRun.submittedRecord 3 (some "0xb"), VerifyRun.submittedRecord 5 (some "0xc")],
      3, 0, []⟩⟩

theorem save_restores_what_was_read_corrected :
    let start := onePass VerifyRun.lenientVerifier .fresh VerifyRun.submittedRecords
    let turns := [foundTurn, .save correctedRecord]
    (∀ turn ∈ turns, ¬ turn.StartsPass) ∧
      (start.play turns).running[0]? = some savingPass ∧
      (VerifyRun.submittedRecords.writeAll turns).find? 1 = some correctedRecord ∧
      ((start.play turns).take (.advance 0 VerifyRun.unreachableNode .none)).table.find? 1 =
        some readRecord.confirm := by
  intro start turns
  have hsingle : ∀ turn ∈ turns, ¬ turn.StartsPass := by
    simp [turns, foundTurn, Turn.StartsPass]
  have hplace : (start.play turns).running[0]? = some savingPass := rfl
  have hstored : StoreFaults.none.write = none := rfl
  obtain ⟨snapshot, -, hrecord, -, -, hrow, -⟩ :=
    save_restores_what_was_read VerifyRun.lenientVerifier .fresh VerifyRun.submittedRecords turns
      VerifyRun.unreachableNode hsingle hplace rfl hstored
  have hid : snapshot.id = 1 := (congrArg ContentRecord.id hrecord).symm
  rw [hid, ← hrecord] at hrow
  exact ⟨hsingle, hplace, rfl, hrow⟩

theorem save_brings_back_deleted_row :
    ¬ ∀ (verifier : Verifier) (client : Client) (table : ContentTable) (turns : List Turn)
        (node : Node) (running : RunningPass) (record : ContentRecord)
        (left : List ContentRecord),
      (∀ turn ∈ turns, ¬ turn.StartsPass) →
      ((onePass verifier client table).play turns).running[0]? = some running →
      running.pass.stage = .saving record left →
        ((((onePass verifier client table).play turns).take
            (.advance 0 node .none)).table.find? record.id).map ContentRecord.submission =
          ((table.writeAll turns).find? record.id).map ContentRecord.submission := by
  intro hkeeps
  have hdeleted := hkeeps VerifyRun.lenientVerifier .fresh VerifyRun.submittedRecords
    [foundTurn, .delete readRecord] VerifyRun.unreachableNode savingPass _ _
    (by simp [foundTurn, Turn.StartsPass]) rfl rfl
  -- The application has left no row, and the pass has saved one.
  revert hdeleted
  decide +kernel

end Overtaken

end PassPool
end MintWatch

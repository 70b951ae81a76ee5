import Mathlib
import MintWatch.Proofs.Storage.ReclaimSteps
/-!
# The effect of a reclaim pass

A pass that has the table and the blobs to itself reclaims each object that it has read,
in two steps, because the row still is as it was read.  So the pass takes out of the table
the rows that are overdue, and out of the blobs those that these rows name.
-/

namespace MintWatch

namespace ObjectTable

variable {table : ObjectTable} {now : Timestamp}

theorem length_query_scheduledForRemoval
    (table : ObjectTable) :
    (table.query .scheduledForRemoval).length =
      table.rows.countP fun row => row.removeAt.isSome := by
  unfold query
  rw [← List.countP_eq_length_filter]
  apply List.countP_congr
  intro row _
  cases hremoval : row.removeAt <;> simp [selects, hremoval]

/-- An object that is overdue is one that is scheduled for removal. -/
theorem filter_isExpired_query
    (table : ObjectTable) (now : Timestamp) :
    ((table.query .scheduledForRemoval).filter fun object => object.isExpired now) =
      table.rows.filter fun row => row.IsOverdue now := by
  unfold query
  rw [List.filter_filter]
  apply List.filter_congr
  intro row _
  rw [StorageObject.isExpired_eq_decide, Bool.and_eq_left_iff_imp, decide_eq_true_iff]
  rintro ⟨time, hscheduled, -⟩
  simp [selects, hscheduled]

theorem without_overdue
    (table : ObjectTable) (now : Timestamp) :
    (table.without fun row =>
        row.cid ∈ (table.rows.filter fun row => row.IsOverdue now).map StorageObject.cid) =
      table.without fun row => row.IsOverdue now := by
  apply without_congr
  intro row hmember
  rw [decide_eq_decide, List.mem_map]
  constructor
  · rintro ⟨other, hother, hsame⟩
    obtain ⟨hstored, hoverdue⟩ := List.mem_filter.mp hother
    -- Rows with one identifier are the same row.
    have hfound := mem_rows_iff.mp hstored
    rw [hsame, mem_rows_iff.mp hmember] at hfound
    cases hfound
    simpa using hoverdue
  · intro hoverdue
    exact ⟨row, List.mem_filter.mpr ⟨hmember, by simpa using hoverdue⟩, rfl⟩

theorem mem_cids_overdue_iff
    {cid : String} :
    cid ∈ (table.rows.filter fun row => row.IsOverdue now).map StorageObject.cid ↔
      ∃ row ∈ table.rows, row.IsOverdue now ∧ row.cid = cid := by
  simp [and_assoc]

/-- Of rows without those that are overdue, none is overdue. -/
theorem filter_without_overdue
    (table : ObjectTable) (now : Timestamp) :
    ((table.without fun row => row.IsOverdue now).rows.filter fun row => row.IsOverdue now) =
      [] := by
  rw [List.filter_eq_nil_iff]
  intro row hmember hoverdue
  rw [(mem_rows_without.mp hmember).2] at hoverdue
  cases hoverdue

end ObjectTable

namespace ReclaimRun

variable {run : ReclaimRun} {object : StorageObject} {dealt left : List StorageObject}

/-- A run after the next objects have been reclaimed. -/
def afterReclaiming (run : ReclaimRun) (dealt left : List StorageObject) : ReclaimRun where
  pass :=
    { run.pass with stage := .deleting left, removed := run.pass.removed + dealt.length }
  table := run.table.without fun row => row.cid ∈ dealt.map StorageObject.cid
  blobs := run.blobs.without fun reference => reference ∈ dealt.map StorageObject.cid

theorem afterReclaiming_cons
    (run : ReclaimRun) (object : StorageObject) (dealt left : List StorageObject) :
    (run.afterReclaiming [object] (dealt ++ left)).afterReclaiming dealt left =
      run.afterReclaiming (object :: dealt) left := by
  unfold afterReclaiming
  simp only [ObjectTable.without_without, BlobStore.without_without, List.map_cons, List.map_nil,
    List.mem_cons, List.not_mem_nil, or_false, Bool.decide_or, List.length_cons,
    List.length_nil, Nat.zero_add, Nat.add_assoc, Nat.add_comm 1]

theorem steps_two_of_mem
    (hstage : run.pass.stage = .deleting (object :: left))
    (hmember : object ∈ run.table.rows) :
    steps .none 2 run = run.afterReclaiming [object] left := by
  have hscheduled := ObjectTable.isScheduledAs_of_mem hmember
  unfold afterReclaiming
  simp only [steps, step, hstage, ReclaimFaults.none,
    ObjectTable.delete_of_isScheduledAs hscheduled, if_true, BlobStore.remove_eq_without,
    List.map_cons, List.map_nil, List.mem_singleton, List.length_singleton]

theorem steps_of_stored
    (hstage : run.pass.stage = .deleting (dealt ++ left))
    (hstored : ∀ object ∈ dealt, object ∈ run.table.rows)
    (hdistinct : dealt.Pairwise fun first second => first.cid ≠ second.cid) :
    steps .none (2 * dealt.length) run = run.afterReclaiming dealt left := by
  induction dealt generalizing run with
  | nil =>
      rw [List.nil_append] at hstage
      unfold afterReclaiming
      simp only [List.map_nil, List.not_mem_nil, decide_false, ObjectTable.without_nothing,
        BlobStore.without_nothing, ← hstage]
      rfl
  | cons object dealt ih =>
      rw [List.forall_mem_cons] at hstored
      rw [List.pairwise_cons] at hdistinct
      rw [List.cons_append] at hstage
      have hlater : ∀ other ∈ dealt,
          other ∈ (run.afterReclaiming [object] (dealt ++ left)).table.rows := by
        intro other hmember
        have hdiffers := hdistinct.1 other hmember
        refine ObjectTable.mem_rows_without.mpr ⟨hstored.2 other hmember, ?_⟩
        simpa using Ne.symm hdiffers
      rw [List.length_cons, Nat.mul_succ, Nat.add_comm, steps_add,
        steps_two_of_mem hstage hstored.1, ih rfl hlater hdistinct.2, afterReclaiming_cons]

theorem steps_of_done
    (count : Nat)
    (hstage : run.pass.stage = .done) :
    steps .none count run = run := by
  have hstep : step .none run = run := by
    unfold step
    rw [hstage]
  induction count with
  | zero => rfl
  | succ count ih =>
      unfold steps
      rw [hstep, ih]

/-- A whole pass: it reclaims the objects that are overdue, and then it is done. -/
theorem complete_eq
    (now : Timestamp) (table : ObjectTable) (blobs : BlobStore) :
    let scheduled := table.query .scheduledForRemoval
    let overdue := table.rows.filter fun row => row.IsOverdue now
    complete .none now table blobs =
      ⟨⟨.done, scheduled.length, overdue.length,
          [.info ("removed " ++ toString overdue.length ++ " of " ++
            toString scheduled.length) []]⟩,
        table.without fun row => row.IsOverdue now,
        blobs.without fun reference => reference ∈ overdue.map StorageObject.cid⟩ := by
  intro scheduled overdue
  let opened : ReclaimRun := ⟨.start .none now table, table, blobs⟩
  have hexpired : (scheduled.filter fun object => object.isExpired now) = overdue :=
    table.filter_isExpired_query now
  have hstage : opened.pass.stage = .deleting (overdue ++ []) := by
    rw [List.append_nil]
    exact congrArg ReclaimStage.deleting hexpired
  have hstored : ∀ object ∈ overdue, object ∈ opened.table.rows :=
    fun object hmember => (List.mem_filter.mp hmember).1
  have hdistinct : overdue.Pairwise fun first second => first.cid ≠ second.cid :=
    table.valid.distinct.filter _
  have hfew : overdue.length ≤ scheduled.length := by
    rw [← hexpired]
    exact List.length_filter_le _ _
  obtain ⟨rest, hrest⟩ : ∃ rest, 2 * scheduled.length + 1 = 2 * overdue.length + (rest + 1) :=
    ⟨2 * scheduled.length - 2 * overdue.length, by omega⟩
  have hcomplete : complete .none now table blobs =
      steps .none (2 * scheduled.length + 1) opened := rfl
  rw [hcomplete, hrest, steps_add, steps_of_stored hstage hstored hdistinct]
  unfold steps
  rw [steps_of_done rest rfl, afterReclaiming, ObjectTable.without_overdue]
  simp [step, ReclaimPass.finish, opened, ReclaimPass.start, ReclaimFaults.none, scheduled]

theorem complete_removes_overdue
    (now : Timestamp) (table : ObjectTable) (blobs : BlobStore) :
    let run := complete .none now table blobs
    let again := complete .none now run.table run.blobs
    run.pass.stage = .done ∧ run.pass.outcome = .ok () ∧
      run.table.rows = table.rows.filter (fun row => ¬ row.IsOverdue now) ∧
      run.blobs.blobs =
        blobs.blobs.filter (fun entry =>
          ∀ row ∈ table.rows, row.IsOverdue now → row.cid ≠ entry.1) ∧
      run.pass.log =
        [.info ("removed " ++
          toString (table.rows.countP fun row => row.IsOverdue now) ++ " of " ++
          toString (table.rows.countP fun row => row.removeAt.isSome)) []] ∧
      again.table = run.table ∧ again.blobs = run.blobs := by
  intro run again
  have hrun : run = _ := complete_eq now table blobs
  have hagain : again = _ := complete_eq now run.table run.blobs
  have htable : run.table = table.without fun row => row.IsOverdue now := by
    rw [hrun]
  have hnone : (run.table.rows.filter fun row => row.IsOverdue now) = [] := by
    rw [htable, ObjectTable.filter_without_overdue]
  refine ⟨?_, ?_, ?_, ?_, ?_, ?_, ?_⟩
  · rw [hrun]
  · rw [hrun]
    rfl
  · rw [htable]
    simp [ObjectTable.without]
  · rw [hrun]
    unfold BlobStore.without
    apply List.filter_congr
    intro entry _
    rw [Bool.eq_iff_iff, Bool.not_eq_true', decide_eq_false_iff_not,
      ObjectTable.mem_cids_overdue_iff]
    simp
  · rw [hrun, List.countP_eq_length_filter, ObjectTable.length_query_scheduledForRemoval]
  · simp only [hagain]
    rw [← ObjectTable.without_overdue, hnone]
    simp only [List.map_nil, List.not_mem_nil, decide_false, ObjectTable.without_nothing]
  · simp only [hagain, hnone, List.map_nil, List.not_mem_nil, decide_false,
      BlobStore.without_nothing]

end ReclaimRun
end MintWatch

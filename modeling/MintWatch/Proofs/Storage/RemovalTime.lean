import Mathlib
import MintWatch.Proofs.Storage.ReclaimEffect
/-!
# The time of removal

An object's time of removal is stored in whole seconds, rounded down, and a pass compares
it with a clock that knows parts of a second.  So an object is reclaimed once the second
of its time of removal has begun: never too late, but up to a second too early.  What was
saved before the last save of the object does not matter.
-/

namespace MintWatch

namespace ObjectTable

def saveAll (table : ObjectTable) (objects : List StorageObject) : ObjectTable :=
  objects.foldl save table

theorem find?_saveAll_of_others
    {table : ObjectTable} {cid : String} {objects : List StorageObject}
    (hothers : ∀ object ∈ objects, object.cid ≠ cid) :
    (table.saveAll objects).find? cid = table.find? cid := by
  induction objects generalizing table with
  | nil => rfl
  | cons object objects ih =>
      rw [List.forall_mem_cons] at hothers
      have hlater : (table.saveAll (object :: objects)).find? cid = (table.save object).find? cid :=
        ih hothers.2
      rw [hlater, find?_save, if_neg hothers.1]

theorem exists_find?_saveAll
    (table : ObjectTable) (earlier : List StorageObject) {later : List StorageObject}
    {object : StorageObject}
    (hlast : ∀ other ∈ later, other.cid ≠ object.cid) :
    ∃ stored, (table.saveAll (earlier ++ object :: later)).find? object.cid =
      some (object.savedOver stored) := by
  refine ⟨(table.saveAll earlier).find? object.cid, ?_⟩
  have hsplit : table.saveAll (earlier ++ object :: later) =
      ((table.saveAll earlier).save object).saveAll later :=
    List.foldl_append
  rw [hsplit, find?_saveAll_of_others hlast, find?_save, if_pos rfl]

end ObjectTable

/-- When a saved object is overdue: the part of its time below a second is lost. -/
theorem StorageObject.isOverdue_savedOver_iff
    {object : StorageObject} {stored : Option StorageObject} {now : Timestamp} :
    (object.savedOver stored).IsOverdue now ↔
      ∃ time, object.removeAt = some time ∧
        (time.seconds < now.seconds ∨ time.seconds = now.seconds ∧ 0 < now.nanoseconds) := by
  unfold IsOverdue
  rw [removeAt_savedOver]
  cases object.removeAt with
  | none => simp
  | some time => simp [Timestamp.wholeSecond, Timestamp.ofSeconds]

namespace ReclaimRun

/-- Whether a run leaves the row and the blob of an identifier as they were. -/
def Spares (run : ReclaimRun) (table : ObjectTable) (blobs : BlobStore) (cid : String) : Prop :=
  run.table.find? cid = table.find? cid ∧ run.blobs.blob? cid = blobs.blob? cid

/-- Whether a run leaves neither a row nor a blob of an identifier. -/
def Takes (run : ReclaimRun) (cid : String) : Prop :=
  run.table.find? cid = none ∧ run.blobs.blob? cid = none

section Complete

variable {table : ObjectTable} {now : Timestamp} {cid : String} {row : StorageObject}

theorem takes_of_isOverdue
    (blobs : BlobStore)
    (hrow : table.find? cid = some row)
    (hoverdue : row.IsOverdue now) :
    (complete .none now table blobs).Takes cid := by
  obtain ⟨hmember, hcid⟩ := ObjectTable.find?_eq_some_iff.mp hrow
  rw [complete_eq]
  constructor
  · rw [ObjectTable.find?_without, hrow]
    simpa using hoverdue
  · have hgone := ObjectTable.mem_cids_overdue_iff.mpr ⟨row, hmember, hoverdue, hcid⟩
    rw [BlobStore.blob?_without, if_pos (by simpa using hgone)]

theorem spares_of_not_isOverdue
    (blobs : BlobStore)
    (hrow : table.find? cid = some row)
    (hopen : ¬ row.IsOverdue now) :
    (complete .none now table blobs).Spares table blobs cid := by
  rw [complete_eq]
  constructor
  · rw [ObjectTable.find?_without, hrow]
    simpa using hopen
  · have hkept : cid ∉ (table.rows.filter fun row => row.IsOverdue now).map StorageObject.cid := by
      rw [ObjectTable.mem_cids_overdue_iff]
      rintro ⟨other, hmember, hoverdue, hcid⟩
      rw [ObjectTable.mem_rows_iff, hcid, hrow] at hmember
      cases hmember
      exact hopen hoverdue
    rw [BlobStore.blob?_without, if_neg (by simpa using hkept)]

end Complete

theorem complete_goes_by_whole_seconds
    (table : ObjectTable) (blobs : BlobStore) (now : Timestamp) (earlier : List StorageObject)
    {object : StorageObject} {later : List StorageObject}
    (hlast : ∀ other ∈ later, other.cid ≠ object.cid) :
    let saved := table.saveAll (earlier ++ object :: later)
    let run := complete .none now saved blobs
    (saved.find? object.cid).isSome = true ∧
      (object.IsOverdue now → run.Takes object.cid) ∧
      (object.removeAt = none → run.Spares saved blobs object.cid) ∧
      ∀ time, object.removeAt = some time → ¬ object.IsOverdue now →
        (time.seconds = now.seconds ∧ 0 < now.nanoseconds → run.Takes object.cid) ∧
          (¬ (time.seconds = now.seconds ∧ 0 < now.nanoseconds) →
            run.Spares saved blobs object.cid) := by
  intro saved run
  obtain ⟨stored, hrow⟩ := table.exists_find?_saveAll earlier hlast
  refine ⟨by rw [hrow]; rfl, ?_, ?_, ?_⟩
  · rintro ⟨time, hremoval, hpassed⟩
    apply takes_of_isOverdue blobs hrow
    rw [StorageObject.isOverdue_savedOver_iff]
    refine ⟨time, hremoval, hpassed.imp_right ?_⟩
    rintro ⟨hsecond, hpart⟩
    exact ⟨hsecond, by omega⟩
  · intro hattached
    apply spares_of_not_isOverdue blobs hrow
    rw [StorageObject.isOverdue_savedOver_iff, hattached]
    rintro ⟨time, hremoval, -⟩
    cases hremoval
  · intro time hremoval hopen
    have hlate : ¬ time.seconds < now.seconds :=
      fun hlt => hopen ⟨time, hremoval, Or.inl hlt⟩
    constructor
    · intro hsecond
      apply takes_of_isOverdue blobs hrow
      rw [StorageObject.isOverdue_savedOver_iff]
      exact ⟨time, hremoval, Or.inr hsecond⟩
    · intro hother
      apply spares_of_not_isOverdue blobs hrow
      rw [StorageObject.isOverdue_savedOver_iff, hremoval]
      rintro ⟨other, hsame, hpassed⟩
      cases hsame
      exact hpassed.elim hlate hother

/-! An upload that was attached and then scheduled again, and a pass in the second of its time
of removal, a little before that time. -/

section Early

def halfPast : Timestamp :=
  ⟨100, 500000000⟩

def provisionalUpload (cid : String) : StorageObject where
  cid := cid
  mimeType := "image/png"
  ownerId := 1
  createdAt := ⟨7, 0⟩
  removeAt := some ⟨100, 900000000⟩

def uploadedBlobs : BlobStore :=
  ⟨[("a", ⟨"image/png", [1]⟩), ("b", ⟨"image/png", [2]⟩)]⟩

theorem complete_goes_by_whole_seconds_early :
    let upload := provisionalUpload "a"
    let earlier := [upload.attach]
    let later := [(provisionalUpload "b").attach]
    let run := complete .none halfPast (ObjectTable.empty.saveAll (earlier ++ upload :: later))
      uploadedBlobs
    (∀ other ∈ later, other.cid ≠ upload.cid) ∧
      upload.removeAt = some ⟨100, 900000000⟩ ∧ ¬ upload.IsOverdue halfPast ∧
      run.Takes "a" := by
  intro upload earlier later run
  have hlast : ∀ other ∈ later, other.cid ≠ upload.cid := by
    decide
  have hopen : ¬ upload.IsOverdue halfPast := by
    decide
  obtain ⟨-, -, -, hsame⟩ :=
    complete_goes_by_whole_seconds .empty uploadedBlobs halfPast earlier hlast
  exact ⟨hlast, rfl, hopen, (hsame _ rfl hopen).1 (by decide)⟩

theorem complete_takes_before_time_of_removal :
    ¬ ∀ (table : ObjectTable) (blobs : BlobStore) (now : Timestamp)
        (earlier later : List StorageObject) (object : StorageObject),
      (∀ other ∈ later, other.cid ≠ object.cid) → ¬ object.IsOverdue now →
        let saved := table.saveAll (earlier ++ object :: later)
        (complete .none now saved blobs).Spares saved blobs object.cid := by
  intro hspares
  have hopen : ¬ (provisionalUpload "a").IsOverdue halfPast := by
    decide
  have hkept := hspares .empty uploadedBlobs halfPast [] [] (provisionalUpload "a")
    (by simp) hopen
  -- The row is gone, and so is the blob.
  revert hkept
  unfold Spares
  decide +kernel

end Early

end ReclaimRun
end MintWatch

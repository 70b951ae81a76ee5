import Mathlib
import MintWatch.Proofs.Storage.ReclaimTurns
/-!
# Uploads beside reclaim passes

An upload stores its bytes and then saves a row under their reference, and equal bytes have
one reference.  A pass removes a row and then the blob behind it, and it does not look whether
the reference has come to be used again in between.  So a row is left without its blob only
where the two overlap: an upload is half done while a pass is about to remove the blob of the
same reference.  Conversely, from each such state the turns can go on so that all uploads are
completed and a row has lost its blob.
-/

namespace MintWatch

namespace BlobStore

theorem contains_without
    (store : BlobStore) (gone : String → Bool) (reference : String) :
    (store.without gone).contains reference = (!gone reference && store.contains reference) := by
  unfold contains without
  rw [Bool.eq_iff_iff]
  simp only [List.any_eq_true, List.mem_filter, Bool.and_eq_true, Bool.not_eq_true',
    decide_eq_true_eq]
  constructor
  · rintro ⟨entry, ⟨hmember, hkept⟩, rfl⟩
    exact ⟨hkept, entry, hmember, rfl⟩
  · rintro ⟨hkept, entry, hmember, rfl⟩
    exact ⟨entry, ⟨hmember, hkept⟩, rfl⟩

theorem contains_add
    (store : BlobStore) (bytes : Bytes) (mimeType reference : String) :
    (store.add bytes mimeType).1.contains reference =
      (blobReference bytes = reference || store.contains reference) := by
  have hothers := contains_without store (fun other => other = blobReference bytes) reference
  rw [← remove_eq_without] at hothers
  unfold contains at hothers ⊢
  unfold add
  rw [List.any_cons, hothers]
  by_cases hsame : reference = blobReference bytes
  · simp [hsame]
  · simp [hsame, Ne.symm hsame]

end BlobStore

theorem ObjectTable.isSome_find?_save
    {table : ObjectTable} {object : StorageObject} {cid : String}
    (hstored : object.cid = cid ∨ (table.find? cid).isSome = true) :
    ((table.save object).find? cid).isSome = true := by
  rw [find?_save]
  by_cases hsame : object.cid = cid
  · rw [if_pos hsame]
    rfl
  · rw [if_neg hsame]
    exact hstored.resolve_left hsame

/-! ## Steps of a pass -/

namespace ReclaimRun

variable {run next : ReclaimRun} {deed : Option ReclaimDeed} {cid : String}

/-- A pass stores no rows. -/
theorem Does.isSome_find?
    (hdoes : Does run next deed)
    (hstored : (next.table.find? cid).isSome = true) :
    (run.table.find? cid).isSome = true := by
  rcases hdoes.find?_table cid with hkept | ⟨object, rfl, rfl⟩
  · rwa [hkept] at hstored
  · cases hdoes with
    | take hbefore hread hscheduled hafter hleft htable hblobs =>
        rw [htable, ObjectTable.find?_without_cid, if_pos rfl] at hstored
        cases hstored

/-- A pass removes no blob but the one that it awaits. -/
theorem Does.contains_or_awaits
    (hdoes : Does run next deed)
    (hcontains : run.blobs.contains cid = true) :
    next.blobs.contains cid = true ∨ run.pass.awaits cid = true := by
  cases hdoes with
  | nothing hbefore hafter hleft htable hblobs => exact Or.inl (hblobs ▸ hcontains)
  | spare hbefore hread hafter hleft htable hblobs => exact Or.inl (hblobs ▸ hcontains)
  | take hbefore hread hscheduled hafter hleft htable hblobs => exact Or.inl (hblobs ▸ hcontains)
  | @request object hbefore hafter hleft htable hblobs =>
      rcases hblobs with hkept | hremoved
      · exact Or.inl (hkept ▸ hcontains)
      · by_cases hsame : object.cid = cid
        · right
          unfold ReclaimPass.awaits
          simp [hbefore, hsame]
        · left
          rw [hremoved, BlobStore.contains_without, hcontains]
          simp [Ne.symm hsame]

/-- A pass comes to await a blob only when it has removed the row. -/
theorem Does.awaits_or_find?_eq_none
    (hdoes : Does run next deed)
    (hawaits : next.pass.awaits cid = true) :
    run.pass.awaits cid = true ∨ next.table.find? cid = none := by
  obtain ⟨object, hawaited, hcid⟩ := (Option.any_eq_true _ _).mp hawaits
  have hdeed := hdoes.deed_of_awaited hawaited
  subst hdeed
  cases hdoes with
  | take hbefore hread hscheduled hafter hleft htable hblobs =>
      right
      rw [htable, ObjectTable.find?_without_cid, if_pos (by simpa using hcid)]

end ReclaimRun

/-! ## Turns -/

/-- A pool of passes with the uploads that have stored their bytes and not yet saved a row,
each by its reference. -/
structure UploadPool extends ReclaimPool where
  halfDone : List String

inductive UploadTurn where
  /-- A pass starts and reads the table. -/
  | enter (faults : ReclaimFaults) (now : Timestamp)
  /-- The pass at a place takes its next step. -/
  | advance (place : Nat) (faults : ReclaimFaults)
  /-- An upload stores its bytes. -/
  | store (bytes : Bytes) (mimeType : String)
  /-- The half-done upload at a place saves an object under its reference. -/
  | complete (place : Nat) (object : StorageObject)
  /-- A stored object is rescheduled, or attached if it is given no time of removal. -/
  | reschedule (cid : String) (removeAt : Option Timestamp)

namespace UploadPool

def take (pool : UploadPool) : UploadTurn → UploadPool
  | .enter faults now => { pool with toReclaimPool := pool.toReclaimPool.take (.enter faults now) }
  | .advance place faults =>
    { pool with toReclaimPool := pool.toReclaimPool.take (.advance place faults) }
  | .store bytes mimeType =>
    ⟨pool.toReclaimPool.take (.upload bytes mimeType), pool.halfDone ++ [blobReference bytes]⟩
  | .complete place object =>
    match pool.halfDone[place]? with
    | none => pool
    | some reference =>
      ⟨pool.toReclaimPool.take (.save { object with cid := reference }),
        pool.halfDone.eraseIdx place⟩
  | .reschedule cid removeAt =>
    match pool.table.find? cid with
    | none => pool
    | some row => { pool with toReclaimPool := pool.toReclaimPool.take (.save { row with removeAt }) }

def play (pool : UploadPool) (turns : List UploadTurn) : UploadPool :=
  turns.foldl take pool

theorem play_append
    (pool : UploadPool) (earlier later : List UploadTurn) :
    pool.play (earlier ++ later) = (pool.play earlier).play later :=
  List.foldl_append

theorem take_advance
    (pool : UploadPool) (place : Nat) (faults : ReclaimFaults) :
    pool.take (.advance place faults) =
      ⟨pool.toReclaimPool.take (.advance place faults), pool.halfDone⟩ :=
  rfl

theorem take_complete
    {pool : UploadPool} {place : Nat} {reference : String}
    (hplace : pool.halfDone[place]? = some reference)
    (object : StorageObject) :
    pool.take (.complete place object) =
      ⟨pool.toReclaimPool.take (.save { object with cid := reference }),
        pool.halfDone.eraseIdx place⟩ := by
  unfold take
  simp only [hplace]

theorem take_reschedule
    {pool : UploadPool} {cid : String} {row : StorageObject}
    (hrow : pool.table.find? cid = some row)
    (removeAt : Option Timestamp) :
    pool.take (.reschedule cid removeAt) =
      ⟨pool.toReclaimPool.take (.save { row with removeAt }), pool.halfDone⟩ := by
  unfold take
  simp only [hrow]

/-- A table and a store of blobs on which no pass works and in which no upload is half done. -/
def idle (table : ObjectTable) (blobs : BlobStore) : UploadPool :=
  ⟨⟨table, blobs, []⟩, []⟩

/-- Whether a pass is about to remove the blob of a reference. -/
def IsAwaited (pool : UploadPool) (reference : String) : Prop :=
  ∃ pass ∈ pool.running, pass.awaits reference = true

/-- Whether an upload of a reference is half done while a pass is about to remove its blob. -/
def Overlaps (pool : UploadPool) (reference : String) : Prop :=
  reference ∈ pool.halfDone ∧ pool.IsAwaited reference

/-- Whether a row is stored whose blob is not. -/
def Dangles (pool : UploadPool) (cid : String) : Prop :=
  (pool.table.find? cid).isSome = true ∧ pool.blobs.contains cid = false

/-! ## Without an overlap -/

/-- What holds of a reference that has not been overtaken: what uses it has its blob, and no
pass is about to remove the blob of a stored row. -/
structure KeepsBlob (pool : UploadPool) (cid : String) : Prop where
  stored : (pool.table.find? cid).isSome = true → pool.blobs.contains cid = true
  given : (pool.table.find? cid).isSome = true → ¬ pool.IsAwaited cid
  uploaded : cid ∈ pool.halfDone → pool.blobs.contains cid = true

variable {pool next : UploadPool} {cid : String}

theorem keepsBlob_idle
    {table : ObjectTable} {blobs : BlobStore}
    (hblobs : ∀ row ∈ table.rows, blobs.contains row.cid = true) :
    (idle table blobs).KeepsBlob cid := by
  refine ⟨?_, ?_, ?_⟩
  · intro hstored
    obtain ⟨row, hrow⟩ := Option.isSome_iff_exists.mp hstored
    obtain ⟨hmember, rfl⟩ := ObjectTable.find?_eq_some_iff.mp hrow
    exact hblobs row hmember
  · rintro - ⟨pass, hpass, -⟩
    cases hpass
  · intro huploaded
    cases huploaded

/-- A row comes from an upload, and a blob goes only where it is awaited: a turn of this kind
does no harm where there is no overlap. -/
theorem KeepsBlob.of_turn
    (hkeeps : pool.KeepsBlob cid)
    (hclear : ¬ pool.Overlaps cid)
    (hrow : (next.table.find? cid).isSome = true →
      (pool.table.find? cid).isSome = true ∨ cid ∈ pool.halfDone)
    (hupload : cid ∈ next.halfDone → cid ∈ pool.halfDone ∨ next.blobs.contains cid = true)
    (hblob : pool.blobs.contains cid = true →
      next.blobs.contains cid = true ∨ pool.IsAwaited cid)
    (hawaited : next.IsAwaited cid → pool.IsAwaited cid ∨ next.table.find? cid = none) :
    next.KeepsBlob cid := by
  have huploading : cid ∈ pool.halfDone → next.blobs.contains cid = true := by
    intro hhalf
    rcases hblob (hkeeps.uploaded hhalf) with hkept | hlost
    · exact hkept
    · exact absurd ⟨hhalf, hlost⟩ hclear
  refine ⟨?_, ?_, ?_⟩
  · intro hstored
    rcases hrow hstored with hbefore | hhalf
    · exact (hblob (hkeeps.stored hbefore)).resolve_right (hkeeps.given hbefore)
    · exact huploading hhalf
  · intro hstored hlater
    rcases hawaited hlater with hearlier | habsent
    · rcases hrow hstored with hbefore | hhalf
      · exact hkeeps.given hbefore hearlier
      · exact hclear ⟨hhalf, hearlier⟩
    · rw [habsent] at hstored
      cases hstored
  · intro hhalf
    rcases hupload hhalf with hbefore | hstored
    · exact huploading hbefore
    · exact hstored

theorem KeepsBlob.enter
    (hkeeps : pool.KeepsBlob cid)
    (hclear : ¬ pool.Overlaps cid)
    (faults : ReclaimFaults) (now : Timestamp) :
    (pool.take (.enter faults now)).KeepsBlob cid := by
  refine hkeeps.of_turn hclear Or.inl Or.inl Or.inl ?_
  rintro ⟨pass, hpass, hawaits⟩
  rcases List.mem_append.mp hpass with hold | hnew
  · exact Or.inl ⟨pass, hold, hawaits⟩
  · -- A pass that has only read the table awaits nothing.
    rw [List.mem_singleton.mp hnew, ReclaimPass.awaits, ReclaimPass.awaited?_start] at hawaits
    cases hawaits

theorem KeepsBlob.advance
    (hkeeps : pool.KeepsBlob cid)
    (hclear : ¬ pool.Overlaps cid)
    (place : Nat) (faults : ReclaimFaults) :
    (pool.take (.advance place faults)).KeepsBlob cid := by
  cases hplace : pool.running[place]? with
  | none =>
      rw [take_advance, ReclaimPool.take_advance_of_absent hplace]
      exact hkeeps
  | some pass =>
      obtain ⟨run, deed, hdoes, htake, -⟩ := pool.toReclaimPool.exists_does hplace faults
      have hpass : pass ∈ pool.running := List.mem_of_getElem? hplace
      rw [take_advance, htake]
      apply hkeeps.of_turn hclear
      · intro hstored
        exact Or.inl (hdoes.isSome_find? hstored)
      · exact Or.inl
      · intro hcontains
        exact (hdoes.contains_or_awaits hcontains).imp_right fun hawaits => ⟨pass, hpass, hawaits⟩
      · rintro ⟨other, hother, hawaits⟩
        rcases List.mem_or_eq_of_mem_set hother with hold | rfl
        · exact Or.inl ⟨other, hold, hawaits⟩
        · exact (hdoes.awaits_or_find?_eq_none hawaits).imp_left
            fun hawaited => ⟨pass, hpass, hawaited⟩

theorem KeepsBlob.store
    (hkeeps : pool.KeepsBlob cid)
    (hclear : ¬ pool.Overlaps cid)
    (bytes : Bytes) (mimeType : String) :
    (pool.take (.store bytes mimeType)).KeepsBlob cid := by
  have hcontains : (pool.take (.store bytes mimeType)).blobs.contains cid =
      (blobReference bytes = cid || pool.blobs.contains cid) :=
    pool.blobs.contains_add bytes mimeType cid
  apply hkeeps.of_turn hclear
  · exact Or.inl
  · intro hhalf
    rcases List.mem_append.mp hhalf with hold | hnew
    · exact Or.inl hold
    · right
      rw [hcontains, List.mem_singleton.mp hnew]
      simp
  · intro hbefore
    left
    rw [hcontains, hbefore, Bool.or_true]
  · exact Or.inl

/-- A row that is saved under a reference in use. -/
theorem KeepsBlob.save
    {object : StorageObject}
    (hkeeps : pool.KeepsBlob cid)
    (hclear : ¬ pool.Overlaps cid)
    {halfDone : List String}
    (hhalf : halfDone ⊆ pool.halfDone)
    (huse : (pool.table.find? object.cid).isSome = true ∨ object.cid ∈ pool.halfDone) :
    KeepsBlob ⟨pool.toReclaimPool.take (.save object), halfDone⟩ cid := by
  apply hkeeps.of_turn hclear
  · intro hstored
    change ((pool.table.save object).find? cid).isSome = true at hstored
    rw [ObjectTable.find?_save] at hstored
    by_cases hsame : object.cid = cid
    · rwa [hsame] at huse
    · rw [if_neg hsame] at hstored
      exact Or.inl hstored
  · intro hmember
    exact Or.inl (hhalf hmember)
  · exact Or.inl
  · exact Or.inl

theorem KeepsBlob.take
    (hkeeps : pool.KeepsBlob cid)
    (hclear : ¬ pool.Overlaps cid)
    (turn : UploadTurn) :
    (pool.take turn).KeepsBlob cid := by
  cases turn with
  | enter faults now => exact hkeeps.enter hclear faults now
  | advance place faults => exact hkeeps.advance hclear place faults
  | store bytes mimeType => exact hkeeps.store hclear bytes mimeType
  | complete place object =>
      cases hplace : pool.halfDone[place]? with
      | none =>
          have hsame : pool.take (.complete place object) = pool := by
            unfold UploadPool.take
            simp only [hplace]
          rw [hsame]
          exact hkeeps
      | some reference =>
          rw [take_complete hplace]
          exact hkeeps.save hclear List.eraseIdx_subset
            (Or.inr (List.mem_of_getElem? hplace))
  | reschedule reference removeAt =>
      cases hrow : pool.table.find? reference with
      | none =>
          have hsame : pool.take (.reschedule reference removeAt) = pool := by
            unfold UploadPool.take
            simp only [hrow]
          rw [hsame]
          exact hkeeps
      | some row =>
          have hcid : row.cid = reference := (ObjectTable.find?_eq_some_iff.mp hrow).2
          have hstored : (pool.table.find? row.cid).isSome = true := by
            rw [hcid, hrow]
            rfl
          rw [take_reschedule hrow]
          exact hkeeps.save hclear (List.Subset.refl _) (Or.inl hstored)

theorem KeepsBlob.play
    {turns : List UploadTurn}
    (hkeeps : pool.KeepsBlob cid)
    (hclear : ∀ earlier later, turns = earlier ++ later → ¬ (pool.play earlier).Overlaps cid) :
    (pool.play turns).KeepsBlob cid := by
  induction turns generalizing pool with
  | nil => exact hkeeps
  | cons turn turns ih =>
      apply ih (hkeeps.take (hclear [] (turn :: turns) rfl) turn)
      rintro earlier later rfl
      exact hclear (turn :: earlier) later rfl

/-! ## After an overlap -/

/-- All uploads that are half done can be completed, which stores their rows and no blobs. -/
theorem exists_completions
    (object : StorageObject) (pool : UploadPool) :
    ∃ turns, (pool.play turns).halfDone = [] ∧ (pool.play turns).blobs = pool.blobs ∧
      ∀ cid, cid ∈ pool.halfDone ∨ (pool.table.find? cid).isSome = true →
        ((pool.play turns).table.find? cid).isSome = true := by
  obtain ⟨passes, halfDone⟩ := pool
  induction halfDone generalizing passes with
  | nil =>
      refine ⟨[], rfl, rfl, ?_⟩
      rintro cid (hhalf | hstored)
      · cases hhalf
      · exact hstored
  | cons reference halfDone ih =>
      let stored := passes.take (.save { object with cid := reference })
      obtain ⟨turns, hdone, hblobs, hrows⟩ := ih stored
      have hfirst : UploadPool.take ⟨passes, reference :: halfDone⟩ (.complete 0 object) =
          ⟨stored, halfDone⟩ :=
        rfl
      refine ⟨.complete 0 object :: turns, hdone, hblobs, ?_⟩
      intro cid huse
      apply hrows
      rcases huse with hhalf | hstored
      · rcases List.mem_cons.mp hhalf with rfl | hlater
        · exact Or.inr (ObjectTable.isSome_find?_save (Or.inl rfl))
        · exact Or.inl hlater
      · exact Or.inr (ObjectTable.isSome_find?_save (Or.inr hstored))

/-- A pass that awaits a blob can go on and remove it, whatever uses the reference by then. -/
theorem exists_take_advance_of_isAwaited
    (hawaited : pool.IsAwaited cid) :
    ∃ place, (pool.take (.advance place .none)).table = pool.table ∧
      (pool.take (.advance place .none)).halfDone = pool.halfDone ∧
      (pool.take (.advance place .none)).blobs.contains cid = false := by
  obtain ⟨pass, hpass, hawaits⟩ := hawaited
  obtain ⟨place, hplace⟩ := List.mem_iff_getElem?.mp hpass
  obtain ⟨object, hawaited, hcid⟩ := (Option.any_eq_true _ _).mp hawaits
  refine ⟨place, ?_⟩
  rw [take_advance, ReclaimPool.take_advance hplace]
  cases hstage : pass.stage with
  | removing first left =>
      have hfirst : first = object := by
        unfold ReclaimPass.awaited? at hawaited
        rw [hstage] at hawaited
        exact Option.some.inj hawaited
      have hgone : first.cid = cid := by
        rw [hfirst]
        simpa using hcid
      unfold ReclaimRun.step ReclaimPool.runOf ReclaimFaults.none
      simp only [hstage]
      refine ⟨trivial, trivial, ?_⟩
      rw [BlobStore.remove_eq_without, BlobStore.contains_without, hgone]
      simp
  | deleting left => simp [ReclaimPass.awaited?, hstage, ReclaimStage.awaited?] at hawaited
  | done => simp [ReclaimPass.awaited?, hstage, ReclaimStage.awaited?] at hawaited
  | failed text => simp [ReclaimPass.awaited?, hstage, ReclaimStage.awaited?] at hawaited

theorem exists_dangles_of_overlaps
    (hoverlaps : pool.Overlaps cid) :
    ∃ turns, (pool.play turns).halfDone = [] ∧ (pool.play turns).Dangles cid := by
  obtain ⟨hhalf, hawaited⟩ := hoverlaps
  obtain ⟨place, -, hkept, hgone⟩ := exists_take_advance_of_isAwaited hawaited
  let taken := pool.take (.advance place .none)
  let object : StorageObject := ⟨cid, "", 0, ⟨0, 0⟩, none⟩
  obtain ⟨turns, hdone, hblobs, hrows⟩ := exists_completions object taken
  refine ⟨.advance place .none :: turns, hdone, ?_, ?_⟩
  · exact hrows cid (Or.inl (hkept ▸ hhalf))
  · change (taken.play turns).blobs.contains cid = false
    rw [hblobs]
    exact hgone

theorem rows_lose_blobs_to_overlaps
    (table : ObjectTable) (blobs : BlobStore) (turns : List UploadTurn) (cid : String)
    (hblobs : ∀ row ∈ table.rows, blobs.contains row.cid = true) :
    let start := idle table blobs
    ((start.play turns).Dangles cid →
        ∃ earlier later, turns = earlier ++ later ∧ (start.play earlier).Overlaps cid) ∧
      ((start.play turns).Overlaps cid →
        ∃ later, (start.play (turns ++ later)).halfDone = [] ∧
          (start.play (turns ++ later)).Dangles cid) := by
  intro start
  constructor
  · rintro ⟨hstored, hlost⟩
    by_contra hnever
    have hkeeps : (start.play turns).KeepsBlob cid := by
      apply (keepsBlob_idle hblobs).play
      intro earlier later hsplit hoverlaps
      exact hnever ⟨earlier, later, hsplit, hoverlaps⟩
    rw [hkeeps.stored hstored] at hlost
    cases hlost
  · intro hoverlaps
    obtain ⟨later, hdone, hdangles⟩ := exists_dangles_of_overlaps hoverlaps
    refine ⟨later, ?_, ?_⟩
    · rw [play_append]
      exact hdone
    · rw [play_append]
      exact hdangles

/-- Bytes that are stored while a pass awaits their blob. -/
theorem overlaps_take_store
    {bytes : Bytes}
    (hawaited : pool.IsAwaited (blobReference bytes))
    (mimeType : String) :
    (pool.take (.store bytes mimeType)).Overlaps (blobReference bytes) :=
  ⟨List.mem_append_right _ List.mem_cons_self, hawaited⟩

/-- A pass that comes to a row that is scheduled as it was read awaits the blob from then on. -/
theorem isAwaited_take_advance
    {place : Nat} {pass : ReclaimPass} {object : StorageObject} {left : List StorageObject}
    (hplace : pool.running[place]? = some pass)
    (hstage : pass.stage = .deleting (object :: left))
    (hscheduled : pool.table.IsScheduledAs object) :
    (pool.take (.advance place .none)).IsAwaited object.cid := by
  have hdelete : (pool.table.delete object).2 = true :=
    ObjectTable.delete_removes_iff.mpr hscheduled
  have hbound := (List.getElem?_eq_some_iff.mp hplace).1
  rw [take_advance, ReclaimPool.take_advance hplace]
  refine ⟨(ReclaimRun.step .none (pool.runOf pass)).pass, List.mem_set hbound _, ?_⟩
  unfold ReclaimRun.step ReclaimPool.runOf ReclaimFaults.none
  simp [hstage, hdelete, ReclaimPass.awaits, ReclaimPass.awaited?, ReclaimStage.awaited?]

/-! The bytes of an overdue object are uploaded again when a pass has removed its row and not
yet its blob. -/

section Overtaken

def overdueUpload : StorageObject where
  cid := blobReference [1]
  mimeType := "image/png"
  ownerId := 2
  createdAt := ⟨7, 0⟩
  removeAt := some ⟨60, 0⟩

def overdueTable : ObjectTable :=
  ObjectTable.empty.save overdueUpload

def overdueBlobs : BlobStore :=
  (BlobStore.empty.add [1] "image/png").1

def uploadedAgain : List UploadTurn :=
  [.enter .none ⟨120, 0⟩, .advance 0 .none, .store [1] "image/png"]

theorem rows_overdueTable :
    overdueTable.rows = [overdueUpload] :=
  rfl

theorem contains_overdueBlobs :
    ∀ row ∈ overdueTable.rows, overdueBlobs.contains row.cid = true := by
  intro row hmember
  rw [rows_overdueTable, List.mem_singleton] at hmember
  rw [hmember, overdueBlobs, BlobStore.contains_add]
  simp [overdueUpload]

theorem overlaps_uploadedAgain :
    ((idle overdueTable overdueBlobs).play uploadedAgain).Overlaps (blobReference [1]) := by
  have hplace : ((idle overdueTable overdueBlobs).take (.enter .none ⟨120, 0⟩)).running[0]? =
      some (.start .none ⟨120, 0⟩ overdueTable) :=
    rfl
  have hstage : (ReclaimPass.start .none ⟨120, 0⟩ overdueTable).stage =
      .deleting [overdueUpload] :=
    rfl
  have hscheduled : overdueTable.IsScheduledAs overdueUpload := by
    apply ObjectTable.isScheduledAs_of_mem
    rw [rows_overdueTable]
    exact List.mem_cons_self
  exact overlaps_take_store (isAwaited_take_advance hplace hstage hscheduled) "image/png"

theorem rows_lose_blobs_to_overlaps_uploadedAgain :
    (∀ row ∈ overdueTable.rows, overdueBlobs.contains row.cid = true) ∧
      ((idle overdueTable overdueBlobs).play uploadedAgain).Overlaps (blobReference [1]) ∧
      ∃ later, ((idle overdueTable overdueBlobs).play (uploadedAgain ++ later)).halfDone = [] ∧
        ((idle overdueTable overdueBlobs).play (uploadedAgain ++ later)).Dangles
          (blobReference [1]) := by
  obtain ⟨-, hlost⟩ := rows_lose_blobs_to_overlaps overdueTable overdueBlobs uploadedAgain
    (blobReference [1]) contains_overdueBlobs
  exact ⟨contains_overdueBlobs, overlaps_uploadedAgain, hlost overlaps_uploadedAgain⟩

theorem completed_upload_loses_blob :
    ¬ ∀ (table : ObjectTable) (blobs : BlobStore) (turns : List UploadTurn),
      (∀ row ∈ table.rows, blobs.contains row.cid = true) →
      ((idle table blobs).play turns).halfDone = [] →
        ∀ cid, ¬ ((idle table blobs).play turns).Dangles cid := by
  intro hkeeps
  obtain ⟨later, hdone, hdangles⟩ := exists_dangles_of_overlaps overlaps_uploadedAgain
  rw [← play_append] at hdone hdangles
  exact hkeeps overdueTable overdueBlobs _ contains_overdueBlobs hdone _ hdangles

end Overtaken

end UploadPool
end MintWatch

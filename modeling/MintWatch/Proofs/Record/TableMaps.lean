import Mathlib
import MintWatch.Proofs.Record.ContentTable
import MintWatch.Proofs.Record.ObjectTable
/-!
# The tables as maps

The two tables hold what two maps hold, from ids to content records and from content
identifiers to storage objects.  A write does to the tables what it does to the maps and
gives the same answer, so after any writes the tables hold what the maps do.  A query
gives the rows of the map that its filter matches, each once and in order.
-/

namespace MintWatch

inductive RecordWrite where
  | saveContent (record : ContentRecord)
  | deleteContent (record : ContentRecord)
  | saveObject (object : StorageObject)
  | deleteObject (object : StorageObject)

/-! ## Writing to maps -/

structure RecordMaps where
  contents : Int → Option ContentRecord
  objects : String → Option StorageObject

namespace RecordMaps

def empty : RecordMaps :=
  ⟨fun _ => none, fun _ => none⟩

/-- The last record wins, but a confirmation is never lost. -/
def saveContent (maps : RecordMaps) (record : ContentRecord) : RecordMaps :=
  let confirmedBefore := (maps.contents record.id).any ContentRecord.confirmed
  { maps with
    contents := Function.update maps.contents record.id
      (some { record with confirmed := confirmedBefore || record.confirmed }) }

def deleteContent (maps : RecordMaps) (record : ContentRecord) : RecordMaps × Bool :=
  ({ maps with contents := Function.update maps.contents record.id none },
    (maps.contents record.id).isSome)

/-- The last object wins, but the time of creation stays while there is an object. -/
def saveObject (maps : RecordMaps) (object : StorageObject) : RecordMaps :=
  let createdBefore := (maps.objects object.cid).map StorageObject.createdAt
  { maps with
    objects := Function.update maps.objects object.cid
      (some
        { object with
          createdAt := createdBefore.getD object.createdAt.wholeSecond
          removeAt := object.removeAt.map Timestamp.wholeSecond }) }

/-- Only an object that is to be removed in the same second, or neither of them at all, goes. -/
def deleteObject (maps : RecordMaps) (object : StorageObject) : RecordMaps × Bool :=
  match maps.objects object.cid with
  | none => (maps, false)
  | some stored =>
    if stored.removeAt = object.removeAt.map Timestamp.wholeSecond then
      ({ maps with objects := Function.update maps.objects object.cid none }, true)
    else (maps, false)

/-- What a write leaves, and for a deletion whether it removed anything. -/
def write (maps : RecordMaps) : RecordWrite → RecordMaps × Option Bool
  | .saveContent record => (maps.saveContent record, none)
  | .deleteContent record => ((maps.deleteContent record).1, some (maps.deleteContent record).2)
  | .saveObject object => (maps.saveObject object, none)
  | .deleteObject object => ((maps.deleteObject object).1, some (maps.deleteObject object).2)

def after (maps : RecordMaps) (writes : List RecordWrite) : RecordMaps :=
  writes.foldl (fun current write => (current.write write).1) maps

def answers (maps : RecordMaps) : List RecordWrite → List (Option Bool)
  | [] => []
  | write :: rest => (maps.write write).2 :: (maps.write write).1.answers rest

end RecordMaps

/-! ## Writing to tables -/

structure RecordTables where
  contents : ContentTable
  objects : ObjectTable

namespace RecordTables

def empty : RecordTables :=
  ⟨ContentTable.empty, ObjectTable.empty⟩

def write (tables : RecordTables) : RecordWrite → RecordTables × Option Bool
  | .saveContent record => ({ tables with contents := tables.contents.save record }, none)
  | .deleteContent record =>
    ({ tables with contents := (tables.contents.delete record).1 },
      some (tables.contents.delete record).2)
  | .saveObject object => ({ tables with objects := tables.objects.save object }, none)
  | .deleteObject object =>
    ({ tables with objects := (tables.objects.delete object).1 },
      some (tables.objects.delete object).2)

def after (tables : RecordTables) (writes : List RecordWrite) : RecordTables :=
  writes.foldl (fun current write => (current.write write).1) tables

def answers (tables : RecordTables) : List RecordWrite → List (Option Bool)
  | [] => []
  | write :: rest => (tables.write write).2 :: (tables.write write).1.answers rest

/-- The maps from keys to the rows that have them. -/
def maps (tables : RecordTables) : RecordMaps :=
  ⟨tables.contents.find?, tables.objects.find?⟩

theorem maps_empty : empty.maps = RecordMaps.empty :=
  rfl

end RecordTables

/-! ## Writing to a table is writing to its map -/

namespace ContentTable

variable (table : ContentTable) (record : ContentRecord)

theorem find?_save_eq_update :
    (table.save record).find? =
      Function.update table.find? record.id
        (some (record.over (table.find? record.id))) := by
  funext id
  rw [find?_save, Function.update_apply]
  by_cases hsame : record.id = id
  · rw [if_pos hsame, if_pos hsame.symm, hsame]
  · rw [if_neg hsame, if_neg (Ne.symm hsame)]

/-- The condition of a query says of a row what its filter says of the record. -/
theorem selects_eq_matches
    (filter : ContentFilter) :
    selects filter record = filter.matches record := by
  cases filter with
  | awaitingConfirmation =>
      unfold selects ContentFilter.matches ContentRecord.state
      cases record.confirmed <;> cases record.txHash <;> rfl
  | byId id => rfl
  | all => rfl

theorem find?_delete_eq_update :
    (table.delete record).1.find? = Function.update table.find? record.id none := by
  funext id
  rw [find?_delete, Function.update_apply]
  exact if_congr eq_comm rfl rfl

theorem delete_removes_eq :
    (table.delete record).2 = (table.find? record.id).isSome := by
  rw [Bool.eq_iff_iff, find?, List.find?_isSome]
  exact List.any_eq_true

theorem mem_query_iff
    (filter : ContentFilter) :
    record ∈ table.query filter ↔
      table.find? record.id = some record ∧ filter.matches record = true := by
  rw [query, List.mem_filter, find?_eq_some_iff, selects_eq_matches]
  simp only [and_true]

theorem query_ascending
    (filter : ContentFilter) :
    (table.query filter).Pairwise fun first second => first.id < second.id :=
  table.ascending.filter _

theorem query_nodup
    (filter : ContentFilter) :
    (table.query filter).Nodup := by
  refine (table.query_ascending filter).imp ?_
  rintro first _ hbefore rfl
  exact lt_irrefl _ hbefore

end ContentTable

theorem StorageObject.savedOver_eq
    (object : StorageObject)
    (stored : Option StorageObject) :
    object.savedOver stored =
      { object with
        createdAt := (stored.map StorageObject.createdAt).getD object.createdAt.wholeSecond
        removeAt := object.removeAt.map Timestamp.wholeSecond } := by
  cases stored <;> rfl

namespace ObjectTable

variable (table : ObjectTable) (object : StorageObject)

theorem find?_save_eq_update :
    (table.save object).find? =
      Function.update table.find? object.cid
        (some (object.savedOver (table.find? object.cid))) := by
  funext cid
  rw [find?_save, Function.update_apply]
  by_cases hsame : object.cid = cid
  · rw [if_pos hsame, if_pos hsame.symm, hsame]
  · rw [if_neg hsame, if_neg (Ne.symm hsame)]

theorem find?_delete_of_isScheduledAs
    (hscheduled : table.IsScheduledAs object) :
    (table.delete object).1.find? = Function.update table.find? object.cid none := by
  funext cid
  rw [delete_of_isScheduledAs hscheduled, find?_without_cid, Function.update_apply]
  exact if_congr eq_comm rfl rfl

theorem selects_eq_matches
    (filter : ObjectFilter) :
    selects filter object = filter.matches object := by
  cases filter with
  | scheduledForRemoval =>
      unfold selects ObjectFilter.matches
      cases object.removeAt <;> rfl
  | byCid cid => rfl
  | all => rfl

theorem mem_query_iff
    (filter : ObjectFilter) :
    object ∈ table.query filter ↔
      table.find? object.cid = some object ∧ filter.matches object = true := by
  rw [query, List.mem_filter, selects_eq_matches, mem_rows_iff]

/-- Stored times of creation are whole seconds, so they are the same if their seconds are. -/
theorem query_ascending
    (filter : ObjectFilter) :
    (table.query filter).Pairwise fun first second =>
      first.createdAt.seconds < second.createdAt.seconds ∨
        first.createdAt = second.createdAt ∧ first.cid < second.cid := by
  refine (table.valid.ordered.filter _).imp_of_mem ?_
  intro first second hfirst hsecond hprecedes
  have hwhole : ∀ row ∈ table.query filter, row.createdAt.wholeSecond = row.createdAt :=
    fun row hrow =>
      congrArg StorageObject.createdAt (table.valid.whole row (List.mem_filter.mp hrow).1)
  rcases StorageObject.precedes_iff.mp hprecedes with hearlier | ⟨hsame, hcid⟩
  · exact Or.inl hearlier
  · refine Or.inr ⟨?_, hcid⟩
    rw [← hwhole first hfirst, ← hwhole second hsecond, Timestamp.wholeSecond, hsame]
    rfl

theorem query_nodup
    (filter : ObjectFilter) :
    (table.query filter).Nodup :=
  table.valid.distinct.filter _ |>.imp fun hdiffers hsame => hdiffers (congrArg _ hsame)

end ObjectTable

/-! ## What the tables hold after any writes -/

namespace RecordTables

theorem maps_deleteObject
    (tables : RecordTables)
    (object : StorageObject) :
    ({ tables with objects := (tables.objects.delete object).1 } : RecordTables).maps =
        (tables.maps.deleteObject object).1 ∧
      (tables.objects.delete object).2 = (tables.maps.deleteObject object).2 := by
  by_cases hscheduled : tables.objects.IsScheduledAs object
  · have hremoved := ObjectTable.delete_removes_iff.mpr hscheduled
    have hfind := tables.objects.find?_delete_of_isScheduledAs object hscheduled
    obtain ⟨stored, hstored, hsame⟩ := hscheduled
    simp only [RecordMaps.deleteObject, maps, hstored, if_pos hsame, hremoved, hfind, and_self]
  · -- Either there is no row, or it is scheduled for another second.
    rw [ObjectTable.delete_of_not_isScheduledAs hscheduled]
    cases hstored : tables.objects.find? object.cid with
    | none => simp only [RecordMaps.deleteObject, maps, hstored, and_self]
    | some stored =>
        have hother : ¬stored.removeAt = object.removeAt.map Timestamp.wholeSecond :=
          fun hsame => hscheduled ⟨stored, hstored, hsame⟩
        simp only [RecordMaps.deleteObject, maps, hstored, if_neg hother, and_self]

theorem maps_write
    (tables : RecordTables)
    (write : RecordWrite) :
    (tables.write write).1.maps = (tables.maps.write write).1 ∧
      (tables.write write).2 = (tables.maps.write write).2 := by
  cases write with
  | saveContent record =>
      refine ⟨?_, rfl⟩
      refine congrArg (RecordMaps.mk · tables.objects.find?) ?_
      exact tables.contents.find?_save_eq_update record
  | deleteContent record =>
      refine ⟨?_, congrArg some (tables.contents.delete_removes_eq record)⟩
      refine congrArg (RecordMaps.mk · tables.objects.find?) ?_
      exact tables.contents.find?_delete_eq_update record
  | saveObject object =>
      refine ⟨?_, rfl⟩
      refine congrArg (RecordMaps.mk tables.contents.find?) ?_
      refine (tables.objects.find?_save_eq_update object).trans ?_
      rw [StorageObject.savedOver_eq]
      rfl
  | deleteObject object =>
      have hdelete := tables.maps_deleteObject object
      exact ⟨hdelete.1, congrArg some hdelete.2⟩

theorem maps_after
    (tables : RecordTables)
    (writes : List RecordWrite) :
    (tables.after writes).maps = tables.maps.after writes := by
  induction writes generalizing tables with
  | nil => rfl
  | cons write rest ih =>
      refine (ih (tables.write write).1).trans ?_
      rw [(tables.maps_write write).1]
      rfl

theorem answers_eq
    (tables : RecordTables)
    (writes : List RecordWrite) :
    tables.answers writes = tables.maps.answers writes := by
  induction writes generalizing tables with
  | nil => rfl
  | cons write rest ih =>
      rw [answers, RecordMaps.answers, ih, (tables.maps_write write).1,
        (tables.maps_write write).2]

theorem tables_refine_maps
    (start : RecordTables)
    (writes : List RecordWrite) :
    let tables := start.after writes
    let maps := start.maps.after writes
    empty.maps = RecordMaps.empty ∧
      tables.maps = maps ∧
      start.answers writes = start.maps.answers writes ∧
      (∀ (filter : ContentFilter) (record : ContentRecord),
        record ∈ tables.contents.query filter ↔
          maps.contents record.id = some record ∧ filter.matches record = true) ∧
      (∀ filter : ContentFilter,
        (tables.contents.query filter).Nodup ∧
        (tables.contents.query filter).Pairwise fun first second => first.id < second.id) ∧
      (∀ (filter : ObjectFilter) (object : StorageObject),
        object ∈ tables.objects.query filter ↔
          maps.objects object.cid = some object ∧ filter.matches object = true) ∧
      (∀ filter : ObjectFilter,
        (tables.objects.query filter).Nodup ∧
        (tables.objects.query filter).Pairwise fun first second =>
          first.createdAt.seconds < second.createdAt.seconds ∨
            first.createdAt = second.createdAt ∧ first.cid < second.cid) := by
  intro tables maps
  have hmaps : tables.maps = maps := start.maps_after writes
  refine ⟨maps_empty, hmaps, start.answers_eq writes, ?_, ?_, ?_, ?_⟩
  · intro filter record
    rw [← hmaps]
    exact tables.contents.mem_query_iff record filter
  · intro filter
    exact ⟨tables.contents.query_nodup filter, tables.contents.query_ascending filter⟩
  · intro filter object
    rw [← hmaps]
    exact tables.objects.mem_query_iff object filter
  · intro filter
    exact ⟨tables.objects.query_nodup filter, tables.objects.query_ascending filter⟩

end RecordTables
end MintWatch

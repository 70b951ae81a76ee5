import Mathlib
import MintWatch.Proofs.Lists
import MintWatch.Record.ObjectTable
/-!
# What the table of storage objects holds

The table as a map from identifiers to rows: what a save and a deletion do to the row of
an identifier.  A deletion removes the row of its object or none, and it removes the row
exactly if that is still scheduled for removal in the second in which the object is.
-/

namespace MintWatch

theorem Timestamp.before_iff
    {first second : Timestamp} :
    first.before second = true ↔
      first.seconds < second.seconds ∨
        first.seconds = second.seconds ∧ first.nanoseconds < second.nanoseconds := by
  simp [Timestamp.before]

namespace StorageObject

/-- Whether the time of removal of an object lies before a point in time. -/
def IsOverdue (object : StorageObject) (now : Timestamp) : Prop :=
  ∃ time, object.removeAt = some time ∧
    (time.seconds < now.seconds ∨
      time.seconds = now.seconds ∧ time.nanoseconds < now.nanoseconds)

theorem isExpired_iff
    {object : StorageObject} {now : Timestamp} :
    object.isExpired now = true ↔ object.IsOverdue now := by
  unfold isExpired IsOverdue
  simp only [Option.any_eq_true, Timestamp.before_iff]

instance decidableIsOverdue (object : StorageObject) (now : Timestamp) :
    Decidable (object.IsOverdue now) :=
  decidable_of_iff (object.isExpired now = true) isExpired_iff

theorem isExpired_eq_decide
    (object : StorageObject) (now : Timestamp) :
    object.isExpired now = decide (object.IsOverdue now) := by
  rw [Bool.eq_iff_iff, decide_eq_true_iff, isExpired_iff]

/-- The row that a save leaves, if this row was there before. -/
def savedOver (object : StorageObject) : Option StorageObject → StorageObject
  | none => object.wholeSeconds
  | some row => row.overwrite object.wholeSeconds

@[simp] theorem cid_savedOver
    (object : StorageObject) (stored : Option StorageObject) :
    (object.savedOver stored).cid = object.cid := by
  cases stored <;> rfl

@[simp] theorem removeAt_savedOver
    (object : StorageObject) (stored : Option StorageObject) :
    (object.savedOver stored).removeAt = object.removeAt.map Timestamp.wholeSecond := by
  cases stored <;> rfl

end StorageObject

namespace ObjectTable

variable {table : ObjectTable} {object row : StorageObject} {cid : String}

theorem eq_of_rows
    {first second : ObjectTable}
    (hsame : first.rows = second.rows) :
    first = second := by
  cases first
  cases second
  cases hsame
  rfl

theorem find?_eq_some_iff :
    table.find? cid = some row ↔ row ∈ table.rows ∧ row.cid = cid :=
  find?_key_eq_some_iff table.valid.distinct

theorem mem_rows_iff :
    row ∈ table.rows ↔ table.find? row.cid = some row := by
  simp [find?_eq_some_iff]

theorem find?_eq_none_iff :
    table.find? cid = none ↔ ∀ row ∈ table.rows, row.cid ≠ cid := by
  unfold find?
  simp

theorem wholeSecond_removeAt
    (hmember : row ∈ table.rows) :
    row.removeAt.map Timestamp.wholeSecond = row.removeAt :=
  congrArg StorageObject.removeAt (table.valid.whole row hmember)

/-! ## Saving -/

theorem rows_save_of_absent
    (habsent : table.find? object.cid = none) :
    (table.save object).rows = insertObjectRow object.wholeSeconds table.rows := by
  unfold save
  dsimp only
  split
  · rfl
  · rename_i stored hstored
    rw [StorageObject.wholeSeconds, habsent] at hstored
    cases hstored

theorem rows_save_of_present
    {stored : StorageObject}
    (hstored : table.find? object.cid = some stored) :
    (table.save object).rows = table.rows.map object.wholeSeconds.overwriteSame := by
  unfold save
  dsimp only
  split
  · rename_i habsent
    rw [StorageObject.wholeSeconds, hstored] at habsent
    cases habsent
  · rfl

theorem find?_save :
    (table.save object).find? cid =
      if object.cid = cid then some (object.savedOver (table.find? cid))
      else table.find? cid := by
  cases hstored : table.find? object.cid with
  | none =>
      ext row
      rw [find?_eq_some_iff, rows_save_of_absent hstored, mem_insertObjectRow]
      by_cases hsame : object.cid = cid
      · subst hsame
        rw [if_pos rfl, hstored, StorageObject.savedOver, Option.some.injEq]
        constructor
        · rintro ⟨rfl | hmember, hrow⟩
          · rfl
          · exact absurd hrow (find?_eq_none_iff.mp hstored row hmember)
        · rintro rfl
          exact ⟨Or.inl rfl, rfl⟩
      · rw [if_neg hsame, find?_eq_some_iff]
        constructor
        · rintro ⟨rfl | hmember, hrow⟩
          · exact absurd hrow hsame
          · exact ⟨hmember, hrow⟩
        · rintro ⟨hmember, hrow⟩
          exact ⟨Or.inr hmember, hrow⟩
  | some stored =>
      have hmap : (table.save object).find? cid =
          (table.find? cid).map object.wholeSeconds.overwriteSame := by
        unfold find?
        rw [rows_save_of_present hstored, List.find?_map]
        congr 2
        funext row
        rw [Function.comp_apply, StorageObject.cid_overwriteSame]
      rw [hmap]
      by_cases hsame : object.cid = cid
      · subst hsame
        have hrow : stored.cid = object.wholeSeconds.cid := (find?_eq_some_iff.mp hstored).2
        rw [if_pos rfl, hstored, Option.map_some, StorageObject.overwriteSame, if_pos hrow]
        rfl
      · rw [if_neg hsame]
        cases hfound : table.find? cid with
        | none => rfl
        | some row =>
            have hrow : row.cid = cid := (find?_eq_some_iff.mp hfound).2
            have hdiffers : ¬ row.cid = object.wholeSeconds.cid :=
              fun hcid => hsame (hcid.symm.trans hrow)
            rw [Option.map_some, StorageObject.overwriteSame, if_neg hdiffers]

/-! ## Deleting -/

/-- Whether the stored row of an object is scheduled for removal in the second in which the
object is, or neither is scheduled. -/
def IsScheduledAs (table : ObjectTable) (object : StorageObject) : Prop :=
  ∃ row, table.find? object.cid = some row ∧
    row.removeAt = object.removeAt.map Timestamp.wholeSecond

theorem isSameSchedule_iff :
    isSameSchedule object row = true ↔
      row.cid = object.cid ∧ row.removeAt = object.removeAt.map Timestamp.wholeSecond := by
  simp [isSameSchedule]

theorem delete_removes_iff :
    (table.delete object).2 = true ↔ table.IsScheduledAs object := by
  unfold delete IsScheduledAs
  simp only [List.any_eq_true, isSameSchedule_iff, find?_eq_some_iff]
  simp only [and_assoc]

theorem delete_of_not_isScheduledAs
    (hother : ¬ table.IsScheduledAs object) :
    table.delete object = (table, false) := by
  have hkept : (table.delete object).2 = false := by
    rw [Bool.eq_false_iff, ne_eq, delete_removes_iff]
    exact hother
  have hrows : (table.delete object).1 = table := by
    apply eq_of_rows
    unfold delete at hkept ⊢
    rw [List.filter_eq_self]
    rw [List.any_eq_false] at hkept
    intro row hmember
    simpa using hkept row hmember
  exact Prod.ext hrows hkept

/-- The rows that are not taken out. -/
def without (table : ObjectTable) (gone : StorageObject → Bool) : ObjectTable :=
  ⟨table.rows.filter fun row => !gone row, table.valid.filter _⟩

theorem without_congr
    {gone gone' : StorageObject → Bool}
    (hsame : ∀ row ∈ table.rows, gone row = gone' row) :
    table.without gone = table.without gone' := by
  apply eq_of_rows
  unfold without
  apply List.filter_congr
  intro row hmember
  rw [hsame row hmember]

theorem without_nothing
    (table : ObjectTable) :
    (table.without fun _ => false) = table := by
  apply eq_of_rows
  simp [without]

theorem without_without
    (gone gone' : StorageObject → Bool) :
    (table.without gone).without gone' = table.without fun row => gone row || gone' row := by
  apply eq_of_rows
  refine List.filter_filter.trans ?_
  apply List.filter_congr
  intro row _
  rw [Bool.not_or, Bool.and_comm]

theorem mem_rows_without
    {gone : StorageObject → Bool} :
    row ∈ (table.without gone).rows ↔ row ∈ table.rows ∧ gone row = false := by
  unfold without
  rw [List.mem_filter, Bool.not_eq_true']

theorem delete_of_isScheduledAs
    (hscheduled : table.IsScheduledAs object) :
    table.delete object = (table.without fun row => row.cid = object.cid, true) := by
  have hremoved := delete_removes_iff.mpr hscheduled
  obtain ⟨stored, hstored, hschedule⟩ := hscheduled
  have hrows : (table.delete object).1 = table.without fun row => row.cid = object.cid := by
    apply without_congr
    intro row hmember
    rw [Bool.eq_iff_iff, isSameSchedule_iff, decide_eq_true_iff]
    constructor
    · exact And.left
    · -- Only the stored row has the identifier.
      intro hrow
      have hfound := mem_rows_iff.mp hmember
      rw [hrow, hstored] at hfound
      cases hfound
      exact ⟨hrow, hschedule⟩
  exact Prod.ext hrows hremoved

theorem find?_without
    (gone : StorageObject → Bool) :
    (table.without gone).find? cid = (table.find? cid).filter fun row => !gone row := by
  ext row
  rw [find?_eq_some_iff, mem_rows_without, Option.filter_eq_some_iff, find?_eq_some_iff,
    Bool.not_eq_true', and_right_comm]

theorem find?_without_cid
    {gone : StorageObject} :
    (table.without fun row => row.cid = gone.cid).find? cid =
      if gone.cid = cid then none else table.find? cid := by
  rw [find?_without]
  cases hfound : table.find? cid with
  | none => rw [ite_self, Option.filter_none]
  | some row =>
      have hrow : row.cid = cid := (find?_eq_some_iff.mp hfound).2
      by_cases hsame : gone.cid = cid
      · simp [hrow, hsame]
      · simp [hrow, hsame, Ne.symm hsame]

theorem isScheduledAs_of_mem
    (hmember : object ∈ table.rows) :
    table.IsScheduledAs object :=
  ⟨object, mem_rows_iff.mp hmember, (wholeSecond_removeAt hmember).symm⟩

end ObjectTable
end MintWatch

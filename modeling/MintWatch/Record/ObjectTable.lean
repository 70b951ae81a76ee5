import MintWatch.Record.Object
/-!
# The table of storage objects

The stored objects, one for each content identifier, in ascending order of their times
of creation and, at one time, of their identifiers.  Times are stored in whole
seconds.  Saving an object replaces the stored one but keeps its time of creation.
-/

namespace MintWatch

def StorageObject.precedes (a b : StorageObject) : Bool :=
  a.createdAt.seconds < b.createdAt.seconds
    || (a.createdAt.seconds == b.createdAt.seconds && a.cid < b.cid)

def insertObjectRow (object : StorageObject) : List StorageObject → List StorageObject
  | [] => [object]
  | row :: rest =>
    if object.precedes row then object :: row :: rest else row :: insertObjectRow object rest

def StorageObject.overwrite (row object : StorageObject) : StorageObject :=
  { object with createdAt := row.createdAt }

theorem StorageObject.precedes_iff {a b : StorageObject} :
    a.precedes b = true ↔
      a.createdAt.seconds < b.createdAt.seconds ∨
        (a.createdAt.seconds = b.createdAt.seconds ∧ a.cid < b.cid) := by
  simp [StorageObject.precedes]

theorem StorageObject.precedes_trans {a b c : StorageObject}
    (hab : a.precedes b = true)
    (hbc : b.precedes c = true) :
    a.precedes c = true := by
  rw [StorageObject.precedes_iff] at *
  rcases hab with hab | ⟨sameAb, lessAb⟩
  · rcases hbc with hbc | ⟨sameBc, _⟩
    · exact Or.inl (Int.lt_trans hab hbc)
    · exact Or.inl (sameBc ▸ hab)
  · rcases hbc with hbc | ⟨sameBc, lessBc⟩
    · exact Or.inl (sameAb ▸ hbc)
    · exact Or.inr ⟨sameAb.trans sameBc, String.lt_trans lessAb lessBc⟩

theorem StorageObject.precedes_of_not_precedes {a b : StorageObject}
    (h : ¬ a.precedes b = true)
    (differ : b.cid ≠ a.cid) :
    b.precedes a = true := by
  rw [StorageObject.precedes_iff] at *
  by_cases less : b.createdAt.seconds < a.createdAt.seconds
  · exact Or.inl less
  · by_cases greater : a.createdAt.seconds < b.createdAt.seconds
    · exact absurd (Or.inl greater) h
    · have same : a.createdAt.seconds = b.createdAt.seconds := by omega
      refine Or.inr ⟨same.symm, ?_⟩
      by_cases cids : b.cid < a.cid
      · exact cids
      · have upper : a.cid ≤ b.cid := String.not_lt.mp cids
        have lower : b.cid ≤ a.cid := String.not_lt.mp fun less => h (Or.inr ⟨same, less⟩)
        exact absurd (String.le_antisymm lower upper) differ

theorem mem_insertObjectRow {object row : StorageObject} {rows : List StorageObject} :
    row ∈ insertObjectRow object rows ↔ row = object ∨ row ∈ rows := by
  induction rows with
  | nil => simp [insertObjectRow]
  | cons first rest ih =>
    simp only [insertObjectRow]
    split
    · simp
    · simp only [List.mem_cons, ih]
      constructor
      · rintro (h | h | h)
        · exact Or.inr (Or.inl h)
        · exact Or.inl h
        · exact Or.inr (Or.inr h)
      · rintro (h | h | h)
        · exact Or.inr (Or.inl h)
        · exact Or.inl h
        · exact Or.inr (Or.inr h)

/-- What holds of stored rows: one for each identifier, in order, in whole seconds. -/
structure ValidObjectRows (rows : List StorageObject) : Prop where
  ordered : rows.Pairwise fun a b => a.precedes b = true
  distinct : rows.Pairwise fun a b => a.cid ≠ b.cid
  whole : ∀ row ∈ rows, row.wholeSeconds = row

theorem ValidObjectRows.insert {object : StorageObject} {rows : List StorageObject}
    (h : ValidObjectRows rows)
    (fresh : ∀ row ∈ rows, row.cid ≠ object.cid)
    (whole : object.wholeSeconds = object) :
    ValidObjectRows (insertObjectRow object rows) := by
  refine ⟨?_, ?_, ?_⟩
  · have ordered := h.ordered
    clear h
    induction rows with
    | nil => simp [insertObjectRow]
    | cons first rest ih =>
      have later := (List.pairwise_cons.mp ordered).1
      simp only [insertObjectRow]
      split
      · rename_i less
        refine List.pairwise_cons.mpr ⟨?_, ordered⟩
        intro row member
        rcases List.mem_cons.mp member with same | old
        · exact same ▸ less
        · exact StorageObject.precedes_trans less (later row old)
      · rename_i notLess
        refine List.pairwise_cons.mpr ⟨?_, ?_⟩
        · intro row member
          rcases mem_insertObjectRow.mp member with same | old
          · subst same
            exact StorageObject.precedes_of_not_precedes notLess
              (fresh first List.mem_cons_self)
          · exact later row old
        · exact ih (fun row member => fresh row (List.mem_cons_of_mem _ member))
            (List.pairwise_cons.mp ordered).2
  · have distinct := h.distinct
    clear h
    induction rows with
    | nil => simp [insertObjectRow]
    | cons first rest ih =>
      have later := (List.pairwise_cons.mp distinct).1
      simp only [insertObjectRow]
      split
      · refine List.pairwise_cons.mpr ⟨?_, distinct⟩
        intro row member same
        exact fresh row member same.symm
      · refine List.pairwise_cons.mpr ⟨?_, ?_⟩
        · intro row member
          rcases mem_insertObjectRow.mp member with same | old
          · subst same
            exact fresh first List.mem_cons_self
          · exact later row old
        · exact ih (fun row member => fresh row (List.mem_cons_of_mem _ member))
            (List.pairwise_cons.mp distinct).2
  · intro row member
    rcases mem_insertObjectRow.mp member with same | old
    · exact same ▸ whole
    · exact h.whole row old

theorem ValidObjectRows.filter {rows : List StorageObject}
    (h : ValidObjectRows rows)
    (keep : StorageObject → Bool) :
    ValidObjectRows (rows.filter keep) :=
  ⟨h.ordered.filter keep, h.distinct.filter keep,
    fun row member => h.whole row (List.mem_filter.mp member).1⟩

theorem StorageObject.wholeSeconds_idem (object : StorageObject) :
    object.wholeSeconds.wholeSeconds = object.wholeSeconds := by
  cases object with
  | mk cid mimeType ownerId createdAt removeAt =>
    cases removeAt <;> rfl

/-- A stored row after a save: rows of other objects stay as they are. -/
def StorageObject.overwriteSame (object row : StorageObject) : StorageObject :=
  if row.cid = object.cid then row.overwrite object else row

theorem StorageObject.cid_overwriteSame (object row : StorageObject) :
    (object.overwriteSame row).cid = row.cid := by
  unfold overwriteSame
  split
  · rename_i same
    exact same.symm
  · rfl

theorem StorageObject.createdAt_overwriteSame (object row : StorageObject) :
    (object.overwriteSame row).createdAt = row.createdAt := by
  unfold overwriteSame
  split <;> rfl

theorem StorageObject.whole_overwriteSame {object row : StorageObject}
    (wholeObject : object.wholeSeconds = object)
    (wholeRow : row.wholeSeconds = row) :
    (object.overwriteSame row).wholeSeconds = object.overwriteSame row := by
  unfold overwriteSame
  split
  · have created := congrArg StorageObject.createdAt wholeRow
    have removal := congrArg StorageObject.removeAt wholeObject
    simp only [wholeSeconds] at created removal
    simp only [overwrite, wholeSeconds, created, removal]
  · exact wholeRow

theorem ValidObjectRows.overwrite {object : StorageObject} {rows : List StorageObject}
    (h : ValidObjectRows rows)
    (whole : object.wholeSeconds = object) :
    ValidObjectRows (rows.map object.overwriteSame) := by
  refine ⟨?_, ?_, ?_⟩
  · refine List.pairwise_map.mpr (h.ordered.imp ?_)
    intro a b less
    rw [StorageObject.precedes_iff] at *
    simpa only [StorageObject.cid_overwriteSame, StorageObject.createdAt_overwriteSame] using less
  · refine List.pairwise_map.mpr (h.distinct.imp ?_)
    intro a b differ
    simpa only [StorageObject.cid_overwriteSame] using differ
  · intro row member
    obtain ⟨stored, old, same⟩ := List.mem_map.mp member
    exact same ▸ StorageObject.whole_overwriteSame whole (h.whole stored old)

structure ObjectTable where
  rows : List StorageObject
  valid : ValidObjectRows rows

namespace ObjectTable

def empty : ObjectTable :=
  ⟨[], ⟨List.Pairwise.nil, List.Pairwise.nil, fun _ member => nomatch member⟩⟩

def find? (table : ObjectTable) (cid : String) : Option StorageObject :=
  table.rows.find? fun row => row.cid = cid

def selects (filter : ObjectFilter) (row : StorageObject) : Bool :=
  match filter with
  | .scheduledForRemoval => row.removeAt != none
  | .byCid cid => row.cid = cid
  | .all => true

def query (table : ObjectTable) (filter : ObjectFilter) : List StorageObject :=
  table.rows.filter (selects filter)

theorem cid_ne_of_find?_eq_none {table : ObjectTable} {cid : String}
    (h : table.find? cid = none) :
    ∀ row ∈ table.rows, row.cid ≠ cid := by
  intro row member
  have missed := List.find?_eq_none.mp h row member
  simpa using missed

/-- Stores an object in the place of any with its identifier, which keeps its time of creation. -/
def save (table : ObjectTable) (object : StorageObject) : ObjectTable :=
  let stored := object.wholeSeconds
  match h : table.find? stored.cid with
  | none =>
    ⟨insertObjectRow stored table.rows,
      table.valid.insert (cid_ne_of_find?_eq_none h) object.wholeSeconds_idem⟩
  | some _ =>
    ⟨table.rows.map stored.overwriteSame, table.valid.overwrite object.wholeSeconds_idem⟩

/-- Whether a row is the given object, scheduled for removal in the same second. -/
def isSameSchedule (object row : StorageObject) : Bool :=
  row.cid == object.cid && row.removeAt == object.removeAt.map Timestamp.wholeSecond

/--
Removes the row of an object if it is still scheduled for removal as the object is; also
returns whether a row was removed.
-/
def delete (table : ObjectTable) (object : StorageObject) : ObjectTable × Bool :=
  (⟨table.rows.filter fun row => !isSameSchedule object row, table.valid.filter _⟩,
    table.rows.any (isSameSchedule object))

end ObjectTable
end MintWatch

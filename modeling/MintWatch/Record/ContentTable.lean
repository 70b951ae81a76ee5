import MintWatch.Record.Content
/-!
# The table of content records

The stored records, one for each id, in ascending order of their ids.  Saving a record
replaces the stored one but never takes back a stored confirmation.
-/

namespace MintWatch

def saveContentRow (record : ContentRecord) : List ContentRecord → List ContentRecord
  | [] => [record]
  | row :: rest =>
    if record.id < row.id then record :: row :: rest
    else if record.id = row.id then
      { record with confirmed := row.confirmed || record.confirmed } :: rest
    else row :: saveContentRow record rest

theorem id_of_mem_saveContentRow {record row : ContentRecord} {rows : List ContentRecord}
    (h : row ∈ saveContentRow record rows) :
    row.id = record.id ∨ row ∈ rows := by
  induction rows with
  | nil =>
    simp only [saveContentRow, List.mem_singleton] at h
    exact Or.inl (congrArg ContentRecord.id h)
  | cons first rest ih =>
    simp only [saveContentRow] at h
    split at h
    · rcases List.mem_cons.mp h with same | old
      · exact Or.inl (congrArg ContentRecord.id same)
      · exact Or.inr old
    · split at h
      · rcases List.mem_cons.mp h with same | old
        · exact Or.inl (by rw [same])
        · exact Or.inr (List.mem_cons_of_mem _ old)
      · rcases List.mem_cons.mp h with same | old
        · exact Or.inr (same ▸ List.mem_cons_self)
        · rcases ih old with same | old
          · exact Or.inl same
          · exact Or.inr (List.mem_cons_of_mem _ old)

def AscendingIds (rows : List ContentRecord) : Prop :=
  rows.Pairwise fun a b => a.id < b.id

theorem ascendingIds_saveContentRow {record : ContentRecord} {rows : List ContentRecord}
    (h : AscendingIds rows) :
    AscendingIds (saveContentRow record rows) := by
  induction rows with
  | nil => simp [saveContentRow, AscendingIds]
  | cons first rest ih =>
    have later := (List.pairwise_cons.mp h).1
    have ordered := (List.pairwise_cons.mp h).2
    simp only [saveContentRow]
    split
    · rename_i less
      refine List.pairwise_cons.mpr ⟨?_, h⟩
      intro row member
      rcases List.mem_cons.mp member with same | old
      · exact same ▸ less
      · exact Int.lt_trans less (later row old)
    · split
      · rename_i same
        refine List.pairwise_cons.mpr ⟨?_, ordered⟩
        intro row member
        exact same ▸ later row member
      · rename_i notLess notSame
        refine List.pairwise_cons.mpr ⟨?_, ih ordered⟩
        intro row member
        rcases id_of_mem_saveContentRow member with same | old
        · omega
        · exact later row old

structure ContentTable where
  rows : List ContentRecord
  ascending : AscendingIds rows

namespace ContentTable

def empty : ContentTable :=
  ⟨[], List.Pairwise.nil⟩

def find? (table : ContentTable) (id : Int) : Option ContentRecord :=
  table.rows.find? fun row => row.id = id

def selects (filter : ContentFilter) (row : ContentRecord) : Bool :=
  match filter with
  | .awaitingConfirmation => !row.confirmed && row.txHash.isSome
  | .byId id => row.id = id
  | .all => true

def query (table : ContentTable) (filter : ContentFilter) : List ContentRecord :=
  table.rows.filter (selects filter)

/-- Stores a record in the place of any with its id; a stored confirmation is kept. -/
def save (table : ContentTable) (record : ContentRecord) : ContentTable :=
  ⟨saveContentRow record table.rows, ascendingIds_saveContentRow table.ascending⟩

/-- Removes the record with the id of the given one; also returns whether there was one. -/
def delete (table : ContentTable) (record : ContentRecord) : ContentTable × Bool :=
  (⟨table.rows.filter fun row => row.id ≠ record.id, table.ascending.filter _⟩,
    table.rows.any fun row => row.id = record.id)

end ContentTable
end MintWatch

import Mathlib
import MintWatch.Proofs.Lists
import MintWatch.Record.ContentTable
/-!
# What the table of content records holds

The table as a map from ids to rows: what a save and a deletion do to the row of an id,
and which rows a query for records that await confirmation finds.  Later proofs use the
table through these equations only.
-/

namespace MintWatch

theorem find?_eq_none_of_lt
    {rows : List ContentRecord} {id : Int}
    (hbelow : ∀ row ∈ rows, id < row.id) :
    (rows.find? fun row => row.id = id) = none := by
  rw [List.find?_eq_none]
  intro row hmember
  have hlt := hbelow row hmember
  simp only [decide_eq_true_eq]
  omega

/-- The row that a save leaves, if this row was there before. -/
def ContentRecord.over (record : ContentRecord) (stored : Option ContentRecord) :
    ContentRecord :=
  { record with confirmed := stored.any ContentRecord.confirmed || record.confirmed }

theorem find?_saveContentRow
    {rows : List ContentRecord} (record : ContentRecord) (id : Int)
    (hascending : AscendingIds rows) :
    ((saveContentRow record rows).find? fun row => row.id = id) =
      if record.id = id then some (record.over (rows.find? fun row => row.id = id))
      else rows.find? fun row => row.id = id := by
  induction rows with
  | nil =>
      unfold saveContentRow ContentRecord.over
      by_cases hsame : record.id = id
      · rw [if_pos hsame, List.find?_cons_of_pos (by simpa using hsame)]
        simp
      · rw [if_neg hsame, List.find?_cons_of_neg (by simpa using hsame)]
  | cons first rest ih =>
      have hlater := (List.pairwise_cons.mp hascending).1
      have hrest := ih (List.pairwise_cons.mp hascending).2
      unfold saveContentRow
      by_cases hbefore : record.id < first.id
      · rw [if_pos hbefore]
        by_cases hsame : record.id = id
        · have hnone : ((first :: rest).find? fun row => row.id = id) = none := by
            apply find?_eq_none_of_lt
            intro row hmember
            rcases List.mem_cons.mp hmember with hfirst | hold
            · rw [hfirst]
              omega
            · have hlt := hlater row hold
              omega
          rw [if_pos hsame, hnone, List.find?_cons_of_pos (by simpa using hsame)]
          simp [ContentRecord.over]
        · rw [if_neg hsame, List.find?_cons_of_neg (by simpa using hsame)]
      · rw [if_neg hbefore]
        by_cases hreplaced : record.id = first.id
        · rw [if_pos hreplaced]
          by_cases hsame : record.id = id
          · have hfirst : first.id = id := by omega
            rw [if_pos hsame, List.find?_cons_of_pos (by simpa using hsame),
              List.find?_cons_of_pos (by simpa using hfirst)]
            simp [ContentRecord.over]
          · have hfirst : first.id ≠ id := by omega
            rw [if_neg hsame, List.find?_cons_of_neg (by simpa using hsame),
              List.find?_cons_of_neg (by simpa using hfirst)]
        · rw [if_neg hreplaced]
          by_cases hfirst : first.id = id
          · have hdiffers : record.id ≠ id := by omega
            rw [if_neg hdiffers, List.find?_cons_of_pos (by simpa using hfirst),
              List.find?_cons_of_pos (by simpa using hfirst)]
          · rw [List.find?_cons_of_neg (by simpa using hfirst),
              List.find?_cons_of_neg (by simpa using hfirst), hrest]

namespace ContentTable

variable {table : ContentTable} {record row : ContentRecord} {id : Int}

/-- Whether the stored row of an id is confirmed. -/
def confirms (table : ContentTable) (id : Int) : Bool :=
  (table.find? id).any ContentRecord.confirmed

theorem find?_save :
    (table.save record).find? id =
      if record.id = id then some (record.over (table.find? id)) else table.find? id :=
  find?_saveContentRow record id table.ascending

theorem find?_delete :
    (table.delete record).1.find? id = if record.id = id then none else table.find? id := by
  unfold delete find?
  rw [List.find?_filter]
  by_cases hsame : record.id = id
  · rw [if_pos hsame, List.find?_eq_none]
    intro row _
    simp only [decide_not, Bool.not_eq_true', decide_eq_false_iff_not,
      decide_eq_true_eq]
    omega
  · rw [if_neg hsame]
    congr 1
    funext row
    by_cases hrow : row.id = id
    · have hkept : id ≠ record.id := Ne.symm hsame
      simp [hrow, hkept]
    · simp [hrow]

theorem find?_eq_some_iff :
    table.find? id = some row ↔ row ∈ table.rows ∧ row.id = id := by
  apply find?_key_eq_some_iff
  apply table.ascending.imp
  intro first second hlt
  omega

theorem mem_query_awaitingConfirmation_iff :
    record ∈ table.query .awaitingConfirmation ↔
      table.find? record.id = some record ∧ record.confirmed = false ∧
        record.txHash.isSome = true := by
  unfold query selects
  rw [List.mem_filter, find?_eq_some_iff]
  simp

theorem confirms_save :
    (table.save record).confirms id =
      (table.confirms id || (record.id = id && record.confirmed)) := by
  unfold confirms
  rw [find?_save]
  by_cases hsame : record.id = id
  · simp [hsame, ContentRecord.over]
  · simp [hsame]

theorem confirms_delete
    (hdiffers : record.id ≠ id) :
    (table.delete record).1.confirms id = table.confirms id := by
  unfold confirms
  rw [find?_delete, if_neg hdiffers]

end ContentTable
end MintWatch

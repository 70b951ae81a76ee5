import Mathlib
import MintWatch.Proofs.Record.ContentTable
/-!
# Confirming rows of the table

The table in which some rows are confirmed and nothing else is changed.  Saving a
confirmed record that agrees with its stored row is a change of this kind, which is all
that a pass does to a table that nobody else writes.
-/

namespace MintWatch

/-- A row, confirmed if it is one of the chosen. -/
def ContentRecord.confirmIf (chosen : ContentRecord → Bool) (row : ContentRecord) :
    ContentRecord :=
  if chosen row then row.confirm else row

namespace ContentRecord

variable {row : ContentRecord} {chosen : ContentRecord → Bool}

@[simp] theorem id_confirm
    (row : ContentRecord) :
    row.confirm.id = row.id :=
  rfl

@[simp] theorem confirm_confirm
    (row : ContentRecord) :
    row.confirm.confirm = row.confirm :=
  rfl

theorem confirm_of_confirmed
    (hconfirmed : row.confirmed = true) :
    row.confirm = row := by
  unfold confirm
  rw [← hconfirmed]

theorem over_confirm
    (stored : Option ContentRecord) :
    row.confirm.over stored = row.confirm := by
  unfold ContentRecord.over
  cases stored <;> simp [confirm]

theorem confirmIf_of_chosen
    (hchosen : chosen row = true) :
    row.confirmIf chosen = row.confirm := by
  unfold confirmIf
  rw [if_pos hchosen]

theorem confirmIf_of_not_chosen
    (hchosen : chosen row = false) :
    row.confirmIf chosen = row := by
  unfold confirmIf
  rw [if_neg (by simp [hchosen])]

@[simp] theorem id_confirmIf
    (chosen : ContentRecord → Bool) (row : ContentRecord) :
    (row.confirmIf chosen).id = row.id := by
  unfold confirmIf
  split <;> rfl

@[simp] theorem confirm_confirmIf
    (chosen : ContentRecord → Bool) (row : ContentRecord) :
    (row.confirmIf chosen).confirm = row.confirm := by
  unfold confirmIf
  split <;> rfl

end ContentRecord

namespace ContentTable

variable {table other : ContentTable} {record row : ContentRecord} {id : Int}
  {chosen : ContentRecord → Bool}

/-- The table in which the chosen rows are confirmed. -/
def confirmWhere (table : ContentTable) (chosen : ContentRecord → Bool) : ContentTable where
  rows := table.rows.map (ContentRecord.confirmIf chosen)
  ascending := by
    apply List.pairwise_map.mpr
    apply table.ascending.imp
    intro first second hlt
    simpa only [ContentRecord.id_confirmIf] using hlt

theorem find?_confirmWhere
    (chosen : ContentRecord → Bool) (id : Int) :
    (table.confirmWhere chosen).find? id = (table.find? id).map (ContentRecord.confirmIf chosen) := by
  unfold confirmWhere find?
  rw [List.find?_map]
  congr 2
  funext row
  simp

theorem ascendingIds_query
    (table : ContentTable) (filter : ContentFilter) :
    AscendingIds (table.query filter) :=
  table.ascending.filter _

theorem mem_rows_iff :
    row ∈ table.rows ↔ table.find? row.id = some row := by
  rw [find?_eq_some_iff]
  simp

/-- A table is determined by the rows that it has for the ids. -/
theorem eq_of_find?
    (hsame : ∀ id, table.find? id = other.find? id) :
    table = other := by
  have hnodup : ∀ table : ContentTable, table.rows.Nodup := by
    intro table
    apply table.ascending.imp
    intro first second hlt hequal
    rw [hequal] at hlt
    exact lt_irrefl _ hlt
  have hperm : table.rows.Perm other.rows := by
    rw [List.perm_ext_iff_of_nodup (hnodup table) (hnodup other)]
    intro row
    rw [mem_rows_iff, mem_rows_iff, hsame]
  have hrows : table.rows = other.rows := by
    apply hperm.eq_of_pairwise _ table.ascending other.ascending
    intro first second _ _ hlt hgt
    exact absurd (hlt.trans hgt) (lt_irrefl _)
  cases table
  cases other
  cases hrows
  rfl

theorem confirmWhere_congr
    {selected : ContentRecord → Bool}
    (hsame : ∀ row ∈ table.rows, row.confirmIf chosen = row.confirmIf selected) :
    table.confirmWhere chosen = table.confirmWhere selected := by
  apply eq_of_find?
  intro id
  rw [find?_confirmWhere, find?_confirmWhere]
  cases hfound : table.find? id with
  | none => rfl
  | some row =>
      have hmember : row ∈ table.rows := (find?_eq_some_iff.mp hfound).1
      simp only [Option.map_some, hsame row hmember]

theorem confirmWhere_confirmWhere
    (chosen selected : ContentRecord → Bool) :
    (table.confirmWhere chosen).confirmWhere selected =
      table.confirmWhere fun row => chosen row || selected (row.confirmIf chosen) := by
  apply eq_of_find?
  intro id
  simp only [find?_confirmWhere, Option.map_map]
  congr 1
  funext row
  rw [Function.comp_apply]
  cases hchosen : chosen row with
  | true =>
      rw [ContentRecord.confirmIf_of_chosen hchosen]
      simp [ContentRecord.confirmIf, hchosen]
  | false =>
      rw [ContentRecord.confirmIf_of_not_chosen hchosen]
      simp [ContentRecord.confirmIf, hchosen]

theorem confirmWhere_eq_self
    (hopen : ∀ row ∈ table.rows, row.confirmIf chosen = row) :
    table.confirmWhere chosen = table := by
  apply eq_of_find?
  intro id
  rw [find?_confirmWhere]
  cases hfound : table.find? id with
  | none => rfl
  | some row =>
      have hmember : row ∈ table.rows := (find?_eq_some_iff.mp hfound).1
      simp only [Option.map_some, hopen row hmember]

/-- Saving a confirmed record whose row differs at most in its confirmation. -/
theorem save_confirm
    (hstored : (table.find? record.id).map ContentRecord.confirm = some record.confirm) :
    table.save record.confirm = table.confirmWhere fun row => row.id = record.id := by
  apply eq_of_find?
  intro id
  rw [find?_save, find?_confirmWhere, ContentRecord.over_confirm]
  by_cases hsame : record.id = id
  · subst hsame
    obtain ⟨row, hfound, hrow⟩ := Option.map_eq_some_iff.mp hstored
    have hid : row.id = record.id := (find?_eq_some_iff.mp hfound).2
    rw [ContentRecord.id_confirm, if_pos rfl, hfound, Option.map_some,
      ContentRecord.confirmIf_of_chosen (by simpa using hid), hrow]
  · rw [ContentRecord.id_confirm, if_neg hsame]
    cases hfound : table.find? id with
    | none => rfl
    | some row =>
        have hid : row.id = id := (find?_eq_some_iff.mp hfound).2
        have hdiffers : row.id ≠ record.id := by omega
        rw [Option.map_some, ContentRecord.confirmIf_of_not_chosen (by simpa using hdiffers)]

/-- Saving confirmed records one after the other, each as it is stored but confirmed. -/
theorem foldl_save_confirm
    {records : List ContentRecord}
    (hstored : ∀ record ∈ records, table.find? record.id = some record)
    (hdistinct : records.Pairwise fun first second => first.id ≠ second.id) :
    records.foldl (fun table record => table.save record.confirm) table =
      table.confirmWhere fun row => row ∈ records := by
  induction records generalizing table with
  | nil =>
      rw [List.foldl_nil, confirmWhere_eq_self]
      intro row _
      exact ContentRecord.confirmIf_of_not_chosen (by simp)
  | cons record records ih =>
      rw [List.forall_mem_cons] at hstored
      rw [List.pairwise_cons] at hdistinct
      have hsave : table.save record.confirm = table.confirmWhere fun row => row.id = record.id :=
        save_confirm (by rw [hstored.1, Option.map_some])
      have hlater : ∀ later ∈ records,
          (table.save record.confirm).find? later.id = some later := by
        intro later hmember
        have hdiffers : record.confirm.id ≠ later.id := hdistinct.1 later hmember
        rw [find?_save, if_neg hdiffers, hstored.2 later hmember]
      rw [List.foldl_cons, ih hlater hdistinct.2, hsave, confirmWhere_confirmWhere]
      apply confirmWhere_congr
      intro row hrow
      by_cases hfirst : row.id = record.id
      · have hsame : row = record := by
          have hfound := mem_rows_iff.mp hrow
          rw [hfirst, hstored.1] at hfound
          exact (Option.some.inj hfound).symm
        rw [ContentRecord.confirmIf_of_chosen (by simp [hfirst]),
          ContentRecord.confirmIf_of_chosen (by simp [hsame])]
      · have hdiffers : row ≠ record := fun hsame => hfirst (by rw [hsame])
        unfold ContentRecord.confirmIf
        simp [hfirst, hdiffers]

end ContentTable
end MintWatch

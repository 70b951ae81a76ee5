import Mathlib
/-!
# Lists

What later proofs use about lists in general: properties and relations of lists that
functions compute from the first element and the rest, the longest run of one kind in front
of a text, the row that a search by key finds, and the numbers that are given out in turn.
-/

namespace MintWatch

/-! ## From the first element and the rest -/

section Members

variable {α β : Type}

/-- A property of lists that is given by the first element and the rest is one of all
elements. -/
theorem forall_iff_of_cons
    {each : α → Prop}
    (all : List α → Prop)
    (hnil : all [])
    (hcons : ∀ item rest, all (item :: rest) ↔ each item ∧ all rest)
    (items : List α) :
    all items ↔ ∀ item ∈ items, each item := by
  induction items with
  | nil => simp [hnil]
  | cons item rest ih => rw [hcons, ih, List.forall_mem_cons]

/-- A relation between two lists that is given by their first elements and the rests. -/
theorem forall₂_iff_of_cons
    {each : α → β → Prop}
    (all : List α → List β → Prop)
    (hnil : ∀ values, all [] values ↔ values = [])
    (hcons : ∀ item rest values, all (item :: rest) values ↔
      ∃ value others, each item value ∧ all rest others ∧ value :: others = values)
    (items : List α) (values : List β) :
    all items values ↔ List.Forall₂ each items values := by
  induction items generalizing values with
  | nil => rw [hnil, List.forall₂_nil_left_iff]
  | cons item rest ih =>
      rw [hcons, List.forall₂_cons_left_iff]
      simp only [ih, eq_comm]

theorem eq_map_of_cons
    {image : α → β}
    (images : List α → List β)
    (hnil : images [] = [])
    (hcons : ∀ item rest, images (item :: rest) = image item :: images rest)
    (items : List α) :
    images items = items.map image := by
  induction items with
  | nil => exact hnil
  | cons item rest ih => rw [hcons, ih, List.map_cons]

theorem replicate_eq_mul_of_cons
    {size : α → Nat}
    (total : List α → Nat)
    (hnil : total [] = 0)
    (hcons : ∀ item rest, total (item :: rest) = size item + total rest)
    (item : α) (count : Nat) :
    total (List.replicate count item) = count * size item := by
  induction count with
  | zero => rw [List.replicate_zero, hnil, Nat.zero_mul]
  | succ count ih => rw [List.replicate_succ, hcons, ih, Nat.succ_mul, Nat.add_comm]

theorem exists_forall₂
    {each : α → β → Prop} {items : List α}
    (heach : ∀ item ∈ items, ∃ value, each item value) :
    ∃ values, List.Forall₂ each items values := by
  induction items with
  | nil => exact ⟨[], .nil⟩
  | cons item rest ih =>
      rw [List.forall_mem_cons] at heach
      obtain ⟨value, hvalue⟩ := heach.1
      obtain ⟨values, hvalues⟩ := ih heach.2
      exact ⟨value :: values, .cons hvalue hvalues⟩

theorem exists_left_of_forall₂
    {each : α → β → Prop} {items : List α} {values : List β} {value : β}
    (heach : List.Forall₂ each items values)
    (hmember : value ∈ values) :
    ∃ item ∈ items, each item value := by
  induction heach with
  | nil => cases hmember
  | cons hfirst hothers ih =>
      rcases List.mem_cons.mp hmember with rfl | hlater
      · exact ⟨_, List.mem_cons_self, hfirst⟩
      · obtain ⟨item, hitem, hvalue⟩ := ih hlater
        exact ⟨item, List.mem_cons_of_mem _ hitem, hvalue⟩

end Members

/-! ## Runs of characters -/

section Runs

variable {among : Char → Bool} {front more : List Char}

def AreDigits (chars : List Char) : Prop :=
  ∀ c ∈ chars, c.isDigit = true

theorem takeWhile_append_of_stop
    (hfront : ∀ c ∈ front, among c = true)
    (hstop : ∀ c ∈ more.head?, among c = false) :
    (front ++ more).takeWhile among = front := by
  rw [List.takeWhile_append_of_pos hfront]
  cases more with
  | nil => simp
  | cons c rest => simp [hstop c rfl]

theorem dropWhile_append_of_stop
    (hfront : ∀ c ∈ front, among c = true)
    (hstop : ∀ c ∈ more.head?, among c = false) :
    (front ++ more).dropWhile among = more := by
  rw [List.dropWhile_append_of_pos hfront]
  cases more with
  | nil => simp
  | cons c rest => simp [hstop c rfl]

theorem exists_run
    (among : Char → Bool) (chars : List Char) :
    ∃ front, (∀ c ∈ front, among c = true) ∧ chars = front ++ chars.dropWhile among :=
  ⟨chars.takeWhile among, fun _ hmember => List.mem_takeWhile_imp hmember,
    List.takeWhile_append_dropWhile.symm⟩

theorem areDigits_takeWhile
    (chars : List Char) :
    AreDigits (chars.takeWhile Char.isDigit) :=
  fun _ hmember => List.mem_takeWhile_imp hmember

theorem forall_head?_cons
    {property : Char → Prop} {c : Char} {rest : List Char} :
    (∀ head ∈ (c :: rest).head?, property head) ↔ property c := by
  simp

end Runs

/-! ## Looking up by key -/

section Lookup

variable {α κ : Type} [DecidableEq κ] {key : α → κ} {rows : List α} {row : α} {wanted : κ}

theorem find?_key_eq_some_iff
    (hdistinct : rows.Pairwise fun first second => key first ≠ key second) :
    (rows.find? fun row => key row = wanted) = some row ↔ row ∈ rows ∧ key row = wanted := by
  induction rows with
  | nil => simp
  | cons first rest ih =>
      rw [List.pairwise_cons] at hdistinct
      by_cases hfirst : key first = wanted
      · rw [List.find?_cons_of_pos (by simpa using hfirst), Option.some.injEq]
        constructor
        · intro hsame
          exact ⟨hsame ▸ List.mem_cons_self, hsame ▸ hfirst⟩
        · intro hfound
          obtain ⟨hmember, hkey⟩ := hfound
          rcases List.mem_cons.mp hmember with hsame | hlater
          · exact hsame.symm
          · exact absurd (hfirst.trans hkey.symm) (hdistinct.1 row hlater)
      · rw [List.find?_cons_of_neg (by simpa using hfirst), ih hdistinct.2]
        constructor
        · intro hfound
          exact ⟨List.mem_cons_of_mem _ hfound.1, hfound.2⟩
        · intro hfound
          obtain ⟨hmember, hkey⟩ := hfound
          rcases List.mem_cons.mp hmember with hsame | hlater
          · exact absurd (hsame ▸ hkey) hfirst
          · exact ⟨hlater, hkey⟩

theorem length_filter_key_ne
    (hdistinct : rows.Pairwise fun first second => key first ≠ key second)
    (wanted : κ) :
    (rows.filter fun row => key row ≠ wanted).length +
      (rows.find? fun row => key row = wanted).toList.length = rows.length := by
  induction rows with
  | nil => rfl
  | cons first rest ih =>
      rw [List.pairwise_cons] at hdistinct
      have hrest := ih hdistinct.2
      by_cases hfirst : key first = wanted
      · -- The row is found, and no later one has its key.
        have hnone : (rest.find? fun row => key row = wanted) = none := by
          rw [List.find?_eq_none]
          intro row hmember hkey
          have hsame : key row = wanted := by simpa using hkey
          exact hdistinct.1 row hmember (hfirst.trans hsame.symm)
        rw [hnone] at hrest
        rw [List.filter_cons_of_neg (by simpa using hfirst),
          List.find?_cons_of_pos (by simpa using hfirst)]
        simpa using hrest
      · rw [List.filter_cons_of_pos (by simpa using hfirst),
          List.find?_cons_of_neg (by simpa using hfirst), List.length_cons, List.length_cons]
        omega

end Lookup

/-! ## Numbers given out in turn -/

theorem add_ofNat_succ
    (number : UInt64) (count : Nat) :
    number + 1 + .ofNat count = number + UInt64.ofNat (count + 1) := by
  rw [UInt64.ofNat_add, add_assoc, add_comm (UInt64.ofNat count)]
  rfl

end MintWatch

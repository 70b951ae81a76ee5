import Mathlib
import MintWatch.Proofs.Storage.ReclaimTurns
/-!
# A pass gives way to the application

However the turns of passes and of the application are mixed, a pass requests the removal of a
blob only after it has itself removed the row, and it removes a row only while that is
scheduled for removal in the second in which the pass has read it.  Since a pass comes to
each row once, an object that it finds attached, rescheduled or gone is left alone by it in all
of its turns.  The invariant lists for each pass the objects that it has come to, those that it
still has to come to, and the one whose row it has just removed.
-/

namespace MintWatch

/-- Whether an object was read when the pass at a place started, and was overdue then. -/
def IsReadIn (past : List ReclaimMoment) (place : Nat) (object : StorageObject) : Prop :=
  ∃ moment ∈ past, ∃ faults now, moment.turn = .enter faults now ∧
    moment.pool.running.length = place ∧
    object ∈ moment.pool.table.query .scheduledForRemoval ∧ object.IsOverdue now

/-- The objects to whose rows the pass at a place has come. -/
def reachedIn (past : List ReclaimMoment) (place : Nat) : List StorageObject :=
  past.filterMap (ReclaimMoment.reached? place)

/-- How many rows of an identifier the passes have removed. -/
def removalsIn (past : List ReclaimMoment) (cid : String) : Nat :=
  past.countP fun moment => moment.deed?.any fun deed => deed.2.removesRowOf cid

/-- How often the passes have requested the removal of a blob. -/
def requestsIn (past : List ReclaimMoment) (cid : String) : Nat :=
  past.countP fun moment => moment.deed?.any fun deed => deed.2.requestsBlobOf cid

theorem IsReadIn.append
    {past : List ReclaimMoment} {place : Nat} {object : StorageObject}
    (hread : IsReadIn past place object)
    (later : List ReclaimMoment) :
    IsReadIn (past ++ later) place object := by
  obtain ⟨moment, hmember, hentry⟩ := hread
  exact ⟨moment, List.mem_append_left later hmember, hentry⟩

theorem IsReadIn.wholeSecond_removeAt
    {past : List ReclaimMoment} {place : Nat} {object : StorageObject}
    (hread : IsReadIn past place object) :
    object.removeAt.map Timestamp.wholeSecond = object.removeAt := by
  obtain ⟨moment, -, faults, now, -, -, hqueried, -⟩ := hread
  exact ObjectTable.wholeSecond_removeAt (List.mem_filter.mp hqueried).1

theorem IsReadIn.isSome_removeAt
    {past : List ReclaimMoment} {place : Nat} {object : StorageObject}
    (hread : IsReadIn past place object) :
    object.removeAt.isSome = true := by
  obtain ⟨moment, -, faults, now, -, -, -, time, htime, -⟩ := hread
  rw [htime]
  rfl

theorem reachedIn_concat
    (past : List ReclaimMoment) (place : Nat) (moment : ReclaimMoment) :
    reachedIn (past ++ [moment]) place =
      reachedIn past place ++ (moment.reached? place).toList := by
  unfold reachedIn
  rw [List.filterMap_append]
  cases hreached : moment.reached? place <;> simp [hreached]

namespace ReclaimPool

variable {past : List ReclaimMoment} {pool : ReclaimPool} {place : Nat} {pass : ReclaimPass}

theorem toReach_of_place
    (hplace : pool.running[place]? = some pass) :
    pool.toReach place = pass.toReach := by
  unfold toReach
  rw [hplace]
  rfl

theorem toReach_of_absent
    (habsent : pool.running.length ≤ place) :
    pool.toReach place = [] := by
  unfold toReach
  rw [List.getElem?_eq_none habsent]
  rfl

theorem awaited?_of_place
    (hplace : pool.running[place]? = some pass) :
    pool.awaited? place = pass.awaited? := by
  unfold awaited?
  rw [hplace]
  rfl

/-- What holds after a number of turns of what each pass has done and has still to do. -/
structure IsOrderly (pool : ReclaimPool) (past : List ReclaimMoment) : Prop where
  read : ∀ place, ∀ object ∈ pool.toReach place, IsReadIn past place object
  distinct : ∀ place, (reachedIn past place ++ pool.toReach place).Pairwise
    fun first second => first.cid ≠ second.cid
  removed : ∀ place object, pool.awaited? place = some object →
    ∃ moment ∈ past, moment.deed? = some (place, .row object true)
  idle : ∀ place, pool.running.length ≤ place → reachedIn past place = []

theorem isOrderly_opened
    (table : ObjectTable) (blobs : BlobStore) :
    IsOrderly ⟨table, blobs, []⟩ [] := by
  refine ⟨?_, ?_, ?_, ?_⟩
  · intro place object hmember
    cases hmember
  · intro place
    exact List.Pairwise.nil
  · intro place object hawaited
    cases hawaited
  · intro place hplace
    rfl

/-- Passes stay orderly in a turn in which each only comes to what it still has to come to. -/
theorem IsOrderly.take
    {turn : ReclaimTurn}
    (horderly : pool.IsOrderly past)
    (hreach : ∀ place,
      (((ReclaimMoment.mk pool turn).reached? place).toList ++
        (pool.take turn).toReach place).Sublist (pool.toReach place))
    (hawait : ∀ place object, (pool.take turn).awaited? place = some object →
      pool.awaited? place = some object ∨
        (ReclaimMoment.mk pool turn).deed? = some (place, .row object true))
    (hlength : (pool.take turn).running.length = pool.running.length) :
    (pool.take turn).IsOrderly (past ++ [⟨pool, turn⟩]) := by
  refine ⟨?_, ?_, ?_, ?_⟩
  · intro place object hmember
    have hbefore := (hreach place).subset (List.mem_append_right _ hmember)
    exact (horderly.read place object hbefore).append [⟨pool, turn⟩]
  · intro place
    rw [reachedIn_concat, List.append_assoc]
    exact (horderly.distinct place).sublist ((List.Sublist.refl _).append (hreach place))
  · intro place object hawaited
    rcases hawait place object hawaited with hbefore | hnow
    · obtain ⟨earlier, hmember, hdeed⟩ := horderly.removed place object hbefore
      exact ⟨earlier, List.mem_append_left _ hmember, hdeed⟩
    · exact ⟨⟨pool, turn⟩, List.mem_append_right _ List.mem_cons_self, hnow⟩
  · intro place hplace
    rw [hlength] at hplace
    have hnothing := hreach place
    rw [toReach_of_absent hplace, List.sublist_nil, List.append_eq_nil_iff] at hnothing
    rw [reachedIn_concat, horderly.idle place hplace, hnothing.1, List.nil_append]

/-- A turn in which no pass does anything. -/
theorem IsOrderly.rest
    {turn : ReclaimTurn}
    (horderly : pool.IsOrderly past)
    (hrunning : (pool.take turn).running = pool.running)
    (hdeed : (ReclaimMoment.mk pool turn).deed? = none) :
    (pool.take turn).IsOrderly (past ++ [⟨pool, turn⟩]) := by
  apply horderly.take
  · intro place
    unfold ReclaimMoment.reached? toReach
    rw [hrunning, hdeed]
    exact List.Sublist.refl _
  · intro place object hawaited
    unfold awaited? at hawaited ⊢
    rw [hrunning] at hawaited
    exact Or.inl hawaited
  · rw [hrunning]

theorem IsOrderly.advance
    (horderly : pool.IsOrderly past)
    (place : Nat) (faults : ReclaimFaults) :
    (pool.take (.advance place faults)).IsOrderly (past ++ [⟨pool, .advance place faults⟩]) := by
  cases hplace : pool.running[place]? with
  | none =>
      apply horderly.rest
      · exact congrArg running (take_advance_of_absent hplace faults)
      · unfold ReclaimMoment.deed?
        simp only [hplace, Option.bind_none]
  | some pass =>
      obtain ⟨run, deed, hdoes, htake, hdeed⟩ := pool.exists_does hplace faults
      have hbound := (List.getElem?_eq_some_iff.mp hplace).1
      have hsame : (pool.running.set place run.pass)[place]? = some run.pass :=
        List.getElem?_set_self hbound
      have hothers : ∀ other, place ≠ other →
          (pool.running.set place run.pass)[other]? = pool.running[other]? :=
        fun other hdiffers => List.getElem?_set_ne hdiffers
      apply horderly.take
      · intro other
        unfold ReclaimMoment.reached?
        rw [hdeed, htake, Option.bind_map]
        by_cases hwhich : place = other
        · subst hwhich
          rw [toReach_of_place hplace, toReach_of_place hsame]
          simp only [Function.comp_def, if_true]
          exact hdoes.toReach_sublist
        · unfold toReach
          simp [hwhich, hothers other hwhich]
      · intro other object hawaited
        rw [htake] at hawaited
        by_cases hwhich : place = other
        · subst hwhich
          rw [awaited?_of_place hsame] at hawaited
          rw [hdeed, hdoes.deed_of_awaited hawaited]
          exact Or.inr rfl
        · left
          unfold awaited? at hawaited ⊢
          rwa [hothers other hwhich] at hawaited
      · rw [htake, List.length_set]

theorem IsOrderly.enter
    (horderly : pool.IsOrderly past)
    (faults : ReclaimFaults) (now : Timestamp) :
    (pool.take (.enter faults now)).IsOrderly (past ++ [⟨pool, .enter faults now⟩]) := by
  have hreached : ∀ place, reachedIn (past ++ [⟨pool, .enter faults now⟩]) place =
      reachedIn past place := by
    intro place
    rw [reachedIn_concat]
    exact List.append_nil _
  have hnew : (pool.take (.enter faults now)).running[pool.running.length]? =
      some (.start faults now pool.table) :=
    List.getElem?_concat_length
  have hothers : ∀ place, place ≠ pool.running.length →
      (pool.take (.enter faults now)).running[place]? = pool.running[place]? := by
    intro place hdiffers
    unfold ReclaimPool.take
    rcases Nat.lt_or_gt_of_ne hdiffers with hlt | hgt
    · exact List.getElem?_append_left hlt
    · rw [List.getElem?_eq_none hgt.le, List.getElem?_eq_none]
      simpa using hgt
  refine ⟨?_, ?_, ?_, ?_⟩
  · intro place object hmember
    by_cases hwhich : place = pool.running.length
    · subst hwhich
      rw [toReach_of_place hnew] at hmember
      obtain ⟨hscheduled, hoverdue⟩ := ReclaimPass.mem_toReach_start hmember
      exact ⟨_, List.mem_append_right _ List.mem_cons_self, faults, now, rfl, rfl, hscheduled,
        hoverdue⟩
    · unfold toReach at hmember
      rw [hothers place hwhich] at hmember
      exact (horderly.read place object hmember).append _
  · intro place
    rw [hreached]
    by_cases hwhich : place = pool.running.length
    · subst hwhich
      rw [horderly.idle _ le_rfl, toReach_of_place hnew]
      exact ReclaimPass.distinct_toReach_start faults now pool.table
    · unfold toReach
      rw [hothers place hwhich]
      exact horderly.distinct place
  · intro place object hawaited
    by_cases hwhich : place = pool.running.length
    · subst hwhich
      rw [awaited?_of_place hnew, ReclaimPass.awaited?_start] at hawaited
      cases hawaited
    · unfold awaited? at hawaited
      rw [hothers place hwhich] at hawaited
      obtain ⟨earlier, hmember, hdeed⟩ := horderly.removed place object hawaited
      exact ⟨earlier, List.mem_append_left _ hmember, hdeed⟩
  · intro place hplace
    rw [hreached]
    apply horderly.idle
    unfold ReclaimPool.take at hplace
    rw [List.length_append] at hplace
    omega

theorem IsOrderly.play
    {turns : List ReclaimTurn}
    (horderly : pool.IsOrderly past) :
    (pool.play turns).IsOrderly (past ++ pool.history turns) := by
  induction turns generalizing pool past with
  | nil =>
      rw [history, List.append_nil]
      exact horderly
  | cons turn turns ih =>
      have hnext : (pool.take turn).IsOrderly (past ++ [⟨pool, turn⟩]) := by
        cases turn with
        | enter faults now => exact horderly.enter faults now
        | advance place faults => exact horderly.advance place faults
        | save object => exact horderly.rest rfl rfl
        | delete object => exact horderly.rest rfl rfl
        | upload bytes mimeType => exact horderly.rest rfl rfl
      have hlater := ih hnext
      rw [List.append_assoc] at hlater
      exact hlater

/-! ## Rows and requests -/

/-- How many passes are about to remove the blob of an identifier. -/
def awaiting (pool : ReclaimPool) (cid : String) : Nat :=
  pool.running.countP (ReclaimPass.awaits cid)

theorem countP_singleton
    {α : Type} (entry : α) (counts : α → Bool) :
    [entry].countP counts = (counts entry).toNat := by
  rw [List.countP_singleton]
  cases counts entry <;> rfl

theorem countP_set_add
    {α : Type} {entries : List α} {place : Nat} {old : α}
    (hold : entries[place]? = some old)
    (new : α) (counts : α → Bool) :
    (entries.set place new).countP counts + (counts old).toNat =
      entries.countP counts + (counts new).toNat := by
  obtain ⟨hbound, rfl⟩ := List.getElem?_eq_some_iff.mp hold
  rw [List.countP_set hbound]
  have hcounted : counts entries[place] = true → 0 < entries.countP counts :=
    fun hcounts => List.countP_pos_iff.mpr ⟨_, List.getElem_mem hbound, hcounts⟩
  cases hcounts : counts entries[place] with
  | false => cases counts new <;> simp
  | true =>
      have hpositive := hcounted hcounts
      cases counts new <;> simp <;> omega

/-- What a turn adds to the requests and to those who await one, it adds to the removals. -/
theorem awaiting_take
    (pool : ReclaimPool) (turn : ReclaimTurn) (cid : String) :
    requestsIn [⟨pool, turn⟩] cid + (pool.take turn).awaiting cid =
      removalsIn [⟨pool, turn⟩] cid + pool.awaiting cid := by
  unfold awaiting requestsIn removalsIn
  rw [countP_singleton, countP_singleton]
  cases turn with
  | advance place faults =>
      cases hplace : pool.running[place]? with
      | none =>
          unfold ReclaimMoment.deed?
          simp only [hplace, Option.bind_none, Option.any_none]
          rw [take_advance_of_absent hplace]
      | some pass =>
          obtain ⟨run, deed, hdoes, htake, hdeed⟩ := pool.exists_does hplace faults
          have hpaid := hdoes.awaits cid
          have hset := countP_set_add hplace run.pass (ReclaimPass.awaits cid)
          simp only [runOf] at hpaid
          simp only [hdeed, htake, Option.any_map]
          omega
  | enter faults now =>
      have hnew : (ReclaimPass.start faults now pool.table).awaits cid = false := by
        unfold ReclaimPass.awaits
        rw [ReclaimPass.awaited?_start]
        rfl
      unfold ReclaimPool.take
      rw [List.countP_append, countP_singleton, hnew]
      rfl
  | save object => rfl
  | delete object => rfl
  | upload bytes mimeType => rfl

theorem awaiting_play
    (pool : ReclaimPool) (turns : List ReclaimTurn) (cid : String) :
    requestsIn (pool.history turns) cid + (pool.play turns).awaiting cid =
      removalsIn (pool.history turns) cid + pool.awaiting cid := by
  induction turns generalizing pool with
  | nil => rfl
  | cons turn turns ih =>
      have hturn := awaiting_take pool turn cid
      have hrest := ih (pool.take turn)
      have hsplit : pool.history (turn :: turns) =
          [⟨pool, turn⟩] ++ (pool.take turn).history turns :=
        rfl
      unfold requestsIn removalsIn at *
      rw [hsplit, List.countP_append, List.countP_append]
      change _ + ((pool.take turn).play turns).awaiting cid = _
      omega

end ReclaimPool

/-! ## What a pass does to an object -/

namespace ReclaimMoment

variable {past : List ReclaimMoment} {moment other : ReclaimMoment} {place : Nat}
  {object another : StorageObject} {removed : Bool} {cid : String}

/-- Whether a turn is one of the pass at a place. -/
def IsOf (moment : ReclaimMoment) (place : Nat) : Prop :=
  ∃ faults, moment.turn = .advance place faults

/-- Whether in a turn the row and the blob of an identifier stay, and no pass requests the
removal of the blob. -/
def LeavesAlone (moment : ReclaimMoment) (cid : String) : Prop :=
  moment.next.table.find? cid = moment.pool.table.find? cid ∧
    moment.next.blobs.blob? cid = moment.pool.blobs.blob? cid ∧
    ∀ place object, moment.deed? = some (place, .blob object) → object.cid ≠ cid

theorem removed_of_request
    (horderly : moment.pool.IsOrderly past)
    (hdeed : moment.deed? = some (place, .blob object)) :
    ∃ earlier ∈ past, earlier.deed? = some (place, .row object true) := by
  obtain ⟨pass, run, hplace, hdoes, -⟩ := exists_does hdeed
  apply horderly.removed
  rw [ReclaimPool.awaited?_of_place hplace]
  cases hdoes with
  | request hbefore hafter hleft htable hblobs => exact hbefore

theorem isReadIn_of_row
    (horderly : moment.pool.IsOrderly past)
    (hdeed : moment.deed? = some (place, .row object removed)) :
    IsReadIn past place object := by
  obtain ⟨pass, run, hplace, hdoes, -⟩ := exists_does hdeed
  apply horderly.read
  rw [ReclaimPool.toReach_of_place hplace]
  apply hdoes.toReach_sublist.subset
  exact List.mem_append_left _ List.mem_cons_self

/-- A pass removes a row that is still scheduled for removal as it was read. -/
theorem row_of_removal
    (hread : IsReadIn past place object)
    (hdeed : moment.deed? = some (place, .row object true)) :
    ∃ row, moment.pool.table.find? object.cid = some row ∧ row.removeAt = object.removeAt ∧
      moment.next.table.find? object.cid = none := by
  obtain ⟨pass, run, hplace, hdoes, hnext⟩ := exists_does hdeed
  cases hdoes with
  | take hbefore hread' hscheduled hafter hleft htable hblobs =>
      obtain ⟨row, hstored, hschedule⟩ := hscheduled
      refine ⟨row, hstored, ?_, ?_⟩
      · rw [hschedule, hread.wholeSecond_removeAt]
      · rw [hnext, htable, ObjectTable.find?_without_cid, if_pos rfl]

/-- A pass comes to the row of an identifier in one turn only. -/
theorem eq_of_row_of_row
    {pool : ReclaimPool} {removed' : Bool}
    (horderly : pool.IsOrderly past)
    (hmoment : moment ∈ past)
    (hother : other ∈ past)
    (hdeed : moment.deed? = some (place, .row object removed))
    (hdeed' : other.deed? = some (place, .row another removed'))
    (hsame : object.cid = another.cid) :
    moment = other := by
  by_contra hdiffers
  have hreached := (List.pairwise_append.mp (horderly.distinct place)).1
  unfold reachedIn at hreached
  rw [List.pairwise_filterMap] at hreached
  have hsymm : Std.Symm fun first second : ReclaimMoment =>
      ∀ object, first.reached? place = some object →
        ∀ another, second.reached? place = some another → object.cid ≠ another.cid :=
    ⟨fun first second hne another hsecond object hfirst =>
      (hne object hfirst another hsecond).symm⟩
  exact hreached.forall hmoment hother hdiffers object (reached?_of_deed? hdeed) another
    (reached?_of_deed? hdeed') hsame

/-- A turn of a pass leaves alone what the pass does nothing about. -/
theorem leavesAlone_of_no_deed
    (hturn : moment.IsOf place)
    (hrow : ∀ object, moment.deed? = some (place, .row object true) → object.cid ≠ cid)
    (hblob : ∀ object, moment.deed? = some (place, .blob object) → object.cid ≠ cid) :
    moment.LeavesAlone cid := by
  obtain ⟨pool, turn⟩ := moment
  obtain ⟨faults, rfl⟩ := hturn
  unfold LeavesAlone next
  cases hplace : pool.running[place]? with
  | none =>
      rw [ReclaimPool.take_advance_of_absent hplace]
      refine ⟨rfl, rfl, ?_⟩
      intro actor object hdeed
      unfold deed? at hdeed
      simp only [hplace, Option.bind_none, reduceCtorEq] at hdeed
  | some pass =>
      obtain ⟨run, deed, hdoes, htake, hdone⟩ := pool.exists_does hplace faults
      rw [hdone] at hrow hblob
      rw [htake, hdone]
      refine ⟨?_, ?_, ?_⟩
      · rcases hdoes.find?_table cid with hkept | ⟨object, rfl, hcid⟩
        · exact hkept
        · exact absurd hcid (hrow object rfl)
      · rcases hdoes.blob?_blobs cid with hkept | ⟨object, rfl, hcid⟩
        · exact hkept
        · exact absurd hcid (hblob object rfl)
      · intro actor object hdeed
        obtain ⟨_, rfl, hactor⟩ := Option.map_eq_some_iff.mp hdeed
        cases hactor
        exact hblob object rfl

end ReclaimMoment

namespace ReclaimPool

theorem passes_give_way
    (table : ObjectTable) (blobs : BlobStore) (turns : List ReclaimTurn) :
    let history := ReclaimPool.history ⟨table, blobs, []⟩ turns
    (∀ before moment after, history = before ++ moment :: after → ∀ place object,
      (moment.deed? = some (place, .blob object) →
        ∃ earlier ∈ before, earlier.deed? = some (place, .row object true)) ∧
      (moment.deed? = some (place, .row object true) →
        IsReadIn before place object ∧
          ∃ row, moment.pool.table.find? object.cid = some row ∧
            row.removeAt = object.removeAt ∧ row.removeAt.isSome = true ∧
            moment.next.table.find? object.cid = none)) ∧
    (∀ moment ∈ history, ∀ place object removed,
      moment.deed? = some (place, .row object removed) →
        (∀ row, moment.pool.table.find? object.cid = some row →
          row.removeAt ≠ object.removeAt) →
        removed = false ∧
          ∀ other ∈ history, other.IsOf place → other.LeavesAlone object.cid) ∧
    ∀ cid, requestsIn history cid ≤ removalsIn history cid := by
  intro history
  have hopened := isOrderly_opened table blobs
  have horderly : ∀ before moment after, history = before ++ moment :: after →
      moment.pool.IsOrderly before := by
    intro before moment after hsplit
    obtain ⟨earlier, hbefore, hpool⟩ := exists_of_history_eq hsplit
    rw [hbefore, hpool]
    exact hopened.play
  refine ⟨?_, ?_, ?_⟩
  · intro before moment after hsplit place object
    have hmoment := horderly before moment after hsplit
    refine ⟨ReclaimMoment.removed_of_request hmoment, ?_⟩
    intro hdeed
    have hread := ReclaimMoment.isReadIn_of_row hmoment hdeed
    obtain ⟨row, hstored, hschedule, hgone⟩ := ReclaimMoment.row_of_removal hread hdeed
    have hsome : row.removeAt.isSome = true := by
      rw [hschedule, hread.isSome_removeAt]
    exact ⟨hread, row, hstored, hschedule, hsome, hgone⟩
  · intro moment hmember place object removed hdeed hdiffers
    obtain ⟨before, after, hsplit⟩ := List.append_of_mem hmember
    have hread := ReclaimMoment.isReadIn_of_row (horderly before moment after hsplit) hdeed
    have hkept : removed = false := by
      rw [← Bool.not_eq_true]
      rintro rfl
      obtain ⟨row, hstored, hschedule, -⟩ := ReclaimMoment.row_of_removal hread hdeed
      exact hdiffers row hstored hschedule
    subst hkept
    -- The pass comes to the row of the identifier in this turn only, and keeps it.
    have hnever : ∀ other ∈ history, ∀ another,
        other.deed? = some (place, .row another true) → another.cid ≠ object.cid := by
      intro other hother another hremoved hsame
      have hwhole : (play ⟨table, blobs, []⟩ turns).IsOrderly history := hopened.play
      have heq := ReclaimMoment.eq_of_row_of_row hwhole hother hmember hremoved hdeed hsame
      rw [heq, hdeed] at hremoved
      cases hremoved
    refine ⟨rfl, ?_⟩
    intro other hother hturn
    apply ReclaimMoment.leavesAlone_of_no_deed hturn (hnever other hother)
    intro another hrequest hsame
    obtain ⟨before, after, hsplit⟩ := List.append_of_mem hother
    obtain ⟨earlier, hearlier, hremoved⟩ :=
      ReclaimMoment.removed_of_request (horderly before other after hsplit) hrequest
    have hpast : earlier ∈ history := hsplit ▸ List.mem_append_left _ hearlier
    exact hnever earlier hpast another hremoved hsame
  · intro cid
    have hbalance : requestsIn history cid + awaiting _ cid = removalsIn history cid + 0 :=
      awaiting_play ⟨table, blobs, []⟩ turns cid
    omega

/-! Two passes have read two uploads when the first upload is attached; the first pass removes
the row of the second upload before the second pass comes to it. -/

def staleUpload (cid : String) : StorageObject where
  cid := cid
  mimeType := "image/png"
  ownerId := 2
  createdAt := ⟨7, 0⟩
  removeAt := some ⟨60, 0⟩

def twoUploads : ReclaimPool where
  table := (ObjectTable.empty.save (staleUpload "a")).save (staleUpload "b")
  blobs := ⟨[("a", ⟨"image/png", [1]⟩), ("b", ⟨"image/png", [2]⟩)]⟩
  running := []

def attachedMidway : List ReclaimTurn :=
  [.enter .none ⟨120, 0⟩, .enter .none ⟨120, 0⟩, .save (staleUpload "a").attach,
    .advance 0 .none, .advance 0 .none, .advance 1 .none, .advance 1 .none, .advance 0 .none]

theorem passes_give_way_midway :
    let history := twoUploads.history attachedMidway
    (∃ moment ∈ history, moment.deed? = some (0, .row (staleUpload "a") false)) ∧
      (∀ other ∈ history, other.IsOf 0 → other.LeavesAlone "a") ∧
      (∃ moment ∈ history, moment.deed? = some (0, .blob (staleUpload "b"))) ∧
      requestsIn history "b" = 1 ∧ requestsIn history "b" ≤ removalsIn history "b" := by
  intro history
  obtain ⟨-, hspared, hpaid⟩ :=
    passes_give_way twoUploads.table twoUploads.blobs attachedMidway
  have hkept : ∃ moment ∈ history, moment.deed? = some (0, .row (staleUpload "a") false) ∧
      (moment.pool.table.find? "a").map StorageObject.removeAt = some none := by
    decide +kernel
  have hrequested : ∃ moment ∈ history, moment.deed? = some (0, .blob (staleUpload "b")) := by
    decide +kernel
  obtain ⟨moment, hmember, hdeed, hattached⟩ := hkept
  refine ⟨⟨moment, hmember, hdeed⟩, ?_, hrequested, by decide +kernel, hpaid "b"⟩
  have hdiffers : ∀ row, moment.pool.table.find? "a" = some row →
      row.removeAt ≠ (staleUpload "a").removeAt := by
    intro row hrow hschedule
    rw [hrow, Option.map_some, Option.some.injEq, hschedule] at hattached
    cases hattached
  exact (hspared moment hmember 0 (staleUpload "a") false hdeed hdiffers).2

end ReclaimPool
end MintWatch

import Mathlib
import MintWatch.Proofs.Storage.ReclaimSteps
/-!
# Reclaim passes and the application

Passes over one table of objects take turns with each other and with the application, which
saves, deletes and uploads between any two of their turns.  In a turn a pass comes to the row of an
object that it has read, or asks for the removal of the blob of an object whose row it has
removed, or comes to its end.
-/

namespace MintWatch

/-- What a pass does about an object: it comes to the object's row, which is removed or not, or
it asks for the removal of the object's blob. -/
inductive ReclaimDeed where
  | row (object : StorageObject) (removed : Bool)
  | blob (object : StorageObject)
deriving DecidableEq

namespace ReclaimDeed

def removesRowOf (cid : String) : ReclaimDeed → Bool
  | .row object removed => removed && object.cid = cid
  | .blob _ => false

def requestsBlobOf (cid : String) : ReclaimDeed → Bool
  | .row _ _ => false
  | .blob object => object.cid = cid

/-- The object to whose row a pass comes. -/
def reached? : ReclaimDeed → Option StorageObject
  | .row object _ => some object
  | .blob _ => none

end ReclaimDeed

namespace ReclaimStage

/-- The objects that a pass has read and still has to come to. -/
def toReach : ReclaimStage → List StorageObject
  | .deleting left => left
  | .removing _ left => left
  | .done => []
  | .failed _ => []

/-- The object whose blob a pass is about to remove. -/
def awaited? : ReclaimStage → Option StorageObject
  | .deleting _ => none
  | .removing object _ => some object
  | .done => none
  | .failed _ => none

end ReclaimStage

namespace ReclaimPass

def toReach (pass : ReclaimPass) : List StorageObject :=
  pass.stage.toReach

def awaited? (pass : ReclaimPass) : Option StorageObject :=
  pass.stage.awaited?

def awaits (cid : String) (pass : ReclaimPass) : Bool :=
  pass.awaited?.any fun object => object.cid = cid

/-- A pass starts with rows that are scheduled for removal and overdue, unless it could not read. -/
theorem mem_toReach_start
    {faults : ReclaimFaults} {now : Timestamp} {table : ObjectTable} {object : StorageObject}
    (hmember : object ∈ (start faults now table).toReach) :
    object ∈ table.query .scheduledForRemoval ∧ object.IsOverdue now := by
  unfold start at hmember
  cases hfault : faults.read with
  | some text =>
      rw [hfault] at hmember
      cases hmember
  | none =>
      rw [hfault] at hmember
      obtain ⟨hscheduled, hexpired⟩ := List.mem_filter.mp hmember
      exact ⟨hscheduled, StorageObject.isExpired_iff.mp hexpired⟩

theorem distinct_toReach_start
    (faults : ReclaimFaults) (now : Timestamp) (table : ObjectTable) :
    (start faults now table).toReach.Pairwise fun first second => first.cid ≠ second.cid := by
  unfold start
  cases faults.read with
  | some text => exact List.Pairwise.nil
  | none => exact (table.valid.distinct.filter _).filter _

theorem awaited?_start
    (faults : ReclaimFaults) (now : Timestamp) (table : ObjectTable) :
    (start faults now table).awaited? = none := by
  unfold start
  cases faults.read <;> rfl

end ReclaimPass

namespace ReclaimRun

/-- What a pass is about to do in its next step. -/
def deed? (faults : ReclaimFaults) (run : ReclaimRun) : Option ReclaimDeed :=
  match run.pass.stage with
  | .deleting [] => none
  | .deleting (object :: _) =>
    some (.row object (faults.delete.isNone && (run.table.delete object).2))
  | .removing object _ => some (.blob object)
  | .done => none
  | .failed _ => none

/-- How a run goes on in a step in which it does something about an object, or nothing. -/
inductive Does (run next : ReclaimRun) : Option ReclaimDeed → Prop where
  | nothing
      (hbefore : run.pass.awaited? = none)
      (hafter : next.pass.awaited? = none)
      (hleft : next.pass.toReach = [])
      (htable : next.table = run.table)
      (hblobs : next.blobs = run.blobs) :
      Does run next none
  | spare {object : StorageObject} {left : List StorageObject}
      (hbefore : run.pass.awaited? = none)
      (hread : run.pass.toReach = object :: left)
      (hafter : next.pass.awaited? = none)
      (hleft : next.pass.toReach <:+ left)
      (htable : next.table = run.table)
      (hblobs : next.blobs = run.blobs) :
      Does run next (some (.row object false))
  | take {object : StorageObject} {left : List StorageObject}
      (hbefore : run.pass.awaited? = none)
      (hread : run.pass.toReach = object :: left)
      (hscheduled : run.table.IsScheduledAs object)
      (hafter : next.pass.awaited? = some object)
      (hleft : next.pass.toReach = left)
      (htable : next.table = run.table.without fun row => row.cid = object.cid)
      (hblobs : next.blobs = run.blobs) :
      Does run next (some (.row object true))
  | request {object : StorageObject}
      (hbefore : run.pass.awaited? = some object)
      (hafter : next.pass.awaited? = none)
      (hleft : next.pass.toReach = run.pass.toReach)
      (htable : next.table = run.table)
      (hblobs : next.blobs = run.blobs ∨
        next.blobs = run.blobs.without fun reference => reference = object.cid) :
      Does run next (some (.blob object))

theorem step_does
    (faults : ReclaimFaults) (run : ReclaimRun) :
    Does run (step faults run) (run.deed? faults) := by
  have hstep := step_spec faults run
  generalize step faults run = next at hstep
  unfold deed?
  cases hstep with
  | finish hstage =>
      have hbefore := congrArg ReclaimStage.awaited? hstage
      simp only [hstage]
      exact .nothing hbefore rfl rfl rfl rfl
  | fail hstage hfault =>
      have hbefore := congrArg ReclaimStage.awaited? hstage
      have hread := congrArg ReclaimStage.toReach hstage
      simp only [hstage, hfault, Option.isNone_some, Bool.false_and]
      exact .spare hbefore hread rfl List.nil_suffix rfl rfl
  | @keep object left hstage hfault hother =>
      have hbefore := congrArg ReclaimStage.awaited? hstage
      have hread := congrArg ReclaimStage.toReach hstage
      simp only [hstage, ObjectTable.delete_of_not_isScheduledAs hother, Bool.and_false]
      exact .spare hbefore hread rfl (List.suffix_refl left) rfl rfl
  | delete hstage hfault hscheduled =>
      have hbefore := congrArg ReclaimStage.awaited? hstage
      have hread := congrArg ReclaimStage.toReach hstage
      simp only [hstage, hfault, ObjectTable.delete_of_isScheduledAs hscheduled,
        Option.isNone_none, Bool.and_true]
      exact .take hbefore hread hscheduled rfl rfl rfl rfl
  | refuse hstage hfault =>
      have hbefore := congrArg ReclaimStage.awaited? hstage
      have hread := congrArg ReclaimStage.toReach hstage
      simp only [hstage]
      exact .request hbefore rfl hread.symm rfl (Or.inl rfl)
  | remove hstage hfault =>
      have hbefore := congrArg ReclaimStage.awaited? hstage
      have hread := congrArg ReclaimStage.toReach hstage
      simp only [hstage]
      exact .request hbefore rfl hread.symm rfl (Or.inr rfl)
  | rest hover =>
      rcases hover with hstage | ⟨text, hstage⟩ <;>
      · have hbefore := congrArg ReclaimStage.awaited? hstage
        have hread := congrArg ReclaimStage.toReach hstage
        simp only [hstage]
        exact .nothing hbefore hbefore hread rfl rfl

variable {run next : ReclaimRun} {deed : Option ReclaimDeed}

/-- A row is removed only with the object that the pass has come to. -/
theorem Does.find?_table
    (hdoes : Does run next deed)
    (cid : String) :
    next.table.find? cid = run.table.find? cid ∨
      ∃ object, deed = some (.row object true) ∧ object.cid = cid := by
  cases hdoes with
  | nothing hbefore hafter hleft htable hblobs => exact Or.inl (by rw [htable])
  | spare hbefore hread hafter hleft htable hblobs => exact Or.inl (by rw [htable])
  | @take object left hbefore hread hscheduled hafter hleft htable hblobs =>
      by_cases hsame : object.cid = cid
      · exact Or.inr ⟨object, rfl, hsame⟩
      · rw [htable, ObjectTable.find?_without_cid, if_neg hsame]
        exact Or.inl rfl
  | request hbefore hafter hleft htable hblobs => exact Or.inl (by rw [htable])

/-- A blob is removed only on the request of the pass. -/
theorem Does.blob?_blobs
    (hdoes : Does run next deed)
    (cid : String) :
    next.blobs.blob? cid = run.blobs.blob? cid ∨
      ∃ object, deed = some (.blob object) ∧ object.cid = cid := by
  cases hdoes with
  | nothing hbefore hafter hleft htable hblobs => exact Or.inl (by rw [hblobs])
  | spare hbefore hread hafter hleft htable hblobs => exact Or.inl (by rw [hblobs])
  | take hbefore hread hscheduled hafter hleft htable hblobs => exact Or.inl (by rw [hblobs])
  | @request object hbefore hafter hleft htable hblobs =>
      by_cases hsame : object.cid = cid
      · exact Or.inr ⟨object, rfl, hsame⟩
      · left
        rcases hblobs with hkept | hremoved
        · rw [hkept]
        · rw [hremoved, BlobStore.blob?_without, if_neg]
          simpa using Ne.symm hsame

/-- A pass comes to the objects that it has read one by one. -/
theorem Does.toReach_sublist
    (hdoes : Does run next deed) :
    ((deed.bind ReclaimDeed.reached?).toList ++ next.pass.toReach).Sublist run.pass.toReach := by
  cases hdoes with
  | nothing hbefore hafter hleft htable hblobs =>
      rw [hleft]
      exact List.nil_sublist _
  | spare hbefore hread hafter hleft htable hblobs =>
      rw [hread]
      exact hleft.sublist.cons_cons _
  | take hbefore hread hscheduled hafter hleft htable hblobs =>
      rw [hread, hleft]
      exact List.Sublist.refl _
  | request hbefore hafter hleft htable hblobs =>
      rw [hleft]
      exact List.Sublist.refl _

theorem Does.deed_of_awaited
    {object : StorageObject}
    (hdoes : Does run next deed)
    (hawaited : next.pass.awaited? = some object) :
    deed = some (.row object true) := by
  cases hdoes with
  | take hbefore hread hscheduled hafter hleft htable hblobs =>
      rw [hafter] at hawaited
      cases hawaited
      rfl
  | nothing hbefore hafter hleft htable hblobs => cases hafter.symm.trans hawaited
  | spare hbefore hread hafter hleft htable hblobs => cases hafter.symm.trans hawaited
  | request hbefore hafter hleft htable hblobs => cases hafter.symm.trans hawaited

/-- A removed row is paid back with the request for its blob; until then the pass awaits it. -/
theorem Does.awaits
    (hdoes : Does run next deed)
    (cid : String) :
    (deed.any fun deed => deed.requestsBlobOf cid).toNat + (next.pass.awaits cid).toNat =
      (deed.any fun deed => deed.removesRowOf cid).toNat + (run.pass.awaits cid).toNat := by
  unfold ReclaimPass.awaits
  cases hdoes with
  | nothing hbefore hafter hleft htable hblobs =>
      rw [hbefore, hafter]
      rfl
  | spare hbefore hread hafter hleft htable hblobs =>
      rw [hbefore, hafter]
      rfl
  | take hbefore hread hscheduled hafter hleft htable hblobs =>
      rw [hbefore, hafter]
      simp [ReclaimDeed.requestsBlobOf, ReclaimDeed.removesRowOf]
  | request hbefore hafter hleft htable hblobs =>
      rw [hbefore, hafter]
      simp [ReclaimDeed.requestsBlobOf, ReclaimDeed.removesRowOf]

end ReclaimRun

/-! ## Turns -/

/-- A table of objects and a store of blobs with the passes that work on them. -/
structure ReclaimPool where
  table : ObjectTable
  blobs : BlobStore
  running : List ReclaimPass

inductive ReclaimTurn where
  /-- A pass starts and reads the table. -/
  | enter (faults : ReclaimFaults) (now : Timestamp)
  /-- The pass at a place takes its next step. -/
  | advance (place : Nat) (faults : ReclaimFaults)
  /-- The application saves an object. -/
  | save (object : StorageObject)
  /-- The application deletes an object. -/
  | delete (object : StorageObject)
  /-- The application stores a blob. -/
  | upload (bytes : Bytes) (mimeType : String)

namespace ReclaimPool

/-- The run of a pass, to which the table and the blobs are as they are now. -/
def runOf (pool : ReclaimPool) (pass : ReclaimPass) : ReclaimRun :=
  ⟨pass, pool.table, pool.blobs⟩

def take (pool : ReclaimPool) : ReclaimTurn → ReclaimPool
  | .enter faults now =>
    { pool with running := pool.running ++ [.start faults now pool.table] }
  | .advance place faults =>
    match pool.running[place]? with
    | none => pool
    | some pass =>
      let run := ReclaimRun.step faults (pool.runOf pass)
      ⟨run.table, run.blobs, pool.running.set place run.pass⟩
  | .save object => { pool with table := pool.table.save object }
  | .delete object => { pool with table := (pool.table.delete object).1 }
  | .upload bytes mimeType => { pool with blobs := (pool.blobs.add bytes mimeType).1 }

def play (pool : ReclaimPool) (turns : List ReclaimTurn) : ReclaimPool :=
  turns.foldl take pool

/-- The objects that the pass at a place still has to come to. -/
def toReach (pool : ReclaimPool) (place : Nat) : List StorageObject :=
  (pool.running[place]?).elim [] ReclaimPass.toReach

/-- The object whose blob the pass at a place is about to remove. -/
def awaited? (pool : ReclaimPool) (place : Nat) : Option StorageObject :=
  (pool.running[place]?).bind ReclaimPass.awaited?

theorem take_advance_of_absent
    {pool : ReclaimPool} {place : Nat}
    (habsent : pool.running[place]? = none)
    (faults : ReclaimFaults) :
    pool.take (.advance place faults) = pool := by
  unfold take
  simp only [habsent]

theorem take_advance
    {pool : ReclaimPool} {place : Nat} {pass : ReclaimPass}
    (hplace : pool.running[place]? = some pass)
    (faults : ReclaimFaults) :
    pool.take (.advance place faults) =
      let run := ReclaimRun.step faults (pool.runOf pass)
      ⟨run.table, run.blobs, pool.running.set place run.pass⟩ := by
  unfold take
  simp only [hplace]

end ReclaimPool

/-- A turn with the pool in which it is taken. -/
structure ReclaimMoment where
  pool : ReclaimPool
  turn : ReclaimTurn

namespace ReclaimMoment

def next (moment : ReclaimMoment) : ReclaimPool :=
  moment.pool.take moment.turn

/-- What is done in a turn about an object, with the place of the pass that does it. -/
def deed? (moment : ReclaimMoment) : Option (Nat × ReclaimDeed) :=
  match moment.turn with
  | .advance place faults =>
    (moment.pool.running[place]?).bind fun pass =>
      ((moment.pool.runOf pass).deed? faults).map fun deed => (place, deed)
  | .enter _ _ => none
  | .save _ => none
  | .delete _ => none
  | .upload _ _ => none

/-- The object to whose row the pass at a place comes in a turn. -/
def reached? (place : Nat) (moment : ReclaimMoment) : Option StorageObject :=
  moment.deed?.bind fun deed => if deed.1 = place then deed.2.reached? else none

theorem reached?_of_deed?
    {moment : ReclaimMoment} {place : Nat} {deed : ReclaimDeed}
    (hdeed : moment.deed? = some (place, deed)) :
    moment.reached? place = deed.reached? := by
  unfold reached?
  rw [hdeed, Option.bind_some, if_pos rfl]

end ReclaimMoment

/-- What happens in the turn of a pass that is there. -/
theorem ReclaimPool.exists_does
    {pool : ReclaimPool} {place : Nat} {pass : ReclaimPass}
    (hplace : pool.running[place]? = some pass)
    (faults : ReclaimFaults) :
    ∃ run deed, ReclaimRun.Does (pool.runOf pass) run deed ∧
      pool.take (.advance place faults) =
        ⟨run.table, run.blobs, pool.running.set place run.pass⟩ ∧
      (ReclaimMoment.mk pool (.advance place faults)).deed? =
        deed.map fun deed => (place, deed) := by
  refine ⟨_, _, ReclaimRun.step_does faults (pool.runOf pass), take_advance hplace faults, ?_⟩
  unfold ReclaimMoment.deed?
  simp only [hplace, Option.bind_some]

theorem ReclaimMoment.exists_does
    {moment : ReclaimMoment} {place : Nat} {deed : ReclaimDeed}
    (hdeed : moment.deed? = some (place, deed)) :
    ∃ pass run, moment.pool.running[place]? = some pass ∧
      ReclaimRun.Does (moment.pool.runOf pass) run (some deed) ∧
      moment.next = ⟨run.table, run.blobs, moment.pool.running.set place run.pass⟩ := by
  obtain ⟨pool, turn⟩ := moment
  cases turn with
  | advance actor faults =>
      cases hplace : pool.running[actor]? with
      | none =>
          unfold deed? at hdeed
          simp only [hplace, Option.bind_none, reduceCtorEq] at hdeed
      | some pass =>
          obtain ⟨run, done, hdoes, htake, hdone⟩ := pool.exists_does hplace faults
          rw [hdone, Option.map_eq_some_iff] at hdeed
          obtain ⟨_, rfl, hsame⟩ := hdeed
          cases hsame
          exact ⟨pass, run, hplace, hdoes, htake⟩
  | enter faults now => cases hdeed
  | save object => cases hdeed
  | delete object => cases hdeed
  | upload bytes mimeType => cases hdeed

/-- The turns that are taken, each with the pool in which it is taken. -/
def ReclaimPool.history : ReclaimPool → List ReclaimTurn → List ReclaimMoment
  | _, [] => []
  | pool, turn :: rest => ⟨pool, turn⟩ :: history (pool.take turn) rest

theorem ReclaimPool.exists_of_history_eq
    {pool : ReclaimPool} {turns : List ReclaimTurn} {before after : List ReclaimMoment}
    {moment : ReclaimMoment}
    (hsplit : pool.history turns = before ++ moment :: after) :
    ∃ earlier, before = pool.history earlier ∧ moment.pool = pool.play earlier := by
  induction before generalizing pool turns with
  | nil =>
      refine ⟨[], rfl, ?_⟩
      cases turns with
      | nil => cases hsplit
      | cons turn turns =>
          cases hsplit
          rfl
  | cons first before ih =>
      cases turns with
      | nil => cases hsplit
      | cons turn turns =>
          rw [history, List.cons_append, List.cons.injEq] at hsplit
          obtain ⟨hfirst, hrest⟩ := hsplit
          obtain ⟨earlier, hbefore, hmoment⟩ := ih hrest
          refine ⟨turn :: earlier, ?_, hmoment⟩
          rw [history, hfirst, hbefore]

end MintWatch

import Mathlib.Algebra.BigOperators.Group.List.Basic
import Rustikv.Kv.Outcomes

/-! Which records of the segment files have been synced. A roll syncs the segment it leaves
and a compaction the one it ends with, so only the active segment has records that wait for
a sync, and the write counter bounds their number.
-/

namespace Rustikv.Kv

open Library

-----------------------------------------------------------------------------------------
-- Records that no sync covers
-----------------------------------------------------------------------------------------

/-- One more operation, where `count` records of the segment's file wait for a sync. -/
def FileOp.unsyncedAfter (segment count : Nat) : FileOp → Nat
  | .segmentAppend timestamp _ => if timestamp = segment then count + 1 else count
  | .segmentSync timestamp => if timestamp = segment then 0 else count
  | .segmentRemove timestamp => if timestamp = segment then 0 else count
  | _ => count

namespace World

/-- The records appended to a segment's file that no later sync of the file covers. -/
def unsyncedIn (world : World) (segment : Nat) : Nat :=
  world.trace.foldl (FileOp.unsyncedAfter segment) 0

/-- The records of all files that still exist. -/
def unsynced (world : World) : Nat :=
  (world.disk.getSegments.map world.unsyncedIn).sum

@[simp]
theorem unsyncedIn_perform (world : World) (operation : FileOp) (segment : Nat)
    : (world.perform operation).unsyncedIn segment
      = operation.unsyncedAfter segment (world.unsyncedIn segment) := by
  simp [unsyncedIn, perform]

@[simp]
theorem unsyncedIn_newSegment (clock : Nat → Nat) (world : World) (segment : Nat)
    : (world.newSegment clock).2.unsyncedIn segment = world.unsyncedIn segment := rfl

end World

/-- The free segments aside, only the active one has records that wait for a sync. -/
def Confined (free : List Nat) (db : KVEngine) (world : World) : Prop :=
  ∀ segment ∉ free, segment ≠ db.activeSegment → world.unsyncedIn segment = 0

/-- A segment counts once among all files. -/
theorem Confined.unsynced_le {db : KVEngine} {world : World} (confined : Confined [] db world)
    : world.unsynced ≤ world.unsyncedIn db.activeSegment := by
  have total (segments : List Nat) (distinct : segments.Nodup)
      : (segments.map world.unsyncedIn).sum
        ≤ if db.activeSegment ∈ segments then world.unsyncedIn db.activeSegment else 0 := by
    induction segments with
    | nil => simp
    | cons segment rest ih =>
        obtain ⟨unlisted, restDistinct⟩ := List.nodup_cons.mp distinct
        have later := ih restDistinct
        by_cases same : segment = db.activeSegment
        · subst same
          rw [if_neg unlisted] at later
          simpa using later
        · have none := confined segment (by simp) same
          simp only [List.map_cons, List.sum_cons, none, Nat.zero_add, List.mem_cons,
            Ne.symm same, false_or]
          exact later
  refine (total _ world.disk.nodup_getSegments).trans ?_
  split
  · exact le_rfl
  · exact Nat.zero_le _

-----------------------------------------------------------------------------------------
-- The write counter
-----------------------------------------------------------------------------------------

/-- The strategy keeps fewer records than this waiting. -/
def FSyncStrategy.limit : FSyncStrategy → Option Nat
  | .always => some 1
  | .everyN count => some (max 1 count)
  | .never => none
  | .periodic _ => none

/-- The write counter counts the records that wait for a sync, and is below the limit. -/
structure CountsUnsynced (db : KVEngine) (world : World) : Prop where
  confined : Confined [] db world
  counted : world.unsyncedIn db.activeSegment ≤ db.writesSinceFsync
  below : ∀ limit, db.fsyncStrategy.limit = some limit → db.writesSinceFsync < limit

namespace KVEngine

variable {clock : Nat → Nat} {db next newDb : KVEngine} {world after : World}
  {free : List Nat}

/-- An append stays in its segment, or it leaves that one synced. -/
theorem appendTarget_unsynced (db : KVEngine) (world : World) (key value : String)
    (expiryMs : Option UInt64)
    : let target := db.appendTarget clock world key value expiryMs
      (target.1.activeSegment = db.activeSegment
        ∧ ∀ segment, target.2.unsyncedIn segment = world.unsyncedIn segment)
      ∨ (target.1.activeSegment = clock world.ticks
        ∧ ∀ segment,
            target.2.unsyncedIn segment
            = if db.activeSegment = segment then 0 else world.unsyncedIn segment) := by
  unfold appendTarget
  dsimp only
  split
  · rw [rollActive_eq]
    exact .inr ⟨rfl, fun segment => by simp [FileOp.unsyncedAfter]⟩
  · exact .inl ⟨rfl, fun segment => by simp [FileOp.unsyncedAfter]⟩

/-- A roll leaves nothing behind that waits for a sync. -/
theorem confined_appendTarget (confined : Confined free db world) (key value : String)
    (expiryMs : Option UInt64)
    : Confined free (db.appendTarget clock world key value expiryMs).1
        (db.appendTarget clock world key value expiryMs).2 := by
  intro segment outside other
  rcases appendTarget_unsynced db world key value expiryMs with
    ⟨stayed, same⟩ | ⟨rolled, counts⟩
  · rw [stayed] at other
    rw [same]
    exact confined segment outside other
  · rw [counts]
    split
    · rfl
    · rename_i old
      exact confined segment outside (Ne.symm old)

/-- The segment an append goes to has no more records waiting than the active one had. -/
theorem unsyncedIn_appendTarget (confined : Confined [] db world) (key value : String)
    (expiryMs : Option UInt64)
    : (db.appendTarget clock world key value expiryMs).2.unsyncedIn
          (db.appendTarget clock world key value expiryMs).1.activeSegment
        ≤ world.unsyncedIn db.activeSegment := by
  rcases appendTarget_unsynced db world key value expiryMs with
    ⟨stayed, same⟩ | ⟨rolled, counts⟩
  · rw [stayed, same]
  · rw [rolled, counts]
    split
    · exact Nat.zero_le _
    · rename_i new
      rw [confined (clock world.ticks) (by simp) (Ne.symm new)]
      exact Nat.zero_le _

/-- Counting and syncing leave the other segments alone. -/
theorem confined_fsync (confined : Confined free db world)
    : Confined free (db.fsync world).1 (db.fsync world).2 := by
  have synced : Confined free { db with writesSinceFsync := 0 }
      (world.perform (.segmentSync db.activeSegment)) := by
    intro segment outside other
    rw [World.unsyncedIn_perform, FileOp.unsyncedAfter, if_neg (Ne.symm other)]
    exact confined segment outside other
  unfold fsync
  dsimp only
  split
  · exact synced
  · exact confined
  · split
    · exact synced
    · exact confined
  · exact confined

/-- Behind one more record, `fsync` counts it, and syncs where the limit is reached. -/
theorem countsUnsynced_fsync (confined : Confined [] db world)
    (counted : world.unsyncedIn db.activeSegment ≤ db.writesSinceFsync + 1)
    : CountsUnsynced (db.fsync world).1 (db.fsync world).2 := by
  refine ⟨confined_fsync confined, ?_, ?_⟩
  · unfold fsync
    dsimp only
    split
    · simp [FileOp.unsyncedAfter]
    · exact counted
    · split
      · simp [FileOp.unsyncedAfter]
      · exact counted
    · exact counted
  · intro limit limited
    obtain ⟨index, activeSegment, maxSegmentBytes, writes, strategy, deadBytes, totalBytes,
      segmentCount⟩ := db
    cases strategy with
    | always =>
        obtain rfl := Option.some.inj limited
        exact Nat.one_pos
    | never => cases limited
    | everyN count =>
        unfold fsync at limited ⊢
        dsimp only at limited ⊢
        split at limited
        · rename_i reached
          rw [if_pos reached]
          obtain rfl := Option.some.inj limited
          exact Nat.lt_of_lt_of_le Nat.one_pos (le_max_left _ _)
        · rename_i early
          rw [if_neg early]
          obtain rfl := Option.some.inj limited
          exact Nat.lt_of_lt_of_le (not_le.mp early) (le_max_right _ _)
    | periodic milliseconds => cases limited

theorem confined_finishWrite (confined : Confined free db world) (newSize : Nat)
    (replaced : Option Nat)
    : Confined free (db.finishWrite world newSize replaced).1
        (db.finishWrite world newSize replaced).2 := by
  unfold finishWrite
  exact confined_fsync confined

theorem countsUnsynced_finishWrite (confined : Confined [] db world)
    (counted : world.unsyncedIn db.activeSegment ≤ db.writesSinceFsync + 1) (newSize : Nat)
    (replaced : Option Nat)
    : CountsUnsynced (db.finishWrite world newSize replaced).1
        (db.finishWrite world newSize replaced).2 := by
  unfold finishWrite
  exact countsUnsynced_fsync confined counted

/-- An append adds one record to those that wait. -/
theorem kvAppend_unsynced (db : KVEngine) (world : World) (key value : String)
    (expiryMs : Option UInt64)
    : let appended := db.kvAppend clock world key value expiryMs
      appended.2.1.writesSinceFsync = db.writesSinceFsync
      ∧ (∀ free, Confined free db world → Confined free appended.2.1 appended.2.2)
      ∧ (Confined [] db world
        → appended.2.2.unsyncedIn appended.2.1.activeSegment
          ≤ world.unsyncedIn db.activeSegment + 1) := by
  rw [kvAppend_eq]
  dsimp only
  refine ⟨?_, ?_, ?_⟩
  · rw [appendTarget_engine]
    split <;> rfl
  · intro free confined segment outside other
    rw [World.unsyncedIn_perform, FileOp.unsyncedAfter, if_neg (Ne.symm other)]
    exact confined_appendTarget confined key value expiryMs segment outside other
  · intro confined
    rw [World.unsyncedIn_perform, FileOp.unsyncedAfter, if_pos rfl]
    exact Nat.succ_le_succ (unsyncedIn_appendTarget confined key value expiryMs)

theorem setWithTtl_confined (confined : Confined free db world) {key value : String}
    {expiryMs : Option UInt64}
    (written : db.setWithTtl clock world key value expiryMs = .ok (next, after))
    : Confined free next after := by
  obtain ⟨-, appended, -⟩ := kvAppend_unsynced db world key value expiryMs
  obtain ⟨-, result⟩ := setWithTtl_eq_ok written
  have finished := confined_finishWrite (appended free confined)
    (db.kvAppend clock world key value expiryMs).1.1
    (db.kvAppend clock world key value expiryMs).1.2
  rwa [result] at finished

theorem setWithTtl_countsUnsynced (counts : CountsUnsynced db world) {key value : String}
    {expiryMs : Option UInt64}
    (written : db.setWithTtl clock world key value expiryMs = .ok (next, after))
    : CountsUnsynced next after := by
  obtain ⟨writes, confined, count⟩ :=
    kvAppend_unsynced db world key value expiryMs
  obtain ⟨-, result⟩ := setWithTtl_eq_ok written
  have counted := (count counts.confined).trans (Nat.succ_le_succ counts.counted)
  have finished := countsUnsynced_finishWrite (confined [] counts.confined)
    (counted.trans_eq (congrArg (· + 1) writes.symm))
    (db.kvAppend clock world key value expiryMs).1.1
    (db.kvAppend clock world key value expiryMs).1.2
  rwa [result] at finished

theorem msetWithTtl_countsUnsynced (counts : CountsUnsynced db world)
    {items : List (String × String × Option UInt64)}
    (written : db.msetWithTtl clock world items = .ok (next, after))
    : CountsUnsynced next after := by
  refine foldlM_induction (motive := fun _ state => CountsUnsynced state.1 state.2) ?_
    counts written
  intro item rest state last counts written
  exact setWithTtl_countsUnsynced counts written

/-- A tombstone counts like any other record; a delete that finds nothing appends none. -/
theorem delete_countsUnsynced (counts : CountsUnsynced db world) {key : String}
    {found : Bool} (deleted : db.delete world key = .ok (found, next, after))
    : CountsUnsynced next after := by
  have logged (segment : Nat)
      : (deleteWal world key).unsyncedIn segment = world.unsyncedIn segment := by
    simp [deleteWal, FileOp.unsyncedAfter]
  obtain ⟨-, ⟨-, rfl, rfl⟩ | ⟨entry, -, result⟩⟩ := delete_cases deleted
  · refine ⟨?_, (logged _).trans_le counts.counted, counts.below⟩
    intro segment outside other
    exact (logged segment).trans (counts.confined segment outside other)
  · have appended : CountsUnsynced
        ((db.deleteIndex key).2.fsync ((db.deleteIndex key).2.deleteRecord
          (deleteWal world key) key)).1
        ((db.deleteIndex key).2.fsync ((db.deleteIndex key).2.deleteRecord
          (deleteWal world key) key)).2 := by
      refine countsUnsynced_fsync ?_ ?_
      · intro segment outside other
        rw [deleteRecord, World.unsyncedIn_perform, FileOp.unsyncedAfter,
          if_neg (Ne.symm other), logged]
        exact counts.confined segment outside other
      · rw [deleteRecord, World.unsyncedIn_perform, FileOp.unsyncedAfter, if_pos rfl, logged]
        exact Nat.succ_le_succ counts.counted
    obtain ⟨rfl, rfl⟩ := Prod.mk.inj result
    exact ⟨appended.confined, appended.counted, appended.below⟩

-----------------------------------------------------------------------------------------
-- Compaction
-----------------------------------------------------------------------------------------

theorem unsyncedIn_writeHint (world : World) (target : Nat) (entries : List HintEntry)
    (segment : Nat)
    : (writeHint world target entries).unsyncedIn segment = world.unsyncedIn segment := by
  have fold (entries : List HintEntry) (start : World)
      : (entries.foldl
            (fun world entry => world.perform (.hintAppend target entry.toBeBytes))
            start).unsyncedIn segment
        = start.unsyncedIn segment := by
    induction entries generalizing start with
    | nil => rfl
    | cons entry rest ih =>
        rw [List.foldl_cons, ih]
        simp [FileOp.unsyncedAfter]
  rw [writeHint, fold]
  simp [FileOp.unsyncedAfter]

/-- Hints aside, the replacement is synced once more. -/
theorem unsyncedIn_finishCompacted (order : IterOrder) (newDb : KVEngine) (old : List Nat)
    (world : World) (segment : Nat)
    : (finishCompacted order newDb old world).unsyncedIn segment
      = if newDb.activeSegment = segment then 0 else world.unsyncedIn segment := by
  have fold (segments : List Nat) (start : World)
      : (segments.foldl
            (fun world target => writeHint world target (hintEntries order newDb target))
            start).unsyncedIn segment
        = start.unsyncedIn segment := by
    induction segments generalizing start with
    | nil => rfl
    | cons target rest ih => rw [List.foldl_cons, ih, unsyncedIn_writeHint]
  rw [finishCompacted, writeHints, fold]
  simp [FileOp.unsyncedAfter]

/-- Removed files have no records. -/
theorem unsyncedIn_removeSegments {segments : List Nat}
    (removed : segments.foldlM removeSegment world = .ok after) (segment : Nat)
    : after.unsyncedIn segment
      = if segment ∈ segments then 0 else world.unsyncedIn segment := by
  induction segments generalizing world with
  | nil =>
      obtain rfl := Except.ok.inj removed
      simp
  | cons first rest ih =>
      rw [List.foldlM_cons] at removed
      obtain ⟨middle, gone, others⟩ := bind_eq_ok.mp removed
      obtain ⟨file, -, same⟩ := bind_eq_ok.mp gone
      obtain rfl := Except.ok.inj same
      rw [ih others]
      simp only [World.unsyncedIn_perform, FileOp.unsyncedAfter, List.mem_cons]
      by_cases listed : segment ∈ rest
      · simp [listed]
      · by_cases equal : first = segment
        · simp [equal]
        · simp [equal, Ne.symm equal, listed]

/-- Copying appends to segments of the replacement only, and syncs those it fills. -/
theorem copyKeys_confined {items : List (String × Option UInt64)} {copyMs : String → UInt64}
    (confined : Confined free newDb world)
    (copied
      : items.foldlM
            (fun state item => copyKey clock db state.1 state.2 item (copyMs item.1))
            (newDb, world)
          = .ok (next, after))
    : Confined free next after := by
  refine foldlM_induction (motive := fun _ state => Confined free state.1 state.2) ?_
    confined copied
  intro item rest state last confined taken
  rcases copyKey_cases taken with ⟨-, same, sameWorld⟩ | ⟨value, -, written⟩
  · rw [same, sameWorld]
    exact confined
  · exact setWithTtl_confined confined written

/-- Nothing waits for a sync after a compaction: the files with such records are gone, and
the new ones are synced.
-/
theorem compact_unsynced (confined : Confined [] db world)
    (active : db.activeSegment ∈ world.disk.segments) {order : IterOrder} {nowMs : UInt64}
    {copyMs : String → UInt64}
    (compacted : db.compact clock order world nowMs copyMs = .ok (next, after))
    (segment : Nat)
    : after.unsyncedIn segment = 0 := by
  unfold compact buildCompacted at compacted
  obtain ⟨⟨newDb, old, hinted⟩, built, compacted⟩ := bind_eq_ok.mp compacted
  obtain ⟨⟨copyDb, filled⟩, copied, same⟩ := bind_eq_ok.mp built
  cases same
  obtain ⟨final, removed, same⟩ := bind_eq_ok.mp compacted
  cases same
  have started : Confined world.disk.getSegments
      (new clock db.maxSegmentBytes db.fsyncStrategy world).1
      (new clock db.maxSegmentBytes db.fsyncStrategy world).2 := by
    intro other outside _
    simp only [new, World.unsyncedIn_perform, World.unsyncedIn_newSegment,
      FileOp.unsyncedAfter]
    exact confined other (by simp)
      (fun same => outside (world.disk.mem_getSegments.mpr (same ▸ active)))
  have moved := copyKeys_confined started copied
  rw [unsyncedIn_removeSegments removed]
  split
  · rfl
  · rename_i kept
    simp only [World.unsyncedIn_perform, FileOp.unsyncedAfter,
      unsyncedIn_finishCompacted]
    split
    · rfl
    · rename_i inactive
      exact moved segment kept (Ne.symm inactive)

theorem compact_countsUnsynced (counts : CountsUnsynced db world)
    (active : db.activeSegment ∈ world.disk.segments) {order : IterOrder} {nowMs : UInt64}
    {copyMs : String → UInt64}
    (compacted : db.compact clock order world nowMs copyMs = .ok (next, after))
    : CountsUnsynced next after := by
  have none := compact_unsynced counts.confined active compacted
  obtain ⟨newDb, filled, -, rfl, -, -⟩ := compact_cases compacted
  refine ⟨fun segment _ _ => none segment, (none _).le, ?_⟩
  intro limit limited
  exact Nat.lt_of_le_of_lt (Nat.zero_le _) (counts.below limit limited)

-----------------------------------------------------------------------------------------
-- Sequential runs
-----------------------------------------------------------------------------------------

theorem countsUnsynced_new (maxSegmentBytes : UInt64) (fsyncStrategy : FSyncStrategy)
    : CountsUnsynced (new clock maxSegmentBytes fsyncStrategy World.initial).1
        (new clock maxSegmentBytes fsyncStrategy World.initial).2 := by
  refine ⟨fun segment _ _ => rfl, Nat.le_refl 0, ?_⟩
  intro limit limited
  change fsyncStrategy.limit = some limit at limited
  change 0 < limit
  cases fsyncStrategy with
  | always =>
      obtain rfl := Option.some.inj limited
      exact Nat.one_pos
  | never => cases limited
  | everyN count =>
      obtain rfl := Option.some.inj limited
      exact Nat.lt_of_lt_of_le Nat.one_pos (le_max_left _ _)
  | periodic milliseconds => cases limited

/-- A call that returns keeps what the counter counts. -/
theorem handle_countsUnsynced (counts : CountsUnsynced db world) {contents : Contents}
    (usable : Usable clock db world contents) {event : Event} {reply : Reply}
    (handled : handle clock event db world = .ok (reply, next, after))
    : CountsUnsynced next after := by
  cases handle_cases usable.represents handled with
  | unchanged adds same sameWorld =>
      rw [same, sameWorld]
      exact counts
  | written adds items done => exact msetWithTtl_countsUnsynced counts done
  | deleted key found call done => exact delete_countsUnsynced counts done
  | compacted order copyMs call done =>
      exact compact_countsUnsynced counts usable.active done

end KVEngine

/-- Not a batch of writes, of which a refusal may keep the first ones. -/
def Call.Unbatched : Call → Prop
  | .msetWithTtl _ => False
  | _ => True

/-- A usable engine refuses a call only for its sizes, before anything is written. -/
theorem Usable.handle {clock : Nat → Nat} (distinct : Function.Injective clock)
    {db : KVEngine} {world : World} {contents : Contents}
    (usable : Usable clock db world contents) {event : Event}
    (unbatched : event.call.Unbatched)
    : KVEngine.handle clock event db world = .error sizeError
      ∨ ∃ reply next after changed,
          KVEngine.handle clock event db world = .ok (reply, next, after)
          ∧ Usable clock next after changed
          ∧ next.fsyncStrategy = db.fsyncStrategy := by
  obtain ⟨represents, active, unused⟩ := usable
  have shows : Shows db world contents 0 := ⟨contents, represents, fun _ _ _ => rfl⟩
  have reading (reads : event.call.Reads)
      : ∃ reply next after changed,
          KVEngine.handle clock event db world = .ok (reply, next, after)
          ∧ Usable clock next after changed
          ∧ next.fsyncStrategy = db.fsyncStrategy := by
    obtain ⟨-, reply, handled, -⟩ := shows.handle reads UInt64.zero_le
      (fun _ _ _ _ => UInt64.zero_le) clock
    exact ⟨reply, db, world, contents, handled, ⟨represents, active, unused⟩, rfl⟩
  have writing (key value : String) (expiryMs : Option UInt64)
      : db.setWithTtl clock world key value expiryMs = .error sizeError
        ∨ ∃ next after changed,
            db.setWithTtl clock world key value expiryMs = .ok (next, after)
            ∧ Usable clock next after changed
            ∧ next.fsyncStrategy = db.fsyncStrategy := by
    by_cases fits : Record.Fits key value
    · obtain ⟨next, after, written, progress, now⟩ :=
        KVEngine.setWithTtl_sound clock represents active fits expiryMs
      exact .inr ⟨next, after, _, written, ⟨now, progress.active,
        unused.progress distinct active progress⟩, progress.fsyncStrategy⟩
    · refine .inl (if_pos ?_)
      rw [Record.Fits, not_and_or, not_le, not_le] at fits
      exact fits
  obtain ⟨call, nowMs, finishMs⟩ := event
  cases call with
  | set key value =>
      rcases writing key value none with refused | ⟨next, after, changed, written, rest⟩
      · exact .inl (by simp [KVEngine.handle, KVEngine.set, refused])
      · exact .inr ⟨.done, next, after, changed,
          by simp [KVEngine.handle, KVEngine.set, written], rest⟩
  | setWithTtl key value expiryMs =>
      rcases writing key value expiryMs with refused | ⟨next, after, changed, written, rest⟩
      · exact .inl (by simp [KVEngine.handle, refused])
      · exact .inr ⟨.done, next, after, changed, by simp [KVEngine.handle, written], rest⟩
  | msetWithTtl items => exact unbatched.elim
  | delete key =>
      by_cases fits : key.utf8ByteSize ≤ maxKeySize
      · obtain ⟨found, next, after, deleted, progress, now⟩ :=
          KVEngine.delete_sound clock represents active fits
        exact .inr ⟨.deleted found, next, after, _, by simp [KVEngine.handle, deleted],
          ⟨now, progress.active, unused.progress distinct active progress⟩,
          progress.fsyncStrategy⟩
      · exact .inl (by simp [KVEngine.handle, KVEngine.delete, not_le.mp fits])
  | ttl key expiryMs =>
      rcases KVEngine.ttl_sound clock represents active key expiryMs nowMs with
        ⟨-, unchanged⟩ | ⟨value, next, after, -, written, progress, now⟩
      · exact .inr ⟨.ttl .notFound, db, world, contents,
          by simp [KVEngine.handle, unchanged],
          ⟨represents, active, unused⟩, rfl⟩
      · exact .inr ⟨.ttl (if expiryMs.isSome then .set else .persisted), next, after, _,
          by simp [KVEngine.handle, written], ⟨now, progress.active,
            unused.progress distinct active progress⟩, progress.fsyncStrategy⟩
  | get key => exact .inr (reading trivial)
  | mget keys => exact .inr (reading trivial)
  | «exists» key => exact .inr (reading trivial)
  | listKeys order => exact .inr (reading trivial)
  | compact order copyMs =>
      have last (time : UInt64) : time ≤ UInt64.ofNat (UInt64.size - 1) :=
        UInt64.le_iff_toNat_le.mpr (Nat.le_of_lt_succ time.toNat_lt)
      obtain ⟨next, after, changed, compacted, now, nextActive, nextUnused, -⟩ :=
        KVEngine.compact_sound (KVEngine.reserves_unused distinct) represents unused order
          (last nowMs) (fun key => last (copyMs key))
      refine .inr ⟨.done, next, after, changed, by simp [KVEngine.handle, compacted],
        ⟨now, nextActive, nextUnused⟩, ?_⟩
      obtain ⟨newDb, filled, -, rfl, -, -⟩ := KVEngine.compact_cases compacted
      rfl

namespace KVEngine

variable (clock : Nat → Nat)

/-- Calls one after the other. One that fails leaves everything as it was. -/
def attempts : List Event → KVEngine → World → KVEngine × World
  | [], db, world => (db, world)
  | event :: rest, db, world =>
      match handle clock event db world with
      | .ok (_, db, world) => attempts rest db world
      | .error _ => attempts rest db world

variable {clock} {db : KVEngine} {world : World}

/-- What the counter counts in a usable engine, it counts after any run. Witness: induction
over the calls.
-/
theorem attempts_countsUnsynced (distinct : Function.Injective clock) {events : List Event}
    (unbatched : ∀ event ∈ events, event.call.Unbatched) {contents : Contents}
    (usable : Usable clock db world contents) (counts : CountsUnsynced db world)
    : let last := attempts clock events db world
      (∃ changed, Usable clock last.1 last.2 changed)
      ∧ CountsUnsynced last.1 last.2
      ∧ last.1.fsyncStrategy = db.fsyncStrategy := by
  induction events generalizing db world contents with
  | nil => exact ⟨⟨contents, usable⟩, counts, rfl⟩
  | cons event rest ih =>
      have others := fun other member => unbatched other (List.mem_cons_of_mem event member)
      rcases usable.handle distinct (unbatched event (by simp)) with
        refused | ⟨reply, next, after, changed, handled, now, strategy⟩
      · simp only [attempts, refused]
        exact ih others usable counts
      · obtain ⟨still, counted, same⟩ :=
          ih others now (handle_countsUnsynced counts usable handled)
        simp only [attempts, handled]
        exact ⟨still, counted, same.trans strategy⟩

theorem usable_new (distinct : Function.Injective clock) (maxSegmentBytes : UInt64)
    (fsyncStrategy : FSyncStrategy)
    : Usable clock (new clock maxSegmentBytes fsyncStrategy World.initial).1
        (new clock maxSegmentBytes fsyncStrategy World.initial).2 Contents.empty where
  represents := .empty _
  active := mem_segmentCreate _ _
  unused := new_unused distinct (by simp [Unused, World.initial, Disk.empty]) _ _

section Runs

variable (distinct : Function.Injective clock) (maxSegmentBytes : UInt64)
  (fsyncStrategy : FSyncStrategy) {events : List Event} {event : Event}
  (unbatched : ∀ event ∈ events, event.call.Unbatched) (lastUnbatched : event.call.Unbatched)

include distinct unbatched lastUnbatched

/-- In no run does a call fail for another reason than its sizes. -/
theorem attempts_refused {error : IoError}
    (refused
      : let start := new clock maxSegmentBytes fsyncStrategy World.initial
        let before := attempts clock events start.1 start.2
        handle clock event before.1 before.2 = .error error)
    : error = sizeError := by
  obtain ⟨⟨contents, usable⟩, -, -⟩ := attempts_countsUnsynced distinct unbatched
    (usable_new distinct maxSegmentBytes fsyncStrategy)
    (countsUnsynced_new maxSegmentBytes fsyncStrategy)
  rcases usable.handle distinct lastUnbatched with size | ⟨reply, next, after, -, handled, -⟩
  · exact Except.error.inj (refused.symm.trans size)
  · cases refused.symm.trans handled

/-- When a call has returned, fewer than `n` records wait for a sync under `EveryN(n)`, and
none under `Always`.
-/
theorem unsynced_bounded {reply : Reply} {next : KVEngine} {after : World}
    (returned
      : let start := new clock maxSegmentBytes fsyncStrategy World.initial
        let before := attempts clock events start.1 start.2
        handle clock event before.1 before.2 = .ok (reply, next, after))
    : (∀ n, 1 ≤ n → fsyncStrategy = .everyN n → after.unsynced < n)
      ∧ (fsyncStrategy = .always → after.unsynced = 0) := by
  obtain ⟨⟨contents, usable⟩, counts, strategy⟩ := attempts_countsUnsynced distinct unbatched
    (usable_new distinct maxSegmentBytes fsyncStrategy)
    (countsUnsynced_new maxSegmentBytes fsyncStrategy)
  have counted := handle_countsUnsynced counts usable returned
  have same : next.fsyncStrategy = fsyncStrategy := by
    rcases usable.handle distinct lastUnbatched with
      size | ⟨again, last, final, -, handled, -, kept⟩
    · cases returned.symm.trans size
    · obtain ⟨-, rfl, -⟩ := Except.ok.inj (handled.symm.trans returned)
      exact kept.trans strategy
  have waiting := counted.confined.unsynced_le.trans counted.counted
  constructor
  · rintro n positive rfl
    have below := counted.below _ (congrArg FSyncStrategy.limit same)
    rw [max_eq_right positive] at below
    exact waiting.trans_lt below
  · rintro rfl
    have below := counted.below 1 (congrArg FSyncStrategy.limit same)
    exact Nat.lt_one_iff.mp (waiting.trans_lt below)

end Runs

/-- Writes to three segments, with a delete and a compaction between them. -/
def rollingCalls : List Event :=
  [
    { call := .set "k" "v", nowMs := 1, finishMs := 1 },
    { call := .set "a" "b", nowMs := 2, finishMs := 2 },
    { call := .delete "k", nowMs := 3, finishMs := 3 },
    { call := .compact .stored (fun _ => 4), nowMs := 4, finishMs := 4 }
  ]

/-- Witness: one record waits under `EveryN(2)` after a roll, a delete and a compaction. -/
theorem unsynced_bounded_rolling
    : let start := new id 30 (.everyN 2) .initial
      let before := attempts id rollingCalls start.1 start.2
      ∃ reply next after,
        handle id { call := .set "c" "d", nowMs := 5, finishMs := 5 } before.1 before.2
          = .ok (reply, next, after)
        ∧ after.unsynced < 2
        ∧ after.unsynced = 1 := by
  intro start before
  have computed : (handle id { call := .set "c" "d", nowMs := 5, finishMs := 5 } before.1
      before.2).toOption.any (fun result => decide (result.2.2.unsynced = 1)) = true := by
    decide +kernel
  simp only [Option.any_eq_true, toOption_eq_some, decide_eq_true_eq] at computed
  obtain ⟨⟨reply, next, after⟩, returned, waiting⟩ := computed
  refine ⟨reply, next, after, returned, ?_, waiting⟩
  exact (unsynced_bounded Function.injective_id 30 (.everyN 2)
    (by simp [rollingCalls, Call.Unbatched]) (by trivial) returned).1 2 (by omega) rfl

end KVEngine

end Rustikv.Kv

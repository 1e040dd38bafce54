import Rustikv.Kv.Refinement
import Rustikv.Library.GuardedRun

/-! What a call that returns has done, from whatever state it started, and that reading goes
on as before while files only grow.
-/

namespace Rustikv.Kv

open Library

-----------------------------------------------------------------------------------------
-- Segment files that only grow
-----------------------------------------------------------------------------------------

/-- Every segment file of `before` is the front of a file of `after`. -/
def Grows (before after : Disk) : Prop :=
  ∀ (segment : Nat) (file : Bytes),
    before.segments[segment]? = some file
    → ∃ more, after.segments[segment]? = some (file ++ more)

namespace Grows

variable {before middle after : Disk}

theorem refl (disk : Disk) : Grows disk disk :=
  fun _ _ found => ⟨[], by simpa using found⟩

theorem trans (first : Grows before middle) (second : Grows middle after)
    : Grows before after := by
  intro segment file found
  obtain ⟨more, extended⟩ := first segment file found
  obtain ⟨rest, final⟩ := second segment (file ++ more) extended
  exact ⟨more ++ rest, by rw [final, List.append_assoc]⟩

theorem appendTo (disk : Disk) (target : Nat) (bytes : Bytes)
    : Grows disk { disk with segments := Kv.appendTo disk.segments target bytes } := by
  intro segment file found
  unfold Kv.appendTo
  cases present : disk.segments[target]? with
  | none => exact ⟨[], by simpa using found⟩
  | some old =>
      by_cases same : target = segment
      · subst same
        obtain rfl := Option.some.inj (present.symm.trans found)
        exact ⟨bytes, by simp⟩
      · exact ⟨[], by simpa [same] using found⟩

/-- Removal aside, no file operation takes bytes away. -/
theorem apply (disk : Disk) (operation : FileOp)
    (kept : ∀ segment, operation ≠ .segmentRemove segment)
    : Grows disk (disk.apply operation) := by
  cases operation with
  | segmentCreate timestamp =>
      simp only [Disk.apply]
      split
      · exact .refl disk
      · rename_i missing
        intro segment file found
        have other : timestamp ≠ segment := by
          rintro rfl
          exact missing ((disk.segments.mem_iff timestamp).mpr ⟨file, found⟩)
        exact ⟨[], by simpa [other] using found⟩
  | segmentAppend timestamp bytes => exact .appendTo disk timestamp bytes
  | segmentRemove timestamp => exact absurd rfl (kept timestamp)
  | walAppend _ => exact .refl disk
  | walTruncate => exact .refl disk
  | segmentSync _ => exact .refl disk
  | hintCreate _ => exact .refl disk
  | hintAppend _ _ => exact .refl disk
  | hintRemove _ => exact .refl disk

theorem step (grows : Grows before after) (operation : FileOp)
    (kept : ∀ segment, operation ≠ .segmentRemove segment)
    : Grows before (after.apply operation) :=
  grows.trans (.apply after operation kept)

end Grows

-----------------------------------------------------------------------------------------
-- Changes to one segment file
-----------------------------------------------------------------------------------------

/-- The segment has this file afterwards; all other files are as before. -/
def Replaces (segment : Nat) (file : Bytes) (before after : Disk) : Prop :=
  ∀ other : Nat,
    after.segments[other]? = if segment = other then some file else before.segments[other]?

namespace Replaces

variable {segment : Nat} {file : Bytes} {before middle after : Disk}

theorem trans {old : Bytes} (first : Replaces segment old before middle)
    (second : Replaces segment file middle after)
    : Replaces segment file before after := by
  intro other
  rw [second, first]
  split <;> rfl

theorem append (present : before.segments[segment]? = some file) (bytes : Bytes)
    : Replaces segment (file ++ bytes) before
        (before.apply (.segmentAppend segment bytes)) := by
  intro other
  simp [Disk.apply, appendTo, present]

theorem create (missing : segment ∉ before.segments)
    : Replaces segment [] before (before.apply (.segmentCreate segment)) := by
  intro other
  simp [Disk.apply, missing]

theorem mem_iff (replaces : Replaces segment file before after) (other : Nat)
    : other ∈ after.segments ↔ segment = other ∨ other ∈ before.segments := by
  rw [SortedMap.mem_iff, replaces, SortedMap.mem_iff]
  by_cases same : segment = other <;> simp [same]

end Replaces

/-- A record was added to the active segment, or, if it did not fit, to a new segment. -/
inductive Written (record : Record) (db next : KVEngine) (world after : World) : Prop
  | stayed (file : Bytes) (present : world.disk.segments[db.activeSegment]? = some file)
      (small : file.length + record.sizeOnDisk ≤ db.maxSegmentBytes.toNat)
      (active : next.activeSegment = db.activeSegment)
      (count : next.segmentCount = db.segmentCount)
      (files
        : Replaces next.activeSegment (file ++ record.toBeBytes) world.disk after.disk)
  | rolled (file : Bytes) (present : world.disk.segments[db.activeSegment]? = some file)
      (large : db.maxSegmentBytes.toNat < file.length + record.sizeOnDisk)
      (new : next.activeSegment ∉ world.disk.segments)
      (count : next.segmentCount = db.segmentCount + 1)
      (files : Replaces next.activeSegment record.toBeBytes world.disk after.disk)

namespace KVEngine

variable {clock : Nat → Nat}

theorem get_eq_map (db : KVEngine) (world : World) (key : String) (nowMs : UInt64)
    : db.get world key nowMs
      = (kvLookup db.index world.disk db.activeSegment key nowMs).map
          (Option.map (fun value => (key, value))) := by
  unfold get
  cases kvLookup db.index world.disk db.activeSegment key nowMs with
  | error error => rfl
  | ok found => cases found <;> rfl

/-- A live entry's record is read from its own segment, whichever is active. -/
theorem kvLookup_live {index : HashIndex} {key : String} {entry : IndexEntry}
    {nowMs : UInt64} (held : index.get key = some entry)
    (live : entry.expiryMs.any (isExpired · nowMs) = false) (disk : Disk)
    (activeSegment : Nat)
    : kvLookup index disk activeSegment key nowMs
      = (disk.openSegment entry.segmentTimestamp).bind
          (fun file =>
            (Record.readNext (file.drop entry.offset)).map
              (fun read => some read.1.value)) := by
  simp only [kvLookup, held, live, Bool.false_eq_true, if_false]
  by_cases same : entry.segmentTimestamp = activeSegment
  · rw [if_pos same, same]
    cases disk.openSegment activeSegment with
    | error error => rfl
    | ok file =>
        rw [ok_bind, Except.bind]
        cases Record.readNext (file.drop entry.offset) <;> rfl
  · rw [if_neg same]
    cases disk.openSegment entry.segmentTimestamp with
    | error error => rfl
    | ok file =>
        rw [ok_bind, Except.bind]
        cases Record.readNext (file.drop entry.offset) <;> rfl

theorem kvLookup_gone {index : HashIndex} {key : String} {nowMs : UInt64}
    (gone
      : ∀ entry,
          index.get key = some entry → entry.expiryMs.any (isExpired · nowMs) = true)
    (disk : Disk) (activeSegment : Nat)
    : kvLookup index disk activeSegment key nowMs = .ok none := by
  unfold kvLookup
  cases held : index.get key with
  | none => rfl
  | some entry => simp [gone entry held]

/-- A key reads exactly when its entry is live and points at a record. -/
theorem get_eq_some {db : KVEngine} {world : World} {key : String} {nowMs : UInt64}
    {found : String × String}
    : db.get world key nowMs = .ok (some found)
      ↔ ∃ entry file record rest,
          db.index.get key = some entry
          ∧ entry.expiryMs.any (isExpired · nowMs) = false
          ∧ world.disk.segments[entry.segmentTimestamp]? = some file
          ∧ Record.readNext (file.drop entry.offset) = .ok (record, rest)
          ∧ found = (key, record.value) := by
  rw [get_eq_map]
  constructor
  · intro read
    by_cases gone : ∀ entry, db.index.get key = some entry
        → entry.expiryMs.any (isExpired · nowMs) = true
    · rw [kvLookup_gone gone] at read
      cases read
    · push Not at gone
      obtain ⟨entry, held, unexpired⟩ := gone
      have live := Bool.eq_false_of_not_eq_true unexpired
      rw [kvLookup_live held live] at read
      cases present : world.disk.segments[entry.segmentTimestamp]? with
      | none =>
          simp only [Disk.openSegment, present] at read
          cases read
      | some file =>
          simp only [Disk.openSegment, present, Except.bind] at read
          cases decoded : Record.readNext (file.drop entry.offset) with
          | error error =>
              rw [decoded] at read
              cases read
          | ok both =>
              rw [decoded] at read
              cases read
              exact ⟨entry, file, both.1, both.2, held, live, present, decoded, rfl⟩
  · rintro ⟨entry, file, record, rest, held, live, present, decoded, rfl⟩
    rw [kvLookup_live held live]
    simp only [Disk.openSegment, present, Except.bind, decoded]
    rfl

/-- The index alone tells which keys are absent. -/
theorem get_eq_none {db : KVEngine} {world : World} {key : String} {nowMs : UInt64}
    : db.get world key nowMs = .ok none
      ↔ ∀ entry,
          db.index.get key = some entry
          → entry.expiryMs.any (isExpired · nowMs) = true := by
  rw [get_eq_map]
  constructor
  · intro read entry held
    by_contra unexpired
    rw [Bool.not_eq_true] at unexpired
    rw [kvLookup_live held unexpired] at read
    cases opened : world.disk.openSegment entry.segmentTimestamp with
    | error error =>
        rw [opened] at read
        cases read
    | ok file =>
        rw [opened, Except.bind] at read
        cases decoded : Record.readNext (file.drop entry.offset) with
        | error error =>
            rw [decoded] at read
            cases read
        | ok both =>
            rw [decoded] at read
            cases read
  · intro gone
    rw [kvLookup_gone gone]
    rfl

/-- What reads goes on reading while files grow, until its entry expires. -/
theorem get_of_grows {db : KVEngine} {world later : World} {key : String}
    {nowMs time : UInt64} {found : String × String}
    (read : db.get world key nowMs = .ok (some found))
    (grows : Grows world.disk later.disk)
    (unexpired
      : ∀ entry,
          db.index.get key = some entry → entry.expiryMs.any (isExpired · time) = false)
    : db.get later key time = .ok (some found) := by
  obtain ⟨entry, file, record, rest, held, -, present, decoded, rfl⟩ := get_eq_some.mp read
  obtain ⟨more, extended⟩ := grows _ file present
  have again := Record.readNext_more decoded (more.drop (entry.offset - file.length))
  rw [← List.drop_append] at again
  exact get_eq_some.mpr
    ⟨entry, _, record, _, held, unexpired entry held, extended, again, rfl⟩

-----------------------------------------------------------------------------------------
-- Copying
-----------------------------------------------------------------------------------------

/-- Copying a key does nothing, or it writes the value that reads. -/
theorem copyKey_cases {db newDb next : KVEngine} {world after : World}
    {item : String × Option UInt64} {nowMs : UInt64}
    (copied : copyKey clock db newDb world item nowMs = .ok (next, after))
    : (db.get world item.1 nowMs = .ok none ∧ next = newDb ∧ after = world)
      ∨ ∃ value,
          db.get world item.1 nowMs = .ok (some (item.1, value))
          ∧ newDb.setWithTtl clock world item.1 value item.2 = .ok (next, after) := by
  unfold copyKey at copied
  obtain ⟨found, read, copied⟩ := bind_eq_ok.mp copied
  cases found with
  | none =>
      cases copied
      exact Or.inl ⟨read, rfl, rfl⟩
  | some found =>
      obtain ⟨entry, file, record, rest, -, -, -, -, rfl⟩ := get_eq_some.mp read
      exact Or.inr ⟨record.value, read, copied⟩

theorem fsync_counters (db : KVEngine) (world : World)
    : (db.fsync world).1.totalBytes = db.totalBytes
      ∧ (db.fsync world).1.deadBytes = db.deadBytes := by
  unfold fsync
  dsimp only
  split
  · exact ⟨rfl, rfl⟩
  · exact ⟨rfl, rfl⟩
  · split <;> exact ⟨rfl, rfl⟩
  · exact ⟨rfl, rfl⟩

/-- A value write that returns is an append within the limits, and what follows it. -/
theorem setWithTtl_eq_ok {db next : KVEngine} {world after : World} {key value : String}
    {expiryMs : Option UInt64}
    (written : db.setWithTtl clock world key value expiryMs = .ok (next, after))
    : let appended := db.kvAppend clock world key value expiryMs
      Record.Fits key value
      ∧ appended.2.1.finishWrite appended.2.2 appended.1.1 appended.1.2 = (next, after) := by
  unfold setWithTtl at written
  split at written
  · cases written
  · rename_i small
    rw [not_or, not_lt, not_lt] at small
    exact ⟨small, Except.ok.inj written⟩

/-- The engine behind a value write, with the counters moved by what the append reports. -/
theorem setWithTtl_cases {db next : KVEngine} {world after : World} {key value : String}
    {expiryMs : Option UInt64}
    (written : db.setWithTtl clock world key value expiryMs = .ok (next, after))
    : let appended := db.kvAppend clock world key value expiryMs
      Record.Fits key value
      ∧ Settled appended.2.1 next appended.2.2 after
      ∧ next.totalBytes = appended.2.1.totalBytes + appended.1.1
      ∧ next.deadBytes = appended.2.1.deadBytes + appended.1.2.getD 0 := by
  intro appended
  obtain ⟨fits, finished⟩ := setWithTtl_eq_ok written
  have settled :=
    finishWrite_settled appended.2.1 appended.2.2 appended.1.1 appended.1.2
  have counters := fsync_counters
    {
      appended.2.1 with
      deadBytes := appended.2.1.deadBytes + appended.1.2.getD 0
      totalBytes := appended.2.1.totalBytes + appended.1.1
    }
    appended.2.2
  rw [finished] at settled
  unfold finishWrite at finished
  rw [finished] at counters
  exact ⟨fits, settled, counters.1, counters.2⟩

theorem appendTarget_grows (db : KVEngine) (world : World) (key value : String)
    (expiryMs : Option UInt64)
    : Grows world.disk (db.appendTarget clock world key value expiryMs).2.disk := by
  have logged := Grows.apply world.disk
    (.walAppend (Wal.record key value false expiryMs).toBeBytes) (by simp)
  unfold appendTarget
  dsimp only
  split
  · rw [rollActive_eq]
    exact ((logged.step (.segmentSync db.activeSegment) (by simp)).step
      (.segmentCreate (clock world.ticks)) (by simp)).step .walTruncate (by simp)
  · exact logged

theorem kvAppend_grows (db : KVEngine) (world : World) (key value : String)
    (expiryMs : Option UInt64)
    : Grows world.disk (db.kvAppend clock world key value expiryMs).2.2.disk := by
  rw [kvAppend_eq]
  exact (appendTarget_grows db world key value expiryMs).step _ (by simp)

theorem setWithTtl_grows {db next : KVEngine} {world after : World} {key value : String}
    {expiryMs : Option UInt64}
    (written : db.setWithTtl clock world key value expiryMs = .ok (next, after))
    : Grows world.disk after.disk := by
  obtain ⟨-, settled, -, -⟩ := setWithTtl_cases written
  rw [settled.disk]
  exact kvAppend_grows db world key value expiryMs

theorem appendTarget_engine (db : KVEngine) (world : World) (key value : String)
    (expiryMs : Option UInt64)
    : (db.appendTarget clock world key value expiryMs).1
      = if db.maxSegmentBytes.toNat
            < world.disk.segmentSize db.activeSegment
              + (valueRecord key value expiryMs).sizeOnDisk then
          {
            db with
            activeSegment := clock world.ticks
            segmentCount := db.segmentCount + 1
          }
        else db := by
  unfold appendTarget
  dsimp only
  rw [rollActive_eq, apply_ite Prod.fst]
  rfl

/-- What a value write makes of the counters and the index. -/
theorem setWithTtl_counters {db next : KVEngine} {world after : World} {key value : String}
    {expiryMs : Option UInt64}
    (written : db.setWithTtl clock world key value expiryMs = .ok (next, after))
    : let size := (valueRecord key value expiryMs).sizeOnDisk
      next.totalBytes = db.totalBytes + size
      ∧ next.deadBytes
        = db.deadBytes + ((db.index.get key).map IndexEntry.recordSize).getD 0
      ∧ ∃ offset,
          next.index = (db.index.set key offset next.activeSegment size expiryMs).2 := by
  obtain ⟨-, settled, total, dead⟩ := setWithTtl_cases written
  rw [kvAppend_eq] at settled total dead
  have index := index_appendTarget clock db world key value expiryMs
  have engine : (db.appendTarget clock world key value expiryMs).1 = _ :=
    appendTarget_engine db world key value expiryMs
  have sameTotal : (db.appendTarget clock world key value expiryMs).1.totalBytes
      = db.totalBytes := by
    rw [engine]
    split <;> rfl
  have sameDead : (db.appendTarget clock world key value expiryMs).1.deadBytes
      = db.deadBytes := by
    rw [engine]
    split <;> rfl
  let before := (db.appendTarget clock world key value expiryMs).2
  let target := (db.appendTarget clock world key value expiryMs).1
  refine ⟨total.trans (by simp only [sameTotal]),
    dead.trans (by simp only [sameDead, index]),
    before.disk.segmentSize target.activeSegment, ?_⟩
  rw [settled.index, settled.activeSegment]
  simp only [index, target, before]

/-- The active segment behind a value write, and the entry the write leaves. -/
theorem setWithTtl_target {db next : KVEngine} {world after : World} {key value : String}
    {expiryMs : Option UInt64}
    (written : db.setWithTtl clock world key value expiryMs = .ok (next, after))
    : next.activeSegment
        = (if db.maxSegmentBytes.toNat
              < world.disk.segmentSize db.activeSegment
                + (valueRecord key value expiryMs).sizeOnDisk then
            clock world.ticks
          else db.activeSegment)
      ∧ (∃ entry,
          next.index.get key = some entry
          ∧ entry.segmentTimestamp = next.activeSegment
          ∧ entry.expiryMs = expiryMs)
      ∧ ∀ other, key ≠ other → next.index.get other = db.index.get other := by
  obtain ⟨-, settled, -, -⟩ := setWithTtl_cases written
  obtain ⟨-, -, offset, index⟩ := setWithTtl_counters written
  refine ⟨?_, ⟨_, by rw [index, HashIndex.get_set, if_pos rfl], rfl, rfl⟩, ?_⟩
  · rw [settled.activeSegment, kvAppend_eq]
    dsimp only
    rw [appendTarget_engine]
    split <;> rfl
  · intro other different
    rw [index, HashIndex.get_set, if_neg different]

theorem setWithTtl_limit {db next : KVEngine} {world after : World} {key value : String}
    {expiryMs : Option UInt64}
    (written : db.setWithTtl clock world key value expiryMs = .ok (next, after))
    : next.maxSegmentBytes = db.maxSegmentBytes := by
  obtain ⟨-, settled, -, -⟩ := setWithTtl_cases written
  rw [settled.maxSegmentBytes, kvAppend_eq]
  dsimp only
  rw [appendTarget_engine]
  split <;> rfl

/-- Where the segment clock does not repeat itself, a roll starts a new file. -/
theorem setWithTtl_written {db next : KVEngine} {world after : World}
    (active : db.activeSegment ∈ world.disk.segments)
    (new : clock world.ticks ∉ world.disk.segments) {key value : String}
    {expiryMs : Option UInt64}
    (written : db.setWithTtl clock world key value expiryMs = .ok (next, after))
    : Written (valueRecord key value expiryMs) db next world after := by
  obtain ⟨file, present⟩ := (world.disk.segments.mem_iff _).mp active
  obtain ⟨-, settled, -, -⟩ := setWithTtl_cases written
  have target := settled.activeSegment
  have count := settled.segmentCount
  have disk := settled.disk
  rw [kvAppend_eq] at target count disk
  have size : world.disk.segmentSize db.activeSegment = file.length := by
    simp [Disk.segmentSize, present]
  by_cases large : db.maxSegmentBytes.toNat
      < file.length + (valueRecord key value expiryMs).sizeOnDisk
  · have rolls : db.appendTarget clock world key value expiryMs
        = db.rollActive clock (world.perform
            (.walAppend (Wal.record key value false expiryMs).toBeBytes)) := by
      unfold appendTarget
      exact if_pos (size ▸ large)
    rw [rolls, rollActive_eq] at target count disk
    refine .rolled file present large (target ▸ new) count ?_
    rw [disk, target]
    let logged := (world.disk.apply
      (.walAppend (Wal.record key value false expiryMs).toBeBytes)).apply
        (.segmentSync db.activeSegment)
    have missing : clock world.ticks ∉ logged.segments := new
    have created : Replaces (clock world.ticks) [] world.disk
        ((logged.apply (.segmentCreate (clock world.ticks))).apply .walTruncate) :=
      Replaces.create missing
    exact created.trans (.append (by rw [created, if_pos rfl]) _)
  · have stays : db.appendTarget clock world key value expiryMs
        = (db, world.perform
            (.walAppend (Wal.record key value false expiryMs).toBeBytes)) := by
      unfold appendTarget
      exact if_neg (size ▸ large)
    rw [stays] at target count disk
    refine .stayed file present (not_lt.mp large) target count ?_
    rw [disk, target]
    have logged : (world.disk.apply (.walAppend
        (Wal.record key value false expiryMs).toBeBytes)).segments[db.activeSegment]?
        = some file := present
    exact Replaces.append logged _

/-- The record a compaction copies for a key of its snapshot, if the key reads. -/
def copiedRecord (db : KVEngine) (world : World) (copyMs : String → UInt64)
    (item : String × Option UInt64)
    : Option Record :=
  match db.get world item.1 (copyMs item.1) with
  | .ok (some (_, value)) => some (valueRecord item.1 value item.2)
  | _ => none

/-- The records a compaction copies, in this order. -/
def copiedRecords (order : IterOrder) (db : KVEngine) (world : World) (nowMs : UInt64)
    (copyMs : String → UInt64)
    : List Record :=
  (snapshotKeys order db nowMs).filterMap (copiedRecord db world copyMs)

-----------------------------------------------------------------------------------------
-- The whole compaction
-----------------------------------------------------------------------------------------

/-- Removing segments leaves the files of all others, and the clock alone. -/
theorem segments_removeSegments {segments : List Nat} {world after : World}
    (removed : segments.foldlM removeSegment world = .ok after)
    : after.ticks = world.ticks
      ∧ ∀ segment : Nat,
          after.disk.segments[segment]?
          = if segment ∈ segments then none else world.disk.segments[segment]? := by
  induction segments generalizing world with
  | nil =>
      obtain rfl := Except.ok.inj removed
      exact ⟨rfl, by simp⟩
  | cons first rest ih =>
      rw [List.foldlM_cons] at removed
      obtain ⟨middle, gone, others⟩ := bind_eq_ok.mp removed
      obtain ⟨file, -, same⟩ := bind_eq_ok.mp gone
      obtain rfl := Except.ok.inj same
      obtain ⟨ticks, files⟩ := ih others
      refine ⟨ticks, ?_⟩
      intro segment
      rw [files]
      by_cases equal : first = segment
      · subst equal
        simp [Disk.apply]
      · simp [Disk.apply, equal, Ne.symm equal]

/-- A compaction that returns has copied the snapshot to a new engine, taken over its
index and removed the segments that were there before.
-/
theorem compact_cases {order : IterOrder} {db next : KVEngine} {world after : World}
    {nowMs : UInt64} {copyMs : String → UInt64}
    (compacted : db.compact clock order world nowMs copyMs = .ok (next, after))
    : ∃ newDb filled,
        (snapshotKeys order db nowMs).foldlM
            (fun state item => copyKey clock db state.1 state.2 item (copyMs item.1))
            (new clock db.maxSegmentBytes db.fsyncStrategy world)
          = .ok (newDb, filled)
        ∧ next = (db.swapCompacted newDb filled).1
        ∧ after.ticks = filled.ticks
        ∧ ∀ segment : Nat,
            after.disk.segments[segment]?
            = if segment ∈ world.disk.segments then none
              else filled.disk.segments[segment]? := by
  unfold compact buildCompacted at compacted
  obtain ⟨⟨newDb, old, hinted⟩, built, compacted⟩ := bind_eq_ok.mp compacted
  obtain ⟨⟨copyDb, copiedWorld⟩, copied, same⟩ := bind_eq_ok.mp built
  cases same
  obtain ⟨final, removed, same⟩ := bind_eq_ok.mp compacted
  cases same
  obtain ⟨segments, -, ticks⟩ :=
    finishCompacted_frame order newDb world.disk.getSegments copiedWorld
  obtain ⟨sameTicks, files⟩ := segments_removeSegments removed
  refine ⟨newDb, copiedWorld, copied, rfl, sameTicks.trans ticks, ?_⟩
  intro segment
  rw [files]
  simp [world.disk.mem_getSegments, Disk.apply, segments]

-----------------------------------------------------------------------------------------
-- Reopening
-----------------------------------------------------------------------------------------

/-- The record a reopening appends for an entry of the replayed log. -/
def replayedRecord (item : String × MemtableEntry) : Record :=
  match item.2.value with
  | some value => valueRecord item.1 value item.2.expiryMs
  | none => tombstoneRecord item.1

/-- Reopening counts the segments and adds the replayed log to the last one. -/
theorem fromDir_cases {maxSegmentBytes : UInt64} {fsyncStrategy : FSyncStrategy}
    {next : KVEngine} {world after : World}
    (reopened : fromDir maxSegmentBytes fsyncStrategy world = .ok (some next, after))
    : ∃ memtable file,
        world.disk.getSegments.getLast? = some next.activeSegment
        ∧ Wal.replay world.disk.wal = .ok memtable
        ∧ world.disk.segments[next.activeSegment]? = some file
        ∧ next.maxSegmentBytes = maxSegmentBytes
        ∧ next.segmentCount = world.disk.getSegments.length
        ∧ Replaces next.activeSegment
            (file
              ++ (memtable.entries.toList.map replayedRecord).flatMap Record.toBeBytes)
            world.disk after.disk := by
  unfold fromDir at reopened
  split at reopened
  · cases reopened
  · rename_i segment last
    obtain ⟨index, -, reopened⟩ := bind_eq_ok.mp reopened
    obtain ⟨memtable, replayed, reopened⟩ := bind_eq_ok.mp reopened
    have listed : segment ∈ world.disk.getSegments := List.mem_of_getLast? last
    obtain ⟨file, present⟩ :=
      (world.disk.segments.mem_iff _).mp (world.disk.mem_getSegments.mp listed)
    have appended (entries : List (String × MemtableEntry)) (state : Recovery)
        (old : Bytes) (held : state.world.disk.segments[segment]? = some old)
        : Replaces segment (old ++ (entries.map replayedRecord).flatMap Record.toBeBytes)
            state.world.disk
            (entries.foldl (replayEntry segment) state).world.disk := by
      induction entries generalizing state old with
      | nil =>
          intro other
          by_cases same : segment = other
          · subst same
            simpa using held
          · simp [same]
      | cons entry rest ih =>
          have world : (replayEntry segment state entry).world
              = state.world.perform
                  (.segmentAppend segment (replayedRecord entry).toBeBytes) := by
            obtain ⟨key, value, expiryMs⟩ := entry
            cases value <;> rfl
          have first : Replaces segment (old ++ (replayedRecord entry).toBeBytes)
              state.world.disk (replayEntry segment state entry).world.disk := by
            rw [world]
            exact Replaces.append held _
          have later := ih (replayEntry segment state entry) _
            (by rw [first, if_pos rfl])
          simpa [List.append_assoc] using first.trans later
    cases reopened
    exact ⟨memtable, file, last, replayed, present, rfl, rfl, appended _ _ _ present⟩

-----------------------------------------------------------------------------------------
-- Every call
-----------------------------------------------------------------------------------------

/-- A delete logs its key. It appends a tombstone if the index had an entry to remove. -/
theorem delete_cases {db next : KVEngine} {world after : World} {key : String}
    {found : Bool} (deleted : db.delete world key = .ok (found, next, after))
    : key.utf8ByteSize ≤ maxKeySize
      ∧ ((db.index.get key = none
            ∧ next = (db.deleteIndex key).2
            ∧ after = deleteWal world key)
        ∨ ∃ entry,
            db.index.get key = some entry
            ∧ (next, after)
              = (db.deleteIndex key).2.deleteSegment (deleteWal world key) key entry) := by
  unfold delete at deleted
  split at deleted
  · cases deleted
  · rename_i small
    refine ⟨not_lt.mp small, ?_⟩
    cases held : db.index.get key with
    | none =>
        simp only [deleteIndex, HashIndex.delete, held] at deleted
        cases deleted
        exact Or.inl ⟨rfl, rfl, rfl⟩
    | some entry =>
        simp only [deleteIndex, HashIndex.delete, held] at deleted
        have result := congrArg Prod.snd (Except.ok.inj deleted)
        exact Or.inr ⟨entry, rfl, result.symm⟩

/-- The engine a compaction fills starts with an empty file. -/
theorem new_files {world : World} (new : clock world.ticks ∉ world.disk.segments)
    (maxSegmentBytes : UInt64) (fsyncStrategy : FSyncStrategy)
    : Replaces (KVEngine.new clock maxSegmentBytes fsyncStrategy world).1.activeSegment []
        world.disk (KVEngine.new clock maxSegmentBytes fsyncStrategy world).2.disk :=
  .create new

/-- What the append of a tombstone makes of the counters. -/
theorem deleteSegment_counters (db : KVEngine) (world : World) (key : String)
    (entry : IndexEntry)
    : let done := db.deleteSegment world key entry
      Settled db done.1 (db.deleteRecord world key) done.2
      ∧ done.1.totalBytes = db.totalBytes + (tombstoneRecord key).sizeOnDisk
      ∧ done.1.deadBytes
        = db.deadBytes + (entry.recordSize + (tombstoneRecord key).sizeOnDisk) := by
  have settled := fsync_settled db (db.deleteRecord world key)
  have counters := fsync_counters db (db.deleteRecord world key)
  refine ⟨⟨settled.index, settled.activeSegment, settled.maxSegmentBytes,
    settled.fsyncStrategy, settled.segmentCount, settled.world⟩, ?_, ?_⟩
  · exact congrArg (· + (tombstoneRecord key).sizeOnDisk) counters.1
  · exact congrArg (· + (entry.recordSize + (tombstoneRecord key).sizeOnDisk)) counters.2

/-- A delete that finds its key adds a tombstone to the active segment; another only logs. -/
theorem delete_files {db next : KVEngine} {world after : World} {key : String}
    {found : Bool} (deleted : db.delete world key = .ok (found, next, after))
    : next.maxSegmentBytes = db.maxSegmentBytes
      ∧ next.segmentCount = db.segmentCount
      ∧ next.activeSegment = db.activeSegment
      ∧ ((db.index.get key = none ∧ after.disk.segments = world.disk.segments)
        ∨ ((db.index.get key).isSome
            ∧ ∀ file,
                world.disk.segments[db.activeSegment]? = some file
                → Replaces db.activeSegment (file ++ (tombstoneRecord key).toBeBytes)
                    world.disk after.disk)) := by
  obtain ⟨-, ⟨missing, rfl, rfl⟩ | ⟨entry, held, result⟩⟩ := delete_cases deleted
  · exact ⟨rfl, rfl, rfl, Or.inl ⟨missing, rfl⟩⟩
  · obtain ⟨settled, -, -⟩ := deleteSegment_counters (db.deleteIndex key).2
      (deleteWal world key) key entry
    rw [← result] at settled
    refine ⟨settled.maxSegmentBytes, settled.segmentCount, settled.activeSegment,
      Or.inr ⟨by simp [held], ?_⟩⟩
    intro file present
    have logged : (deleteWal world key).disk.segments[db.activeSegment]? = some file :=
      present
    rw [settled.disk]
    exact Replaces.append logged _

/-- `ttl` writes the value it reads, if it reads one. -/
theorem ttl_cases {db next : KVEngine} {world after : World} {contents : Contents}
    (represents : Represents db.index world.disk contents) {key : String}
    {expiryMs : Option UInt64} {nowMs : UInt64} {outcome : TtlOutcome}
    (done : db.ttl clock world key expiryMs nowMs = .ok (outcome, next, after))
    : (next = db ∧ after = world)
      ∨ ∃ value, db.setWithTtl clock world key value expiryMs = .ok (next, after) := by
  unfold ttl at done
  rw [represents.kvLookup, ok_bind] at done
  cases live : contents.read key nowMs with
  | none =>
      simp only [live] at done
      cases done
      exact Or.inl ⟨rfl, rfl⟩
  | some value =>
      have fits := represents.fits_of_read live
      have limits : ¬ (maxKeySize < key.utf8ByteSize ∨ maxValueSize < value.utf8ByteSize) := by
        have key := fits.1
        have value := fits.2
        omega
      simp only [live] at done
      let appended := db.kvAppend clock world key value expiryMs
      have result : appended.2.1.finishWrite appended.2.2 appended.1.1 appended.1.2
          = (next, after) :=
        congrArg Prod.snd (Except.ok.inj done)
      refine Or.inr ⟨value, ?_⟩
      rw [setWithTtl, if_neg limits]
      exact congrArg Except.ok result

end KVEngine

/-- The call is neither a delete nor a compaction. -/
def Call.Adds : Call → Prop
  | .delete _ => False
  | .compact _ _ => False
  | _ => True

/-- A call that returns has changed nothing, or it is a sequence of value writes, a delete
or a compaction.
-/
inductive Outcome (clock : Nat → Nat) (event : Event) (db next : KVEngine)
    (world after : World)
    : Prop
  | unchanged (adds : event.call.Adds) (same : next = db) (sameWorld : after = world)
  | written (adds : event.call.Adds) (items : List (String × String × Option UInt64))
      (done : db.msetWithTtl clock world items = .ok (next, after))
  | deleted (key : String) (found : Bool) (call : event.call = .delete key)
      (done : db.delete world key = .ok (found, next, after))
  | compacted (order : IterOrder) (copyMs : String → UInt64)
      (call : event.call = .compact order copyMs)
      (done : db.compact clock order world event.nowMs copyMs = .ok (next, after))

theorem KVEngine.handle_cases {clock : Nat → Nat} {event : Event} {db next : KVEngine}
    {world after : World} {reply : Reply} {contents : Contents}
    (represents : Represents db.index world.disk contents)
    (handled : KVEngine.handle clock event db world = .ok (reply, next, after))
    : Outcome clock event db next world after := by
  have single {key value : String} {expiryMs : Option UInt64}
      (written : db.setWithTtl clock world key value expiryMs = .ok (next, after))
      : db.msetWithTtl clock world [(key, value, expiryMs)] = .ok (next, after) := by
    simp only [KVEngine.msetWithTtl, List.foldlM_cons, written]
    rfl
  obtain ⟨call, nowMs, finishMs⟩ := event
  cases call with
  | set key value =>
      obtain ⟨⟨last, later⟩, written, same⟩ := bind_eq_ok.mp handled
      cases same
      exact .written trivial _ (single written)
  | setWithTtl key value expiryMs =>
      obtain ⟨⟨last, later⟩, written, same⟩ := bind_eq_ok.mp handled
      cases same
      exact .written trivial _ (single written)
  | msetWithTtl items =>
      obtain ⟨⟨last, later⟩, written, same⟩ := bind_eq_ok.mp handled
      cases same
      exact .written trivial items written
  | delete key =>
      obtain ⟨⟨found, last, later⟩, deleted, same⟩ := bind_eq_ok.mp handled
      cases same
      exact .deleted key found rfl deleted
  | ttl key expiryMs =>
      obtain ⟨⟨outcome, last, later⟩, done, same⟩ := bind_eq_ok.mp handled
      cases same
      rcases ttl_cases represents done with ⟨rfl, rfl⟩ | ⟨value, written⟩
      · exact .unchanged trivial rfl rfl
      · exact .written trivial _ (single written)
  | get key =>
      obtain ⟨found, -, same⟩ := bind_eq_ok.mp handled
      cases same
      exact .unchanged trivial rfl rfl
  | mget keys =>
      obtain ⟨found, -, same⟩ := bind_eq_ok.mp handled
      cases same
      exact .unchanged trivial rfl rfl
  | «exists» key =>
      cases handled
      exact .unchanged trivial rfl rfl
  | listKeys order =>
      cases handled
      exact .unchanged trivial rfl rfl
  | compact order copyMs =>
      obtain ⟨⟨last, later⟩, compacted, same⟩ := bind_eq_ok.mp handled
      cases same
      exact .compacted order copyMs rfl compacted

-----------------------------------------------------------------------------------------
-- Runs of calls and reopenings
-----------------------------------------------------------------------------------------

/-- The engines and worlds that allowed calls and reopenings lead to from a new engine. -/
inductive Trail (clock : Nat → Nat) (Allowed : Event → KVEngine → World → Prop)
    (Reopens : UInt64 → KVEngine → World → Prop)
    : KVEngine → World → Prop
  | new (maxSegmentBytes : UInt64) (fsyncStrategy : FSyncStrategy)
    : Trail clock Allowed Reopens
        (KVEngine.new clock maxSegmentBytes fsyncStrategy World.initial).1
        (KVEngine.new clock maxSegmentBytes fsyncStrategy World.initial).2
  | call {db next : KVEngine} {world after : World} {event : Event} {reply : Reply}
      (trail : Trail clock Allowed Reopens db world) (allowed : Allowed event db world)
      (handled : KVEngine.handle clock event db world = .ok (reply, next, after))
    : Trail clock Allowed Reopens next after
  | reopen {db next : KVEngine} {world after : World} {maxSegmentBytes : UInt64}
      {fsyncStrategy : FSyncStrategy} (trail : Trail clock Allowed Reopens db world)
      (reopens : Reopens maxSegmentBytes db world)
      (reopened
        : KVEngine.fromDir maxSegmentBytes fsyncStrategy world = .ok (some next, after))
    : Trail clock Allowed Reopens next after

end Rustikv.Kv

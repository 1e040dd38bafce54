import Rustikv.Kv.Contents

/-! What the write operations of the hash engine do to its index and its disk. -/

namespace Rustikv.Kv

open Library

-----------------------------------------------------------------------------------------
-- Disk changes that lose no record
-----------------------------------------------------------------------------------------

/-- Every record and every segment of `before` is still there in `after`. -/
structure Keeps (before after : Disk) : Prop where
  held
    : ∀ {segment offset : Nat} {record : Record},
        HoldsAt before segment offset record → HoldsAt after segment offset record
  present
    : ∀ {segment : Nat},
        segment ∈ before.segments → segment ∈ after.segments

theorem Keeps.refl (disk : Disk) : Keeps disk disk :=
  ⟨id, id⟩

theorem Keeps.trans {first second third : Disk} (left : Keeps first second)
    (right : Keeps second third)
    : Keeps first third :=
  ⟨fun held => right.held (left.held held), fun present => right.present (left.present present)⟩

theorem Represents.keeps {index : HashIndex} {before after : Disk} {contents : Contents}
    (represents : Represents index before contents) (keeps : Keeps before after)
    : Represents index after contents where
  absent := represents.absent
  present key entry found := by
    obtain ⟨value, holds, fits, held⟩ := represents.present key entry found
    exact ⟨value, holds, fits, keeps.held held⟩

@[simp]
theorem mem_appendTo (files : SortedMap Nat Bytes) (target segment : Nat) (bytes : Bytes)
    : segment ∈ appendTo files target bytes ↔ segment ∈ files := by
  unfold appendTo
  cases found : files[target]? with
  | none => rfl
  | some old =>
      have present := (files.mem_iff target).mpr ⟨old, found⟩
      by_cases same : target = segment
      · simp [← same, present]
      · simp [same]

/-- Removal aside, every file operation keeps the records and the segments. -/
theorem keeps_apply (disk : Disk) (operation : FileOp)
    (kept : ∀ segment, operation ≠ .segmentRemove segment)
    : Keeps disk (disk.apply operation) where
  held held := held.apply (kept _)
  present {segment} present := by
    cases operation with
    | segmentCreate timestamp =>
        simp only [Disk.apply]
        split
        · exact present
        · by_cases same : timestamp = segment <;> simp [same, present]
    | segmentAppend timestamp bytes => simpa [Disk.apply] using present
    | segmentRemove timestamp => exact absurd rfl (kept timestamp)
    | walAppend _ => exact present
    | walTruncate => exact present
    | segmentSync _ => exact present
    | hintCreate _ => exact present
    | hintAppend _ _ => exact present
    | hintRemove _ => exact present

/-- One more operation that removes no segment still keeps what was there. -/
theorem Keeps.step {before disk : Disk} (keeps : Keeps before disk) (operation : FileOp)
    (kept : ∀ segment, operation ≠ .segmentRemove segment)
    : Keeps before (disk.apply operation) :=
  keeps.trans (keeps_apply disk operation kept)

theorem mem_segmentCreate (disk : Disk) (segment : Nat)
    : segment ∈ (disk.apply (.segmentCreate segment)).segments := by
  simp only [Disk.apply]
  split
  · assumption
  · simp

/-- A record appended to an existing segment is held at the segment's former end. -/
theorem holdsAt_segmentAppend {disk : Disk} {segment : Nat}
    (present : segment ∈ disk.segments) (record : Record)
    : HoldsAt (disk.apply (.segmentAppend segment record.toBeBytes)) segment
        (disk.segmentSize segment) record := by
  obtain ⟨file, found⟩ := (disk.segments.mem_iff segment).mp present
  refine ⟨file ++ record.toBeBytes, [], ?_, ?_⟩
  · simp [Disk.apply, appendTo, found]
  · simp [Disk.segmentSize, found]

/-- Pointing a key at a record held on the disk sets its item. -/
theorem Represents.set {index : HashIndex} {disk : Disk} {contents : Contents}
    (represents : Represents index disk contents) {key value : String}
    {expiryMs : Option UInt64} (fits : Record.Fits key value) {segment offset : Nat}
    (held : HoldsAt disk segment offset (KVEngine.valueRecord key value expiryMs))
    (recordSize : Nat)
    : Represents (index.set key offset segment recordSize expiryMs).2 disk
        (contents.set key value expiryMs) where
  absent other missing := by
    by_cases same : key = other
    · simp [same] at missing
    · simp only [HashIndex.get_set, same, if_false] at missing
      simpa [same] using represents.absent other missing
  present other entry found := by
    by_cases same : key = other
    · subst same
      simp only [HashIndex.get_set, if_true, Option.some.injEq] at found
      subst found
      exact ⟨value, by simp, fits, held⟩
    · simp only [HashIndex.get_set, same, if_false] at found
      simpa [same] using represents.present other entry found

theorem Represents.delete {index : HashIndex} {disk : Disk} {contents : Contents}
    (represents : Represents index disk contents) (key : String)
    : Represents (index.delete key).2 disk (contents.delete key) where
  absent other missing := by
    by_cases same : key = other
    · simp [same]
    · simp only [HashIndex.get_delete, same, if_false] at missing
      simpa [same] using represents.absent other missing
  present other entry found := by
    by_cases same : key = other
    · simp [same] at found
    · simp only [HashIndex.get_delete, same, if_false] at found
      simpa [same] using represents.present other entry found

theorem Represents.fits_of_read {index : HashIndex} {disk : Disk} {contents : Contents}
    (represents : Represents index disk contents) {key value : String} {nowMs : UInt64}
    (live : contents.read key nowMs = some value)
    : Record.Fits key value := by
  cases found : index.get key with
  | none => simp [Contents.read, represents.absent key found] at live
  | some entry =>
      obtain ⟨stored, holds, fits, -⟩ := represents.present key entry found
      simp only [Contents.read, holds, Option.bind_some, Item.read] at live
      split at live
      · cases live
      · obtain rfl : stored = value := Option.some.inj live
        exact fits

-----------------------------------------------------------------------------------------
-- The two paths of an append
-----------------------------------------------------------------------------------------

namespace KVEngine

variable (clock : Nat → Nat)

/-- The segment an append goes to, and the world just before the segment write. -/
def appendTarget (db : KVEngine) (world : World) (key value : String)
    (expiryMs : Option UInt64)
    : KVEngine × World :=
  let world := world.perform (.walAppend (Wal.record key value false expiryMs).toBeBytes)
  if db.maxSegmentBytes.toNat
      < world.disk.segmentSize db.activeSegment
        + (valueRecord key value expiryMs).sizeOnDisk then
    db.rollActive clock world
  else
    (db, world)

theorem kvAppend_eq (db : KVEngine) (world : World) (key value : String)
    (expiryMs : Option UInt64)
    : db.kvAppend clock world key value expiryMs
      = let record := valueRecord key value expiryMs
        let target := (db.appendTarget clock world key value expiryMs).1
        let before := (db.appendTarget clock world key value expiryMs).2
        ((record.sizeOnDisk, (target.index.get key).map IndexEntry.recordSize),
          {
            target with
            index :=
              (target.index.set key (before.disk.segmentSize target.activeSegment)
                target.activeSegment record.sizeOnDisk expiryMs).2
          },
          before.perform (.segmentAppend target.activeSegment record.toBeBytes)) := rfl

/-- The roll switches to a fresh clock reading and empties the log; the index stays. -/
theorem rollActive_eq (db : KVEngine) (world : World)
    : db.rollActive clock world
      = ({
            db with
            activeSegment := clock world.ticks
            segmentCount := db.segmentCount + 1
          },
          ((((world.perform (.segmentSync db.activeSegment)).newSegment clock).2.perform
            (.segmentCreate (clock world.ticks))).perform .walTruncate)) := rfl

/-- A write loses nothing on the disk and leaves an active segment to append to: the old
one, or one named by the next clock reading.
-/
structure Progress (db next : KVEngine) (world after : World) : Prop where
  maxSegmentBytes : next.maxSegmentBytes = db.maxSegmentBytes
  fsyncStrategy : next.fsyncStrategy = db.fsyncStrategy
  keeps : Keeps world.disk after.disk
  active : next.activeSegment ∈ after.disk.segments
  segment
    : (next.activeSegment = db.activeSegment ∧ after.ticks = world.ticks)
      ∨ (next.activeSegment = clock world.ticks ∧ after.ticks = world.ticks + 1)
  segments
    : ∀ segment ∈ after.disk.segments,
        segment ∈ world.disk.segments ∨ segment = next.activeSegment
  entries
    : ∀ key entry,
        next.index.get key = some entry
        → db.index.get key = some entry ∨ entry.segmentTimestamp = next.activeSegment

theorem appendTarget_progress (db : KVEngine) (world : World) (key value : String)
    (expiryMs : Option UInt64) (active : db.activeSegment ∈ world.disk.segments)
    : Progress clock db (db.appendTarget clock world key value expiryMs).1 world
        (db.appendTarget clock world key value expiryMs).2 := by
  unfold appendTarget
  dsimp only
  split
  · rw [rollActive_eq]
    refine {
      maxSegmentBytes := rfl
      fsyncStrategy := rfl
      keeps := ?_
      active := ?_
      segment := Or.inr ⟨rfl, rfl⟩
      segments := ?_
      entries := fun _ _ found => Or.inl found
    }
    · have logged := (Keeps.refl world.disk).step
        (.walAppend (Wal.record key value false expiryMs).toBeBytes) (by simp)
      have synced := logged.step (.segmentSync db.activeSegment) (by simp)
      have created := synced.step (.segmentCreate (clock world.ticks)) (by simp)
      exact created.step .walTruncate (by simp)
    · exact mem_segmentCreate
        { world.disk with
          wal := world.disk.wal ++ (Wal.record key value false expiryMs).toBeBytes }
        (clock world.ticks)
    · intro segment present
      simp only [World.disk_perform, World.newSegment, World.ticks_perform, Disk.apply]
        at present
      split at present
      · exact Or.inl present
      · by_cases same : clock world.ticks = segment
        · exact Or.inr same.symm
        · exact Or.inl (by simpa [same] using present)
  · exact {
      maxSegmentBytes := rfl
      fsyncStrategy := rfl
      keeps := keeps_apply world.disk (.walAppend _) (by simp)
      active := active
      segment := Or.inl ⟨rfl, rfl⟩
      segments := fun _ present => Or.inl present
      entries := fun _ _ found => Or.inl found
    }

theorem index_appendTarget (db : KVEngine) (world : World) (key value : String)
    (expiryMs : Option UInt64)
    : (db.appendTarget clock world key value expiryMs).1.index = db.index := by
  unfold appendTarget
  dsimp only
  split <;> rfl

variable {clock}

/-- A segment append behind a write is part of that write. -/
theorem Progress.append {db next : KVEngine} {world after : World}
    (progress : Progress clock db next world after) (segment : Nat) (bytes : Bytes)
    : Progress clock db next world (after.perform (.segmentAppend segment bytes)) where
  maxSegmentBytes := progress.maxSegmentBytes
  fsyncStrategy := progress.fsyncStrategy
  keeps := progress.keeps.step (.segmentAppend segment bytes) (by simp)
  active := by simpa [Disk.apply] using progress.active
  segment := progress.segment
  segments other present := progress.segments other (by simpa [Disk.apply] using present)
  entries := progress.entries

/-- Counters moved and the active segment was perhaps synced; nothing else happened. -/
structure Settled (db next : KVEngine) (world after : World) : Prop where
  index : next.index = db.index
  activeSegment : next.activeSegment = db.activeSegment
  maxSegmentBytes : next.maxSegmentBytes = db.maxSegmentBytes
  fsyncStrategy : next.fsyncStrategy = db.fsyncStrategy
  segmentCount : next.segmentCount = db.segmentCount
  world : after = world ∨ after = world.perform (.segmentSync db.activeSegment)

theorem Settled.disk {db next : KVEngine} {world after : World}
    (settled : Settled db next world after)
    : after.disk = world.disk := by
  rcases settled.world with same | synced
  · rw [same]
  · rw [synced]
    rfl

theorem Settled.ticks {db next : KVEngine} {world after : World}
    (settled : Settled db next world after)
    : after.ticks = world.ticks := by
  rcases settled.world with same | synced
  · rw [same]
  · rw [synced]
    rfl

theorem fsync_settled (db : KVEngine) (world : World)
    : Settled db (db.fsync world).1 world (db.fsync world).2 := by
  have skipped (count : Nat) : Settled db { db with writesSinceFsync := count } world world :=
    ⟨rfl, rfl, rfl, rfl, rfl, Or.inl rfl⟩
  have synced (count : Nat) : Settled db { db with writesSinceFsync := count } world
      (world.perform (.segmentSync db.activeSegment)) :=
    ⟨rfl, rfl, rfl, rfl, rfl, Or.inr rfl⟩
  unfold fsync
  dsimp only
  split
  · exact synced 0
  · exact skipped _
  · split
    · exact synced 0
    · exact skipped _
  · exact skipped _

theorem finishWrite_settled (db : KVEngine) (world : World) (newSize : Nat)
    (replaced : Option Nat)
    : Settled db (db.finishWrite world newSize replaced).1 world
        (db.finishWrite world newSize replaced).2 := by
  have settled := fsync_settled
    { db with
      deadBytes := db.deadBytes + replaced.getD 0
      totalBytes := db.totalBytes + newSize } world
  exact ⟨settled.index, settled.activeSegment, settled.maxSegmentBytes,
    settled.fsyncStrategy, settled.segmentCount, settled.world⟩

/-- A write that has settled made the same progress. -/
theorem Progress.settled {db next last : KVEngine} {world after later : World}
    (progress : Progress clock db next world after)
    (settled : Settled next last after later)
    : Progress clock db last world later := by
  obtain ⟨size, sync, keeps, active, source, segments, entries⟩ := progress
  refine ⟨settled.maxSegmentBytes.trans size, settled.fsyncStrategy.trans sync,
    ?_, ?_, ?_, ?_, ?_⟩
  · rwa [settled.disk]
  · rwa [settled.disk, settled.activeSegment]
  · rwa [settled.activeSegment, settled.ticks]
  · rwa [settled.disk, settled.activeSegment]
  · rwa [settled.index, settled.activeSegment]

variable (clock)

theorem kvAppend_progress {db : KVEngine} {world : World}
    (active : db.activeSegment ∈ world.disk.segments) (key value : String)
    (expiryMs : Option UInt64)
    : Progress clock db (db.kvAppend clock world key value expiryMs).2.1 world
        (db.kvAppend clock world key value expiryMs).2.2 := by
  have prepared := appendTarget_progress clock db world key value expiryMs active
  have appended := prepared.append
    (db.appendTarget clock world key value expiryMs).1.activeSegment
    (valueRecord key value expiryMs).toBeBytes
  rw [kvAppend_eq]
  refine ⟨appended.maxSegmentBytes, appended.fsyncStrategy, appended.keeps, appended.active,
    appended.segment, appended.segments, ?_⟩
  intro other entry found
  by_cases same : key = other
  · subst same
    simp only [HashIndex.get_set, if_true, Option.some.injEq] at found
    subst found
    exact Or.inr rfl
  · simp only [HashIndex.get_set, same, if_false] at found
    exact prepared.entries other entry found

/-- An append sets the key's item. -/
theorem kvAppend_represents {db : KVEngine} {world : World} {contents : Contents}
    (represents : Represents db.index world.disk contents)
    (active : db.activeSegment ∈ world.disk.segments) {key value : String}
    (fits : Record.Fits key value) (expiryMs : Option UInt64)
    : Represents (db.kvAppend clock world key value expiryMs).2.1.index
        (db.kvAppend clock world key value expiryMs).2.2.disk
        (contents.set key value expiryMs) := by
  have prepared := appendTarget_progress clock db world key value expiryMs active
  have index := index_appendTarget clock db world key value expiryMs
  rw [kvAppend_eq]
  dsimp only
  rw [index]
  have kept := prepared.keeps.step
    (.segmentAppend
      (db.appendTarget clock world key value expiryMs).1.activeSegment
      (valueRecord key value expiryMs).toBeBytes) (by simp)
  exact (represents.keeps kept).set fits (holdsAt_segmentAppend prepared.active _) _

/-- A value write within the limits succeeds and sets the key's item. -/
theorem setWithTtl_sound {db : KVEngine} {world : World} {contents : Contents}
    (represents : Represents db.index world.disk contents)
    (active : db.activeSegment ∈ world.disk.segments) {key value : String}
    (fits : Record.Fits key value) (expiryMs : Option UInt64)
    : ∃ next after,
        db.setWithTtl clock world key value expiryMs = .ok (next, after)
        ∧ Progress clock db next world after
        ∧ Represents next.index after.disk (contents.set key value expiryMs) := by
  have limits : ¬ (maxKeySize < key.utf8ByteSize ∨ maxValueSize < value.utf8ByteSize) := by
    have key := fits.1
    have value := fits.2
    omega
  have settled := finishWrite_settled (db.kvAppend clock world key value expiryMs).2.1
    (db.kvAppend clock world key value expiryMs).2.2
    (db.kvAppend clock world key value expiryMs).1.1
    (db.kvAppend clock world key value expiryMs).1.2
  have appended := kvAppend_represents clock represents active fits expiryMs
  refine ⟨_, _, by rw [setWithTtl, if_neg limits],
    (kvAppend_progress clock active key value expiryMs).settled settled, ?_⟩
  rwa [settled.index, settled.disk]

/-- `ttl` on a live key re-appends its value under the new expiry; otherwise it changes
nothing.
-/
theorem ttl_sound {db : KVEngine} {world : World} {contents : Contents}
    (represents : Represents db.index world.disk contents)
    (active : db.activeSegment ∈ world.disk.segments) (key : String)
    (expiryMs : Option UInt64) (nowMs : UInt64)
    : (contents.read key nowMs = none
        ∧ db.ttl clock world key expiryMs nowMs = .ok (.notFound, db, world))
      ∨ ∃ value next after,
          contents.read key nowMs = some value
          ∧ db.ttl clock world key expiryMs nowMs
            = .ok (if expiryMs.isSome then .set else .persisted, next, after)
          ∧ Progress clock db next world after
          ∧ Represents next.index after.disk (contents.set key value expiryMs) := by
  have lookup := represents.kvLookup db.activeSegment key nowMs
  cases live : contents.read key nowMs with
  | none =>
      refine Or.inl ⟨rfl, ?_⟩
      rw [live] at lookup
      simp [ttl, lookup]
      rfl
  | some value =>
      have fits := represents.fits_of_read live
      have settled := finishWrite_settled (db.kvAppend clock world key value expiryMs).2.1
        (db.kvAppend clock world key value expiryMs).2.2
        (db.kvAppend clock world key value expiryMs).1.1
        (db.kvAppend clock world key value expiryMs).1.2
      have appended := kvAppend_represents clock represents active fits expiryMs
      rw [live] at lookup
      refine Or.inr ⟨value, _, _, rfl, by simp [ttl, lookup]; rfl,
        (kvAppend_progress clock active key value expiryMs).settled settled, ?_⟩
      rwa [settled.index, settled.disk]

/-- A delete removes the key's item, whether or not it was in the index. -/
theorem delete_sound {db : KVEngine} {world : World} {contents : Contents}
    (represents : Represents db.index world.disk contents)
    (active : db.activeSegment ∈ world.disk.segments) {key : String}
    (fits : key.utf8ByteSize ≤ maxKeySize)
    : ∃ found next after,
        db.delete world key = .ok (found, next, after)
        ∧ Progress clock db next world after
        ∧ Represents next.index after.disk (contents.delete key) := by
  have limit : ¬ maxKeySize < key.utf8ByteSize := by omega
  have removed : Represents (db.deleteIndex key).2.index (deleteWal world key).disk
      (contents.delete key) :=
    (represents.delete key).keeps
      (keeps_apply world.disk (.walAppend _) (by simp))
  have logged : Progress clock db (db.deleteIndex key).2 world (deleteWal world key) := {
    maxSegmentBytes := rfl
    fsyncStrategy := rfl
    keeps := keeps_apply world.disk (.walAppend _) (by simp)
    active := active
    segment := Or.inl ⟨rfl, rfl⟩
    segments := fun _ present => Or.inl present
    entries := fun other entry found => by
      by_cases same : key = other
      · simp [deleteIndex, same] at found
      · simp only [deleteIndex, HashIndex.get_delete, same, if_false] at found
        exact Or.inl found
  }
  cases old : (db.deleteIndex key).1 with
  | none => exact ⟨false, _, _, by simp [delete, limit, old], logged, removed⟩
  | some entry =>
      have appended := logged.append db.activeSegment (tombstoneRecord key).toBeBytes
      have settled := fsync_settled (db.deleteIndex key).2
        ((deleteWal world key).perform
          (.segmentAppend db.activeSegment (tombstoneRecord key).toBeBytes))
      have progress := appended.settled settled
      refine ⟨true, ((db.deleteIndex key).2.deleteSegment (deleteWal world key) key entry).1,
        ((db.deleteIndex key).2.deleteSegment (deleteWal world key) key entry).2,
        by simp [delete, limit, old], ?_, ?_⟩
      · exact ⟨progress.maxSegmentBytes, progress.fsyncStrategy, progress.keeps,
          progress.active, progress.segment, progress.segments, progress.entries⟩
      · have kept := removed.keeps (keeps_apply _
          (.segmentAppend db.activeSegment (tombstoneRecord key).toBeBytes)
          (by simp))
        rw [← settled.index] at kept
        exact settled.disk.symm ▸ kept

/-- A delete reports whether the index had an entry for its key. -/
theorem delete_found {db next : KVEngine} {world after : World} {key : String} {found : Bool}
    (deleted : db.delete world key = .ok (found, next, after))
    : found = (db.index.get key).isSome := by
  simp only [delete, deleteIndex, HashIndex.delete] at deleted
  split at deleted
  next => cases deleted
  next =>
    cases held : db.index.get key with
    | none =>
        simp only [held] at deleted
        cases deleted
        rfl
    | some entry =>
        simp only [held] at deleted
        cases deleted
        rfl

end KVEngine

end Rustikv.Kv

import Rustikv.Kv.Disk
import Rustikv.Storage

/-! The hash (Bitcask) engine: `KVEngine` over its segment files, hints and WAL.
`clock` gives the successive readings of `Segment::new`; each call receives the reading
of `now_ms` it works with.
-/

namespace Rustikv.Kv

open Library

inductive FSyncStrategy
  | always
  | never
  | everyN (count : Nat)
  | periodic (milliseconds : Nat)
  deriving DecidableEq, Repr

structure KVEngine where
  index : HashIndex
  activeSegment : Nat
  maxSegmentBytes : UInt64
  writesSinceFsync : Nat
  fsyncStrategy : FSyncStrategy
  deadBytes : Nat
  totalBytes : Nat
  segmentCount : Nat

def sizeError : IoError :=
  { kind := .invalidInput, message := "key or value exceeds maximum allowed size" }

/-- Both branches of the source open the file of the entry's own segment. -/
def kvLookup (index : HashIndex) (disk : Disk) (activeSegment : Nat) (key : String)
    (nowMs : UInt64)
    : Except IoError (Option String) :=
  match index.get key with
  | none => .ok none
  | some entry =>
      if entry.expiryMs.any (isExpired · nowMs) then
        .ok none
      else do
        let file ←
          if entry.segmentTimestamp = activeSegment then disk.openSegment activeSegment
          else disk.openSegment entry.segmentTimestamp
        let (record, _) ← Record.readNext (file.drop entry.offset)
        return some record.value

namespace KVEngine

variable (clock : Nat → Nat)

def new (maxSegmentBytes : UInt64) (fsyncStrategy : FSyncStrategy) (world : World)
    : KVEngine × World :=
  let (segment, world) := world.newSegment clock
  let world := world.perform (.segmentCreate segment)
  ({
      index := HashIndex.new
      activeSegment := segment
      maxSegmentBytes
      writesSinceFsync := 0
      fsyncStrategy
      deadBytes := 0
      totalBytes := 0
      segmentCount := 1
    },
    world)

def rollActive (db : KVEngine) (world : World) : KVEngine × World :=
  let world := world.perform (.segmentSync db.activeSegment)
  let (segment, world) := world.newSegment clock
  let world := world.perform (.segmentCreate segment)
  let world := world.perform .walTruncate
  ({ db with activeSegment := segment, segmentCount := db.segmentCount + 1 }, world)

/-- The value record `kv_append` and the recovery of `from_dir` append to a segment. -/
def valueRecord (key value : String) (expiryMs : Option UInt64) : Record :=
  Record.make key value (if expiryMs.isSome then flagHasExpiry else 0) expiryMs

def tombstoneRecord (key : String) : Record :=
  Record.make key "" flagTombstone none

/-- Returns the new record's size and the replaced record's, for the byte counters. -/
def kvAppend (db : KVEngine) (world : World) (key value : String)
    (expiryMs : Option UInt64)
    : (Nat × Option Nat) × KVEngine × World :=
  let world := world.perform (.walAppend (Wal.record key value false expiryMs).toBeBytes)
  let record := valueRecord key value expiryMs
  let segSize := world.disk.segmentSize db.activeSegment
  let (db, world) :=
    if db.maxSegmentBytes.toNat < segSize + record.sizeOnDisk then
      db.rollActive clock world
    else
      (db, world)
  let offset := world.disk.segmentSize db.activeSegment
  let world := world.perform (.segmentAppend db.activeSegment record.toBeBytes)
  let (replaced, index) :=
    db.index.set key offset db.activeSegment record.sizeOnDisk expiryMs
  ((record.sizeOnDisk, replaced.map IndexEntry.recordSize), { db with index }, world)

def fsync (db : KVEngine) (world : World) : KVEngine × World :=
  let counted := { db with writesSinceFsync := db.writesSinceFsync + 1 }
  match counted.fsyncStrategy with
  | .always =>
      ({ counted with writesSinceFsync := 0 },
        world.perform (.segmentSync counted.activeSegment))
  | .never => (counted, world)
  | .everyN count =>
      if count ≤ counted.writesSinceFsync then
        ({ counted with writesSinceFsync := 0 },
          world.perform (.segmentSync counted.activeSegment))
      else
        (counted, world)
  | .periodic _ => (counted, world)

/-- The counter updates and the fsync behind a successful value write. -/
def finishWrite (db : KVEngine) (world : World) (newSize : Nat) (replaced : Option Nat)
    : KVEngine × World :=
  let db := {
    db with
    deadBytes := db.deadBytes + replaced.getD 0
    totalBytes := db.totalBytes + newSize
  }
  db.fsync world

def setWithTtl (db : KVEngine) (world : World) (key value : String)
    (expiryMs : Option UInt64)
    : Except IoError (KVEngine × World) :=
  if maxKeySize < key.utf8ByteSize ∨ maxValueSize < value.utf8ByteSize then
    .error sizeError
  else
    let ((newSize, replaced), db, world) := db.kvAppend clock world key value expiryMs
    .ok (db.finishWrite world newSize replaced)

def set (db : KVEngine) (world : World) (key value : String)
    : Except IoError (KVEngine × World) :=
  db.setWithTtl clock world key value none

def msetWithTtl (db : KVEngine) (world : World)
    (items : List (String × String × Option UInt64))
    : Except IoError (KVEngine × World) :=
  items.foldlM
    (fun state item => state.1.setWithTtl clock state.2 item.1 item.2.1 item.2.2)
    (db, world)

def get (db : KVEngine) (world : World) (key : String) (nowMs : UInt64)
    : Except IoError (Option (String × String)) := do
  match ← kvLookup db.index world.disk db.activeSegment key nowMs with
  | some value => return some (key, value)
  | none => return none

/-- Every key comes with the clock reading its `get` makes. -/
def mget (db : KVEngine) (world : World) (keys : List (String × UInt64))
    : Except IoError (List (String × Option String)) :=
  keys.mapM fun item => do
    match ← db.get world item.1 item.2 with
    | some (key, value) => return (key, some value)
    | none => return (item.1, none)

def exists? (db : KVEngine) (key : String) (nowMs : UInt64) : Bool :=
  match db.index.get key with
  | some entry => !entry.expiryMs.any (isExpired · nowMs)
  | none => false

def listKeys (order : IterOrder) (db : KVEngine) (nowMs : UInt64) : List String :=
  (order.order db.index.keys).filter fun key =>
    !(db.index.get key).any (fun entry => entry.expiryMs.any (isExpired · nowMs))

def ttl (db : KVEngine) (world : World) (key : String) (expiryMs : Option UInt64)
    (nowMs : UInt64)
    : Except IoError (TtlOutcome × KVEngine × World) := do
  match ← kvLookup db.index world.disk db.activeSegment key nowMs with
  | none => return (.notFound, db, world)
  | some value =>
      let ((newSize, replaced), db, world) := db.kvAppend clock world key value expiryMs
      let (db, world) := db.finishWrite world newSize replaced
      return (if expiryMs.isSome then .set else .persisted, db, world)

-----------------------------------------------------------------------------------------
-- Delete: separate lock sections
-----------------------------------------------------------------------------------------

def deleteWal (world : World) (key : String) : World :=
  world.perform (.walAppend (Wal.record key "" true none).toBeBytes)

def deleteIndex (db : KVEngine) (key : String) : Option IndexEntry × KVEngine :=
  let (old, index) := db.index.delete key
  (old, { db with index })

/-- The tombstone goes to whichever segment is active by now, and never rolls it. -/
def deleteRecord (db : KVEngine) (world : World) (key : String) : World :=
  world.perform (.segmentAppend db.activeSegment (tombstoneRecord key).toBeBytes)

def finishDelete (db : KVEngine) (world : World) (key : String) (old : IndexEntry)
    : KVEngine × World :=
  let (db, world) := db.fsync world
  ({
      db with
      deadBytes := db.deadBytes + (old.recordSize + (tombstoneRecord key).sizeOnDisk)
      totalBytes := db.totalBytes + (tombstoneRecord key).sizeOnDisk
    },
    world)

def deleteSegment (db : KVEngine) (world : World) (key : String) (old : IndexEntry)
    : KVEngine × World :=
  db.finishDelete (db.deleteRecord world key) key old

/-- The Boolean is the source's `Some(())`: the key was in the index. -/
def delete (db : KVEngine) (world : World) (key : String)
    : Except IoError (Bool × KVEngine × World) :=
  if maxKeySize < key.utf8ByteSize then
    .error sizeError
  else
    let world := deleteWal world key
    let (old, db) := db.deleteIndex key
    match old with
    | some entry => .ok (true, db.deleteSegment world key entry)
    | none => .ok (false, db, world)

-----------------------------------------------------------------------------------------
-- Compaction, in the steps other threads can interleave with
-----------------------------------------------------------------------------------------

/-- The keys to copy: those of the index, in iteration order, that are not expired. -/
def snapshotKeys (order : IterOrder) (db : KVEngine) (nowMs : UInt64)
    : List (String × Option UInt64) :=
  (order.order db.index.keys).filterMap fun key =>
    match db.index.get key with
    | some entry =>
        if entry.expiryMs.any (isExpired · nowMs) then none else some (key, entry.expiryMs)
    | none => none

/-- Copies the current value of a key, under the expiry noted in the snapshot. -/
def copyKey (db newDb : KVEngine) (world : World) (item : String × Option UInt64)
    (nowMs : UInt64)
    : Except IoError (KVEngine × World) := do
  match ← db.get world item.1 nowMs with
  | none => return (newDb, world)
  | some (_, value) => newDb.setWithTtl clock world item.1 value item.2

def hintEntries (order : IterOrder) (newDb : KVEngine) (segment : Nat) : List HintEntry :=
  (order.order newDb.index.keys).filterMap fun key =>
    match newDb.index.get key with
    | some entry =>
        if entry.segmentTimestamp = segment then
          some {
            keySize := UInt64.ofNat key.utf8ByteSize
            offset := UInt64.ofNat entry.offset
            tombstone := false
            expiryMs := entry.expiryMs
            key
          }
        else
          none
    | none => none

/-- `Hint::write_file`: create the file, then one write per entry. -/
def writeHint (world : World) (segment : Nat) (entries : List HintEntry) : World :=
  entries.foldl (fun world entry => world.perform (.hintAppend segment entry.toBeBytes))
    (world.perform (.hintCreate segment))

/-- A hint file for every segment that was not there when the compaction started. -/
def writeHints (order : IterOrder) (newDb : KVEngine) (oldSegments : List Nat)
    (world : World)
    : World :=
  (world.disk.getSegments.filter (· ∉ oldSegments)).foldl
    (fun world segment => writeHint world segment (hintEntries order newDb segment)) world

/-- The new engine is synced, then its segments get their hints. -/
def finishCompacted (order : IterOrder) (newDb : KVEngine) (oldSegments : List Nat)
    (world : World)
    : World :=
  writeHints order newDb oldSegments (world.perform (.segmentSync newDb.activeSegment))

/-- The swap under all four locks. The byte counters keep their old values. -/
def swapCompacted (db newDb : KVEngine) (world : World) : KVEngine × World :=
  ({
      db with
      index := newDb.index
      activeSegment := newDb.activeSegment
      writesSinceFsync := 0
      segmentCount := 1
    },
    world.perform .walTruncate)

def removeSegment (world : World) (segment : Nat) : Except IoError World := do
  let _ ← world.disk.openSegment segment
  return (world.perform (.segmentRemove segment)).perform (.hintRemove segment)

/-- `nowMs` is read before the snapshot and `copyMs key` when that key is copied. -/
def buildCompacted (order : IterOrder) (db : KVEngine) (world : World) (nowMs : UInt64)
    (copyMs : String → UInt64)
    : Except IoError (KVEngine × List Nat × World) := do
  let oldSegments := world.disk.getSegments
  let (newDb, world) := new clock db.maxSegmentBytes db.fsyncStrategy world
  let (newDb, world) ←
    (snapshotKeys order db nowMs).foldlM
      (fun state item => copyKey clock db state.1 state.2 item (copyMs item.1))
      (newDb, world)
  return (newDb, oldSegments, finishCompacted order newDb oldSegments world)

def compact (order : IterOrder) (db : KVEngine) (world : World) (nowMs : UInt64)
    (copyMs : String → UInt64)
    : Except IoError (KVEngine × World) := do
  let (newDb, oldSegments, world) ← buildCompacted clock order db world nowMs copyMs
  let (db, world) := db.swapCompacted newDb world
  let world ← oldSegments.foldlM removeSegment world
  return (db, world)

-----------------------------------------------------------------------------------------
-- Reopening a directory
-----------------------------------------------------------------------------------------

def loadHint (segment : Nat) (index : HashIndex) (entry : HintEntry) : HashIndex :=
  if entry.tombstone then index
  else (index.set entry.key entry.offset.toNat segment 0 entry.expiryMs).2

/-- A readable hint file stands for its segment; otherwise the segment is scanned. -/
def loadSegment (disk : Disk) (index : HashIndex) (segment : Nat)
    : Except IoError HashIndex := do
  let file ← disk.openSegment segment
  match Hint.readFile disk.hints[segment]? with
  | .ok hints => return hints.foldl (loadHint segment) index
  | .error _ => index.mergeFromFile file segment

structure Recovery where
  index : HashIndex
  size : Nat
  world : World

/-- Re-appends one replayed WAL entry to the last segment. -/
def replayEntry (segment : Nat) (state : Recovery) (item : String × MemtableEntry)
    : Recovery :=
  match item.2.value with
  | some value =>
      let record := valueRecord item.1 value item.2.expiryMs
      let offset := state.world.disk.segmentSize segment
      {
        index :=
          (state.index.set item.1 offset segment record.sizeOnDisk item.2.expiryMs).2
        size := state.size + record.sizeOnDisk
        world := state.world.perform (.segmentAppend segment record.toBeBytes)
      }
  | none =>
      let record := tombstoneRecord item.1
      {
        index := (state.index.delete item.1).2
        size := state.size + record.sizeOnDisk
        world := state.world.perform (.segmentAppend segment record.toBeBytes)
      }

/-- Returns no engine when the directory holds no segment of the database. -/
def fromDir (maxSegmentBytes : UInt64) (fsyncStrategy : FSyncStrategy) (world : World)
    : Except IoError (Option KVEngine × World) :=
  match world.disk.getSegments.getLast? with
  | none => .ok (none, world)
  | some segment => do
      let segments := world.disk.getSegments
      let index ← segments.foldlM (loadSegment world.disk) HashIndex.new
      let size := (segments.map world.disk.segmentSize).sum
      let memtable ← Wal.replay world.disk.wal
      let recovered := memtable.entries.toList.foldl (replayEntry segment)
        { index, size, world }
      return (
        some {
          index := recovered.index
          activeSegment := segment
          maxSegmentBytes
          writesSinceFsync := 0
          fsyncStrategy
          deadBytes := 0
          totalBytes := recovered.size
          segmentCount := segments.length
        },
        recovered.world.perform .walTruncate)

end KVEngine

end Rustikv.Kv

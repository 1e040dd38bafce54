import Rustikv.Format.Hint
import Rustikv.Kv.HashIndex

/-! The files of one hash-engine database and the operations the engine performs on them.
Segment and hint files are named by their segment's timestamp.
-/

namespace Rustikv.Kv

open Library

structure Disk where
  segments : SortedMap Nat Bytes
  hints : SortedMap Nat Bytes
  wal : Bytes

/-- One file-system call. A crash leaves the disk between two of them. -/
inductive FileOp
  | walAppend (bytes : Bytes)
  | walTruncate
  | segmentCreate (timestamp : Nat)
  | segmentAppend (timestamp : Nat) (bytes : Bytes)
  | segmentSync (timestamp : Nat)
  | segmentRemove (timestamp : Nat)
  | hintCreate (timestamp : Nat)
  | hintAppend (timestamp : Nat) (bytes : Bytes)
  | hintRemove (timestamp : Nat)
  deriving DecidableEq, Repr

/-- Appending through the handle of an unlinked file leaves the directory unchanged. -/
def appendTo (files : SortedMap Nat Bytes) (timestamp : Nat) (bytes : Bytes)
    : SortedMap Nat Bytes :=
  match files[timestamp]? with
  | some old => files.insert timestamp (old ++ bytes)
  | none => files

namespace Disk

def empty : Disk :=
  { segments := ∅, hints := ∅, wal := [] }

/-- Segments are opened with `create` and without `truncate`, hints with both. -/
def apply (disk : Disk) : FileOp → Disk
  | .walAppend bytes => { disk with wal := disk.wal ++ bytes }
  | .walTruncate => { disk with wal := [] }
  | .segmentCreate timestamp =>
      if timestamp ∈ disk.segments then disk
      else { disk with segments := disk.segments.insert timestamp [] }
  | .segmentAppend timestamp bytes =>
      { disk with segments := appendTo disk.segments timestamp bytes }
  | .segmentSync _ => disk
  | .segmentRemove timestamp => { disk with segments := disk.segments.erase timestamp }
  | .hintCreate timestamp => { disk with hints := disk.hints.insert timestamp [] }
  | .hintAppend timestamp bytes =>
      { disk with hints := appendTo disk.hints timestamp bytes }
  | .hintRemove timestamp => { disk with hints := disk.hints.erase timestamp }

/-- `get_segments`: the timestamps of the database's segments in ascending order. -/
def getSegments (disk : Disk) : List Nat :=
  disk.segments.keys

def segmentSize (disk : Disk) (timestamp : Nat) : Nat :=
  (disk.segments[timestamp]?.map List.length).getD 0

def openSegment (disk : Disk) (timestamp : Nat) : Except IoError Bytes :=
  match disk.segments[timestamp]? with
  | some file => .ok file
  | none => .error { kind := .notFound, message := "No such file or directory" }

theorem mem_getSegments (disk : Disk) {timestamp : Nat}
    : timestamp ∈ disk.getSegments ↔ timestamp ∈ disk.segments := by
  rw [getSegments, SortedMap.mem_keys, SortedMap.mem_iff]

theorem nodup_getSegments (disk : Disk) : disk.getSegments.Nodup :=
  (SortedMap.sorted_keys disk.segments).imp (fun before => before.ne)

theorem hints_segmentCreate (disk : Disk) (timestamp : Nat)
    : (disk.apply (.segmentCreate timestamp)).hints = disk.hints := by
  simp only [apply]
  split <;> rfl

end Disk

/-- The disk, the calls made so far, and how often `Segment::new` has read the clock. -/
structure World where
  disk : Disk
  trace : List FileOp
  ticks : Nat

namespace World

def initial : World :=
  { disk := .empty, trace := [], ticks := 0 }

def perform (world : World) (operation : FileOp) : World :=
  {
    world with
    disk := world.disk.apply operation
    trace := world.trace ++ [operation]
  }

/-- `Segment::new`: the next reading of the millisecond clock. -/
def newSegment (clock : Nat → Nat) (world : World) : Nat × World :=
  (clock world.ticks, { world with ticks := world.ticks + 1 })

@[simp]
theorem disk_perform (world : World) (operation : FileOp)
    : (world.perform operation).disk = world.disk.apply operation := rfl

@[simp]
theorem ticks_perform (world : World) (operation : FileOp)
    : (world.perform operation).ticks = world.ticks := rfl

@[simp]
theorem trace_perform (world : World) (operation : FileOp)
    : (world.perform operation).trace = world.trace ++ [operation] := rfl

end World

end Rustikv.Kv

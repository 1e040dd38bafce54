import Rustikv.Kv.Engine

/-! The abstract map a hash engine stands for, and how its index and disk represent it. -/

namespace Rustikv.Kv

open Library

-----------------------------------------------------------------------------------------
-- Maps from keys to values with an optional expiry
-----------------------------------------------------------------------------------------

structure Item where
  value : String
  expiryMs : Option UInt64
  deriving DecidableEq, Repr

/-- An expired item reads as absent. -/
def Item.read (item : Item) (nowMs : UInt64) : Option String :=
  if item.expiryMs.any (isExpired · nowMs) then none else some item.value

abbrev Contents := String → Option Item

namespace Contents

def empty : Contents := fun _ => none

def read (contents : Contents) (key : String) (nowMs : UInt64) : Option String :=
  (contents key).bind (fun item => item.read nowMs)

def set (contents : Contents) (key value : String) (expiryMs : Option UInt64) : Contents :=
  Function.update contents key (some { value, expiryMs })

def delete (contents : Contents) (key : String) : Contents :=
  Function.update contents key none

@[simp]
theorem set_apply (contents : Contents) (key value other : String)
    (expiryMs : Option UInt64)
    : contents.set key value expiryMs other
      = if key = other then some { value, expiryMs } else contents other := by
  simp [set, Function.update_apply, eq_comm]

@[simp]
theorem delete_apply (contents : Contents) (key other : String)
    : contents.delete key other = if key = other then none else contents other := by
  simp [delete, Function.update_apply, eq_comm]

end Contents

theorem Item.read_eq_none {item : Item} {nowMs : UInt64}
    : item.read nowMs = none ↔ ∃ ms, item.expiryMs = some ms ∧ isExpired ms nowMs = true := by
  simp [Item.read, Option.any_eq_true]

theorem Item.read_mono {item : Item} {earlier later : UInt64} (order : earlier ≤ later)
    (absent : item.read earlier = none)
    : item.read later = none := by
  obtain ⟨ms, found, expired⟩ := Item.read_eq_none.mp absent
  exact Item.read_eq_none.mpr ⟨ms, found, isExpired_mono order expired⟩

-----------------------------------------------------------------------------------------
-- Index entries point at intact records
-----------------------------------------------------------------------------------------

/-- The segment file holds the record's encoding at the offset. -/
def HoldsAt (disk : Disk) (segment offset : Nat) (record : Record) : Prop :=
  ∃ file rest,
    disk.segments[segment]? = some file ∧ file.drop offset = record.toBeBytes ++ rest

/-- The index and the disk together hold exactly the items of `contents`. -/
structure Represents (index : HashIndex) (disk : Disk) (contents : Contents) : Prop where
  absent : ∀ key, index.get key = none → contents key = none
  present
    : ∀ key entry,
        index.get key = some entry
        → ∃ value,
            contents key = some { value, expiryMs := entry.expiryMs }
            ∧ Record.Fits key value
            ∧ HoldsAt disk entry.segmentTimestamp entry.offset
                (KVEngine.valueRecord key value entry.expiryMs)

theorem valueRecord_eq (key value : String) (expiryMs : Option UInt64)
    : KVEngine.valueRecord key value expiryMs = Wal.record key value false expiryMs := by
  cases expiryMs <;> simp [KVEngine.valueRecord, Wal.record, Record.flagsOf]

theorem tombstoneRecord_eq (key : String)
    : KVEngine.tombstoneRecord key = Wal.record key "" true none := by
  rfl

theorem wellFormed_valueRecord {key value : String} (fits : Record.Fits key value)
    (expiryMs : Option UInt64)
    : (KVEngine.valueRecord key value expiryMs).WellFormed := by
  rw [valueRecord_eq]
  exact Record.wellFormed_make fits false expiryMs

/-- A record held at an offset is what reading from there returns. -/
theorem HoldsAt.readNext {disk : Disk} {segment offset : Nat} {record : Record}
    (held : HoldsAt disk segment offset record) (formed : record.WellFormed)
    : ∃ file rest,
        disk.openSegment segment = .ok file
        ∧ Record.readNext (file.drop offset) = .ok (record.sealed, rest) := by
  obtain ⟨file, rest, found, starts⟩ := held
  refine ⟨file, rest, by simp [Disk.openSegment, found], ?_⟩
  rw [starts, Record.readNext_toBeBytes formed]

theorem HoldsAt.appendTo {disk : Disk} {segment offset : Nat} {record : Record}
    (held : HoldsAt disk segment offset record) (target : Nat) (bytes : Bytes)
    : HoldsAt { disk with segments := Kv.appendTo disk.segments target bytes } segment
        offset record := by
  obtain ⟨file, rest, found, starts⟩ := held
  unfold Kv.appendTo
  cases present : disk.segments[target]? with
  | none => exact ⟨file, rest, found, starts⟩
  | some old =>
      by_cases same : target = segment
      · subst same
        obtain rfl : old = file := Option.some.inj (present.symm.trans found)
        have inside : offset ≤ old.length := by
          by_contra beyond
          rw [List.drop_eq_nil_of_le (by omega)] at starts
          exact Record.toBeBytes_ne_nil record (List.append_eq_nil_iff.mp starts.symm).1
        refine ⟨old ++ bytes, rest ++ bytes, by simp, ?_⟩
        rw [List.drop_append_of_le_length inside, starts, List.append_assoc]
      · exact ⟨file, rest, by simp [same, found], starts⟩

/-- Only removing its segment takes a record away. -/
theorem HoldsAt.apply {disk : Disk} {segment offset : Nat} {record : Record}
    (held : HoldsAt disk segment offset record) {operation : FileOp}
    (kept : operation ≠ .segmentRemove segment)
    : HoldsAt (disk.apply operation) segment offset record := by
  cases operation with
  | segmentCreate timestamp =>
      simp only [Disk.apply]
      split
      · exact held
      · rename_i missing
        obtain ⟨file, rest, found, starts⟩ := held
        have other : timestamp ≠ segment := by
          rintro rfl
          exact missing ((disk.segments.mem_iff timestamp).mpr ⟨file, found⟩)
        exact ⟨file, rest, by simp [other, found], starts⟩
  | segmentAppend timestamp bytes => exact held.appendTo timestamp bytes
  | segmentRemove timestamp =>
      have other : timestamp ≠ segment := fun same => kept (congrArg _ same)
      obtain ⟨file, rest, found, starts⟩ := held
      exact ⟨file, rest, by simp [Disk.apply, other, found], starts⟩
  | walAppend _ => exact held
  | walTruncate => exact held
  | segmentSync _ => exact held
  | hintCreate _ => exact held
  | hintAppend _ _ => exact held
  | hintRemove _ => exact held

theorem Represents.isSome_get {index : HashIndex} {disk : Disk} {contents : Contents}
    (represents : Represents index disk contents) (key : String)
    : (index.get key).isSome = (contents key).isSome := by
  cases found : index.get key with
  | none => simp [represents.absent key found]
  | some entry =>
      obtain ⟨value, holds, -, -⟩ := represents.present key entry found
      simp [holds]

theorem Represents.empty (disk : Disk) : Represents HashIndex.new disk Contents.empty where
  absent _ _ := rfl
  present key entry found := by simp at found

/-- An operation that removes no segment the index uses keeps the contents. -/
theorem Represents.apply {index : HashIndex} {disk : Disk} {contents : Contents}
    (represents : Represents index disk contents) (operation : FileOp)
    (kept
      : ∀ key entry,
          index.get key = some entry
          → operation ≠ .segmentRemove entry.segmentTimestamp)
    : Represents index (disk.apply operation) contents where
  absent := represents.absent
  present key entry found := by
    obtain ⟨value, holds, fits, held⟩ := represents.present key entry found
    exact ⟨value, holds, fits, held.apply (kept key entry found)⟩

/-- What an index represents depends on the segment files only. -/
theorem Represents.of_segments {index : HashIndex} {disk other : Disk} {contents : Contents}
    (represents : Represents index disk contents) (same : other.segments = disk.segments)
    : Represents index other contents where
  absent := represents.absent
  present key entry found := by
    obtain ⟨value, holds, fits, file, rest, stored, starts⟩ :=
      represents.present key entry found
    exact ⟨value, holds, fits, file, rest, same ▸ stored, starts⟩

/-- A lookup through the index and the segment file reads the represented map. -/
theorem Represents.kvLookup {index : HashIndex} {disk : Disk} {contents : Contents}
    (represents : Represents index disk contents) (activeSegment : Nat) (key : String)
    (nowMs : UInt64)
    : kvLookup index disk activeSegment key nowMs = .ok (contents.read key nowMs) := by
  unfold Kv.kvLookup
  cases found : index.get key with
  | none => simp [Contents.read, represents.absent key found]
  | some entry =>
      obtain ⟨value, holds, fits, held⟩ := represents.present key entry found
      by_cases expired : entry.expiryMs.any (isExpired · nowMs) = true
      · simp [Contents.read, holds, Item.read, expired]
      · obtain ⟨file, rest, opened, read⟩ :=
          held.readNext (wellFormed_valueRecord fits entry.expiryMs)
        by_cases same : entry.segmentTimestamp = activeSegment
        · rw [← same]
          simp [expired, opened, read, Contents.read, holds, Item.read]
          rfl
        · simp [expired, same, opened, read, Contents.read, holds, Item.read]
          rfl

end Rustikv.Kv

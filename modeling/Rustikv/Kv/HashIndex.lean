import Rustikv.Format.Wal

/-! The in-memory index of the hash engine. -/

namespace Rustikv

open Library

structure IndexEntry where
  segmentTimestamp : Nat
  offset : Nat
  recordSize : Nat
  expiryMs : Option UInt64
  deriving DecidableEq, Repr

/-- The source uses a hash map. Its iteration order is unspecified; wherever that order
is observable the model takes it as an argument.
-/
structure HashIndex where
  hashmap : SortedMap String IndexEntry

namespace HashIndex

def new : HashIndex :=
  { hashmap := ∅ }

def get (index : HashIndex) (key : String) : Option IndexEntry :=
  index.hashmap[key]?

/-- Returns the replaced entry with the updated index. -/
def set (index : HashIndex) (key : String) (offset segmentTimestamp recordSize : Nat)
    (expiryMs : Option UInt64)
    : Option IndexEntry × HashIndex :=
  (index.get key,
    {
      hashmap := index.hashmap.insert key { segmentTimestamp, offset, recordSize, expiryMs }
    })

/-- Returns the removed entry with the updated index. -/
def delete (index : HashIndex) (key : String) : Option IndexEntry × HashIndex :=
  (index.get key, { hashmap := index.hashmap.erase key })

def keys (index : HashIndex) : List String :=
  index.hashmap.keys

def mergeRecord (segmentTimestamp : Nat) (index : HashIndex) (offset : Nat)
    (record : Record)
    : HashIndex :=
  if record.header.isTombstone then
    (index.delete record.key).2
  else
    (index.set record.key offset segmentTimestamp 0 record.header.expiryMs).2

/-- Replays a segment's records onto the index; any unreadable record is an error. -/
def mergeFromFile (index : HashIndex) (file : Bytes) (segmentTimestamp : Nat)
    : Except IoError HashIndex :=
  scanFrom Record.readNext (fun _ => false) (mergeRecord segmentTimestamp) file.length 0
    file index

@[simp]
theorem get_new (key : String) : new.get key = none := by
  simp [new, get]

@[simp]
theorem get_set (index : HashIndex) (key other : String)
    (offset segmentTimestamp recordSize : Nat) (expiryMs : Option UInt64)
    : (index.set key offset segmentTimestamp recordSize expiryMs).2.get other
      = if key = other then some { segmentTimestamp, offset, recordSize, expiryMs }
        else index.get other := by
  simp [set, get]

@[simp]
theorem get_delete (index : HashIndex) (key other : String)
    : (index.delete key).2.get other = if key = other then none else index.get other := by
  simp [delete, get]

theorem mem_keys (index : HashIndex) (key : String)
    : key ∈ index.keys ↔ ∃ entry, index.get key = some entry :=
  index.hashmap.mem_keys key

theorem nodup_keys (index : HashIndex) : index.keys.Nodup :=
  (SortedMap.sorted_keys index.hashmap).imp (fun before => before.ne)

/-- What a scanned record makes of its key's index entry. -/
def scannedEntry (segmentTimestamp : Nat) (located : Nat × Record) : Option IndexEntry :=
  if located.2.header.isTombstone then
    none
  else
    some {
      segmentTimestamp
      offset := located.1
      recordSize := 0
      expiryMs := located.2.header.expiryMs
    }

theorem get_mergeRecord (segmentTimestamp : Nat) (index : HashIndex)
    (located : Nat × Record) (key : String)
    : (mergeRecord segmentTimestamp index located.1 located.2).get key
      = if located.2.key = key then scannedEntry segmentTimestamp located
        else index.get key := by
  unfold mergeRecord scannedEntry
  split <;> simp

/-- Scanning an intact segment overlays the last record of each key it holds. -/
theorem mergeFromFile_encodeAll (index : HashIndex) {records : List Record}
    (valid : ∀ record ∈ records, Record.codec.Valid record) (segmentTimestamp : Nat)
    : ∃ merged,
        index.mergeFromFile (Record.codec.encodeAll records) segmentTimestamp = .ok merged
        ∧ ∀ key,
            merged.get key
            = (latest (fun located => located.2.key) (Record.codec.locate 0 records)
                key).elim
                (index.get key) (scannedEntry segmentTimestamp) := by
  refine ⟨_,
    Record.codec.scanFrom_encodeAll (fun _ => false) (mergeRecord segmentTimestamp) valid 0
      (le_refl _) index, ?_⟩
  intro key
  exact lookup_foldl_latest (fun located : Nat × Record => located.2.key) get _
    (scannedEntry segmentTimestamp)
    (fun state item k => get_mergeRecord segmentTimestamp state item k) _ index key

end HashIndex

end Rustikv

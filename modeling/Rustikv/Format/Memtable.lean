import Rustikv.Format.Record
import Rustikv.Library.SortedMap

/-! The sorted in-memory table: the LSM write buffer, and what a WAL replay rebuilds. -/

namespace Rustikv

open Library

/-- `utils::is_expired`. -/
def isExpired (expiryMs nowMs : UInt64) : Bool :=
  expiryMs ≤ nowMs

theorem isExpired_mono {expiryMs earlier later : UInt64} (order : earlier ≤ later)
    (expired : isExpired expiryMs earlier = true)
    : isExpired expiryMs later = true := by
  simp only [isExpired, decide_eq_true_eq] at expired ⊢
  exact UInt64.le_trans expired order

/-- A value or, without one, a tombstone. -/
structure MemtableEntry where
  value : Option String
  expiryMs : Option UInt64
  deriving DecidableEq, Repr

/-- What a reader sees of an entry: nothing for a tombstone or an expired value. -/
def MemtableEntry.read (entry : MemtableEntry) (nowMs : UInt64) : Option String :=
  match entry.value, entry.expiryMs with
  | some value, some ms => if isExpired ms nowMs then none else some value
  | some value, none => some value
  | none, _ => none

structure Memtable where
  entries : SortedMap String MemtableEntry
  sizeBytes : Nat

namespace Memtable

def new : Memtable :=
  { entries := ∅, sizeBytes := 0 }

def entry (table : Memtable) (key : String) : Option MemtableEntry :=
  table.entries[key]?

def valueLen (entry : MemtableEntry) : Nat :=
  (entry.value.map String.utf8ByteSize).getD 0

def expiryLen (expiryMs : Option UInt64) : Nat :=
  if expiryMs.isSome then ttlLen else 0

def insert (table : Memtable) (key value : String) (expiryMs : Option UInt64) : Memtable :=
  let added := key.utf8ByteSize + value.utf8ByteSize + expiryLen expiryMs
  let sizeBytes :=
    match table.entry key with
    | some old => table.sizeBytes - valueLen old - expiryLen old.expiryMs
    | none => table.sizeBytes + key.utf8ByteSize
  {
    entries := table.entries.insert key { value := some value, expiryMs }
    sizeBytes := sizeBytes + (added - key.utf8ByteSize)
  }

/-- The old entry's expiry bytes stay counted, as in the source. -/
def remove (table : Memtable) (key : String) : Memtable :=
  let sizeBytes :=
    match table.entry key with
    | some old => table.sizeBytes - valueLen old
    | none => table.sizeBytes + key.utf8ByteSize
  {
    entries := table.entries.insert key { value := none, expiryMs := none }
    sizeBytes
  }

def dropTombstones (table : Memtable) : Memtable :=
  let entries := table.entries.filter (fun _ entry => entry.value.isSome)
  {
    entries
    sizeBytes :=
      (entries.toList.map
        (fun item =>
          item.1.utf8ByteSize + valueLen item.2 + expiryLen item.2.expiryMs)).sum
  }

@[simp]
theorem entry_new (key : String) : new.entry key = none := by
  simp [new, entry]

@[simp]
theorem entry_insert (table : Memtable) (key value other : String)
    (expiryMs : Option UInt64)
    : (table.insert key value expiryMs).entry other
      = if key = other then some { value := some value, expiryMs } else table.entry other := by
  simp [insert, entry]

@[simp]
theorem entry_remove (table : Memtable) (key other : String)
    : (table.remove key).entry other
      = if key = other then some { value := none, expiryMs := none }
        else table.entry other := by
  simp [remove, entry]

theorem entry_dropTombstones (table : Memtable) (key : String)
    : table.dropTombstones.entry key
      = (table.entry key).filter (fun entry => entry.value.isSome) := by
  simp only [dropTombstones, entry, Std.TreeMap.getElem?_filter]
  cases table.entries[key]? <;> simp [Option.filter_some]

end Memtable

/-- An entry that reads as absent at one time reads as absent from then on. -/
theorem MemtableEntry.read_mono {entry : MemtableEntry} {earlier later : UInt64}
    (order : earlier ≤ later) (absent : entry.read earlier = none)
    : entry.read later = none := by
  obtain ⟨value, expiry⟩ := entry
  cases value with
  | none => rfl
  | some value =>
      cases expiry with
      | none => simp [read] at absent
      | some ms =>
          simp only [read, ite_eq_left_iff, reduceCtorEq, imp_false, Bool.not_eq_true,
            Bool.not_eq_false] at absent ⊢
          exact isExpired_mono order absent

end Rustikv

import Rustikv.Format.Memtable

/-! The write-ahead log: a file of records replayed into a memtable. -/

namespace Rustikv

open Library

/-- What a record says about its key. -/
def Record.entry (record : Record) : MemtableEntry :=
  if record.header.isTombstone then
    { value := none, expiryMs := none }
  else
    { value := some record.value, expiryMs := record.header.expiryMs }

namespace Wal

/-- The record `Wal::append` writes. -/
def record (key value : String) (tombstone : Bool) (expiryMs : Option UInt64) : Record :=
  Record.make key value (Record.flagsOf tombstone expiryMs) expiryMs

/-- A torn or corrupt tail ends the replay; any other error is reported. -/
def endsReplay (error : IoError) : Bool :=
  error.kind == .unexpectedEof || error.kind == .invalidData

def replayRecord (memtable : Memtable) (_offset : Nat) (record : Record) : Memtable :=
  if record.header.isTombstone then
    memtable.remove record.key
  else
    memtable.insert record.key record.value record.header.expiryMs

def replay (file : Bytes) : Except IoError Memtable :=
  scanFrom Record.readNext endsReplay replayRecord file.length 0 file Memtable.new

@[simp]
theorem entry_replayRecord (memtable : Memtable) (offset : Nat) (record : Record)
    (key : String)
    : (replayRecord memtable offset record).entry key
      = if record.key = key then some record.entry else memtable.entry key := by
  unfold replayRecord Record.entry
  split <;> simp

/-- Replaying an intact log keeps, for each key, what its last record says. -/
theorem replay_encodeAll {records : List Record}
    (valid : ∀ record ∈ records, Record.codec.Valid record)
    : ∃ memtable,
        replay (Record.codec.encodeAll records) = .ok memtable
        ∧ ∀ key,
            memtable.entry key = (latest Record.key records key).map Record.entry := by
  refine ⟨_, Record.codec.scanFrom_encodeAll endsReplay replayRecord valid 0 (le_refl _) _, ?_⟩
  intro key
  have reads := lookup_foldl_latest (fun located : Nat × Record => located.2.key)
    Memtable.entry (fun memtable located => replayRecord memtable located.1 located.2)
    (fun located => some located.2.entry) (by simp)
    (Record.codec.locate 0 records) Memtable.new key
  have mapped := latest_map Record.key Prod.snd (Record.codec.locate 0 records) key
  rw [Record.codec.map_snd_locate] at mapped
  rw [reads, mapped]
  cases latest (fun located : Nat × Record => located.2.key)
    (Record.codec.locate 0 records) key <;> simp

end Wal

/-- A record literal speaks for its key as its flags say. -/
theorem Record.entry_sealed_make (key value : String) (tombstone : Bool)
    (expiryMs : Option UInt64)
    : (Record.make key value (Record.flagsOf tombstone expiryMs) expiryMs).sealed.entry
      = if tombstone then { value := none, expiryMs := none }
        else { value := some value, expiryMs } := by
  have flag := Record.isTombstone_flagsOf tombstone expiryMs
  simp only [Record.entry, RecordHeader.isTombstone, Record.sealed, Record.make, flag]

end Rustikv

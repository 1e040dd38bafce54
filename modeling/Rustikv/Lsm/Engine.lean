import Rustikv.Lsm.Strategy
import Rustikv.Storage

/-! The LSM engine: a write-ahead log, two memtables and a storage strategy. Every
definition is one lock section of the source or a call made of such sections. A call takes
the successive readings of `now_ms` it makes from `clock`, and those of the nanosecond clock
that names tables from `stamp`.
-/

namespace Rustikv.Lsm

open Library

/-- The walk over the tables that may hold the key; the first that does decides. -/
def lookupTables (key : String) (nowMs : UInt64)
    : List SSTable → Except IoError (Option String)
  | [] => .ok none
  | segment :: rest =>
      match segment.get key nowMs with
      | .error error => .error error
      | .ok (some value) => .ok value
      | .ok none => lookupTables key nowMs rest

/-- The memtables are read at the time the caller passes, a table at the time it is
searched.
-/
def lookup (active : Memtable) (immutable : Option Memtable) (strategy : StorageStrategy)
    (key : String) (nowMs tableMs : UInt64)
    : Except IoError (Option String) :=
  match active.entry key with
  | some entry => .ok (entry.read nowMs)
  | none =>
      match immutable.bind (fun memtable => memtable.entry key) with
      | some entry => .ok (entry.read nowMs)
      | none => lookupTables key tableMs (strategy.iterForKey key)

def applyWrite (wal : Bytes) (active : Memtable) (key : String) (value : Option String)
    (expiryMs : Option UInt64)
    : Bytes × Memtable :=
  match value with
  | some value =>
      (wal ++ (Wal.record key value false expiryMs).toBeBytes,
        active.insert key value expiryMs)
  | none => (wal ++ (Wal.record key "" true none).toBeBytes, active.remove key)

/-- One step of a scan: what an entry says about its key replaces what was found so far. -/
def overlay {ν : Type} (view : String → ν) (nowMs : UInt64) (found : SortedMap String ν)
    (key : String) (entry : MemtableEntry)
    : SortedMap String ν :=
  match entry.read nowMs with
  | some value => found.insert key (view value)
  | none => found.erase key

/-- `wal` holds the contents of the log file. -/
structure LsmEngine where
  active : Memtable
  immutable : Option Memtable
  wal : Bytes
  maxMemtableBytes : Nat
  strategy : StorageStrategy
  settings : BlockSettings

namespace LsmEngine

/-- The engine of an empty directory. -/
def new (maxMemtableBytes : Nat) (strategy : StorageStrategy) (settings : BlockSettings)
    : LsmEngine :=
  {
    active := Memtable.new
    immutable := none
    wal := []
    maxMemtableBytes
    strategy
    settings
  }

/-- The log is replayed and kept. -/
def fromDir (wal : Bytes) (maxMemtableBytes : Nat) (strategy : StorageStrategy)
    (settings : BlockSettings)
    : Except IoError LsmEngine := do
  let active ← Wal.replay wal
  return { active, immutable := none, wal, maxMemtableBytes, strategy, settings }

-----------------------------------------------------------------------------------------
-- Lock sections
-----------------------------------------------------------------------------------------

def write (engine : LsmEngine) (key : String) (value : Option String)
    (expiryMs : Option UInt64)
    : LsmEngine :=
  let (wal, active) := applyWrite engine.wal engine.active key value expiryMs
  { engine with wal, active }

/-- The size a write returns has reached the flush threshold. -/
def isFull (engine : LsmEngine) : Bool :=
  engine.maxMemtableBytes ≤ engine.active.sizeBytes

def find (engine : LsmEngine) (key : String) (nowMs tableMs : UInt64)
    : Except IoError (Option String) :=
  lookup engine.active engine.immutable engine.strategy key nowMs tableMs

/-- The swap of `flush_memtable_async`, with the truncation of the log. -/
def swap (engine : LsmEngine) : LsmEngine :=
  { engine with active := Memtable.new, immutable := some engine.active, wal := [] }

/-- Write a memtable to a new table file of level 0. -/
def flushTable (engine : LsmEngine) (memtable : Memtable) (timestamp : Nat)
    : Except IoError SSTable :=
  createTable engine.settings engine.strategy.paths { level := none, timestamp } memtable

/-- The first part of `compact`: under all four locks the active memtable becomes a table,
whatever the immutable slot holds.
-/
def install (engine : LsmEngine) (timestamp : Nat) : Except IoError LsmEngine := do
  let sstable ← engine.flushTable engine.active timestamp
  let strategy ← engine.strategy.addSstable sstable
  return { engine with active := Memtable.new, immutable := none, wal := [], strategy }

-----------------------------------------------------------------------------------------
-- Calls
-----------------------------------------------------------------------------------------

/-- The background thread of a flush runs to its end. -/
def finishFlush (engine : LsmEngine) (timestamp : Nat) : Except IoError LsmEngine :=
  match engine.immutable with
  | some memtable => do
      let sstable ← engine.flushTable memtable timestamp
      let strategy ← engine.strategy.addSstable sstable
      return { engine with strategy, immutable := none }
  | none => .ok engine

/-- A flush in flight is waited for before the memtables are swapped. -/
def flushMemtableAsync (engine : LsmEngine) (timestamp : Nat) : Except IoError LsmEngine := do
  let engine ← engine.finishFlush timestamp
  return engine.swap

def finishWrite (engine : LsmEngine) (timestamp : Nat) : Except IoError LsmEngine :=
  if engine.isFull then engine.flushMemtableAsync timestamp else .ok engine

def get (engine : LsmEngine) (key : String) (clock : Nat → UInt64)
    : Except IoError (Option (String × String)) := do
  let found ← engine.find key (clock 0) (clock 1)
  return found.map (fun value => (key, value))

def setWithTtl (engine : LsmEngine) (key value : String) (expiryMs : Option UInt64)
    (stamp : Nat → Nat)
    : Except IoError LsmEngine :=
  (engine.write key (some value) expiryMs).finishWrite (stamp 0)

def set (engine : LsmEngine) (key value : String) (stamp : Nat → Nat)
    : Except IoError LsmEngine :=
  engine.setWithTtl key value none stamp

/-- Every write takes its own readings of the nanosecond clock. -/
def msetWithTtl
    : LsmEngine → (Nat → Nat) → List (String × String × Option UInt64)
      → Except IoError LsmEngine
  | engine, _, [] => .ok engine
  | engine, stamp, (key, value, expiryMs) :: rest => do
      let engine ← engine.setWithTtl key value expiryMs stamp
      msetWithTtl engine (fun i => stamp (i + 1)) rest

/-- Every key comes with the clock readings its `get` makes. -/
def mget (engine : LsmEngine) (keys : List (String × (Nat → UInt64)))
    : Except IoError (List (String × Option String)) :=
  keys.mapM fun item => do
    match ← engine.get item.1 item.2 with
    | some (key, value) => return (key, some value)
    | none => return (item.1, none)

/-- A failed read counts as absent. -/
def exists? (engine : LsmEngine) (key : String) (clock : Nat → UInt64) : Bool :=
  match engine.get key clock with
  | .ok found => found.isSome
  | .error _ => false

def delete (engine : LsmEngine) (key : String) (clock : Nat → UInt64) (stamp : Nat → Nat)
    : Except IoError (Bool × LsmEngine) := do
  let found ← engine.get key clock
  let engine ← (engine.write key none none).finishWrite (stamp 0)
  return (found.isSome, engine)

def ttl (engine : LsmEngine) (key : String) (expiryMs : Option UInt64)
    (clock : Nat → UInt64) (stamp : Nat → Nat)
    : Except IoError (TtlOutcome × LsmEngine) := do
  match ← engine.find key (clock 0) (clock 1) with
  | none => return (.notFound, engine)
  | some value =>
      let engine ← (engine.write key (some value) expiryMs).finishWrite (stamp 0)
      return (if expiryMs.isSome then .set else .persisted, engine)

def compact (engine : LsmEngine) (clock : Nat → UInt64) (stamp : Nat → Nat)
    : Except IoError LsmEngine := do
  let engine ← engine.finishFlush (stamp 0)
  let engine ← engine.install (stamp 1)
  let strategy ← engine.strategy.compactAll clock (fun i => stamp (i + 2))
  return { engine with strategy }

def compactStep (engine : LsmEngine) (clock : Nat → UInt64) (stamp : Nat → Nat)
    : Except IoError (Bool × LsmEngine) := do
  let (ran, strategy) ← engine.strategy.compactIfNeeded (clock 0) (stamp 0)
  return (ran, { engine with strategy })

-----------------------------------------------------------------------------------------
-- Scans
-----------------------------------------------------------------------------------------

/-- The tables' records in the order the strategy lists the tables. -/
def scanTables {ν : Type} (view : String → ν) (nowMs : UInt64) (keep : String → Bool)
    (tables : List SSTable) (found : SortedMap String ν)
    : Except IoError (SortedMap String ν) :=
  tables.foldlM
    (fun found segment => do
      let records ← segment.iter.mapM id
      return (records.filter (fun record => keep record.key)).foldl
        (fun found record => overlay view nowMs found record.key record.entry) found)
    found

def scanMemtable {ν : Type} (view : String → ν) (nowMs : UInt64) (keep : String → Bool)
    (memtable : Memtable) (found : SortedMap String ν)
    : SortedMap String ν :=
  (memtable.entries.toList.filter (fun item => keep item.1)).foldl
    (fun found item => overlay view nowMs found item.1 item.2) found

/-- The three passes that `list_keys` and `range` make, each over its predecessor. -/
def scan {ν : Type} (engine : LsmEngine) (view : String → ν) (nowMs : UInt64)
    (keep : String → Bool) (tables : List SSTable)
    : Except IoError (SortedMap String ν) := do
  let found ← scanTables view nowMs keep tables ∅
  let found :=
    match engine.immutable with
    | some memtable => scanMemtable view nowMs keep memtable found
    | none => found
  return scanMemtable view nowMs keep engine.active found

def listKeys (engine : LsmEngine) (order : IterOrder) (nowMs : UInt64)
    : Except IoError (List String) := do
  let keys ← engine.scan (fun _ => ()) nowMs (fun _ => true) engine.strategy.iterAll
  return order.order keys.keys

def range (engine : LsmEngine) (start end_ : String) (nowMs : UInt64)
    : Except IoError (List (String × String)) :=
  if end_ < start then
    .ok []
  else do
    let found ←
      engine.scan id nowMs (fun key => start ≤ key && key ≤ end_)
        (engine.strategy.iterFilesForRange start end_)
    return found.toList

end LsmEngine

end Rustikv.Lsm

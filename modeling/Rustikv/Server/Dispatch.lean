import Rustikv.Kv.Refinement
import Rustikv.Server.MultiGet

/-! Requests carried out on a storage engine behind its trait. Every request gets one
response, which says what a map from keys to expiring values says.
-/

namespace Rustikv.Server

open Library Kv

-----------------------------------------------------------------------------------------
-- The storage trait
-----------------------------------------------------------------------------------------

/-- What a request finds out besides its operands: the time `dispatch` reads, the times that
the engine's i-th lookup reads, those at which a compaction copies its keys, the names of new
tables, the order of a listing, and the times that only the statistics keep.
-/
structure Readings where
  nowMs : UInt64
  clock : Nat → Nat → UInt64
  copyMs : String → UInt64
  stamp : Nat → Nat
  order : IterOrder
  lockMs : UInt64
  startMs : UInt64
  endMs : UInt64

/-- The trait of the storage engines. A call leaves an engine also where it fails. Only one of
the two engines can be downcast to the one that scans ranges.
-/
structure StorageEngine (σ : Type) where
  get : σ → String → (Nat → UInt64) → Except IoError (Option (String × String))
  setWithTtl : σ → String → String → Option UInt64 → (Nat → Nat) → Except IoError Unit × σ
  delete : σ → String → Readings → Except IoError Bool × σ
  ttl : σ → String → Option UInt64 → Readings → Except IoError TtlOutcome × σ
  listKeys : σ → Readings → Except IoError (List String)
  exists? : σ → String → (Nat → UInt64) → Bool
  compact : σ → Readings → Except IoError Unit × σ
  deadBytes : σ → UInt64
  totalBytes : σ → UInt64
  segmentCount : σ → Nat
  range : Option (σ → String → String → UInt64 → Except IoError (List (String × String)))

namespace StorageEngine

variable {σ : Type} (engine : StorageEngine σ)

/-- The loop that both engines have for `mget`. -/
def mget (state : σ) (keys : List String) (clock : Nat → Nat → UInt64)
    : Except IoError (List (String × Option String)) :=
  (keys.mapIdx (fun i key => (key, clock i))).mapM fun item => do
    match ← engine.get state item.1 item.2 with
    | some (key, value) => return (key, some value)
    | none => return (item.1, none)

/-- The loop that both engines have for `mset_with_ttl`. It ends at the first item that is
refused, and keeps those before it.
-/
def msetWithTtl : List (String × String × Option UInt64) → σ → (Nat → Nat)
    → Except IoError Unit × σ
  | [], state, _ => (.ok (), state)
  | (key, value, expiryMs) :: rest, state, stamp =>
      match engine.setWithTtl state key value expiryMs stamp with
      | (.ok _, next) => msetWithTtl rest next (fun i => stamp (i + 1))
      | (.error error, next) => (.error error, next)

end StorageEngine

-----------------------------------------------------------------------------------------
-- Statistics
-----------------------------------------------------------------------------------------

structure Stats where
  compacting : Bool
  compactionCount : UInt64
  lastCompactStartMs : UInt64
  lastCompactEndMs : UInt64
  writeBlockedAttempts : UInt64
  writeBlockedTotalMs : UInt64
  reads : UInt64
  writes : UInt64
  deletes : UInt64
  activeConnections : Int
  deriving DecidableEq, Repr

namespace Stats

def new : Stats :=
  {
    compacting := false
    compactionCount := 0
    lastCompactStartMs := 0
    lastCompactEndMs := 0
    writeBlockedAttempts := 0
    writeBlockedTotalMs := 0
    reads := 0
    writes := 0
    deletes := 0
    activeConnections := 0
  }

def snapshot (stats : Stats) : String :=
  "\n".intercalate [
    "compacting=" ++ toString stats.compacting,
    "compaction_count=" ++ toString stats.compactionCount,
    "last_compact_start_ms=" ++ toString stats.lastCompactStartMs,
    "last_compact_end_ms=" ++ toString stats.lastCompactEndMs,
    "write_blocked_attempts=" ++ toString stats.writeBlockedAttempts,
    "write_blocked_total_ms=" ++ toString stats.writeBlockedTotalMs,
    "reads=" ++ toString stats.reads,
    "writes=" ++ toString stats.writes,
    "deletes=" ++ toString stats.deletes,
    "active_connections=" ++ toString stats.activeConnections
  ]

/-- A write that arrives during a compaction is counted. -/
def attempt (stats : Stats) : Stats :=
  if stats.compacting then
    { stats with writeBlockedAttempts := stats.writeBlockedAttempts + 1 }
  else
    stats

def locked (stats : Stats) (lockMs : UInt64) : Stats :=
  { stats with writeBlockedTotalMs := stats.writeBlockedTotalMs + lockMs }

def addReads (stats : Stats) (count : Nat) : Stats :=
  { stats with reads := stats.reads + UInt64.ofNat count }

def addWrites (stats : Stats) (count : Nat) : Stats :=
  { stats with writes := stats.writes + UInt64.ofNat count }

end Stats

-----------------------------------------------------------------------------------------
-- Dispatch
-----------------------------------------------------------------------------------------

structure CompactionCfg where
  ratio : Float32
  maxSegment : Nat

/-- The engine and the statistics that all requests share, and the number of compaction
threads that were spawned and have not run yet.
-/
structure Process (σ : Type) where
  database : σ
  stats : Stats
  threads : Nat

abbrev Answer := ResponseStatus × List String

namespace Process

variable {σ : Type} (engine : StorageEngine σ) (cfg : CompactionCfg)

def new (database : σ) : Process σ :=
  { database, stats := Stats.new, threads := 0 }

/-- What follows a compare-exchange that won the flag. -/
def startCompaction (process : Process σ) (startMs : UInt64) : Process σ :=
  {
    process with
    stats := { process.stats with compacting := true, lastCompactStartMs := startMs }
    threads := process.threads + 1
  }

def shouldCompact (database : σ) : Bool :=
  (cfg.ratio > 0
    && 0 < engine.totalBytes database
    && (engine.deadBytes database).toFloat32 / (engine.totalBytes database).toFloat32
      > cfg.ratio)
  || (0 < cfg.maxSegment && cfg.maxSegment < engine.segmentCount database)

def maybeTriggerCompaction (process : Process σ) (startMs : UInt64) : Process σ :=
  if shouldCompact engine cfg process.database && !process.stats.compacting then
    process.startCompaction startMs
  else
    process

/-- A spawned thread runs `compact`. An error makes it panic, and the flag stays on. -/
def runCompaction (process : Process σ) (readings : Readings) : Process σ :=
  match engine.compact process.database readings with
  | (.ok _, database) =>
      {
        database
        stats := {
          process.stats with
          lastCompactEndMs := readings.endMs
          compacting := false
          compactionCount := process.stats.compactionCount + 1
        }
        threads := process.threads - 1
      }
  | (.error _, database) => { process with database, threads := process.threads - 1 }

end Process

/-- No expiry for zero seconds. -/
def expiryOf (nowMs : UInt64) (seconds : UInt32) : Option UInt64 :=
  if seconds = 0 then none else some (nowMs + seconds.toUInt64 * 1000)

/-- An item of `MSET` as the engine takes it. -/
def withExpiry (nowMs : UInt64) (item : String × String × Option UInt32)
    : String × String × Option UInt64 :=
  (item.1, item.2.1, item.2.2.bind (expiryOf nowMs))

def errorAnswer (error : IoError) : Answer :=
  (.error, [error.message])

section Dispatch

variable {σ : Type} (engine : StorageEngine σ) (cfg : CompactionCfg) (readings : Readings)

/-- The end of the arms for `WRITE` and `MSET`, of `count` items. -/
def finishWrite (process : Process σ) (count : Nat) (outcome : Except IoError Unit × σ)
    : Answer × Process σ :=
  let process := {
    process with
    database := outcome.2
    stats := process.stats.locked readings.lockMs
  }
  match outcome.1 with
  | .ok _ =>
      let process := { process with stats := process.stats.addWrites count }
      ((.ok, []), process.maybeTriggerCompaction engine cfg readings.startMs)
  | .error error => (errorAnswer error, process)

/-- The end of the arm for `DELETE`. -/
def finishDelete (process : Process σ) (outcome : Except IoError Bool × σ)
    : Answer × Process σ :=
  let process := { process with database := outcome.2 }
  match outcome.1 with
  | .ok true =>
      let stats := { process.stats with deletes := process.stats.deletes + 1 }
      let process := { process with stats }
      ((.ok, []), process.maybeTriggerCompaction engine cfg readings.startMs)
  | .ok false => ((.notFound, []), process)
  | .error error => (errorAnswer error, process)

/-- The end of the arm for `TTL`. -/
def finishTtl (process : Process σ) (outcome : Except IoError TtlOutcome × σ)
    : Answer × Process σ :=
  let process := { process with database := outcome.2 }
  match outcome.1 with
  | .ok .set => ((.ok, []), process)
  | .ok .persisted => ((.ok, []), process)
  | .ok .notFound => ((.notFound, []), process)
  | .error error => (errorAnswer error, process)

/-- The arms of `dispatch`, up to the frame that each of them encodes. -/
def answer (process : Process σ) (command : Command) : Answer × Process σ :=
  match command with
  | .write key value ttlSeconds =>
      let process := { process with stats := process.stats.attempt }
      let ttlMs := ttlSeconds.bind (expiryOf readings.nowMs)
      finishWrite engine cfg readings process 1
        (engine.setWithTtl process.database key value ttlMs readings.stamp)
  | .read key =>
      let process := { process with stats := process.stats.addReads 1 }
      match engine.get process.database key (readings.clock 0) with
      | .ok (some (_, value)) => ((.ok, [value]), process)
      | .ok none => ((.notFound, []), process)
      | .error error => (errorAnswer error, process)
  | .delete key =>
      finishDelete engine cfg readings process (engine.delete process.database key readings)
  | .compact =>
      if process.stats.compacting then
        ((.noop, []), process)
      else
        ((.ok, []), process.startCompaction readings.startMs)
  | .stats => ((.ok, [process.stats.snapshot]), process)
  | .invalid opCode => ((.error, ["Invalid op code: " ++ toString opCode]), process)
  | .list =>
      match engine.listKeys process.database readings with
      | .ok keys => ((.ok, keys), process)
      | .error error => (errorAnswer error, process)
  | .exists key =>
      if engine.exists? process.database key (readings.clock 0) then
        ((.ok, []), process)
      else
        ((.notFound, []), process)
  | .ping => ((.ok, ["PONG"]), process)
  | .mget keys =>
      match engine.mget process.database keys readings.clock with
      | .ok items =>
          ((.ok, items.flatMap (fun item => [item.1, item.2.getD nullValue])),
            { process with stats := process.stats.addReads items.length })
      | .error error => (errorAnswer error, process)
  | .mset items =>
      let process := { process with stats := process.stats.attempt }
      finishWrite engine cfg readings process items.length
        (engine.msetWithTtl (items.map (withExpiry readings.nowMs)) process.database
          readings.stamp)
  | .range start finish =>
      match engine.range with
      | some range =>
          match range process.database start finish (readings.clock 0 0) with
          | .ok results =>
              ((.ok, results.flatMap (fun result => [result.1, result.2])),
                { process with stats := process.stats.addReads results.length })
          | .error error => (errorAnswer error, process)
      | none => ((.error, ["RANGE not supported by KV engine"]), process)
  | .ttl key seconds =>
      let expiryMs := expiryOf readings.nowMs seconds
      finishTtl process (engine.ttl process.database key expiryMs readings)

def dispatch (process : Process σ) (command : Command) : Bytes × Process σ :=
  let (answer, process) := answer engine cfg readings process command
  (encodeFrame answer.1 answer.2, process)

end Dispatch

end Rustikv.Server

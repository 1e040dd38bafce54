import Mathlib.Data.Rat.Defs
import Mathlib.Algebra.Order.Field.Rat
import Rustikv.Library.Binary64
import Rustikv.Lsm.Table

/-! The two storage strategies: which tables exist, in which order they are read, and how
they are merged.
-/

namespace Rustikv.Lsm

open Library

-----------------------------------------------------------------------------------------
-- Merging and creating tables
-----------------------------------------------------------------------------------------

/-- A tombstone, or a value that has expired. -/
def isDead (record : Record) (nowMs : UInt64) : Bool :=
  record.header.isTombstone || record.header.expiryMs.any (isExpired · nowMs)

/-- One record of a merge: the first one seen of a key wins. A dead record either leaves a
tombstone or, with `dropDead`, nothing at all.
-/
def mergeRecord (dropDead : Bool) (nowMs : UInt64) (memtable : Memtable) (record : Record)
    : Memtable :=
  if (memtable.entry record.key).isSome then
    memtable
  else if isDead record nowMs then
    if dropDead then memtable else memtable.remove record.key
  else
    memtable.insert record.key record.value record.header.expiryMs

def mergeTables (dropDead : Bool) (nowMs : UInt64) (tables : List SSTable)
    (memtable : Memtable)
    : Except IoError Memtable :=
  tables.foldlM
    (fun memtable table => do
      let records ← table.iter.mapM id
      return records.foldl (mergeRecord dropDead nowMs) memtable)
    memtable

/-- `SSTable::from_memtable` where the files `existing` are in the directory:
`create_new(true)` refuses a name that is taken.
-/
def createTable (settings : BlockSettings) (existing : List TablePath) (path : TablePath)
    (memtable : Memtable)
    : Except IoError SSTable :=
  if path ∈ existing then
    .error { kind := .alreadyExists, message := "File exists (os error 17)" }
  else
    .ok (SSTable.fromMemtable settings path memtable)

/-- The table's key range meets `[start, end_]`. An empty table has no range. -/
def SSTable.overlaps (table : SSTable) (start end_ : String) : Bool :=
  match table.min, table.max with
  | some (min, _), some (max, _) => start ≤ max && min ≤ end_
  | _, _ => false

-----------------------------------------------------------------------------------------
-- Leveled
-----------------------------------------------------------------------------------------

structure Level where
  sstables : List SSTable
  levelNum : Nat
  maxBytes : Nat
  l0Threshold : Nat
  isTerminal : Bool
  deriving DecidableEq, Repr

namespace Level

def append (level : Level) (sst : SSTable) : Level :=
  { level with sstables := level.sstables ++ [sst] }

def totalBytes (level : Level) : Nat :=
  (level.sstables.map SSTable.sizeOnDisk).sum

def needsCompaction (level : Level) : Bool :=
  if level.levelNum == 0 then
    level.sstables.length == level.l0Threshold
  else
    level.maxBytes ≤ level.totalBytes

def overlappingFiles (level : Level) (minKey maxKey : String) : List SSTable :=
  level.sstables.filter (fun sst => sst.overlaps minKey maxKey)

def keyRange (level : Level) : Option (String × String) := do
  let min ← (level.sstables.filterMap (fun sst => sst.min.map Prod.fst)).min?
  let max ← (level.sstables.filterMap (fun sst => sst.max.map Prod.fst)).max?
  return (min, max)

/-- Newest first. -/
def iter (level : Level) : List SSTable :=
  level.sstables.reverse

def paths (level : Level) : List TablePath :=
  level.sstables.map SSTable.path

/-- The level's own files are removed before the merged one is created; `others` are the
files that remain.
-/
def squash (level : Level) (settings : BlockSettings) (others : List TablePath)
    (nowMs : UInt64) (timestamp : Nat)
    : Except IoError (Option SSTable × Level) :=
  if level.sstables.isEmpty then
    .ok (none, level)
  else do
    let memtable ← mergeTables level.isTerminal nowMs level.iter Memtable.new
    let sst ← createTable settings others { level := some level.levelNum, timestamp } memtable
    return (some sst, { level with sstables := [] })

end Level

structure Leveled where
  levels : List Level
  settings : BlockSettings

namespace Leveled

/-- `max_bytes` is computed in wrapping 64-bit arithmetic. -/
def new (numLevels l0Threshold l1MaxBytes : Nat) (settings : BlockSettings) : Leveled :=
  {
    levels :=
      (List.range numLevels).map (fun i => {
        sstables := []
        levelNum := i
        maxBytes := l1MaxBytes * 10 ^ (i - 1) % 2 ^ 64
        l0Threshold
        isTerminal := i == numLevels - 1
      })
    settings
  }

def iterAll (strategy : Leveled) : List SSTable :=
  strategy.levels.flatMap Level.iter

def paths (levels : List Level) : List TablePath :=
  levels.flatMap Level.paths

def addSstable (strategy : Leveled) (sst : SSTable) : Except IoError Leveled :=
  match strategy.levels with
  | l0 :: rest => .ok { strategy with levels := l0.append sst :: rest }
  | [] =>
      .error
        { kind := .other, message := "Leveled storage strategy levels not allocated" }

/-- The merge of `compact_levels`, once its two levels are at hand; `files` are all the
tables of the strategy.
-/
def mergeLevels (settings : BlockSettings) (files : List TablePath) (source target : Level)
    (nowMs : UInt64) (timestamp : Nat)
    : Except IoError (Level × Level) :=
  match source.keyRange with
  | some (start, end_) => do
      let overlap := target.overlappingFiles start end_
      let overlapPaths := overlap.map SSTable.path
      let memtable ← mergeTables target.isTerminal nowMs source.iter Memtable.new
      let memtable ← mergeTables target.isTerminal nowMs overlap memtable
      let sstable ←
        createTable settings files { level := some target.levelNum, timestamp } memtable
      let kept := target.sstables.filter (fun sst => !overlapPaths.contains sst.path)
      return (
        { source with sstables := [] },
        { target with sstables := kept }.append sstable)
  | none => .ok (source, target)

def compactLevels (strategy : Leveled) (sourceId targetId : Nat) (nowMs : UInt64)
    (timestamp : Nat)
    : Except IoError Leveled :=
  let count := strategy.levels.length
  if count ≤ sourceId ∨ count ≤ targetId then
    let last := count - 1
    .error {
      kind := .invalidInput
      message :=
        s!"level index out of bounds: source={sourceId}, target={targetId}, max={last}"
    }
  else if targetId ≤ sourceId then
    .error {
      kind := .invalidInput
      message :=
        s!"source level ({sourceId}) must be less than target level ({targetId})"
    }
  else
    let left := strategy.levels.take sourceId
    match strategy.levels.drop sourceId with
    | source :: right =>
        match right[targetId - sourceId - 1]? with
        | some target => do
            let (source, target) ←
              mergeLevels strategy.settings (paths strategy.levels) source target nowMs
                timestamp
            return {
              strategy with
              levels := left ++ source :: right.set (targetId - sourceId - 1) target
            }
        | none => .ok strategy
    | [] => .ok strategy

/-- The loop body of `compact_if_needed` and `compact_all`: the last level is squashed, any
other one is merged into the next.
-/
def compactLevel (strategy : Leveled) (i : Nat) (nowMs : UInt64) (timestamp : Nat)
    : Except IoError Leveled :=
  match strategy.levels[i]? with
  | some level =>
      if level.isTerminal then do
        let others := paths (strategy.levels.eraseIdx i)
        match ← level.squash strategy.settings others nowMs timestamp with
        | (some sst, level) =>
            return { strategy with levels := strategy.levels.set i (level.append sst) }
        | (none, _) => return strategy
      else
        strategy.compactLevels i (i + 1) nowMs timestamp
  | none => .ok strategy

def compactIfNeeded (strategy : Leveled) (nowMs : UInt64) (timestamp : Nat)
    : Except IoError (Bool × Leveled) :=
  match strategy.levels.findIdx? Level.needsCompaction with
  | some i => do return (true, ← strategy.compactLevel i nowMs timestamp)
  | none => .ok (false, strategy)

/-- Level `i` is compacted with the `i`-th readings of the two clocks. -/
def compactAll (strategy : Leveled) (clock : Nat → UInt64) (stamp : Nat → Nat)
    : Except IoError Leveled :=
  (List.range strategy.levels.length).foldlM
    (fun strategy i => strategy.compactLevel i (clock i) (stamp i)) strategy

end Leveled

-----------------------------------------------------------------------------------------
-- Size-tiered
-----------------------------------------------------------------------------------------

def minTierCoefficient : ℚ := 1 / 2
def maxTierCoefficient : ℚ := 3 / 2

/-- The buckets hold their tables oldest first. The sizes are compared in `f64`: `round` is
what an operation does to its exact result.
-/
structure SizeTiered where
  sstables : List (List SSTable)
  minThreshold : Nat
  maxThreshold : Nat
  settings : BlockSettings
  round : ℚ → ℚ

namespace SizeTiered

def new (minThreshold maxThreshold : Nat) (settings : BlockSettings) : SizeTiered :=
  { sstables := [], minThreshold, maxThreshold, settings, round := roundBinary64 }

/-- How far the new size is from a bucket's average, when their ratio is accepted. Dividing
by a zero average gives a ratio that is refused, as the infinite one of the source is.
-/
def ratioDiff (round : ℚ → ℚ) (newSize : Nat) (bucket : List SSTable) : Option ℚ :=
  let newSize := round newSize
  let total := round (bucket.map SSTable.sizeOnDisk).sum
  let avg := if bucket.isEmpty then 0 else round (total / round bucket.length)
  let ratio := if newSize ≠ 0 then round (newSize / avg) else 0
  if minTierCoefficient ≤ ratio ∧ ratio ≤ maxTierCoefficient then some |round (avg - newSize)|
  else none

/-- The loop over the buckets: `best_match_diff` and `target_idx` so far, and a bucket with
its position.
-/
def closestBucket (round : ℚ → ℚ) (newSize : Nat) (best : Option (Nat × ℚ))
    (item : List SSTable × Nat)
    : Option (Nat × ℚ) :=
  match ratioDiff round newSize item.1 with
  | some diff => if best.all (fun found => diff < found.2) then some (item.2, diff) else best
  | none => best

def targetIdx (round : ℚ → ℚ) (newSize : Nat) (buckets : List (List SSTable)) : Option Nat :=
  (buckets.zipIdx.foldl (closestBucket round newSize) none).map Prod.fst

def addSstable (strategy : SizeTiered) (sst : SSTable) : SizeTiered :=
  match targetIdx strategy.round sst.sizeOnDisk strategy.sstables with
  | some i => { strategy with sstables := strategy.sstables.modify i (· ++ [sst]) }
  | none => { strategy with sstables := strategy.sstables ++ [[sst]] }

/-- The last table of the last bucket first. -/
def iterAll (strategy : SizeTiered) : List SSTable :=
  strategy.sstables.flatten.reverse

/-- The bucket is merged in the order it is stored in. -/
def compactIfNeeded (strategy : SizeTiered) (nowMs : UInt64) (timestamp : Nat)
    : Except IoError (Bool × SizeTiered) :=
  let full (bucket : List SSTable) : Bool :=
    !(bucket.length < strategy.minThreshold && bucket.length < strategy.maxThreshold)
  match strategy.sstables.findIdx? full with
  | some i => do
      let bucket := strategy.sstables.getD i []
      let others := (strategy.sstables.eraseIdx i).flatten.map SSTable.path
      let memtable ← mergeTables false nowMs bucket Memtable.new
      let sst ← createTable strategy.settings others { level := none, timestamp } memtable
      return (true, { strategy with sstables := strategy.sstables.set i [sst] })
  | none => .ok (false, strategy)

def compactAll (strategy : SizeTiered) (nowMs : UInt64) (timestamp : Nat)
    : Except IoError SizeTiered := do
  let memtable ← mergeTables false nowMs strategy.iterAll Memtable.new
  let sst ←
    createTable strategy.settings [] { level := none, timestamp } memtable.dropTombstones
  return { strategy with sstables := [[sst]] }

end SizeTiered

-----------------------------------------------------------------------------------------
-- The strategy of an engine
-----------------------------------------------------------------------------------------

inductive StorageStrategy
  | leveled (strategy : Leveled)
  | sizeTiered (strategy : SizeTiered)

namespace StorageStrategy

def addSstable (sst : SSTable) : StorageStrategy → Except IoError StorageStrategy
  | .leveled strategy => do return .leveled (← strategy.addSstable sst)
  | .sizeTiered strategy => .ok (.sizeTiered (strategy.addSstable sst))

def compactIfNeeded (nowMs : UInt64) (timestamp : Nat)
    : StorageStrategy → Except IoError (Bool × StorageStrategy)
  | .leveled strategy => do
      let (ran, strategy) ← strategy.compactIfNeeded nowMs timestamp
      return (ran, .leveled strategy)
  | .sizeTiered strategy => do
      let (ran, strategy) ← strategy.compactIfNeeded nowMs timestamp
      return (ran, .sizeTiered strategy)

def compactAll (clock : Nat → UInt64) (stamp : Nat → Nat)
    : StorageStrategy → Except IoError StorageStrategy
  | .leveled strategy => do return .leveled (← strategy.compactAll clock stamp)
  | .sizeTiered strategy => do
      return .sizeTiered (← strategy.compactAll (clock 0) (stamp 0))

def iterAll : StorageStrategy → List SSTable
  | .leveled strategy => strategy.iterAll
  | .sizeTiered strategy => strategy.iterAll

def iterForKey (strategy : StorageStrategy) (key : String) : List SSTable :=
  strategy.iterAll.filter (fun sst => sst.bloom.mightContain key)

def iterFilesForRange (strategy : StorageStrategy) (start end_ : String) : List SSTable :=
  strategy.iterAll.filter (fun sst => sst.overlaps start end_)

def segmentCount (strategy : StorageStrategy) : Nat :=
  strategy.iterAll.length

/-- The files of the strategy's tables. -/
def paths (strategy : StorageStrategy) : List TablePath :=
  strategy.iterAll.map SSTable.path

end StorageStrategy

end Rustikv.Lsm

import Rustikv.Lsm.FileOperations
import Rustikv.Lsm.TieredRestart

/-! Failures while a size-tiered strategy compacts. Each input is removed as soon as it has
been read, before the merged table exists.
-/

namespace Rustikv.Lsm

open Library

-----------------------------------------------------------------------------------------
-- The operations of a compaction
-----------------------------------------------------------------------------------------

/-- The table of which this many blocks are written. -/
def FileOperation.unfinished (written : Nat) : FileOperation → Option SSTable
  | .create sst => (SSTable.rebuildIndex sst.path (sst.blocks.take written)).toOption
  | .remove _ => none

/-- The tables left after `count` operations, with the next one begun or not. -/
def interruptedTables (operations : List FileOperation) (count : Nat)
    (written : Option Nat) (tables : List SSTable)
    : List SSTable :=
  afterOperations (operations.take count) tables
  ++ (written.bind (fun blocks =>
      operations[count]?.bind (FileOperation.unfinished blocks))).toList

namespace SizeTiered

/-- Every input is removed once it has been read, then the output is created. -/
def mergeOperations (inputs : List SSTable) (output : Except IoError SSTable)
    : List FileOperation :=
  inputs.map (fun sst => .remove sst.path) ++ (output.toOption.map .create).toList

/-- The file operations of `compact_if_needed`. -/
def compactIfNeededOperations (strategy : SizeTiered) (nowMs : UInt64) (timestamp : Nat)
    : List FileOperation :=
  match strategy.sstables.findIdx? strategy.isFull with
  | some i =>
      let bucket := strategy.sstables.getD i []
      let others := (strategy.sstables.eraseIdx i).flatten.map SSTable.path
      mergeOperations bucket (do
        let memtable ← mergeTables false nowMs bucket Memtable.new
        createTable strategy.settings others { level := none, timestamp } memtable)
  | none => []

/-- The file operations of `compact_all`. -/
def compactAllOperations (strategy : SizeTiered) (nowMs : UInt64) (timestamp : Nat)
    : List FileOperation :=
  mergeOperations strategy.iterAll (do
    let memtable ← mergeTables false nowMs strategy.iterAll Memtable.new
    createTable strategy.settings [] { level := none, timestamp } memtable.dropTombstones)

def lookup (strategy : SizeTiered) (key : String) (nowMs : UInt64)
    : Except IoError (Option String) :=
  lookupTables key nowMs ((StorageStrategy.sizeTiered strategy).iterForKey key)

/-- Wherever the operations stop, loading the files gives back what every key reads as. -/
def FailureAtomic (strategy : SizeTiered) (dbName : String)
    (operations : List FileOperation) (nowMs : UInt64)
    : Prop :=
  ∀ count written directory,
    Lists dbName directory (interruptedTables operations count written strategy.iterAll)
    → ∃ next,
        loadFromDir dbName directory strategy.minThreshold strategy.maxThreshold
            strategy.settings
          = .ok next
        ∧ ∀ key laterMs,
            nowMs ≤ laterMs → next.lookup key laterMs = strategy.lookup key laterMs

variable {strategy next : SizeTiered} {minThreshold maxThreshold : Nat}
  {settings : BlockSettings} {aged : Bool} {dbName key : String} {nowMs : UInt64}
  {timestamp : Nat} {tables : List SSTable}

/-- A merge that is through has put its output beside the tables that it did not read. -/
theorem mem_after_mergeOperations {inputs : List SSTable} {output table : SSTable}
    : table ∈ afterOperations (mergeOperations inputs (.ok output)) tables
      ↔ table = output ∨ table ∈ tables ∧ table.path ∉ inputs.map SSTable.path := by
  have listed : mergeOperations inputs (.ok output)
      = (inputs.map SSTable.path).map .remove ++ [.create output] := by
    rw [mergeOperations, List.map_map]
    rfl
  rw [listed, afterOperations_append, afterOperations_cons, afterOperations_nil,
    FileOperation.apply, List.mem_append, mem_afterOperations_remove, List.mem_singleton,
    or_comm]

/-- After its last operation automatic compaction has left the tables of the compacted
strategy.
-/
theorem mem_after_compactIfNeededOperations
    (distinct : (strategy.sstables.flatten.map SSTable.path).Nodup) {ran : Bool}
    (done : strategy.compactIfNeeded nowMs timestamp = .ok (ran, next)) {table : SSTable}
    : table ∈ afterOperations (strategy.compactIfNeededOperations nowMs timestamp)
          strategy.iterAll
      ↔ table ∈ next.iterAll := by
  unfold SizeTiered.compactIfNeeded at done
  simp only at done
  split at done
  next i found =>
    have full : strategy.sstables.findIdx? strategy.isFull = some i := found
    obtain ⟨memtable, merged, rest⟩ := bind_eq_ok.mp done
    obtain ⟨sst, created, rest⟩ := bind_eq_ok.mp rest
    obtain ⟨rfl, rfl⟩ := Prod.mk.inj (Except.ok.inj rest)
    obtain ⟨inside, -⟩ := List.findIdx?_eq_some_iff_getElem.mp found
    obtain ⟨front, back, split, rfl⟩ := exists_split (List.getElem?_eq_getElem inside)
    generalize strategy.sstables[front.length] = bucket at split
    have chosen : strategy.sstables.getD front.length [] = bucket := by simp [split]
    rw [chosen] at merged
    simp only [compactIfNeededOperations, full, chosen, merged, ok_bind, created]
    have around : ∀ middle : List SSTable,
        (front ++ middle :: back).flatten.Perm (middle ++ (front ++ back).flatten) :=
      fun middle => List.perm_middle.flatten
    -- The tables of the other buckets have other paths than the merged ones.
    rw [split, ((around bucket).map _).nodup_iff, List.map_append, List.nodup_append]
      at distinct
    have apart : table ∈ (front ++ back).flatten → table.path ∉ bucket.map SSTable.path :=
      fun member clash => distinct.2.2 _ clash _ (List.mem_map_of_mem member) rfl
    have replaced : strategy.sstables.set front.length [sst] = front ++ [sst] :: back := by
      rw [split, List.set_append_right _ _ (le_refl _), Nat.sub_self, List.set_cons_zero]
    rw [mem_after_mergeOperations, iterAll, iterAll, List.mem_reverse, List.mem_reverse,
      replaced, split, (around bucket).mem_iff, (around [sst]).mem_iff, List.mem_append,
      List.mem_append, List.mem_singleton]
    constructor
    · rintro (output | ⟨merged | other, kept⟩)
      · exact .inl output
      · exact absurd (List.mem_map_of_mem merged) kept
      · exact .inr other
    · rintro (output | other)
      · exact .inl output
      · exact .inr ⟨.inr other, apart other⟩
  next absent =>
    have idle : strategy.sstables.findIdx? strategy.isFull = none := absent
    obtain ⟨-, rfl⟩ := Prod.mk.inj (Except.ok.inj done)
    rw [compactIfNeededOperations, idle, afterOperations_nil]

/-- After its last operation a full compaction has left its output alone. -/
theorem mem_after_compactAllOperations
    (done : strategy.compactAll nowMs timestamp = .ok next) {table : SSTable}
    : table ∈ afterOperations (strategy.compactAllOperations nowMs timestamp)
          strategy.iterAll
      ↔ table ∈ next.iterAll := by
  obtain ⟨memtable, merged, rest⟩ := bind_eq_ok.mp done
  obtain ⟨sst, created, rest⟩ := bind_eq_ok.mp rest
  obtain rfl := Except.ok.inj rest
  have read : ¬ (table ∈ strategy.iterAll
      ∧ table.path ∉ strategy.iterAll.map SSTable.path) := by
    rintro ⟨member, kept⟩
    exact kept (List.mem_map_of_mem member)
  simp only [compactAllOperations, merged, ok_bind, created]
  rw [mem_after_mergeOperations]
  simp only [iterAll, List.flatten_cons, List.flatten_nil, List.append_nil,
    List.reverse_singleton, List.mem_singleton]
  exact or_iff_left read

theorem lookup_eq (valid : ∀ table ∈ strategy.iterAll, table.Valid) (key : String)
    (nowMs : UInt64)
    : strategy.lookup key nowMs = .ok (readAt (strategy.version key) nowMs) :=
  lookupTables_filter valid key nowMs

/-- Tables that can be read and recognised are loaded, all of them. -/
theorem loadFromDir_perm {directory : List TableFile} (lists : Lists dbName directory tables)
    (known : ∀ table ∈ tables, table.path.recognised dbName = true)
    (valid : ∀ table ∈ tables, table.Valid) (minThreshold maxThreshold : Nat)
    (settings : BlockSettings)
    : ∃ next,
        loadFromDir dbName directory minThreshold maxThreshold settings = .ok next
        ∧ next.iterAll.Perm tables := by
  obtain ⟨sorted, perm, -, loaded⟩ := loadFromDir_eq lists
    (fun table member => valid table (List.mem_of_mem_filter member)) minThreshold
    maxThreshold settings
  rw [recognisedTables_eq known] at perm
  exact ⟨_, loaded, (iterAll_perm _).trans ((flatten_foldl_addSstable sorted _).trans perm)⟩

-----------------------------------------------------------------------------------------
-- What is lost
-----------------------------------------------------------------------------------------

/-- A value that only the inputs of a merge hold is lost if the merge stops before its output
exists.
-/
theorem Kept.not_failureAtomic (kept : strategy.Kept minThreshold maxThreshold settings aged)
    (safe : safeName dbName = true) {inputs : List SSTable}
    {output : Except IoError SSTable}
    (holders
      : ∀ table ∈ strategy.iterAll, (table.version key).isSome = true → table ∈ inputs)
    {laterMs : UInt64} (reached : nowMs ≤ laterMs)
    (live : readAt (strategy.version key) laterMs ≠ none)
    : ¬ strategy.FailureAtomic dbName (mergeOperations inputs output) nowMs := by
  intro atomic
  let left := interruptedTables (mergeOperations inputs output) inputs.length none
    strategy.iterAll
  have members : ∀ table ∈ left,
      table ∈ strategy.iterAll ∧ table.path ∉ inputs.map SSTable.path := by
    intro table member
    have done : left = afterOperations ((inputs.map SSTable.path).map .remove)
        strategy.iterAll := by
      simp only [left, interruptedTables, mergeOperations, Option.bind_none,
        Option.toList_none, List.append_nil]
      rw [List.take_left' (by simp), List.map_map]
      rfl
    rw [done] at member
    exact mem_afterOperations_remove.mp member
  have listed : Lists dbName (left.map (SSTable.file dbName)) left :=
    ⟨[], by simp, by simp⟩
  have valid : ∀ table ∈ left, table.Valid :=
    fun table member => kept.valid table (members table member).1
  obtain ⟨next, loaded, reads⟩ := atomic _ none _ listed
  obtain ⟨other, again, perm⟩ := loadFromDir_perm listed
    (fun table member => kept.known safe table (members table member).1) valid
    strategy.minThreshold strategy.maxThreshold strategy.settings
  obtain rfl := Except.ok.inj (loaded.symm.trans again)
  have gone : next.version key = none := by
    rw [version, versionIn_eq_none]
    intro table member
    by_contra held
    obtain ⟨inStrategy, removed⟩ := members table (perm.mem_iff.mp member)
    exact removed (List.mem_map_of_mem
      (holders table inStrategy (Option.isSome_iff_ne_none.mpr held)))
  have result := reads key laterMs reached
  rw [lookup_eq (fun table member => valid table (perm.mem_iff.mp member)),
    lookup_eq kept.valid, gone] at result
  exact live (Except.ok.inj result).symm

-----------------------------------------------------------------------------------------
-- What is safe
-----------------------------------------------------------------------------------------

/-- From this time on the table gives no value for any key. -/
def ReadsNothing (nowMs : UInt64) (table : SSTable) : Prop :=
  ∀ key laterMs, nowMs ≤ laterMs → readAt (table.version key) laterMs = none

theorem readsNothing_of_dead {table : SSTable}
    (dead : ∀ record ∈ table.records, isDead record nowMs = true)
    : ReadsNothing nowMs table := by
  intro key laterMs reached
  rw [SSTable.version]
  cases found : earliest Record.key table.records key with
  | none => rfl
  | some record =>
      obtain ⟨member, -⟩ := earliest_some Record.key found
      have gone := isDead_mono reached (dead record member)
      rwa [isDead_eq, Option.isNone_iff_eq_none] at gone

theorem version_of_readsNothing (nothing : ∀ table ∈ tables, ReadsNothing nowMs table)
    (key : String) {laterMs : UInt64} (reached : nowMs ≤ laterMs)
    : readAt (versionIn tables key) laterMs = none := by
  cases found : versionIn tables key with
  | none => rfl
  | some entry =>
      obtain ⟨table, member, held⟩ := List.exists_of_findSome?_eq_some found
      rw [← held]
      exact nothing table member key laterMs reached

/-- With nothing to do no file is touched. -/
theorem Kept.failureAtomic_idle
    (kept : strategy.Kept minThreshold maxThreshold settings aged)
    (safe : safeName dbName = true)
    (unchanged : aged = true ∨ ∀ key, strategy.SameVersions key)
    : strategy.FailureAtomic dbName [] nowMs := by
  intro count written directory lists
  have whole : interruptedTables [] count written strategy.iterAll = strategy.iterAll := by
    cases written <;> simp [interruptedTables]
  rw [whole] at lists
  obtain ⟨next, loaded, perm, same⟩ := kept.loadFromDir safe lists
  have parameters := kept.parameters
  simp only [SizeTiered.new, SizeTiered.mk.injEq, true_and] at parameters
  refine ⟨next, by rw [parameters.1, parameters.2.1, parameters.2.2.1]; exact loaded, ?_⟩
  intro key laterMs _
  have equal : next.version key = strategy.version key := by
    rcases unchanged with isAged | oneVersion
    · rw [same isAged]
    · exact (oneVersion key).perm perm
  rw [lookup_eq (fun table member => kept.valid table (perm.mem_iff.mp member)),
    lookup_eq kept.valid, equal]

/-- The tables at any point of a merge are old ones, or its output as far as it is written.
-/
theorem mem_interruptedTables {inputs : List SSTable} {output : Except IoError SSTable}
    {count : Nat} {written : Option Nat} {table : SSTable}
    (member
      : table ∈ interruptedTables (mergeOperations inputs output) count written tables)
    : table ∈ tables
      ∨ ∃ sst,
          output = .ok sst
          ∧ (table = sst
            ∨ ∃ blocks, SSTable.rebuildIndex sst.path (sst.blocks.take blocks) = .ok table) := by
  have creates : ∀ sst, .create sst ∈ mergeOperations inputs output → output = .ok sst := by
    intro sst listed
    rcases List.mem_append.mp listed with removes | last
    · obtain ⟨other, -, differs⟩ := List.mem_map.mp removes
      cases differs
    · rw [Option.mem_toList, Option.map_eq_some_iff] at last
      obtain ⟨other, created, same⟩ := last
      cases same
      exact toOption_eq_some.mp created
  rcases List.mem_append.mp member with done | begun
  · rcases mem_afterOperations done with old | created
    · exact .inl old
    · exact .inr ⟨table, creates table (List.mem_of_mem_take created), .inl rfl⟩
  · rw [Option.mem_toList, Option.bind_eq_some_iff] at begun
    obtain ⟨blocks, -, begun⟩ := begun
    obtain ⟨operation, found, partly⟩ := Option.bind_eq_some_iff.mp begun
    cases operation with
    | create sst =>
        exact .inr ⟨sst, creates sst (List.mem_of_getElem? found), .inr
          ⟨blocks, toOption_eq_some.mp partly⟩⟩
    | remove path => cases partly

/-- Tables that give no value can be merged and lost in any order. -/
theorem Kept.failureAtomic_dead
    (kept : strategy.Kept minThreshold maxThreshold settings aged)
    (safe : safeName dbName = true) (stamped : timestamp < uintBound)
    (nothing : ∀ table ∈ strategy.iterAll, ReadsNothing nowMs table)
    : strategy.FailureAtomic dbName (strategy.compactAllOperations nowMs timestamp) nowMs := by
  intro count written directory lists
  let path : TablePath := { level := none, timestamp }
  let memtable := ((strategy.iterAll.flatMap SSTable.records).foldl
    (mergeRecord false nowMs) Memtable.new).dropTombstones
  let output := SSTable.fromMemtable strategy.settings path memtable
  have created : (do
      let memtable ← mergeTables false nowMs strategy.iterAll Memtable.new
      createTable strategy.settings [] path memtable.dropTombstones) = .ok output := by
    rw [mergeTables_eq _ _ kept.valid, ok_bind]
    rfl
  have storable : StorableTable memtable := (storableTable_merge false nowMs
    (valid_flatMap_records kept.valid) storableTable_new).dropTombstones
  have outputReads : ReadsNothing nowMs output := by
    intro key laterMs reached
    have done : strategy.compactAll nowMs timestamp
        = .ok { strategy with sstables := [[output]] } := by
      rw [SizeTiered.compactAll, mergeTables_eq _ _ kept.valid, ok_bind]
      rfl
    have stands := (kept.sound.compactAll done).2 key
    rw [version_single] at stands
    rw [stands.read reached]
    exact version_of_readsNothing nothing key reached
  have each : ∀ table ∈ interruptedTables (strategy.compactAllOperations nowMs timestamp)
      count written strategy.iterAll,
      table.path.recognised dbName = true ∧ table.Valid ∧ ReadsNothing nowMs table := by
    intro table member
    have fits : path.recognised dbName = true :=
      TablePath.Bounded.recognised ⟨stamped, by simp [path]⟩ safe
    have named : output.path = path := SSTable.path_fromMemtable _ _ _
    rcases mem_interruptedTables member with old | ⟨sst, isOutput, rfl | ⟨blocks, rebuilt⟩⟩
    · exact ⟨kept.known safe table old, kept.valid table old, nothing table old⟩
    · obtain rfl := Except.ok.inj (created.symm.trans isOutput)
      exact ⟨by rw [named]; exact fits, SSTable.valid_fromMemtable _ _ storable, outputReads⟩
    · obtain rfl := Except.ok.inj (created.symm.trans isOutput)
      obtain ⟨partly, again, valid, samePath, -, versions⟩ :=
        SSTable.rebuildIndex_take strategy.settings path storable blocks
      rw [named] at rebuilt
      obtain rfl := Except.ok.inj (again.symm.trans rebuilt)
      refine ⟨by rw [samePath]; exact fits, valid, fun key laterMs reached => ?_⟩
      cases found : partly.version key with
      | none => rfl
      | some entry =>
          have whole := outputReads key laterMs reached
          rwa [SSTable.version_fromMemtable _ _ storable, versions key entry found] at whole
  obtain ⟨next, loaded, perm⟩ := loadFromDir_perm lists
    (fun table member => (each table member).1) (fun table member => (each table member).2.1)
    strategy.minThreshold strategy.maxThreshold strategy.settings
  refine ⟨next, loaded, fun key laterMs reached => ?_⟩
  rw [lookup_eq (fun table member => (each table (perm.mem_iff.mp member)).2.1),
    lookup_eq kept.valid]
  have before := version_of_readsNothing nothing key reached
  have after : readAt (versionIn next.iterAll key) laterMs = none :=
    version_of_readsNothing
      (fun table member => (each table (perm.mem_iff.mp member)).2.2) key reached
  rw [version, version, before, after]

-----------------------------------------------------------------------------------------
-- Failure atomicity
-----------------------------------------------------------------------------------------

/-- In every state a run reaches: automatic compaction is failure atomic if it finds no full
bucket and a restart changes nothing, and it is not if a value is held by the merged bucket
alone. A full compaction is failure atomic if all it reads is dead, and it is not if any key
has a value.
-/
theorem size_tiered_compaction_failure_atomic {dbName : String}
    (safe : safeName dbName = true)
    (reached : Reachable minThreshold maxThreshold settings aged strategy) (nowMs : UInt64)
    (stamped : timestamp < uintBound)
    : (strategy.sstables.findIdx? strategy.isFull = none
        → (aged = true ∨ ∀ key, strategy.SameVersions key)
        → strategy.FailureAtomic dbName (strategy.compactIfNeededOperations nowMs timestamp)
            nowMs)
      ∧ (∀ i key laterMs,
          strategy.sstables.findIdx? strategy.isFull = some i
          → (∀ table ∈ strategy.iterAll,
              (table.version key).isSome = true → table ∈ strategy.sstables.getD i [])
          → nowMs ≤ laterMs
          → readAt (strategy.version key) laterMs ≠ none
          → ¬ strategy.FailureAtomic dbName
              (strategy.compactIfNeededOperations nowMs timestamp) nowMs)
      ∧ ((∀ table ∈ strategy.iterAll, ∀ record ∈ table.records, isDead record nowMs = true)
        → strategy.FailureAtomic dbName (strategy.compactAllOperations nowMs timestamp)
            nowMs)
      ∧ ∀ key laterMs,
          nowMs ≤ laterMs
          → readAt (strategy.version key) laterMs ≠ none
          → ¬ strategy.FailureAtomic dbName (strategy.compactAllOperations nowMs timestamp)
              nowMs := by
  have kept := reached.kept
  refine ⟨?_, ?_, ?_, ?_⟩
  · intro idle unchanged
    rw [compactIfNeededOperations, idle]
    exact kept.failureAtomic_idle safe unchanged
  · intro i key laterMs full holders timely live
    simp only [compactIfNeededOperations, full]
    exact kept.not_failureAtomic safe holders timely live
  · intro dead
    exact kept.failureAtomic_dead safe stamped
      (fun table member => readsNothing_of_dead (dead table member))
  · intro key laterMs timely live
    exact kept.not_failureAtomic safe (fun table member _ => member) timely live

/-- Witness: one table, which is no full bucket. -/
theorem size_tiered_compaction_failure_atomic_single
    : ∃ strategy,
        Reachable 2 4 smallBlocks true strategy
        ∧ strategy.version "k" = some { value := some "v", expiryMs := none }
        ∧ strategy.FailureAtomic "db" (strategy.compactIfNeededOperations 0 2) 0 := by
  let strategy := (SizeTiered.new 2 4 smallBlocks).addSstable
    (flushed 1 (Leveled.oneEntry "k" "v"))
  have computed : strategy.sstables.findIdx? strategy.isFull = none
      ∧ strategy.version "k" = some { value := some "v", expiryMs := none } := by
    decide +kernel
  have reached : Reachable 2 4 smallBlocks true strategy :=
    .flush .new (storableTable_new.insert (by decide) _) (by decide) rfl
  exact ⟨strategy, reached, computed.2,
    (size_tiered_compaction_failure_atomic (by decide +kernel : safeName "db" = true) reached
      0 (by decide : 2 < uintBound)).1 computed.1 (.inl rfl)⟩

/-- Counterexample: both tables of a full bucket are removed, and the merged one is not yet
created.
-/
theorem size_tiered_compaction_loses_value
    : ∃ strategy next,
        Reachable 2 4 smallBlocks true strategy
        ∧ loadFromDir "db"
            ((interruptedTables (strategy.compactIfNeededOperations 0 4) 2 none
              strategy.iterAll).map (SSTable.file "db"))
            2 4 smallBlocks
          = .ok next
        ∧ strategy.lookup "k" 10 = .ok (some "v")
        ∧ next.lookup "k" 10 = .ok none := by
  let strategy := threeFlushes (Leveled.oneEntry "a" "u") (twoEntries "k" "v" "l" "u")
    (twoEntries "m" "u" "n" "u")
  have computed : (loadFromDir "db"
      ((interruptedTables (strategy.compactIfNeededOperations 0 4) 2 none
        strategy.iterAll).map (SSTable.file "db")) 2 4 smallBlocks).toOption.any
      (fun next =>
        (strategy.lookup "k" 10).toOption = some (some "v")
        && (next.lookup "k" 10).toOption = some none)
      = true := by
    decide +kernel
  simp only [Option.any_eq_true, toOption_eq_some, Bool.and_eq_true, decide_eq_true_eq]
    at computed
  obtain ⟨next, loaded, before, after⟩ := computed
  have reached : Reachable 2 4 smallBlocks true strategy :=
    reachable_threeFlushes (storableTable_new.insert (by decide) _)
      ((storableTable_new.insert (by decide) _).insert (by decide) _)
      ((storableTable_new.insert (by decide) _).insert (by decide) _)
  exact ⟨strategy, next, reached, loaded, before, after⟩

end SizeTiered

end Rustikv.Lsm

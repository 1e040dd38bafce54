import Rustikv.Format.WalTail
import Rustikv.Lsm.Durability
import Rustikv.Lsm.Progress
import Rustikv.Server.FrameParser

/-! Sessions of an engine: calls one after the other, with restarts in between. As long as the
keys and values written are within the limits of the record format no call fails, and neither
does a restart.
-/

namespace Rustikv.Lsm

open Library

-----------------------------------------------------------------------------------------
-- The parameters
-----------------------------------------------------------------------------------------

/-- A step of automatic compaction gives old data no newer name than data it is older than. -/
def StorageStrategy.mergesInOrder (nowMs : UInt64) (timestamp : Nat)
    : StorageStrategy → Bool
  | .leveled _ => true
  | .sizeTiered strategy =>
      (strategy.compactIfNeeded nowMs timestamp).toOption.all
        (fun result => strategy.mergesLast result.2)

theorem OlderThan.isNewest {timestamp : Nat} {strategy : StorageStrategy}
    (older : OlderThan timestamp strategy.iterAll)
    : strategy.isNewest timestamp = true := by
  cases strategy with
  | leveled strategy =>
      simp only [StorageStrategy.isNewest]
      cases first : strategy.levels.head? with
      | none => rfl
      | some level =>
          simp only [Option.all_some, List.all_eq_true, decide_eq_true_eq]
          exact fun table member => older table
            (Leveled.mem_iterAll.mpr ⟨level, List.mem_of_mem_head? first, member⟩)
  | sizeTiered strategy =>
      simp only [StorageStrategy.isNewest, List.all_eq_true, decide_eq_true_eq]
      exact fun table member => older table (List.mem_reverse.mpr member)

namespace StrategyConfig

/-- The numbers of the levels fit `u64`. -/
def Few : StrategyConfig → Prop
  | .leveled numLevels _ _ _ => numLevels ≤ uintBound
  | .sizeTiered _ _ _ => True

/-- How many tables a full compaction can create. -/
def mergeCount : StrategyConfig → Nat
  | .leveled numLevels _ _ _ => numLevels
  | .sizeTiered _ _ _ => 1

variable {config : StrategyConfig} {strategy next : StorageStrategy}

theorem Restores.mergeCount (restores : config.Restores strategy)
    : strategy.mergeCount = config.mergeCount := by
  cases restores with
  | leveled filed ascending count => exact count
  | sizeTiered filed => rfl

/-- Either strategy keeps the order of its files over a full compaction. -/
theorem Restores.compactAll_all (few : config.Few) (restores : config.Restores strategy)
    (sound : strategy.Sound) (bounded : ∀ table ∈ strategy.iterAll, table.path.Bounded)
    {clock : Nat → UInt64} {stamp : Nat → Nat}
    (stamped : ∀ i < config.mergeCount, stamp i < uintBound)
    (done : strategy.compactAll clock stamp = .ok next)
    : config.Restores next ∧ ∀ table ∈ next.iterAll, table.path.Bounded := by
  cases config with
  | leveled numLevels l0Threshold l1MaxBytes settings =>
      refine restores.compactAll ⟨_, _, _, _, rfl, few⟩ sound bounded ?_ done
      rwa [restores.mergeCount]
  | sizeTiered minThreshold maxThreshold settings =>
      cases restores with
      | sizeTiered filed =>
          rename_i strategy
          obtain ⟨other, compacted, rest⟩ := bind_eq_ok.mp done
          obtain rfl := Except.ok.inj rest
          obtain ⟨table, path, rfl⟩ := SizeTiered.compactAll_single compacted
          refine ⟨.sizeTiered (SizeTiered.filedByAge_single filed.parameters), ?_⟩
          intro held member
          obtain rfl : held = table := by
            simpa [StorageStrategy.iterAll, SizeTiered.iterAll] using member
          rw [path]
          exact ⟨stamped 0 Nat.one_pos, by simp⟩

/-- A step of automatic compaction does as well: with the size-tiered strategy if it merges
the last bucket.
-/
theorem Restores.compactIfNeeded_all (few : config.Few) (restores : config.Restores strategy)
    (sound : strategy.Sound) (bounded : ∀ table ∈ strategy.iterAll, table.path.Bounded)
    {nowMs : UInt64} {timestamp : Nat} (stamped : timestamp < uintBound)
    (older : OlderThan timestamp strategy.iterAll)
    (inOrder : strategy.mergesInOrder nowMs timestamp = true) {ran : Bool}
    (done : strategy.compactIfNeeded nowMs timestamp = .ok (ran, next))
    : config.Restores next ∧ ∀ table ∈ next.iterAll, table.path.Bounded := by
  cases config with
  | leveled numLevels l0Threshold l1MaxBytes settings =>
      exact restores.compactIfNeeded ⟨_, _, _, _, rfl, few⟩ sound bounded stamped done
  | sizeTiered minThreshold maxThreshold settings =>
      cases restores with
      | sizeTiered filed =>
          rename_i strategy
          obtain ⟨⟨_, other⟩, compacted, rest⟩ := bind_eq_ok.mp done
          obtain ⟨rfl, rfl⟩ := Prod.mk.inj (Except.ok.inj rest)
          have merges : strategy.mergesLast other = true := by
            simp only [StorageStrategy.mergesInOrder, compacted] at inOrder
            exact inOrder
          have newest : strategy.isNewest timestamp = true := by
            simp only [SizeTiered.isNewest, List.all_eq_true, decide_eq_true_eq]
            exact fun table member => older table (List.mem_reverse.mpr member)
          refine ⟨.sizeTiered (filed.compactIfNeeded sound newest compacted merges), ?_⟩
          intro table member
          rcases SizeTiered.Sound.mem_compactIfNeeded sound compacted
              (List.mem_reverse.mp member) with old | path
          · exact bounded table (List.mem_reverse.mpr old)
          · rw [path]
            exact ⟨stamped, by simp⟩

end StrategyConfig

-----------------------------------------------------------------------------------------
-- What a restart needs
-----------------------------------------------------------------------------------------

namespace LsmEngine

/-- The engine can be used further and opened again: it is healthy, its log holds the active
memtable, and its files say in which order its tables are read.
-/
structure Reopenable (config : StrategyConfig) (engine : LsmEngine) : Prop where
  healthy : engine.Healthy
  logged : engine.Logged
  restores : config.Restores engine.strategy
  bounded : ∀ table ∈ engine.strategy.iterAll, table.path.Bounded

variable {config : StrategyConfig} {engine next : LsmEngine} {timestamp : Nat}

theorem reopenable_new (config : StrategyConfig) (maxMemtableBytes : Nat)
    (settings : BlockSettings)
    : (new maxMemtableBytes config.new settings).Reopenable config where
  healthy := healthy_new config.new_isNew.sound maxMemtableBytes settings
  logged := logged_empty rfl rfl
  restores := config.restores_new
  bounded := by simp [new, config.new_isNew.iterAll]

theorem Reopenable.write (reopenable : engine.Reopenable config) {key : String}
    {value : Option String} (fits : Record.Fits key (value.getD ""))
    (expiryMs : Option UInt64)
    : (engine.write key value expiryMs).Reopenable config :=
  {
    reopenable with
    healthy := reopenable.healthy.write fits expiryMs
    logged := reopenable.logged.write fits expiryMs
  }

theorem Reopenable.swap (reopenable : engine.Reopenable config)
    : engine.swap.Reopenable config :=
  {
    reopenable with
    healthy := reopenable.healthy.swap
    logged := logged_empty rfl rfl
  }

end LsmEngine

/-- A table older than the next timestamp can be added to any strategy with a level. -/
theorem StrategyConfig.Restores.add_ok {config : StrategyConfig}
    {strategy : StorageStrategy} (restores : config.Restores strategy)
    (hasLevel : config.HasLevel) (sound : strategy.Sound)
    (bounded : ∀ table ∈ strategy.iterAll, table.path.Bounded) {timestamp : Nat}
    (older : OlderThan timestamp strategy.iterAll) (stamped : timestamp < uintBound)
    {sst : SSTable} (valid : sst.Valid) (path : sst.path = { level := none, timestamp })
    : ∃ next,
        strategy.addSstable sst = .ok next
        ∧ next.Sound
        ∧ config.Restores next
        ∧ (∀ table ∈ next.iterAll, table.path.Bounded)
        ∧ ∀ later,
            timestamp < later
            → OlderThan later strategy.iterAll
            → OlderThan later next.iterAll := by
  obtain ⟨next, added⟩ := restores.addSstable_ok hasLevel sst
  have tables (table : SSTable) (member : table ∈ next.iterAll)
      : table = sst ∨ table ∈ strategy.iterAll :=
    List.mem_cons.mp ((StorageStrategy.iterAll_addSstable added).mem_iff.mp member)
  have newest : strategy.isNewest sst.path.timestamp = true := by
    rw [path]
    exact older.isNewest
  refine ⟨next, added, ?_, restores.addSstable (by rw [path]) newest added, ?_, ?_⟩
  · exact (sound.addSstable valid (by rw [path]; exact older.fresh none) added).1
  · intro table member
    rcases tables table member with rfl | old
    · rw [path]
      exact ⟨stamped, by simp⟩
    · exact bounded table old
  · intro later order before table member
    rcases tables table member with rfl | old
    · rw [path]
      exact order
    · exact before table old

-----------------------------------------------------------------------------------------
-- No call fails
-----------------------------------------------------------------------------------------

theorem StrategyConfig.HasLevel.mergeCount_pos {config : StrategyConfig}
    (hasLevel : config.HasLevel)
    : 0 < config.mergeCount := by
  cases config with
  | leveled numLevels l0Threshold l1MaxBytes settings => exact hasLevel
  | sizeTiered minThreshold maxThreshold settings => exact Nat.one_pos

namespace LsmEngine

variable {config : StrategyConfig} {engine next : LsmEngine} {timestamp : Nat}

/-- A memtable becomes a table that is filed as the newest one. -/
theorem Reopenable.flush_ok (reopenable : engine.Reopenable config)
    (hasLevel : config.HasLevel) (older : OlderThan timestamp engine.strategy.iterAll)
    (stamped : timestamp < uintBound) {memtable : Memtable}
    (storable : StorableTable memtable)
    : ∃ sst strategy,
        engine.flushTable memtable timestamp = .ok sst
        ∧ engine.strategy.addSstable sst = .ok strategy
        ∧ strategy.Sound
        ∧ config.Restores strategy
        ∧ (∀ table ∈ strategy.iterAll, table.path.Bounded)
        ∧ ∀ later,
            timestamp < later
            → OlderThan later engine.strategy.iterAll
            → OlderThan later strategy.iterAll := by
  have created : engine.flushTable memtable timestamp
      = .ok (engine.tableFor memtable timestamp) := createTable_ok (older.fresh none) memtable
  obtain ⟨strategy, added, sound, restores, bounded, mono⟩ :=
    reopenable.restores.add_ok hasLevel reopenable.healthy.sound reopenable.bounded older
      stamped (SSTable.valid_fromMemtable engine.settings _ storable)
      (SSTable.path_fromMemtable _ _ _)
  exact ⟨_, strategy, created, added, sound, restores, bounded, mono⟩

/-- The pending flush ends. -/
theorem Reopenable.finishFlush_ok (reopenable : engine.Reopenable config)
    (hasLevel : config.HasLevel) (older : OlderThan timestamp engine.strategy.iterAll)
    (stamped : timestamp < uintBound)
    : ∃ next,
        engine.finishFlush timestamp = .ok next
        ∧ next.Reopenable config
        ∧ ∀ later,
            timestamp < later
            → OlderThan later engine.strategy.iterAll
            → OlderThan later next.strategy.iterAll := by
  cases slot : engine.immutable with
  | none =>
      refine ⟨engine, ?_, reopenable, fun later _ before => before⟩
      rw [finishFlush, slot]
  | some memtable =>
      obtain ⟨sst, strategy, flushed, added, sound, restores, bounded, mono⟩ :=
        reopenable.flush_ok hasLevel older stamped (reopenable.healthy.immutable memtable slot)
      have done : engine.finishFlush timestamp
          = .ok { engine with strategy, immutable := none } := by
        rw [finishFlush, slot]
        simp only [flushed, ok_bind, added]
        rfl
      refine ⟨_, done, ⟨?_, reopenable.logged, restores, bounded⟩, mono⟩
      exact ⟨sound, reopenable.healthy.active, by simp⟩

/-- The active memtable becomes a table. -/
theorem Reopenable.install_ok (reopenable : engine.Reopenable config)
    (hasLevel : config.HasLevel) (older : OlderThan timestamp engine.strategy.iterAll)
    (stamped : timestamp < uintBound)
    : ∃ next,
        engine.install timestamp = .ok next
        ∧ next.Reopenable config
        ∧ ∀ later,
            timestamp < later
            → OlderThan later engine.strategy.iterAll
            → OlderThan later next.strategy.iterAll := by
  obtain ⟨sst, strategy, flushed, added, sound, restores, bounded, mono⟩ :=
    reopenable.flush_ok hasLevel older stamped reopenable.healthy.active
  have done : engine.install timestamp
      = .ok { engine with active := Memtable.new, immutable := none, wal := [], strategy } := by
    rw [install]
    simp only [flushed, ok_bind, added]
    rfl
  refine ⟨_, done, ⟨?_, logged_empty rfl rfl, restores, bounded⟩, mono⟩
  exact ⟨sound, storableTable_new, by simp⟩

theorem Reopenable.flushMemtableAsync_ok (reopenable : engine.Reopenable config)
    (hasLevel : config.HasLevel) (older : OlderThan timestamp engine.strategy.iterAll)
    (stamped : timestamp < uintBound)
    : ∃ next,
        engine.flushMemtableAsync timestamp = .ok next
        ∧ next.Reopenable config := by
  obtain ⟨flushed, finished, reopenableFlushed, -⟩ :=
    reopenable.finishFlush_ok hasLevel older stamped
  refine ⟨flushed.swap, ?_, reopenableFlushed.swap⟩
  rw [flushMemtableAsync, finished]
  rfl

/-- A write of the right size, with the flush it may trigger. -/
theorem Reopenable.writeThrough_ok (reopenable : engine.Reopenable config)
    (hasLevel : config.HasLevel) (older : OlderThan timestamp engine.strategy.iterAll)
    (stamped : timestamp < uintBound) (key : String) (value : Option String)
    (fits : Record.Fits key (value.getD "")) (expiryMs : Option UInt64)
    : ∃ next,
        (engine.write key value expiryMs).finishWrite timestamp = .ok next
        ∧ next.Reopenable config := by
  have written := reopenable.write fits expiryMs
  unfold finishWrite
  split
  · exact written.flushMemtableAsync_ok hasLevel older stamped
  · exact ⟨_, rfl, written⟩

theorem Reopenable.compact_ok (reopenable : engine.Reopenable config)
    (hasLevel : config.HasLevel) (few : config.Few) (clock : Nat → UInt64)
    {stamp : Nat → Nat}
    (stamped : Stamped engine.strategy.iterAll stamp (config.mergeCount + 1))
    : ∃ next,
        engine.compact clock stamp = .ok next
        ∧ next.Reopenable config := by
  have positive := hasLevel.mergeCount_pos
  obtain ⟨flushed, finished, reopenableFlushed, monoFlushed⟩ :=
    reopenable.finishFlush_ok hasLevel stamped.older (stamped.bounded 0 (by omega))
  have order01 : stamp 0 < stamp 1 := stamped.increasing 0 1 (by omega) (by omega)
  have order12 : stamp 1 < stamp 2 := stamped.increasing 1 2 (by omega) (by omega)
  have olderFlushed (i : Nat) (later : 0 < i) (within : i ≤ config.mergeCount + 1)
      : OlderThan (stamp i) flushed.strategy.iterAll :=
    monoFlushed _ (stamped.increasing 0 i later within) (stamped.olderAt within)
  obtain ⟨installed, installs, reopenableInstalled, monoInstalled⟩ :=
    reopenableFlushed.install_ok hasLevel (olderFlushed 1 (by omega) (by omega))
      (stamped.bounded 1 (by omega))
  have merges : Stamped installed.strategy.iterAll (fun i => stamp (i + 2))
      (config.mergeCount - 1) := {
    older := monoInstalled _ order12 (olderFlushed 2 (by omega) (by omega))
    increasing := fun i j order within =>
      stamped.increasing (i + 2) (j + 2) (by omega) (by omega)
    bounded := fun i within => stamped.bounded (i + 2) (by omega)
  }
  have sound := reopenableInstalled.healthy.sound
  obtain ⟨strategy, compacted⟩ := sound.compactAll_ok clock merges (by
    rw [reopenableInstalled.restores.mergeCount]
    omega)
  obtain ⟨restores, bounded⟩ := reopenableInstalled.restores.compactAll_all few sound
    reopenableInstalled.bounded (fun i within => merges.bounded i (by omega)) compacted
  refine ⟨{ installed with strategy }, ?_, ?_, reopenableInstalled.logged, restores, bounded⟩
  · rw [compact, finished, ok_bind, installs, ok_bind]
    simp only [compacted, ok_bind]
    rfl
  · exact ⟨(sound.compactAll compacted).1, reopenableInstalled.healthy.active,
      reopenableInstalled.healthy.immutable⟩

/-- A step of automatic compaction leaves the engine usable, and able to be opened again if
the merge was in order.
-/
theorem Reopenable.compactStep_ok (reopenable : engine.Reopenable config)
    (few : config.Few) (clock : Nat → UInt64) {stamp : Nat → Nat}
    (older : OlderThan (stamp 0) engine.strategy.iterAll) (stamped : stamp 0 < uintBound)
    : ∃ ran next,
        engine.compactStep clock stamp = .ok (ran, next)
        ∧ (engine.strategy.mergesInOrder (clock 0) (stamp 0) = true
          → next.Reopenable config) := by
  have sound := reopenable.healthy.sound
  obtain ⟨ran, strategy, compacted⟩ := sound.compactIfNeeded_ok older (clock 0)
  refine ⟨ran, { engine with strategy }, ?_, fun inOrder => ?_⟩
  · rw [compactStep, compacted]
    rfl
  · obtain ⟨restores, bounded⟩ := reopenable.restores.compactIfNeeded_all few sound
      reopenable.bounded stamped older inOrder compacted
    exact {
      healthy := ⟨sound.compactIfNeeded compacted, reopenable.healthy.active,
        reopenable.healthy.immutable⟩
      logged := reopenable.logged
      restores
      bounded
    }

/-- No step of automatic compaction merges out of order. -/
def mergesInOrder (engine : LsmEngine) (event : Event) : Bool :=
  match event.call with
  | .compactStep => engine.strategy.mergesInOrder (event.clock 0) (event.stamp 0)
  | _ => true

/-- Every call of the right size succeeds. Witness: one case for each call, from the lemmas
about its sections.
-/
theorem Reopenable.handle_ok (reopenable : engine.Reopenable config)
    (hasLevel : config.HasLevel) (few : config.Few) {event : Event}
    (fits : event.call.fits = true)
    (stamped : Stamped engine.strategy.iterAll event.stamp (config.mergeCount + 1))
    : ∃ reply next,
        engine.handle event = .ok (reply, next)
        ∧ (engine.mergesInOrder event = true → next.Reopenable config) := by
  obtain ⟨call, clock, stamp, finishMs⟩ := event
  have older := stamped.older
  have first : stamp 0 < uintBound := stamped.bounded 0 (Nat.zero_le _)
  have found (key : String) : ∃ value, engine.find key (clock 0) (clock 1) = .ok value := by
    obtain ⟨readMs, -, done⟩ := find_eq reopenable.healthy.sound.valid key (clock 0) (clock 1)
    exact ⟨_, done⟩
  cases call with
  | set key value =>
      obtain ⟨next, done, after⟩ := reopenable.writeThrough_ok hasLevel older first key
        (some value) (by simpa [Call.fits] using fits) none
      refine ⟨.done, next, ?_, fun _ => after⟩
      simp only [handle, set, setWithTtl, done]
      rfl
  | setWithTtl key value expiryMs =>
      obtain ⟨next, done, after⟩ := reopenable.writeThrough_ok hasLevel older first key
        (some value) (by simpa [Call.fits] using fits) expiryMs
      refine ⟨.done, next, ?_, fun _ => after⟩
      simp only [handle, setWithTtl, done]
      rfl
  | delete key =>
      obtain ⟨value, search⟩ := found key
      obtain ⟨next, done, after⟩ := reopenable.writeThrough_ok hasLevel older first key none
        ⟨by simpa [Call.fits] using fits, by simp [maxValueSize]⟩ none
      refine ⟨.deleted value.isSome, next, ?_, fun _ => after⟩
      rw [handle]
      simp only [delete, get, search, ok_bind, done]
      cases value <;> rfl
  | ttl key expiryMs =>
      obtain ⟨value, search⟩ := found key
      cases value with
      | none =>
          refine ⟨.ttl .notFound, engine, ?_, fun _ => reopenable⟩
          rw [handle]
          simp only [ttl, search, ok_bind]
          rfl
      | some value =>
          obtain ⟨next, done, after⟩ := reopenable.writeThrough_ok hasLevel older first key
            (some value) (reopenable.healthy.fits_of_find search) expiryMs
          refine ⟨.ttl (if expiryMs.isSome then .set else .persisted), next, ?_,
            fun _ => after⟩
          rw [handle]
          simp only [ttl, search, ok_bind, done]
          rfl
  | get key =>
      obtain ⟨value, search⟩ := found key
      refine ⟨.value (value.map (fun value => (key, value))), engine, ?_,
        fun _ => reopenable⟩
      rw [handle]
      simp only [get, search, ok_bind]
      rfl
  | flush =>
      obtain ⟨next, done, after⟩ := reopenable.flushMemtableAsync_ok hasLevel older first
      refine ⟨.done, next, ?_, fun _ => after⟩
      rw [handle, done]
      rfl
  | background =>
      obtain ⟨next, done, after, -⟩ := reopenable.finishFlush_ok hasLevel older first
      refine ⟨.done, next, ?_, fun _ => after⟩
      rw [handle, done]
      rfl
  | compactStep =>
      obtain ⟨ran, next, done, after⟩ := reopenable.compactStep_ok few clock older first
      refine ⟨.stepped ran, next, ?_, after⟩
      rw [handle, done]
      rfl
  | compact =>
      obtain ⟨next, done, after⟩ := reopenable.compact_ok hasLevel few clock stamped
      refine ⟨.done, next, ?_, fun _ => after⟩
      rw [handle, done]
      rfl

-----------------------------------------------------------------------------------------
-- Restarts
-----------------------------------------------------------------------------------------

/-- The tables and the log of an engine can always be opened, and if no flush was pending
the opened engine has the same version of every key.
-/
theorem Reopenable.reopen (reopenable : engine.Reopenable config) {dbName : String}
    (safe : safeName dbName = true) {directory : List TableFile}
    (lists : Lists dbName directory engine.strategy.iterAll) (maxMemtableBytes : Nat)
    (settings : BlockSettings)
    : ∃ strategy opened,
        config.loadFromDir dbName directory = .ok strategy
        ∧ fromDir engine.wal maxMemtableBytes strategy settings = .ok opened
        ∧ opened.Reopenable config
        ∧ (engine.immutable = none → ∀ key, opened.version key = engine.version key) := by
  have sound := reopenable.healthy.sound
  obtain ⟨strategy, loaded, soundNext, restores, tables, versions⟩ :=
    reopenable.restores.loadFromDir sound
      (fun table member => (reopenable.bounded table member).recognised safe) lists
  obtain ⟨memtable, replayed, entries⟩ := reopenable.logged.replay
  let opened : LsmEngine := {
    active := memtable
    immutable := none
    wal := engine.wal
    maxMemtableBytes
    strategy
    settings
  }
  have logged : opened.Logged := by
    obtain ⟨records, wal, valid, active⟩ := reopenable.logged
    exact ⟨records, wal, valid, fun key => (entries key).trans (active key)⟩
  have storable : StorableTable memtable :=
    fun key entry found => reopenable.healthy.active key entry (entries key ▸ found)
  refine ⟨strategy, opened, loaded, by rw [fromDir, replayed]; rfl, ?_, fun empty key => ?_⟩
  · exact {
      healthy := ⟨soundNext, storable, by simp [opened]⟩
      logged
      restores
      bounded := fun table member => reopenable.bounded table (tables table member)
    }
  · simp only [version, opened, entries key, empty, versions key]

/-- A log ending in one more write can be opened exactly if that write is within the limits
of the record format. Witness: such a record is replayed, any other ends the replay with an
error.
-/
theorem Logged.reopen_write_iff (logged : engine.Logged) {key : String}
    {value : Option String} (keyLen : key.utf8ByteSize < uintBound)
    (valueLen : (value.getD "").utf8ByteSize < uintBound) (expiryMs : Option UInt64)
    (maxMemtableBytes : Nat) (strategy : StorageStrategy) (settings : BlockSettings)
    : (∃ opened,
        fromDir (engine.write key value expiryMs).wal maxMemtableBytes strategy settings
        = .ok opened)
      ↔ Record.Fits key (value.getD "") := by
  constructor
  · rintro ⟨opened, done⟩
    by_contra exceeds
    obtain ⟨memtable, replayed, -⟩ := bind_eq_ok.mp done
    obtain ⟨records, wal, valid, -⟩ := logged
    let write : Wal.Write := {
      key
      value := value.getD ""
      tombstone := value.isNone
      expiryMs := value.bind (fun _ => expiryMs)
      keyLen
      valueLen
    }
    have bytes : (engine.write key value expiryMs).wal
        = Record.codec.encodeAll records ++ (write.record.toBeBytes ++ []) := by
      rw [← wal, List.append_nil]
      cases value <;> rfl
    have beyond : ¬ write.Fits := exceeds
    obtain ⟨error, failed⟩ := Wal.replay_append_oversized valid
      (Record.hasExpiry_flagsOf write.tombstone write.expiryMs) (Wal.Write.oversized beyond) []
    rw [bytes, failed] at replayed
    cases replayed
  · intro fits
    obtain ⟨memtable, replayed, -⟩ := (logged.write fits expiryMs).replay
    exact ⟨_, by rw [fromDir, replayed]; rfl⟩

/-- What a call needs in order to keep what a key reads as. A step of automatic compaction
with the size-tiered strategy has to merge tables that agree on the key, in order.
-/
def keepsLatest (engine : LsmEngine) (event : Event) (key : String) : Bool :=
  match event.call, engine.strategy with
  | .compactStep, .sizeTiered strategy => strategy.mergeAgrees key
  | _, _ => engine.keeps event key

/-- A call that keeps what a key reads as leaves it standing for its last write. -/
theorem Healthy.handle_keepsLatest (healthy : engine.Healthy) {event : Event}
    {reply : Reply} (fits : event.call.fits = true)
    (done : engine.handle event = .ok (reply, next)) {key : String} {written : Writes}
    {since : UInt64} (stands : StandsFor since (engine.version key) (written key))
    (timely : event.Timely since) (keeps : engine.keepsLatest event key = true)
    : StandsFor event.finishMs (next.version key)
        (Writes.after written event.call reply key) := by
  have other (same : engine.keeps event key = true) := (healthy.handle fits done).2 key
    written since stands timely same
  obtain ⟨call, clock, stamp, finishMs⟩ := event
  cases call with
  | compactStep =>
      cases kind : engine.strategy with
      | leveled strategy => exact other (by simpa [keepsLatest, kind] using keeps)
      | sizeTiered strategy =>
          have agrees : strategy.mergeAgrees key = true := by
            simpa [keepsLatest, kind] using keeps
          have sound := healthy.sound
          obtain ⟨⟨ran, _⟩, stepped, rest⟩ := bind_eq_ok.mp done
          obtain ⟨rfl, rfl⟩ := Prod.mk.inj (Except.ok.inj rest)
          obtain ⟨⟨ran, _⟩, compacted, rest⟩ := bind_eq_ok.mp stepped
          obtain ⟨rfl, rfl⟩ := Prod.mk.inj (Except.ok.inj rest)
          refine standsFor_strategy (stands.mono timely.within) ?_
          rw [kind] at sound compacted ⊢
          obtain ⟨⟨_, _⟩, merged, rest⟩ := bind_eq_ok.mp compacted
          obtain ⟨rfl, rfl⟩ := Prod.mk.inj (Except.ok.inj rest)
          exact (SizeTiered.Sound.compactIfNeeded_standsFor sound merged agrees).mono
            (timely.ends 0)
  | _ => exact other keeps

end LsmEngine

-----------------------------------------------------------------------------------------
-- Sessions
-----------------------------------------------------------------------------------------

/-- The states that calls, all of them `permitted`, and clean restarts lead to, with the last
write of each key and the time reached.
-/
inductive Sessions (config : StrategyConfig) (dbName : String)
    (permitted : LsmEngine → Event → Prop)
    : LsmEngine → Writes → UInt64 → Prop
  | start (maxMemtableBytes : Nat) (settings : BlockSettings)
    : Sessions config dbName permitted (LsmEngine.new maxMemtableBytes config.new settings)
        Writes.none 0
  | call {engine next : LsmEngine} {written : Writes} {since : UInt64} {event : Event}
      {reply : Reply}
      (reached : Sessions config dbName permitted engine written since)
      (timely : event.Timely since)
      (allowed : permitted engine event)
      (done : engine.handle event = .ok (reply, next))
    : Sessions config dbName permitted next (written.after event.call reply) event.finishMs
  | reopen {engine next : LsmEngine} {written : Writes} {since : UInt64}
      {directory : List TableFile} {strategy : StorageStrategy} {maxMemtableBytes : Nat}
      {settings : BlockSettings}
      (reached : Sessions config dbName permitted engine written since)
      (idle : engine.immutable = none)
      (lists : Lists dbName directory engine.strategy.iterAll)
      (loaded : config.loadFromDir dbName directory = .ok strategy)
      (opened : LsmEngine.fromDir engine.wal maxMemtableBytes strategy settings = .ok next)
    : Sessions config dbName permitted next written since

/-- A call within the limits of the record format, naming its tables in order, that keeps
what the key reads as and the order in which the tables are read.
-/
structure LsmEngine.Acceptable (config : StrategyConfig) (key : String) (engine : LsmEngine)
    (event : Event)
    : Prop where
  fits : event.call.fits = true
  stamped : Stamped engine.strategy.iterAll event.stamp (config.mergeCount + 1)
  keeps : engine.keepsLatest event key = true
  inOrder : engine.mergesInOrder event = true

/-- Every state of such sessions can be used further and opened again, and stands for the
last write of the key. Witness: induction over the sessions.
-/
theorem Sessions.standsFor {config : StrategyConfig} (hasLevel : config.HasLevel)
    (few : config.Few) {dbName : String} (safe : safeName dbName = true) {key : String}
    {engine : LsmEngine} {written : Writes} {since : UInt64}
    (reached : Sessions config dbName (LsmEngine.Acceptable config key) engine written since)
    : engine.Reopenable config ∧ StandsFor since (engine.version key) (written key) := by
  induction reached with
  | start maxMemtableBytes settings =>
      refine ⟨LsmEngine.reopenable_new config maxMemtableBytes settings, ?_⟩
      rw [LsmEngine.version_new config.new_isNew.iterAll]
      exact .refl
  | call reached timely allowed done ih =>
      obtain ⟨reopenable, stands⟩ := ih
      obtain ⟨_, _, same, after⟩ := reopenable.handle_ok hasLevel few allowed.fits
        allowed.stamped
      obtain ⟨rfl, rfl⟩ := Prod.mk.inj (Except.ok.inj (same.symm.trans done))
      exact ⟨after allowed.inOrder, reopenable.healthy.handle_keepsLatest allowed.fits done
        stands timely allowed.keeps⟩
  | reopen reached idle lists loaded opened ih =>
      obtain ⟨reopenable, stands⟩ := ih
      obtain ⟨_, _, loads, opens, after, versions⟩ := reopenable.reopen safe lists _ _
      obtain rfl := Except.ok.inj (loads.symm.trans loaded)
      obtain rfl := Except.ok.inj (opens.symm.trans opened)
      exact ⟨after, by rwa [versions idle key]⟩

theorem LsmEngine.Healthy.range_ok {engine : LsmEngine} (healthy : engine.Healthy)
    (start end_ : String) (nowMs : UInt64)
    : ∃ found, engine.range start end_ nowMs = .ok found := by
  unfold LsmEngine.range
  split
  · exact ⟨_, rfl⟩
  · have valid : ∀ table ∈ engine.strategy.iterFilesForRange start end_, table.Valid :=
      fun table member => healthy.sound.valid table (List.mem_of_mem_filter member)
    obtain ⟨found, scans, -⟩ := engine.scan_eq id nowMs _ valid
    exact ⟨_, by rw [scans]; rfl⟩

/-- In every state of such sessions a get returns the last write of the key, a range and
every further call succeed, and so does a restart. One write more can be followed by a
restart exactly if it is within the limits of the record format.
-/
theorem accepted_writes_stay_readable {config : StrategyConfig} (hasLevel : config.HasLevel)
    (few : config.Few) {dbName : String} (safe : safeName dbName = true) {key : String}
    {engine : LsmEngine} {written : Writes} {since : UInt64}
    (reached : Sessions config dbName (LsmEngine.Acceptable config key) engine written since)
    : (∀ clock : Nat → UInt64,
        since ≤ clock 0
        → clock 0 ≤ clock 1
        → ∃ readMs,
            (readMs = clock 0 ∨ readMs = clock 1)
            ∧ engine.get key clock
              = .ok ((readAt (written key) readMs).map (fun value => (key, value))))
      ∧ (∀ start end_ nowMs, ∃ found, engine.range start end_ nowMs = .ok found)
      ∧ (∀ event : Event,
          event.call.fits = true
          → Stamped engine.strategy.iterAll event.stamp (config.mergeCount + 1)
          → ∃ reply next, engine.handle event = .ok (reply, next))
      ∧ (∀ directory,
          Lists dbName directory engine.strategy.iterAll
          → ∀ maxMemtableBytes settings,
              ∃ strategy next,
                config.loadFromDir dbName directory = .ok strategy
                ∧ LsmEngine.fromDir engine.wal maxMemtableBytes strategy settings = .ok next)
      ∧ ∀ (other : String) (value : Option String),
          other.utf8ByteSize < uintBound
          → (value.getD "").utf8ByteSize < uintBound
          → ∀ expiryMs maxMemtableBytes strategy settings,
              (∃ next,
                LsmEngine.fromDir (engine.write other value expiryMs).wal maxMemtableBytes
                  strategy settings
                = .ok next)
              ↔ Record.Fits other (value.getD "") := by
  obtain ⟨reopenable, stands⟩ := reached.standsFor hasLevel few safe
  refine ⟨?_, reopenable.healthy.range_ok, ?_, ?_, ?_⟩
  · intro clock starts order
    exact LsmEngine.get_written reopenable.healthy stands clock starts order
  · intro event fits stamped
    obtain ⟨reply, next, done, -⟩ := reopenable.handle_ok hasLevel few fits stamped
    exact ⟨reply, next, done⟩
  · intro directory lists maxMemtableBytes settings
    obtain ⟨strategy, next, loaded, opened, -⟩ :=
      reopenable.reopen safe lists maxMemtableBytes settings
    exact ⟨strategy, next, loaded, opened⟩
  · intro other value keyLen valueLen expiryMs maxMemtableBytes strategy settings
    exact reopenable.logged.reopen_write_iff keyLen valueLen expiryMs maxMemtableBytes
      strategy settings

/-- What `Acceptable` asks of a call at one moment with table names from `timestamp` on. -/
def LsmEngine.accepts (key : String) (engine : LsmEngine) (event : Event) : Bool :=
  event.call.fits
  && engine.strategy.iterAll.all (fun table => table.path.timestamp < event.stamp 0)
  && engine.keepsLatest event key
  && engine.mergesInOrder event

theorem LsmEngine.acceptable_at {config : StrategyConfig} {key : String}
    {engine : LsmEngine} {call : Call} {nowMs : UInt64} {timestamp : Nat}
    (bounded : timestamp + config.mergeCount + 1 < uintBound)
    (accepted : engine.accepts key (call.at nowMs timestamp) = true)
    : engine.Acceptable config key (call.at nowMs timestamp) := by
  simp only [accepts, Bool.and_eq_true, List.all_eq_true, decide_eq_true_eq] at accepted
  obtain ⟨⟨⟨fits, older⟩, keeps⟩, inOrder⟩ := accepted
  refine ⟨fits, ⟨older, ?_, ?_⟩, keeps, inOrder⟩
  · intro i j order within
    exact Nat.add_lt_add_left order timestamp
  · intro i within
    change timestamp + i < uintBound
    omega

theorem finishOf_cons (since : UInt64) (event : Event) (rest : List Event)
    : finishOf since (event :: rest) = finishOf event.finishMs rest := by
  simp [finishOf, List.getLast?_cons]

/-- Makes one acceptable call after the other, each at one moment. -/
theorem Sessions.script {config : StrategyConfig} {dbName key : String}
    {engine next : LsmEngine} {written last : Writes} {since : UInt64}
    {calls : List (Call × UInt64 × Nat)}
    (reached : Sessions config dbName (LsmEngine.Acceptable config key) engine written since)
    (increasing : ordered since calls = true)
    (bounded : ∀ item ∈ calls, item.2.2 + config.mergeCount + 1 < uintBound)
    (ran : run (LsmEngine.accepts key) (script calls) engine written = some (next, last))
    : Sessions config dbName (LsmEngine.Acceptable config key) next last
        (finishOf since (Lsm.script calls)) := by
  induction calls generalizing engine written since with
  | nil =>
      obtain ⟨rfl, rfl⟩ := Prod.mk.inj (Option.some.inj ran)
      exact reached
  | cons item rest ih =>
      simp only [ordered, Bool.and_eq_true, decide_eq_true_eq] at increasing
      simp only [Lsm.script, List.map_cons, run] at ran
      split at ran
      next accepted =>
        split at ran
        next reply middle done =>
          have acceptable := LsmEngine.acceptable_at (bounded item (by simp)) accepted
          have timely : (item.1.at item.2.1 item.2.2).Timely since :=
            ⟨increasing.1, fun _ _ _ => UInt64.le_rfl, fun _ => UInt64.le_rfl⟩
          have final := ih (reached.call timely acceptable done) increasing.2
            (fun other member => bounded other (List.mem_cons_of_mem _ member)) ran
          rwa [Lsm.script, List.map_cons, finishOf_cons]
        next => cases ran
      next => cases ran

/-- Witness: one version of a key in a table and the next one in the log, and a restart. -/
theorem accepted_writes_stay_readable_restart
    : ∃ engine written strategy reopened,
        Sessions (.leveled 2 4 1000 smallBlocks) "db"
          (LsmEngine.Acceptable (.leveled 2 4 1000 smallBlocks) "k") engine written 20
        ∧ engine.strategy.iterAll ≠ []
        ∧ readAt (written "k") 20 = some "w"
        ∧ StrategyConfig.loadFromDir "db" (engine.strategy.iterAll.map (SSTable.file "db"))
            (.leveled 2 4 1000 smallBlocks)
          = .ok strategy
        ∧ LsmEngine.fromDir engine.wal 1000 strategy smallBlocks = .ok reopened
        ∧ reopened.get "k" (fun _ => 20) = .ok (some ("k", "w")) := by
  let config : StrategyConfig := .leveled 2 4 1000 smallBlocks
  let calls : List (Call × UInt64 × Nat) := [(.set "k" "v", 10, 0), (.flush, 10, 10),
    (.background, 10, 20), (.set "k" "w", 20, 30)]
  have hasLevel : config.HasLevel := (by decide : 0 < 2)
  have few : config.Few := (by decide : 2 ≤ uintBound)
  have safe : safeName "db" = true := by decide +kernel
  have computed : (run (LsmEngine.accepts "k") (script calls)
      (LsmEngine.new 1000 config.new smallBlocks) Writes.none).any
      (fun final =>
        !final.1.strategy.iterAll.isEmpty
        && final.1.immutable.isNone
        && readAt (final.2 "k") 20 = some "w") = true := by
    decide +kernel
  simp only [Option.any_eq_true, Bool.and_eq_true, Bool.not_eq_true', decide_eq_true_eq,
    Option.isNone_iff_eq_none] at computed
  obtain ⟨⟨engine, written⟩, ran, ⟨filled, idle⟩, last⟩ := computed
  have reached : Sessions config "db" (LsmEngine.Acceptable config "k") engine written 20 :=
    (Sessions.start 1000 smallBlocks).script (by decide)
      (by simp [calls, config, StrategyConfig.mergeCount, uintBound]) ran
  have lists := lists_files "db" engine.strategy.iterAll
  obtain ⟨-, -, -, opens, -⟩ := accepted_writes_stay_readable hasLevel few safe reached
  obtain ⟨strategy, reopened, loaded, opened⟩ := opens _ lists 1000 smallBlocks
  obtain ⟨reads, -⟩ := accepted_writes_stay_readable hasLevel few safe
    (reached.reopen idle lists loaded opened)
  obtain ⟨readMs, rfl | rfl, found⟩ := reads (fun _ => 20) UInt64.le_rfl UInt64.le_rfl
  all_goals
    rw [last] at found
    exact ⟨engine, written, strategy, reopened, reached, by simpa using filled, last, loaded,
      opened, found⟩

/-- The length of a write without a TTL behind its length prefix. -/
theorem length_writeFrame (totalLen : UInt32) (key value : String)
    : ((Server.frame totalLen .write (Server.itemBytes (key, value, none))).drop
        Server.lenPrefixBytes).length
      = 8 + key.utf8ByteSize + value.utf8ByteSize := by
  simp only [Server.frame, Server.lenPrefixBytes, List.length_drop, List.length_append,
    Server.length_itemBytes, Server.flagsLen, Server.keyLenSize, Server.valueLenSize,
    length_u32Bytes, List.length_singleton, Option.isSome_none, Bool.false_eq_true, if_false]
  omega

theorem request_write {key value : String} (short : key.utf8ByteSize ≤ Server.maxKeyLen)
    (small : 8 + key.utf8ByteSize + value.utf8ByteSize ≤ Server.maxRequestBytes)
    : ∃ bytes, Server.Request (.write key value none) bytes := by
  refine ⟨_, rfl, ?_, ?_⟩
  · intro other member
    rwa [List.mem_singleton.mp member]
  · rwa [length_writeFrame]

/-- A write into an empty memtable that leaves room. -/
theorem LsmEngine.isFull_write_new {maxMemtableBytes : Nat} {key value : String}
    (room : key.utf8ByteSize + value.utf8ByteSize < maxMemtableBytes)
    (strategy : StorageStrategy) (settings : BlockSettings)
    : ((LsmEngine.new maxMemtableBytes strategy settings).write key (some value)
        none).isFull = false := by
  have size : ((LsmEngine.new maxMemtableBytes strategy settings).write key (some value)
      none).active.sizeBytes = key.utf8ByteSize + value.utf8ByteSize := by
    simp only [LsmEngine.write, applyWrite, LsmEngine.new, Memtable.insert,
      Memtable.entry_new, Memtable.expiryLen]
    simp [Memtable.new]
  rw [LsmEngine.isFull, size, decide_eq_false_iff_not, not_le]
  exact room

/-- The engine accepts a value of five megabytes and one byte, which fits a request, and
cannot be opened again.
-/
theorem accepted_value_blocks_restart
    : ∃ bytes next,
        Server.Request (.write "k" oversizedValue none) bytes
        ∧ (LsmEngine.new (2 ^ 26) (.leveled (Leveled.new 4 4 1000 smallBlocks))
            smallBlocks).set "k" oversizedValue (fun _ => 1)
          = .ok next
        ∧ ∀ maxMemtableBytes strategy settings reopened,
            LsmEngine.fromDir next.wal maxMemtableBytes strategy settings
            ≠ .ok reopened := by
  have size : oversizedValue.utf8ByteSize = maxValueSize + 1 := utf8ByteSize_replicate _
  rw [show maxValueSize = 5242880 by norm_num [maxValueSize]] at size
  have keySize : "k".utf8ByteSize = 1 := rfl
  generalize oversizedValue = value at size ⊢
  let engine := LsmEngine.new (2 ^ 26) (.leveled (Leveled.new 4 4 1000 smallBlocks))
    smallBlocks
  have logged : engine.Logged := LsmEngine.logged_empty rfl rfl
  have roomy : (engine.write "k" (some value) none).isFull = false :=
    LsmEngine.isFull_write_new (by omega) _ _
  have short : "k".utf8ByteSize ≤ Server.maxKeyLen := by
    simp only [Server.maxKeyLen]
    omega
  have limit : Server.maxRequestBytes = 6292480 := by decide
  have small : 8 + "k".utf8ByteSize + value.utf8ByteSize ≤ Server.maxRequestBytes := by
    omega
  obtain ⟨bytes, request⟩ := request_write short small
  refine ⟨bytes, engine.write "k" (some value) none, request, ?_, ?_⟩
  · change LsmEngine.finishWrite _ _ = _
    rw [LsmEngine.finishWrite, roomy]
    rfl
  · intro maxMemtableBytes strategy settings reopened opened
    have small : ((some value).getD "").utf8ByteSize < uintBound := by
      rw [Option.getD_some, size, uintBound]
      omega
    have fits := (logged.reopen_write_iff (by rw [keySize, uintBound]; omega) small none
      maxMemtableBytes strategy settings).mp ⟨reopened, opened⟩
    have within : value.utf8ByteSize ≤ maxValueSize := fits.2
    rw [size, maxValueSize] at within
    omega

end Rustikv.Lsm

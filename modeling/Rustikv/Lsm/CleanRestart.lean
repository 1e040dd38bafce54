import Rustikv.Lsm.Linearizable
import Rustikv.Lsm.Restores

/-! Restarts of the LSM engine: the log brings back the active memtable, and the files of
the tables bring back the strategy.
-/

namespace Rustikv.Lsm

open Library

-----------------------------------------------------------------------------------------
-- The log
-----------------------------------------------------------------------------------------

namespace LsmEngine

/-- The log holds the writes that the active memtable holds. -/
def Logged (engine : LsmEngine) : Prop :=
  ∃ records,
    engine.wal = Record.codec.encodeAll records
    ∧ (∀ record ∈ records, Record.codec.Valid record)
    ∧ ∀ key, engine.active.entry key = (latest Record.key records key).map Record.entry

variable {engine other : LsmEngine}

theorem logged_empty (wal : engine.wal = []) (active : engine.active = Memtable.new)
    : engine.Logged :=
  ⟨[], by simp [wal], by simp, by simp [active]⟩

/-- Replaying the log brings back the active memtable. -/
theorem Logged.replay (logged : engine.Logged)
    : ∃ memtable,
        Wal.replay engine.wal = .ok memtable
        ∧ ∀ key, memtable.entry key = engine.active.entry key := by
  obtain ⟨records, wal, valid, active⟩ := logged
  obtain ⟨memtable, replayed, entries⟩ := Wal.replay_encodeAll valid
  exact ⟨memtable, wal ▸ replayed, fun key => by rw [entries, active]⟩

/-- One more record in the log is one more write in the memtable. -/
theorem Logged.append (logged : engine.Logged) {record : Record}
    (valid : Record.codec.Valid record) (active : Memtable)
    (written
      : ∀ key,
          active.entry key
          = if record.key = key then some record.entry else engine.active.entry key)
    : Logged { engine with wal := engine.wal ++ record.toBeBytes, active } := by
  obtain ⟨records, wal, each, entries⟩ := logged
  refine ⟨records ++ [record], ?_, ?_, ?_⟩
  · rw [wal, FrameCodec.encodeAll_append, FrameCodec.encodeAll_cons,
      FrameCodec.encodeAll_nil, List.append_nil]
    rfl
  · intro other member
    rcases List.mem_append.mp member with old | last
    · exact each other old
    · rwa [List.mem_singleton.mp last]
  · intro key
    rw [written key, latest_concat, entries key]
    split <;> simp_all

theorem Logged.write (logged : engine.Logged) {key : String} {value : Option String}
    (fits : Record.Fits key (value.getD "")) (expiryMs : Option UInt64)
    : (engine.write key value expiryMs).Logged := by
  cases value with
  | none =>
      have valid : Record.codec.Valid (Wal.record key "" true none).sealed :=
        ⟨(Record.wellFormed_make fits _ _).sealed, rfl⟩
      have appended := logged.append valid (engine.active.remove key) (by
        intro other
        rw [Memtable.entry_remove, Wal.record, Record.entry_sealed_make]
        rfl)
      rwa [Record.toBeBytes_sealed] at appended
  | some value =>
      have valid : Record.codec.Valid (Wal.record key value false expiryMs).sealed :=
        ⟨(Record.wellFormed_make fits _ _).sealed, rfl⟩
      have appended := logged.append valid (engine.active.insert key value expiryMs) (by
        intro other
        rw [Memtable.entry_insert, Wal.record, Record.entry_sealed_make]
        rfl)
      rwa [Record.toBeBytes_sealed] at appended

/-- Engines with the same active memtable, an empty slot and tables that read alike answer
every `get` alike.
-/
theorem get_congr (valid : ∀ table ∈ engine.strategy.iterAll, table.Valid)
    (validOther : ∀ table ∈ other.strategy.iterAll, table.Valid)
    (active : ∀ key, other.active.entry key = engine.active.entry key)
    (empty : engine.immutable = none) (emptyOther : other.immutable = none) {key : String}
    (versions : other.strategy.version key = engine.strategy.version key)
    (clock : Nat → UInt64)
    : other.get key clock = engine.get key clock := by
  have tables : lookupTables key (clock 1) (other.strategy.iterForKey key)
      = lookupTables key (clock 1) (engine.strategy.iterForKey key) := by
    rw [StorageStrategy.iterForKey, StorageStrategy.iterForKey,
      lookupTables_filter validOther, lookupTables_filter valid,
      ← StorageStrategy.version, ← StorageStrategy.version, versions]
  simp only [get, find, lookup, active key, empty, emptyOther, tables]

end LsmEngine

/-- Adding a table loses none and adds no other. -/
theorem StorageStrategy.iterAll_addSstable {strategy next : StorageStrategy} {sst : SSTable}
    (added : strategy.addSstable sst = .ok next)
    : next.iterAll.Perm (sst :: strategy.iterAll) := by
  cases strategy with
  | leveled strategy =>
      obtain ⟨other, done, rest⟩ := bind_eq_ok.mp added
      obtain rfl := Except.ok.inj rest
      unfold Leveled.addSstable at done
      split at done
      next l0 levels shape =>
        obtain rfl := Except.ok.inj done
        refine List.Perm.of_eq ?_
        simp [iterAll, Leveled.iterAll, shape, Level.iter, Level.append]
      next => cases done
  | sizeTiered strategy =>
      obtain rfl := Except.ok.inj added
      have filed := SizeTiered.flatten_addSstable strategy sst
      refine (List.reverse_perm _).trans (filed.trans ?_)
      exact (List.perm_append_singleton sst _).trans ((List.reverse_perm _).symm.cons sst)

-----------------------------------------------------------------------------------------
-- Interleavings
-----------------------------------------------------------------------------------------

namespace System

/-- The tables enter the strategy with increasing timestamps, and timestamps fit `u64`. -/
def stampsInOrder (system : System) : Action → Bool
  | .advance thread _ stamp _ =>
      match system.threads[thread]? with
      | some .install =>
          stamp 0 < uintBound && system.engine.strategy.isNewest (stamp 0)
      | some .merge =>
          (List.range system.engine.strategy.mergeCount).all (fun i => stamp i < uintBound)
      | some .compactStep => stamp 0 < uintBound
      | _ => true
  | .background timestamp =>
      match system.flusher with
      | .spawned => timestamp < uintBound
      | .built sst => system.engine.strategy.isNewest sst.path.timestamp
      | _ => true
  | .invoke _ _ _ => true

/-- The log and the table files hold what the engine holds, except for what is on its way
from the immutable memtable to a table.
-/
structure Restorable (config : StrategyConfig) (system : System) : Prop where
  logged : system.engine.Logged
  restores : config.Restores system.engine.strategy
  bounded : ∀ table ∈ system.engine.strategy.iterAll, table.path.Bounded
  pending
    : ∀ sst,
        system.flusher.table = some sst
        → sst.path.level = none ∧ sst.path.timestamp < uintBound

variable {config : StrategyConfig} {system next : System} {written last : Writes}
  {since until_ : UInt64} {action : Action}

theorem restorable_start (config : StrategyConfig) (maxMemtableBytes : Nat)
    (settings : BlockSettings)
    : (start (LsmEngine.new maxMemtableBytes config.new settings)).Restorable config where
  logged := LsmEngine.logged_empty rfl rfl
  restores := config.restores_new
  bounded := by simp [start, LsmEngine.new, config.new_isNew.iterAll]
  pending := by simp [start, Flusher.table]

theorem Restorable.write (restorable : system.Restorable config) {key : String}
    {value : Option String} (fits : Record.Fits key (value.getD ""))
    (expiryMs : Option UInt64)
    : Restorable config { system with engine := system.engine.write key value expiryMs } :=
  { restorable with logged := restorable.logged.write fits expiryMs }

/-- A flushed table that is the newest one is added. -/
theorem Restorable.add (restorable : system.Restorable config) {sst : SSTable}
    {strategy : StorageStrategy} (unleveled : sst.path.level = none)
    (stamped : sst.path.timestamp < uintBound)
    (newest : system.engine.strategy.isNewest sst.path.timestamp = true)
    (added : system.engine.strategy.addSstable sst = .ok strategy)
    : config.Restores strategy ∧ ∀ table ∈ strategy.iterAll, table.path.Bounded := by
  refine ⟨restorable.restores.addSstable unleveled newest added, ?_⟩
  intro table member
  have held := (StorageStrategy.iterAll_addSstable added).mem_iff.mp member
  rcases List.mem_cons.mp held with rfl | old
  · exact ⟨stamped, by simp [unleveled]⟩
  · exact restorable.bounded table old

theorem Restorable.install (restorable : system.Restorable config) {timestamp : Nat}
    {engine : LsmEngine} (stamped : timestamp < uintBound)
    (newest : system.engine.strategy.isNewest timestamp = true)
    (installs : system.engine.install timestamp = .ok engine)
    : engine.Logged
      ∧ config.Restores engine.strategy
      ∧ ∀ table ∈ engine.strategy.iterAll, table.path.Bounded := by
  unfold LsmEngine.install at installs
  obtain ⟨sst, flushed, rest⟩ := bind_eq_ok.mp installs
  obtain ⟨strategy, added, rest⟩ := bind_eq_ok.mp rest
  obtain rfl := Except.ok.inj rest
  obtain ⟨-, rfl⟩ := LsmEngine.flushTable_eq_ok.mp flushed
  refine ⟨LsmEngine.logged_empty rfl rfl, restorable.add ?_ ?_ ?_ added⟩
  · rw [LsmEngine.tableFor, SSTable.path_fromMemtable]
  · rwa [LsmEngine.tableFor, SSTable.path_fromMemtable]
  · rwa [LsmEngine.tableFor, SSTable.path_fromMemtable]

/-- Every step keeps the files up to date. Without a leveled strategy this is only so as
long as no thread compacts.
-/
theorem Restorable.moves (restorable : system.Restorable config) (formed : system.Formed)
    (plain : system.Uncompacted ∨ config.IsLeveled)
    (stamped : system.stampsInOrder action = true)
    (moves : Moves system written since action next last until_)
    : next.Restorable config := by
  have leveled : ∀ (thread : Nat) (task : Task), system.threads[thread]? = some task
      → task.compacts = true → config.IsLeveled := by
    intro thread task was compacts
    refine plain.resolve_left (fun uncompacted => ?_)
    rw [uncompacted.tasks thread task was] at compacts
    cases compacts
  cases moves with
  | invoked begins => exact { restorable with }
  | answered result => exact { restorable with }
  | checked found was => exact { restorable with }
  | wrote was =>
      have limit := formed.fits _ _ was
      exact { restorable.write (by simpa [Task.fits] using limit) _ with }
  | retimed reply was found =>
      exact { restorable.write (formed.healthy.fits_of_find found) _ with }
  | joined can => exact { restorable with }
  | swapped holds => exact { restorable with logged := LsmEngine.logged_empty rfl rfl }
  | spawned reply holds =>
      exact { restorable with pending := by simp [System.setTask, Flusher.table] }
  | released was can => exact { restorable with }
  | installed was free installs apart =>
      simp only [stampsInOrder, was, Bool.and_eq_true, decide_eq_true_eq] at stamped
      obtain ⟨logged, restores, bounded⟩ := restorable.install stamped.1 stamped.2 installs
      exact ⟨logged, restores, bounded, restorable.pending⟩
  | merged was compacts apart =>
      simp only [stampsInOrder, was, List.all_eq_true, List.mem_range,
        decide_eq_true_eq] at stamped
      obtain ⟨restores, bounded⟩ := restorable.restores.compactAll (leveled _ _ was rfl)
        formed.healthy.sound restorable.bounded stamped compacts
      exact ⟨restorable.logged, restores, bounded, restorable.pending⟩
  | stepped was compacts apart =>
      simp only [stampsInOrder, was, decide_eq_true_eq] at stamped
      obtain ⟨restores, bounded⟩ := restorable.restores.compactIfNeeded (leveled _ _ was rfl)
        formed.healthy.sound restorable.bounded stamped compacts
      exact ⟨restorable.logged, restores, bounded, restorable.pending⟩
  | created state slot creates =>
      simp only [stampsInOrder, state, decide_eq_true_eq] at stamped
      obtain ⟨-, rfl⟩ := LsmEngine.flushTable_eq_ok.mp creates
      refine ⟨restorable.logged, restorable.restores, restorable.bounded, ?_⟩
      rintro sst ⟨⟩
      rw [LsmEngine.tableFor, SSTable.path_fromMemtable]
      exact ⟨rfl, stamped⟩
  | refused state slot fails =>
      exact { restorable with pending := by simp [Flusher.table] }
  | skipped state slot =>
      exact { restorable with pending := by simp [Flusher.table] }
  | wroteBlock state more =>
      refine { restorable with pending := ?_ }
      rintro _ ⟨⟩
      exact restorable.pending _ (by rw [state]; rfl)
  | finished state all =>
      refine { restorable with pending := ?_ }
      rintro _ ⟨⟩
      exact restorable.pending _ (by rw [state]; rfl)
  | added state adds =>
      simp only [stampsInOrder, state] at stamped
      obtain ⟨unleveled, bound⟩ := restorable.pending _ (by rw [state]; rfl)
      obtain ⟨restores, bounded⟩ := restorable.add unleveled bound stamped adds
      exact ⟨restorable.logged, restores, bounded, by simp [Flusher.table]⟩
  | poisoned state fails =>
      exact { restorable with pending := by simp [Flusher.table] }
  | cleared state =>
      exact { restorable with pending := by simp [Flusher.table] }

end System

/-- The calls fit the record format, and tables are added in the order of their timestamps. -/
def System.inOrder (system : System) (action : Action) : Bool :=
  action.fits && system.stampsInOrder action

theorem Interleaves.restorable {permitted : System → Action → Bool}
    {config : StrategyConfig} {maxMemtableBytes : Nat} {settings : BlockSettings}
    {system : System} {written : Writes} {since : UInt64}
    (reached
      : Interleaves permitted (LsmEngine.new maxMemtableBytes config.new settings) system
          written since)
    (inOrder : ∀ system action, permitted system action = true → system.inOrder action = true)
    (plain
      : ∀ system written since,
          Interleaves permitted (LsmEngine.new maxMemtableBytes config.new settings) system
            written since
          → system.Uncompacted ∨ config.IsLeveled)
    : system.Formed ∧ system.Restorable config := by
  have healthy := LsmEngine.healthy_new config.new_isNew.sound maxMemtableBytes settings
  have fits : ∀ system action, permitted system action = true → action.fits = true :=
    fun system action allowed => (Bool.and_eq_true_iff.mp (inOrder system action allowed)).1
  induction reached with
  | start =>
      exact ⟨System.formed_start healthy rfl, System.restorable_start config _ settings⟩
  | step reached timely allowed taken ih =>
      have stamped := (Bool.and_eq_true_iff.mp (inOrder _ _ allowed)).2
      have moves := System.Moves.of_step Writes.none 0 taken
      exact ⟨ih.1.moves (fits _ _ allowed) moves,
        ih.2.moves ih.1 (plain _ _ _ reached) stamped moves⟩

-----------------------------------------------------------------------------------------
-- Clean restarts
-----------------------------------------------------------------------------------------

/-- With no call and no flush under way, an engine loaded from the log and the table files
answers every `get` as the engine did.
-/
theorem leveled_restart_transparent {numLevels : Nat} (few : numLevels ≤ uintBound)
    (l0Threshold l1MaxBytes maxMemtableBytes : Nat) (settings tableSettings : BlockSettings)
    {dbName : String} (safe : safeName dbName = true) {system : System} {written : Writes}
    {since : UInt64}
    (reached
      : Interleaves System.inOrder
          (LsmEngine.new maxMemtableBytes
            (.leveled (Leveled.new numLevels l0Threshold l1MaxBytes settings))
            tableSettings)
          system written since)
    (quiet : system.quiescent = true) {directory : List TableFile}
    (lists : Lists dbName directory system.engine.strategy.iterAll)
    : ∃ strategy engine,
        Leveled.loadFromDir dbName directory numLevels l0Threshold l1MaxBytes settings
          = .ok strategy
        ∧ LsmEngine.fromDir system.engine.wal maxMemtableBytes (.leveled strategy)
            tableSettings
          = .ok engine
        ∧ ∀ key clock, engine.get key clock = system.engine.get key clock := by
  let config := StrategyConfig.leveled numLevels l0Threshold l1MaxBytes settings
  have leveled : config.IsLeveled := ⟨_, _, _, _, rfl, few⟩
  have kept : system.Formed ∧ system.Restorable config :=
    Interleaves.restorable reached (fun _ _ allowed => allowed) (fun _ _ _ _ => .inr leveled)
  obtain ⟨formed, restorable⟩ := kept
  simp only [System.quiescent, Bool.and_eq_true, Option.isNone_iff_eq_none] at quiet
  obtain ⟨⟨⟨-, unlocked⟩, idle⟩, -⟩ := quiet
  have empty := formed.emptied idle (by simp [unlocked])
  obtain ⟨memtable, replayed, entries⟩ := restorable.logged.replay
  have sound := formed.healthy.sound
  obtain ⟨next, loaded, soundNext, -, -, versions⟩ := restorable.restores.loadFromDir sound
    (fun table member => (restorable.bounded table member).recognised safe) lists
  obtain ⟨strategy, done, rest⟩ := bind_eq_ok.mp loaded
  obtain rfl := Except.ok.inj rest
  refine ⟨strategy, _, done, by rw [LsmEngine.fromDir, replayed]; rfl, ?_⟩
  intro key clock
  exact LsmEngine.get_congr sound.valid soundNext.valid entries empty rfl (versions key)
    clock

/-- The files of the tables and nothing else. -/
theorem lists_files (dbName : String) (tables : List SSTable)
    : Lists dbName (tables.map (SSTable.file dbName)) tables :=
  ⟨[], by simp, by simp⟩

/-- Witness: one key in a table of level 1, another one in the log only. -/
theorem leveled_restart_transparent_logged
    : ∃ system written since strategy engine,
        Interleaves System.inOrder
          (LsmEngine.new 3 (.leveled (Leveled.new 3 1 1000 smallBlocks)) smallBlocks)
          system written since
        ∧ system.quiescent = true
        ∧ system.engine.get "k" (fun _ => 20) = .ok (some ("k", "vv"))
        ∧ system.engine.get "l" (fun _ => 20) = .ok (some ("l", "w"))
        ∧ Leveled.loadFromDir "db"
            (system.engine.strategy.iterAll.map (SSTable.file "db")) 3 1 1000 smallBlocks
          = .ok strategy
        ∧ LsmEngine.fromDir system.engine.wal 3 (.leveled strategy) smallBlocks = .ok engine
        ∧ ∀ key clock, engine.get key clock = system.engine.get key clock := by
  let actions := setAndFinish "k" "vv" 1
    ++ [.invoke 0 .compactStep 10, turn 0 2, .invoke 0 (.set "l" "w") 10, turn 0 0]
  have computed : (interleave System.inOrder actions
      (System.start
        (LsmEngine.new 3 (.leveled (Leveled.new 3 1 1000 smallBlocks)) smallBlocks))
      Writes.none).any
      (fun final =>
        final.1.quiescent
        && (final.1.engine.get "k" (fun _ => 20)).toOption = some (some ("k", "vv"))
        && (final.1.engine.get "l" (fun _ => 20)).toOption = some (some ("l", "w")))
      = true := by
    decide +kernel
  simp only [Option.any_eq_true, toOption_eq_some, Bool.and_eq_true, decide_eq_true_eq]
    at computed
  obtain ⟨⟨system, written⟩, ran, ⟨quiet, flushed⟩, logged⟩ := computed
  obtain ⟨since, reached, -⟩ := Interleaves.start.interleave 10 (by decide)
    (by simp [actions, setAndFinish, turn, Action.At]) ran
  obtain ⟨strategy, engine, loaded, opened, same⟩ :=
    leveled_restart_transparent (by decide : 3 ≤ uintBound) 1 1000 3 smallBlocks smallBlocks
      (by decide +kernel : safeName "db" = true) reached quiet (lists_files "db" _)
  exact ⟨system, written, since, strategy, engine, reached, quiet, flushed, logged, loaded,
    opened, same⟩

/-- The flush thread creates its table, and a compaction step squashes level 0 before the
table is added. Tables 1, 2 and 3 are created in this order.
-/
def squashBesideFlush : List Action :=
  setAndFinish "k" "u" 1
    ++ [.invoke 0 (.set "k" "v") 10, turn 0 0, turn 0 0, turn 0 0, turn 0 0, .background 2,
      .invoke 0 .compactStep 10, turn 0 3, .background 2, .background 2, .background 2,
      .background 2]

/-- Tables created in order are not always added in order: the table of the overwritten
value has the later timestamp, and after a restart it is read first.
-/
theorem leveled_restart_reads_old_value
    : ∃ system written since strategy engine,
        interleave (fun _ action => action.fits) squashBesideFlush
          (System.start
            (LsmEngine.new 1 (.leveled (Leveled.new 1 1 1000 smallBlocks)) smallBlocks))
          Writes.none
        = some (system, written)
        ∧ Interleaves (fun _ action => action.fits)
            (LsmEngine.new 1 (.leveled (Leveled.new 1 1 1000 smallBlocks)) smallBlocks)
            system written since
        ∧ system.quiescent = true
        ∧ system.engine.strategy.iterAll.map (fun table => table.path.timestamp) = [2, 3]
        ∧ system.engine.get "k" (fun _ => 10) = .ok (some ("k", "v"))
        ∧ Leveled.loadFromDir "db"
            (system.engine.strategy.iterAll.map (SSTable.file "db")) 1 1 1000 smallBlocks
          = .ok strategy
        ∧ LsmEngine.fromDir system.engine.wal 1 (.leveled strategy) smallBlocks = .ok engine
        ∧ engine.get "k" (fun _ => 10) = .ok (some ("k", "u")) := by
  have computed : (interleave (fun _ action => action.fits) squashBesideFlush
      (System.start
        (LsmEngine.new 1 (.leveled (Leveled.new 1 1 1000 smallBlocks)) smallBlocks))
      Writes.none).any
      (fun final =>
        final.1.quiescent
        && final.1.engine.strategy.iterAll.map (fun table => table.path.timestamp) = [2, 3]
        && (final.1.engine.get "k" (fun _ => 10)).toOption = some (some ("k", "v"))
        && (Leveled.loadFromDir "db"
            (final.1.engine.strategy.iterAll.map (SSTable.file "db")) 1 1 1000
            smallBlocks).toOption.any
          (fun strategy =>
            (LsmEngine.fromDir final.1.engine.wal 1 (.leveled strategy)
              smallBlocks).toOption.any
              (fun engine =>
                (engine.get "k" (fun _ => 10)).toOption = some (some ("k", "u")))))
      = true := by
    decide +kernel
  simp only [Option.any_eq_true, toOption_eq_some, Bool.and_eq_true, decide_eq_true_eq]
    at computed
  obtain ⟨⟨system, written⟩, ran, ⟨⟨quiet, order⟩, before⟩, strategy, loaded, engine, opened,
    after⟩ := computed
  obtain ⟨since, reached, -⟩ := Interleaves.start.interleave 10 (by decide)
    (by simp [squashBesideFlush, setAndFinish, turn, Action.At]) ran
  exact ⟨system, written, since, strategy, engine, ran, reached, quiet, order, before,
    loaded, opened, after⟩

end Rustikv.Lsm

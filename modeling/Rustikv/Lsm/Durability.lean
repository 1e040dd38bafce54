import Rustikv.Lsm.CleanRestart

/-! Crashes of an LSM engine that flushes in the background. The swap of the memtables
truncates the log before the flush thread has written its table, so a crash in between
loses what is neither in a file nor in the new log.
-/

namespace Rustikv.Lsm

open Library

-----------------------------------------------------------------------------------------
-- What a crash leaves
-----------------------------------------------------------------------------------------

/-- The file of the flush thread, as far as it is written. -/
def Flusher.file (dbName : String) : Flusher → Option TableFile
  | .writing sst count =>
      some { name := sst.path.fileName dbName, blocks := sst.blocks.take count }
  | .built sst => some (sst.file dbName)
  | _ => none

/-- The table that this file holds. -/
def Flusher.written : Flusher → Option SSTable
  | .writing sst count =>
      (SSTable.rebuildIndex sst.path (sst.blocks.take count)).toOption
  | .built sst => some sst
  | _ => none

namespace System

/-- The table files that a crash leaves. -/
def files (system : System) (dbName : String) : List TableFile :=
  system.engine.strategy.iterAll.map (SSTable.file dbName)
  ++ (system.flusher.file dbName).toList

/-- What the immutable memtable says about a key. -/
def slotEntry (system : System) (key : String) : Option MemtableEntry :=
  system.engine.immutable.bind (fun memtable => memtable.entry key)

/-- A key outlives a crash: it is in the log, or not in the immutable memtable, or in what
the flush thread has written, in a table that will be read before the older ones. -/
def survivesCrash (system : System) (key : String) : Bool :=
  let logged := (system.engine.active.entry key).isSome || (system.slotEntry key).isNone
  match system.flusher with
  | .poisoned => false
  | .clearing => true
  | flusher =>
      match flusher.written with
      | some table =>
          system.engine.strategy.isNewest table.path.timestamp
          && system.engine.strategy.addsInFront table key
          && (logged || (table.version key).isSome)
      | none => logged

variable {system : System} {written : Writes} {since : UInt64} {key : String}

/-- The file of the flush thread holds a part of the immutable memtable. -/
theorem Formed.written_file (formed : system.Formed)
    (front : system.InFront written since key) (dbName : String)
    : (system.flusher.file dbName = none ∧ system.flusher.written = none)
      ∨ ∃ sst table,
          system.flusher.table = some sst
          ∧ system.flusher.written = some table
          ∧ system.flusher.file dbName = some (table.file dbName)
          ∧ table.Valid
          ∧ table.path = sst.path
          ∧ ∀ entry, table.version key = some entry → system.slotEntry key = some entry := by
  cases state : system.flusher with
  | writing sst count =>
      obtain ⟨memtable, path, slot, rfl⟩ := formed.reads sst count state
      have storable := formed.healthy.immutable memtable slot
      obtain ⟨table, rebuilt, valid, samePath, blocks, versions⟩ :=
        SSTable.rebuildIndex_take system.engine.settings path storable count
      have named : (SSTable.fromMemtable system.engine.settings path memtable).path = path :=
        SSTable.path_fromMemtable _ _ _
      refine .inr ⟨_, table, rfl, ?_, ?_, valid, samePath.trans named.symm, ?_⟩
      · rw [Flusher.written, named, rebuilt]
        rfl
      · rw [Flusher.file, SSTable.file, samePath, blocks, named]
      · intro entry held
        rw [slotEntry, slot]
        exact versions key entry held
  | built sst =>
      have held : system.flusher.table = some sst := by
        rw [state]
        rfl
      obtain ⟨memtable, slot, same⟩ := front.building sst held
      refine .inr ⟨sst, sst, rfl, rfl, rfl, (formed.table sst held).1, rfl, ?_⟩
      intro entry found
      rw [slotEntry, slot, Option.bind_some, ← same, found]
  | _ => exact .inl ⟨rfl, rfl⟩

end System

/-- An engine opened on the log of another one and on loaded tables reads the log first. -/
theorem LsmEngine.Logged.reopen {engine : LsmEngine} (logged : engine.Logged)
    (maxMemtableBytes : Nat) {strategy : StorageStrategy}
    (valid : ∀ table ∈ strategy.iterAll, table.Valid) (settings : BlockSettings)
    : ∃ reopened,
        LsmEngine.fromDir engine.wal maxMemtableBytes strategy settings = .ok reopened
        ∧ ∀ key clock,
            ∃ readMs,
              (readMs = clock 0 ∨ readMs = clock 1)
              ∧ reopened.get key clock
                = .ok ((readAt ((engine.active.entry key).or (strategy.version key))
                    readMs).map (fun value => (key, value))) := by
  obtain ⟨memtable, replayed, entries⟩ := logged.replay
  let reopened : LsmEngine := {
    active := memtable
    immutable := none
    wal := engine.wal
    maxMemtableBytes
    strategy
    settings
  }
  refine ⟨reopened, by rw [LsmEngine.fromDir, replayed]; rfl, ?_⟩
  intro key clock
  have same : reopened.version key
      = (engine.active.entry key).or (strategy.version key) := by
    rw [← entries key]
    rfl
  obtain ⟨readMs, either, found⟩ :=
    LsmEngine.find_eq (show ∀ table ∈ reopened.strategy.iterAll, table.Valid from valid) key
      (clock 0) (clock 1)
  rw [same] at found
  refine ⟨readMs, either, ?_⟩
  rw [LsmEngine.get, found]
  rfl

/-- There is a level to load tables into. -/
def StrategyConfig.HasLevel : StrategyConfig → Prop
  | .leveled numLevels _ _ _ => 0 < numLevels
  | .sizeTiered _ _ _ => True

theorem StrategyConfig.Restores.addSstable_ok {config : StrategyConfig}
    {strategy : StorageStrategy} (restores : config.Restores strategy)
    (hasLevel : config.HasLevel) (sst : SSTable)
    : ∃ next, strategy.addSstable sst = .ok next := by
  cases restores with
  | leveled filed ascending count =>
      rename_i strategy
      obtain ⟨l0, rest, shape⟩ := List.exists_cons_of_length_pos (count ▸ hasLevel)
      refine ⟨.leveled { strategy with levels := l0.append sst :: rest }, ?_⟩
      simp only [StorageStrategy.addSstable, Leveled.addSstable, shape]
      rfl
  | sizeTiered filed => exact ⟨_, rfl⟩

namespace System

variable {config : StrategyConfig} {system : System} {written : Writes} {since : UInt64}
  {key : String}

/-- After a crash the tables are loaded again, with what the flush thread has written of its
table as the newest one.
-/
theorem Restorable.loadFromDir (restorable : system.Restorable config)
    (formed : system.Formed) (front : system.InFront written since key)
    (hasLevel : config.HasLevel) (survives : system.survivesCrash key = true)
    {dbName : String} (safe : safeName dbName = true) {directory others : List TableFile}
    (perm : directory.Perm (system.files dbName ++ others))
    (ignored : ∀ file ∈ others, file.pathIn dbName = none)
    : ∃ strategy,
        config.loadFromDir dbName directory = .ok strategy
        ∧ strategy.Sound
        ∧ StandsFor since
            ((system.engine.active.entry key).or (strategy.version key)) (written key) := by
  have sound := formed.healthy.sound
  have known : ∀ table ∈ system.engine.strategy.iterAll,
      table.path.recognised dbName = true :=
    fun table member => (restorable.bounded table member).recognised safe
  have live : StandsFor since
      ((system.engine.active.entry key).or
        ((system.slotEntry key).or (system.engine.strategy.version key)))
      (written key) := front.stands
  rcases formed.written_file front dbName with
    ⟨noFile, noTable⟩ | ⟨sst, table, pending, isWritten, isFile, valid, samePath, part⟩
  · have lists : Lists dbName directory system.engine.strategy.iterAll := by
      refine ⟨others, ?_, ignored⟩
      simpa [files, noFile] using perm
    obtain ⟨strategy, loaded, soundNext, -, -, versions⟩ :=
      restorable.restores.loadFromDir sound known lists
    refine ⟨strategy, loaded, soundNext, ?_⟩
    rw [versions key]
    by_cases clearing : system.flusher = .clearing
    · exact front.without_slot clearing
    · have logged : (system.engine.active.entry key).isSome = true
          ∨ system.slotEntry key = none := by
        simp only [survivesCrash] at survives
        split at survives
        · cases survives
        · contradiction
        · simpa [noTable] using survives
      rcases logged with active | absent
      · obtain ⟨entry, held⟩ := Option.isSome_iff_exists.mp active
        simpa [held] using live
      · simpa [absent] using live
  · have conditions : system.engine.strategy.isNewest table.path.timestamp = true
        ∧ system.engine.strategy.addsInFront table key = true
        ∧ (((system.engine.active.entry key).isSome = true ∨ system.slotEntry key = none)
          ∨ (table.version key).isSome = true) := by
      simp only [survivesCrash] at survives
      split at survives
      next state =>
        rw [state] at pending
        cases pending
      next state =>
        rw [state] at pending
        cases pending
      next =>
        simp only [isWritten, Bool.and_eq_true, Bool.or_eq_true,
          Option.isNone_iff_eq_none] at survives
        exact ⟨survives.1.1, survives.1.2, survives.2⟩
    obtain ⟨newest, filed, covered⟩ := conditions
    obtain ⟨unleveled, stamped⟩ := restorable.pending sst pending
    rw [← samePath] at unleveled stamped
    have fresh : table.path ∉ system.engine.strategy.paths := by
      rw [samePath]
      exact (formed.table sst pending).2
    obtain ⟨next, added⟩ := restorable.restores.addSstable_ok hasLevel table
    obtain ⟨soundAdded, versionsAdded⟩ := sound.addSstable valid fresh added
    have all := StorageStrategy.iterAll_addSstable added
    have lists : Lists dbName directory next.iterAll := by
      refine ⟨others, perm.trans (List.Perm.append_right others ?_), ignored⟩
      refine List.Perm.trans ?_ (all.map (SSTable.file dbName)).symm
      rw [files, isFile]
      exact List.perm_append_singleton _ _
    obtain ⟨strategy, loaded, soundNext, -, -, versions⟩ :=
      (restorable.restores.addSstable unleveled newest added).loadFromDir soundAdded (by
        intro other member
        rcases List.mem_cons.mp (all.mem_iff.mp member) with rfl | old
        · exact TablePath.Bounded.recognised ⟨stamped, by simp [unleveled]⟩ safe
        · exact known other old) lists
    refine ⟨strategy, loaded, soundNext, ?_⟩
    rw [versions key, versionsAdded key filed]
    cases held : table.version key with
    | some entry =>
        rw [part entry held] at live
        exact live
    | none =>
        rcases covered with (active | absent) | inTable
        · obtain ⟨entry, logged⟩ := Option.isSome_iff_exists.mp active
          simpa [logged] using live
        · simpa [absent] using live
        · simp [held] at inTable

end System

/-- The calls that write and read, of the right size and with tables named in order, where
each flushed table is filed in front of the tables that hold the key.
-/
def System.flushesInOrder (key : String) (system : System) (action : Action) : Bool :=
  !action.compacts && system.inOrder action && system.keepsInFront key action

theorem Interleaves.uncompacted {permitted : System → Action → Bool} {engine : LsmEngine}
    {system : System} {written : Writes} {since : UInt64}
    (reached : Interleaves permitted engine system written since)
    (plain : ∀ system action, permitted system action = true → action.compacts = false)
    : system.Uncompacted ∧ since = 0 := by
  induction reached with
  | start => exact ⟨System.uncompacted_start _, rfl⟩
  | step reached timely allowed taken ih =>
      obtain ⟨uncompacted, rfl⟩ := ih
      have moves := System.Moves.of_step Writes.none 0 taken
      obtain ⟨kept, unmerged, -⟩ := uncompacted.moves (plain _ _ allowed) moves
      exact ⟨kept, unmerged⟩

-----------------------------------------------------------------------------------------
-- Crashes
-----------------------------------------------------------------------------------------

end Rustikv.Lsm

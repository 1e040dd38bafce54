import Rustikv.Lsm.Leveled
import Rustikv.Lsm.SizeTiered

/-! What the lock sections of the engine do to the version of each key, for either
strategy.
-/

namespace Rustikv.Lsm

open Library

-----------------------------------------------------------------------------------------
-- Either strategy
-----------------------------------------------------------------------------------------

namespace StorageStrategy

/-- The strategies of an empty directory. -/
inductive New : StorageStrategy → Prop
  | leveled (numLevels l0Threshold l1MaxBytes : Nat) (settings : BlockSettings)
    : New (.leveled (Leveled.new numLevels l0Threshold l1MaxBytes settings))
  | sizeTiered (minThreshold maxThreshold : Nat) (settings : BlockSettings)
    : New (.sizeTiered (SizeTiered.new minThreshold maxThreshold settings))

def Sound : StorageStrategy → Prop
  | .leveled strategy => strategy.Sound
  | .sizeTiered strategy => strategy.Sound

/-- A table added next is read before every other table that holds the key. -/
def addsInFront (strategy : StorageStrategy) (sst : SSTable) (key : String) : Bool :=
  match strategy with
  | .leveled _ => true
  | .sizeTiered strategy => strategy.FiledInFront sst key

/-- No merge of a full compaction drops a dead record in front of a live one. -/
def safeAll (strategy : StorageStrategy) (clock : Nat → UInt64) (stamp : Nat → Nat) : Bool :=
  match strategy with
  | .leveled strategy => strategy.safeAll clock stamp
  | .sizeTiered _ => true

variable {strategy next : StorageStrategy}

theorem New.sound (new : strategy.New) : strategy.Sound := by
  cases new with
  | leveled numLevels l0Threshold l1MaxBytes settings => exact Leveled.sound_new _ _ _ _
  | sizeTiered minThreshold maxThreshold settings => exact SizeTiered.sound_new _ _ _

theorem New.iterAll (new : strategy.New) : strategy.iterAll = [] := by
  cases new with
  | leveled numLevels l0Threshold l1MaxBytes settings => exact Leveled.iterAll_new _ _ _ _
  | sizeTiered minThreshold maxThreshold settings => rfl

theorem Sound.valid (sound : strategy.Sound) : ∀ table ∈ strategy.iterAll, table.Valid := by
  intro table member
  cases strategy with
  | leveled strategy =>
      obtain ⟨level, inside, held⟩ := Leveled.mem_iterAll.mp member
      exact Leveled.Sound.valid sound level inside table held
  | sizeTiered strategy =>
      exact SizeTiered.Sound.valid sound table (List.mem_reverse.mp member)

theorem mem_paths_leveled {strategy : Leveled} {path : TablePath}
    : path ∈ (StorageStrategy.leveled strategy).paths
      ↔ path ∈ Leveled.paths strategy.levels := by
  simp only [StorageStrategy.paths, iterAll, List.mem_map, Leveled.mem_iterAll,
    Leveled.paths, List.mem_flatMap, Level.paths]
  constructor
  · rintro ⟨table, ⟨level, inside, held⟩, rfl⟩
    exact ⟨level, inside, table, held, rfl⟩
  · rintro ⟨level, inside, table, held, rfl⟩
    exact ⟨table, ⟨level, inside, held⟩, rfl⟩

theorem mem_paths_sizeTiered {strategy : SizeTiered} {path : TablePath}
    : path ∈ (StorageStrategy.sizeTiered strategy).paths
      ↔ path ∈ strategy.sstables.flatten.map SSTable.path := by
  simp [StorageStrategy.paths, iterAll, SizeTiered.iterAll]

theorem Sound.addSstable (sound : strategy.Sound) {sst : SSTable} (valid : sst.Valid)
    (fresh : sst.path ∉ strategy.paths) (done : strategy.addSstable sst = .ok next)
    : next.Sound
      ∧ ∀ key,
          strategy.addsInFront sst key = true
          → next.version key = (sst.version key).or (strategy.version key) := by
  cases strategy with
  | leveled strategy =>
      obtain ⟨other, added, rest⟩ := bind_eq_ok.mp done
      obtain rfl := Except.ok.inj rest
      obtain ⟨soundNext, -, versions⟩ := Leveled.Sound.addSstable sound valid
        (fun member => fresh (mem_paths_leveled.mpr member)) added
      exact ⟨soundNext, fun key _ => versions key⟩
  | sizeTiered strategy =>
      obtain rfl := Except.ok.inj done
      refine ⟨SizeTiered.Sound.addSstable sound valid
        (fun member => fresh (mem_paths_sizeTiered.mpr member)), ?_⟩
      intro key filed
      exact SizeTiered.version_addSstable (by simpa [addsInFront] using filed)

theorem Sound.compactIfNeeded (sound : strategy.Sound) {nowMs : UInt64} {timestamp : Nat}
    {ran : Bool} (done : strategy.compactIfNeeded nowMs timestamp = .ok (ran, next))
    : next.Sound := by
  cases strategy with
  | leveled strategy =>
      obtain ⟨⟨_, other⟩, compacted, rest⟩ := bind_eq_ok.mp done
      obtain ⟨rfl, rfl⟩ := Prod.mk.inj (Except.ok.inj rest)
      exact (Leveled.Sound.compactIfNeeded sound compacted).1
  | sizeTiered strategy =>
      obtain ⟨⟨_, other⟩, compacted, rest⟩ := bind_eq_ok.mp done
      obtain ⟨rfl, rfl⟩ := Prod.mk.inj (Except.ok.inj rest)
      exact SizeTiered.Sound.compactIfNeeded sound compacted

theorem Sound.compactAll (sound : strategy.Sound) {clock : Nat → UInt64}
    {stamp : Nat → Nat} (done : strategy.compactAll clock stamp = .ok next)
    : next.Sound
      ∧ ∀ bound,
          strategy.safeAll clock stamp = true
          → (∀ i, clock i ≤ bound)
          → ∀ key, StandsFor bound (next.version key) (strategy.version key) := by
  cases strategy with
  | leveled strategy =>
      obtain ⟨other, compacted, rest⟩ := bind_eq_ok.mp done
      obtain rfl := Except.ok.inj rest
      rw [Leveled.compactAll_eq] at compacted
      refine ⟨(Leveled.Sound.compactFrom sound compacted).1, ?_⟩
      intro bound safe timely key
      exact Leveled.Sound.compactFrom_standsFor sound (fun i _ => timely i) safe compacted
        key
  | sizeTiered strategy =>
      obtain ⟨other, compacted, rest⟩ := bind_eq_ok.mp done
      obtain rfl := Except.ok.inj rest
      obtain ⟨soundNext, stands⟩ := SizeTiered.Sound.compactAll sound compacted
      exact ⟨soundNext, fun bound _ timely key => (stands key).mono (timely 0)⟩

end StorageStrategy

-----------------------------------------------------------------------------------------
-- The engine
-----------------------------------------------------------------------------------------

/-- What was last written to each key, tombstones included. -/
abbrev Writes := String → Option MemtableEntry

def Writes.write (written : Writes) (key : String) (value : Option String)
    (expiryMs : Option UInt64)
    : Writes :=
  Function.update written key
    (some { value, expiryMs := value.bind (fun _ => expiryMs) })

theorem Writes.write_apply (written : Writes) (key other : String) (value : Option String)
    (expiryMs : Option UInt64)
    : written.write key value expiryMs other
      = if key = other then some { value, expiryMs := value.bind (fun _ => expiryMs) }
        else written other := by
  simp [Writes.write, Function.update_apply, eq_comm]

namespace LsmEngine

/-- What every section keeps, whatever the writes: the memtables can be flushed and the
tables read.
-/
structure Healthy (engine : LsmEngine) : Prop where
  sound : engine.strategy.Sound
  active : StorableTable engine.active
  immutable : ∀ memtable, engine.immutable = some memtable → StorableTable memtable

variable {engine next : LsmEngine}

theorem healthy_new {strategy : StorageStrategy} (sound : strategy.Sound)
    (maxMemtableBytes : Nat) (settings : BlockSettings)
    : (new maxMemtableBytes strategy settings).Healthy where
  sound := sound
  active := storableTable_new
  immutable := by simp [new]

/-- An engine without tables has no version of any key. -/
theorem version_new {strategy : StorageStrategy} (empty : strategy.iterAll = [])
    (maxMemtableBytes : Nat) (settings : BlockSettings) (key : String)
    : (new maxMemtableBytes strategy settings).version key = none := by
  simp [version, new, StorageStrategy.version, empty]

theorem Healthy.write (healthy : engine.Healthy) {key : String} {value : Option String}
    (fits : Record.Fits key (value.getD "")) (expiryMs : Option UInt64)
    : (engine.write key value expiryMs).Healthy where
  sound := healthy.sound
  active := by
    cases value with
    | none => exact healthy.active.remove fits.1
    | some value => exact healthy.active.insert fits expiryMs
  immutable := healthy.immutable

theorem version_write (engine : LsmEngine) (key : String) (value : Option String)
    (expiryMs : Option UInt64) (other : String)
    : (engine.write key value expiryMs).version other
      = if key = other then some { value, expiryMs := value.bind (fun _ => expiryMs) }
        else engine.version other := by
  cases value <;> by_cases same : key = other <;>
    simp [LsmEngine.write, applyWrite, version, same]

/-- A write goes through to the versions. -/
theorem standsFor_write {written : Writes} {since : UInt64} {other : String}
    (stands : StandsFor since (engine.version other) (written other)) (key : String)
    (value : Option String) (expiryMs : Option UInt64)
    : StandsFor since ((engine.write key value expiryMs).version other)
        (written.write key value expiryMs other) := by
  rw [version_write, Writes.write_apply]
  split
  · exact .refl
  · exact stands

/-- What a lookup finds is what was written last. -/
theorem find_written (healthy : engine.Healthy) {written : Writes} {since : UInt64}
    {key : String} (stands : StandsFor since (engine.version key) (written key))
    {nowMs tableMs : UInt64} (reached : since ≤ nowMs) (order : nowMs ≤ tableMs)
    : ∃ readMs,
        (readMs = nowMs ∨ readMs = tableMs)
        ∧ engine.find key nowMs tableMs = .ok (readAt (written key) readMs) := by
  obtain ⟨readMs, either, found⟩ := find_eq healthy.sound.valid key nowMs tableMs
  refine ⟨readMs, either, ?_⟩
  rw [found]
  congr 1
  refine stands.read ?_
  rcases either with rfl | rfl
  · exact reached
  · exact UInt64.le_trans reached order

/-- A get returns what was written last. -/
theorem get_written (healthy : engine.Healthy) {written : Writes} {since : UInt64}
    {key : String} (stands : StandsFor since (engine.version key) (written key))
    (clock : Nat → UInt64) (reached : since ≤ clock 0) (order : clock 0 ≤ clock 1)
    : ∃ readMs,
        (readMs = clock 0 ∨ readMs = clock 1)
        ∧ engine.get key clock
          = .ok ((readAt (written key) readMs).map (fun value => (key, value))) := by
  obtain ⟨readMs, either, found⟩ := find_written healthy stands reached order
  refine ⟨readMs, either, ?_⟩
  rw [get, found]
  rfl

theorem Healthy.swap (healthy : engine.Healthy) : engine.swap.Healthy where
  sound := healthy.sound
  active := storableTable_new
  immutable := by
    rintro memtable ⟨⟩
    exact healthy.active

/-- Swapping the memtables into an empty slot moves every version along. -/
theorem version_swap (empty : engine.immutable = none) (key : String)
    : engine.swap.version key = engine.version key := by
  simp [LsmEngine.swap, version, empty]

/-- The table that flushing a memtable creates. -/
def tableFor (engine : LsmEngine) (memtable : Memtable) (timestamp : Nat) : SSTable :=
  SSTable.fromMemtable engine.settings { level := none, timestamp } memtable

theorem flushTable_eq_ok {memtable : Memtable} {timestamp : Nat} {sst : SSTable}
    : engine.flushTable memtable timestamp = .ok sst
      ↔ ({ level := none, timestamp } : TablePath) ∉ engine.strategy.paths
        ∧ engine.tableFor memtable timestamp = sst :=
  createTable_eq_ok

/-- Adding the table of a memtable puts the memtable's entries in front of the tables. -/
theorem addSstable_flushed {strategy next : StorageStrategy} (sound : strategy.Sound)
    (settings : BlockSettings) {memtable : Memtable} (storable : StorableTable memtable)
    {path : TablePath} (fresh : path ∉ strategy.paths)
    (added : strategy.addSstable (SSTable.fromMemtable settings path memtable) = .ok next)
    : next.Sound
      ∧ ∀ key,
          strategy.addsInFront (SSTable.fromMemtable settings path memtable) key = true
          → next.version key = (memtable.entry key).or (strategy.version key) := by
  obtain ⟨soundNext, versions⟩ := sound.addSstable
    (SSTable.valid_fromMemtable settings path storable) fresh added
  refine ⟨soundNext, fun key filed => ?_⟩
  rw [versions key filed, SSTable.version_fromMemtable settings path storable]

/-- The pending flush, if there is one, adds its table in front. -/
def flushesInFront (engine : LsmEngine) (timestamp : Nat) (key : String) : Bool :=
  engine.immutable.all
    (fun memtable => engine.strategy.addsInFront (engine.tableFor memtable timestamp) key)

theorem Healthy.finishFlush (healthy : engine.Healthy) {timestamp : Nat}
    (done : engine.finishFlush timestamp = .ok next)
    : next.Healthy
      ∧ next.immutable = none
      ∧ next.active = engine.active
      ∧ ∀ key,
          engine.flushesInFront timestamp key = true
          → next.version key = engine.version key := by
  unfold LsmEngine.finishFlush at done
  cases slot : engine.immutable with
  | none =>
      simp only [slot] at done
      obtain rfl := Except.ok.inj done
      exact ⟨healthy, slot, rfl, fun _ _ => rfl⟩
  | some memtable =>
      simp only [slot] at done
      obtain ⟨sst, flushed, rest⟩ := bind_eq_ok.mp done
      obtain ⟨strategy, added, rest⟩ := bind_eq_ok.mp rest
      obtain rfl := Except.ok.inj rest
      obtain ⟨fresh, rfl⟩ := flushTable_eq_ok.mp flushed
      obtain ⟨sound, versions⟩ := addSstable_flushed healthy.sound engine.settings
        (healthy.immutable memtable slot) fresh added
      refine ⟨⟨sound, healthy.active, by simp⟩, rfl, rfl, fun key filed => ?_⟩
      simp only [flushesInFront, slot, Option.all_some] at filed
      simp only [version, Option.bind_none, Option.none_or, slot, Option.bind_some,
        versions key filed]

/-- Installing the active memtable as a table moves its versions along; whatever was in the
immutable slot is gone.
-/
theorem Healthy.install (healthy : engine.Healthy) {timestamp : Nat}
    (done : engine.install timestamp = .ok next)
    : next.Healthy
      ∧ next.immutable = none
      ∧ ∀ key,
          engine.strategy.addsInFront (engine.tableFor engine.active timestamp) key = true
          → next.version key
            = (engine.active.entry key).or (engine.strategy.version key) := by
  unfold LsmEngine.install at done
  obtain ⟨sst, flushed, rest⟩ := bind_eq_ok.mp done
  obtain ⟨strategy, added, rest⟩ := bind_eq_ok.mp rest
  obtain rfl := Except.ok.inj rest
  obtain ⟨fresh, rfl⟩ := flushTable_eq_ok.mp flushed
  obtain ⟨sound, versions⟩ := addSstable_flushed healthy.sound engine.settings
    healthy.active fresh added
  refine ⟨⟨sound, storableTable_new, by simp⟩, rfl, fun key filed => ?_⟩
  simp [version, versions key filed]

/-- Replacing the strategy by one that keeps what every key reads as. -/
theorem standsFor_strategy {strategy : StorageStrategy} {written : Writes}
    {since : UInt64} {key : String}
    (stands : StandsFor since (engine.version key) (written key))
    (keeps : StandsFor since (strategy.version key) (engine.strategy.version key))
    : StandsFor since (LsmEngine.version { engine with strategy } key) (written key) :=
  ((keeps.behind _).behind _).trans stands

end LsmEngine

end Rustikv.Lsm

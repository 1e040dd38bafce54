import Rustikv.Lsm.Reload

/-! When loading the directory again gives back a strategy that reads as before, for either
strategy.
-/

namespace Rustikv.Lsm

open Library

namespace SizeTiered

variable {strategy : SizeTiered} {minThreshold maxThreshold : Nat} {settings : BlockSettings}

/-- The buckets are what filing all tables anew, oldest first, makes of them. -/
def FiledByAge (minThreshold maxThreshold : Nat) (settings : BlockSettings)
    (strategy : SizeTiered)
    : Prop :=
  ∃ tables : List SSTable,
    tables.Pairwise SSTable.Before
    ∧ strategy = tables.foldl addSstable (new minThreshold maxThreshold settings)

theorem flatten_addSstable (strategy : SizeTiered) (sst : SSTable)
    : (strategy.addSstable sst).sstables.flatten.Perm
        (strategy.sstables.flatten ++ [sst]) := by
  obtain ⟨front, before, after⟩ := addSstable_split strategy sst
  rw [before, after, List.append_assoc]
  exact (List.perm_append_singleton sst _).symm.append_left front

/-- Filing loses no table and adds none. -/
theorem flatten_foldl_addSstable (tables : List SSTable) (strategy : SizeTiered)
    : (tables.foldl addSstable strategy).sstables.flatten.Perm
        (strategy.sstables.flatten ++ tables) := by
  induction tables generalizing strategy with
  | nil => simp
  | cons sst rest ih =>
      refine (ih (strategy.addSstable sst)).trans ?_
      have added := (flatten_addSstable strategy sst).append_right rest
      rwa [List.append_assoc] at added

theorem iterAll_perm (strategy : SizeTiered)
    : strategy.iterAll.Perm strategy.sstables.flatten :=
  List.reverse_perm _

/-- Filed by age, the strategy is loaded as it was. -/
theorem FiledByAge.loadFromDir
    (filed : FiledByAge minThreshold maxThreshold settings strategy)
    (valid : ∀ table ∈ strategy.iterAll, table.Valid) {dbName : String}
    (known : ∀ table ∈ strategy.iterAll, table.path.recognised dbName = true)
    {directory : List TableFile} (lists : Lists dbName directory strategy.iterAll)
    : SizeTiered.loadFromDir dbName directory minThreshold maxThreshold settings
      = .ok strategy := by
  obtain ⟨tables, ascending, built⟩ := filed
  have all := recognisedTables_eq known
  obtain ⟨sorted, perm, order, loaded⟩ := loadFromDir_eq lists
    (fun table member => valid table (List.mem_of_mem_filter member)) minThreshold
    maxThreshold settings
  have same : sorted.Perm tables := by
    rw [all] at perm
    refine perm.trans ((iterAll_perm strategy).trans ?_)
    rw [built]
    exact flatten_foldl_addSstable tables _
  rw [loaded, eq_of_ascending same order ascending, built]

/-- The newest table is filed last, before a restart and after it. -/
theorem FiledByAge.addSstable
    (filed : FiledByAge minThreshold maxThreshold settings strategy) {sst : SSTable}
    (newest : ∀ table ∈ strategy.sstables.flatten, table.Before sst)
    : FiledByAge minThreshold maxThreshold settings (strategy.addSstable sst) := by
  obtain ⟨tables, ascending, built⟩ := filed
  refine ⟨tables ++ [sst], ?_, by rw [List.foldl_append, ← built]; rfl⟩
  refine List.pairwise_append.mpr ⟨ascending, List.pairwise_singleton _ _, ?_⟩
  intro table member new isNew
  rw [List.mem_singleton.mp isNew]
  refine newest table ?_
  rw [built]
  exact (flatten_foldl_addSstable tables _).mem_iff.mpr (List.mem_append_right _ member)

/-- Filing a table changes the buckets only. -/
theorem FiledByAge.parameters
    (filed : FiledByAge minThreshold maxThreshold settings strategy)
    : { strategy with sstables := [] } = new minThreshold maxThreshold settings := by
  obtain ⟨tables, -, rfl⟩ := filed
  generalize start : new minThreshold maxThreshold settings = empty
  have none : { empty with sstables := [] } = empty := by
    rw [← start]
    rfl
  conv_rhs => rw [← none]
  clear start none
  induction tables generalizing empty with
  | nil => rfl
  | cons sst rest ih =>
      rw [List.foldl_cons, ih]
      unfold SizeTiered.addSstable
      split <;> rfl

end SizeTiered

-----------------------------------------------------------------------------------------
-- Either strategy
-----------------------------------------------------------------------------------------

/-- The parameters a strategy is made with. -/
inductive StrategyConfig
  | leveled (numLevels l0Threshold l1MaxBytes : Nat) (settings : BlockSettings)
  | sizeTiered (minThreshold maxThreshold : Nat) (settings : BlockSettings)

/-- A table with this timestamp is newer than all that loading would file it among. -/
def StorageStrategy.isNewest (timestamp : Nat) : StorageStrategy → Bool
  | .leveled strategy =>
      strategy.levels.head?.all
        (fun level => level.sstables.all (fun sst => sst.path.timestamp < timestamp))
  | .sizeTiered strategy =>
      strategy.sstables.flatten.all (fun sst => sst.path.timestamp < timestamp)

namespace StrategyConfig

def new : StrategyConfig → StorageStrategy
  | .leveled numLevels l0Threshold l1MaxBytes settings =>
      .leveled (Leveled.new numLevels l0Threshold l1MaxBytes settings)
  | .sizeTiered minThreshold maxThreshold settings =>
      .sizeTiered (SizeTiered.new minThreshold maxThreshold settings)

def loadFromDir (dbName : String) (directory : List TableFile)
    : StrategyConfig → Except IoError StorageStrategy
  | .leveled numLevels l0Threshold l1MaxBytes settings => do
      let strategy ←
        Leveled.loadFromDir dbName directory numLevels l0Threshold l1MaxBytes settings
      return .leveled strategy
  | .sizeTiered minThreshold maxThreshold settings => do
      let strategy ←
        SizeTiered.loadFromDir dbName directory minThreshold maxThreshold settings
      return .sizeTiered strategy

/-- A strategy with these parameters whose files say in which order it is read. -/
inductive Restores : StrategyConfig → StorageStrategy → Prop
  | leveled {numLevels l0Threshold l1MaxBytes : Nat} {settings : BlockSettings}
      {strategy : Leveled}
      (filed : strategy.Filed)
      (ascending : strategy.Ascending)
      (count : strategy.levels.length = numLevels)
    : Restores (.leveled numLevels l0Threshold l1MaxBytes settings) (.leveled strategy)
  | sizeTiered {minThreshold maxThreshold : Nat} {settings : BlockSettings}
      {strategy : SizeTiered}
      (filed : SizeTiered.FiledByAge minThreshold maxThreshold settings strategy)
    : Restores (.sizeTiered minThreshold maxThreshold settings) (.sizeTiered strategy)

variable {config : StrategyConfig} {strategy next : StorageStrategy}

theorem new_isNew (config : StrategyConfig) : config.new.New := by
  cases config with
  | leveled numLevels l0Threshold l1MaxBytes settings =>
      exact .leveled numLevels l0Threshold l1MaxBytes settings
  | sizeTiered minThreshold maxThreshold settings =>
      exact .sizeTiered minThreshold maxThreshold settings

theorem restores_new (config : StrategyConfig) : config.Restores config.new := by
  cases config with
  | leveled numLevels l0Threshold l1MaxBytes settings =>
      refine .leveled (Leveled.filed_new _ _ _ _) ?_ (by simp [Leveled.new])
      intro level first
      obtain ⟨i, -, rfl⟩ := List.mem_map.mp (List.mem_of_mem_head? first)
      exact List.Pairwise.nil
  | sizeTiered minThreshold maxThreshold settings =>
      exact .sizeTiered ⟨[], List.Pairwise.nil, rfl⟩

/-- A flushed table that is the newest one can be added. -/
theorem Restores.addSstable (restores : config.Restores strategy) {sst : SSTable}
    (unleveled : sst.path.level = none)
    (newest : strategy.isNewest sst.path.timestamp = true)
    (added : strategy.addSstable sst = .ok next)
    : config.Restores next := by
  cases restores with
  | leveled filed ascending count =>
      obtain ⟨other, done, rest⟩ := bind_eq_ok.mp added
      obtain rfl := Except.ok.inj rest
      refine .leveled (filed.addSstable unleveled done) (ascending.addSstable ?_ done) ?_
      · intro level first table member
        simp only [StorageStrategy.isNewest, first, Option.all_some, List.all_eq_true,
          decide_eq_true_eq] at newest
        exact newest table member
      · unfold Leveled.addSstable at done
        split at done
        next l0 rest shape =>
          obtain rfl := Except.ok.inj done
          rw [← count, shape]
          rfl
        next => cases done
  | sizeTiered filed =>
      obtain rfl := Except.ok.inj added
      refine .sizeTiered (filed.addSstable ?_)
      simp only [StorageStrategy.isNewest, List.all_eq_true, decide_eq_true_eq] at newest
      exact newest

/-- Loading the files of such a strategy gives one with no other tables that reads the same.
-/
theorem Restores.loadFromDir (restores : config.Restores strategy) (sound : strategy.Sound)
    {dbName : String}
    (known : ∀ table ∈ strategy.iterAll, table.path.recognised dbName = true)
    {directory : List TableFile} (lists : Lists dbName directory strategy.iterAll)
    : ∃ next,
        config.loadFromDir dbName directory = .ok next
        ∧ next.Sound
        ∧ config.Restores next
        ∧ (∀ table ∈ next.iterAll, table ∈ strategy.iterAll)
        ∧ ∀ key, next.version key = strategy.version key := by
  cases restores with
  | leveled filed ascending count =>
      rename_i numLevels l0Threshold l1MaxBytes settings strategy
      have valid : ∀ table ∈ recognisedTables dbName strategy.iterAll, table.Valid :=
        fun table member => StorageStrategy.Sound.valid sound table
          (List.mem_of_mem_filter member)
      obtain ⟨next, loaded, reloads⟩ := filed.reloads lists valid l0Threshold l1MaxBytes
        settings
      rw [count] at loaded
      refine ⟨.leveled next, ?_, ?_, ?_, ?_, ?_⟩
      · rw [StrategyConfig.loadFromDir, loaded]
        rfl
      · exact reloads.sound (Leveled.Sound.layered sound) valid
      · refine .leveled (reloads.filed filed) ?_ (reloads.count.trans count)
        intro loaded first
        rw [List.head?_eq_getElem?] at first
        obtain ⟨level, found⟩ := Leveled.exists_level reloads.count first
        rw [reloads.front known ascending found first]
        exact ascending level (by rwa [List.head?_eq_getElem?])
      · intro table member
        obtain ⟨inside, inLevels, held⟩ := Lsm.Leveled.mem_iterAll.mp member
        obtain ⟨i, here⟩ := List.mem_iff_getElem?.mp inLevels
        obtain ⟨level, found, was, -⟩ := reloads.mem_tables here held
        exact Lsm.Leveled.mem_iterAll.mpr ⟨level, List.mem_of_getElem? found, was⟩
      · exact reloads.version sound known ascending
  | sizeTiered filed =>
      rename_i minThreshold maxThreshold settings strategy
      have loaded := filed.loadFromDir (StorageStrategy.Sound.valid sound) known lists
      refine ⟨.sizeTiered strategy, ?_, sound, .sizeTiered filed, fun _ same => same,
        fun key => rfl⟩
      rw [StrategyConfig.loadFromDir, loaded]
      rfl

-----------------------------------------------------------------------------------------
-- Compacting a leveled strategy
-----------------------------------------------------------------------------------------

/-- The parameters are those of a leveled strategy. -/
def IsLeveled (config : StrategyConfig) : Prop :=
  ∃ numLevels l0Threshold l1MaxBytes settings,
    config = .leveled numLevels l0Threshold l1MaxBytes settings ∧ numLevels ≤ uintBound

/-- A leveled strategy that can be loaded again is orderly. -/
theorem Restores.orderly (leveled : config.IsLeveled) (restores : config.Restores strategy)
    (sound : strategy.Sound) (bounded : ∀ table ∈ strategy.iterAll, table.path.Bounded)
    : ∃ inner : Lsm.Leveled,
        strategy = .leveled inner
        ∧ inner.Orderly
        ∧ ∀ next : Lsm.Leveled,
            next.Orderly
            → next.levels.length = inner.levels.length
            → config.Restores (.leveled next) := by
  obtain ⟨numLevels, l0Threshold, l1MaxBytes, settings, rfl, few⟩ := leveled
  cases restores with
  | leveled filed ascending count =>
      rename_i inner
      refine ⟨inner, rfl, ⟨sound, filed, ascending, ?_, count ▸ few⟩, ?_⟩
      · intro level member table inside
        exact bounded table (Lsm.Leveled.mem_iterAll.mpr ⟨level, member, inside⟩)
      · intro next orderly same
        exact .leveled orderly.filed orderly.ascending (same.trans count)

theorem bounded_of_orderly {inner : Lsm.Leveled} (orderly : inner.Orderly)
    : ∀ table ∈ (StorageStrategy.leveled inner).iterAll, table.path.Bounded := by
  intro table member
  obtain ⟨level, inLevels, held⟩ := Lsm.Leveled.mem_iterAll.mp member
  exact orderly.bounded level inLevels table held

end StrategyConfig

/-- How many tables a full compaction can create. -/
def StorageStrategy.mergeCount : StorageStrategy → Nat
  | .leveled strategy => strategy.levels.length
  | .sizeTiered _ => 1

namespace StrategyConfig

variable {config : StrategyConfig} {strategy next : StorageStrategy}

theorem Restores.compactAll (leveled : config.IsLeveled) (restores : config.Restores strategy)
    (sound : strategy.Sound) (bounded : ∀ table ∈ strategy.iterAll, table.path.Bounded)
    {clock : Nat → UInt64} {stamp : Nat → Nat}
    (stamped : ∀ i < strategy.mergeCount, stamp i < uintBound)
    (done : strategy.compactAll clock stamp = .ok next)
    : config.Restores next ∧ ∀ table ∈ next.iterAll, table.path.Bounded := by
  obtain ⟨inner, rfl, orderly, carries⟩ := restores.orderly leveled sound bounded
  obtain ⟨other, compacted, rest⟩ := bind_eq_ok.mp done
  obtain rfl := Except.ok.inj rest
  obtain ⟨orderlyNext, count⟩ := orderly.compactAll stamped compacted
  exact ⟨carries other orderlyNext count, bounded_of_orderly orderlyNext⟩

theorem Restores.compactIfNeeded (leveled : config.IsLeveled)
    (restores : config.Restores strategy) (sound : strategy.Sound)
    (bounded : ∀ table ∈ strategy.iterAll, table.path.Bounded) {nowMs : UInt64}
    {timestamp : Nat} (stamped : timestamp < uintBound) {ran : Bool}
    (done : strategy.compactIfNeeded nowMs timestamp = .ok (ran, next))
    : config.Restores next ∧ ∀ table ∈ next.iterAll, table.path.Bounded := by
  obtain ⟨inner, rfl, orderly, carries⟩ := restores.orderly leveled sound bounded
  obtain ⟨⟨_, other⟩, compacted, rest⟩ := bind_eq_ok.mp done
  obtain ⟨rfl, rfl⟩ := Prod.mk.inj (Except.ok.inj rest)
  obtain ⟨orderlyNext, count⟩ := orderly.compactIfNeeded stamped compacted
  exact ⟨carries other orderlyNext count, bounded_of_orderly orderlyNext⟩

end StrategyConfig

end Rustikv.Lsm

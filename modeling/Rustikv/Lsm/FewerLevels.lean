import Rustikv.Lsm.LoadOrder
import Rustikv.Lsm.NonOverlap

/-! Reopening a leveled database with fewer levels. The tables of the missing levels are put
into the last one, which is read by timestamp and no longer by level.
-/

namespace Rustikv.Lsm

open Library

namespace Leveled

-----------------------------------------------------------------------------------------
-- Runs of one strategy
-----------------------------------------------------------------------------------------

/-- The timestamps of the tables that a step creates fit `u64`. -/
def Step.Stamped (numLevels : Nat) : Step → Prop
  | .flush _ _ timestamp => timestamp < uintBound
  | .compactIfNeeded _ timestamp => timestamp < uintBound
  | .compactAll _ stamp => ∀ i < numLevels, stamp i < uintBound

/-- A sound strategy whose files are named after their levels, in whatever order. -/
structure Named (numLevels : Nat) (strategy : Leveled) : Prop where
  sound : strategy.Sound
  filed : strategy.Filed
  bounded : ∀ level ∈ strategy.levels, ∀ table ∈ level.sstables, table.path.Bounded
  count : strategy.levels.length = numLevels

variable {numLevels : Nat} {strategy next : Leveled}

theorem named_new (numLevels l0Threshold l1MaxBytes : Nat) (settings : BlockSettings)
    : (Leveled.new numLevels l0Threshold l1MaxBytes settings).Named numLevels where
  sound := sound_new numLevels l0Threshold l1MaxBytes settings
  filed := filed_new numLevels l0Threshold l1MaxBytes settings
  bounded level member := by
    obtain ⟨i, -, rfl⟩ := List.mem_map.mp member
    simp
  count := by simp [Leveled.new]

theorem Named.compactLevel (named : strategy.Named numLevels) (few : numLevels ≤ uintBound)
    {i : Nat} {nowMs : UInt64} {timestamp : Nat} (stamped : timestamp < uintBound)
    (done : strategy.compactLevel i nowMs timestamp = .ok next)
    : next.Named numLevels := by
  have layered := named.sound.layered
  have readable := fun {i : Nat} => @Sound.readable strategy named.sound i
  obtain ⟨sound, count⟩ := named.sound.compactLevel done
  exact ⟨sound, named.filed.compactLevel layered readable done,
    bounded_compactLevel layered named.filed (named.count ▸ few) named.bounded readable
      stamped done, count.trans named.count⟩

theorem Named.perform (named : strategy.Named numLevels) (few : numLevels ≤ uintBound)
    {step : Step} (storable : step.Flushes StorableTable) (stamped : step.Stamped numLevels)
    (done : strategy.perform step = .ok next)
    : next.Named numLevels := by
  cases step with
  | flush settings memtable timestamp =>
      obtain ⟨sst, created, added⟩ := bind_eq_ok.mp done
      obtain ⟨fresh, rfl⟩ := createTable_eq_ok.mp created
      rw [← SSTable.path_fromMemtable settings { level := none, timestamp } memtable]
        at fresh
      obtain ⟨sound, count, -⟩ := named.sound.addSstable
        (SSTable.valid_fromMemtable settings _ storable) fresh added
      refine ⟨sound, named.filed.addSstable (by rw [SSTable.path_fromMemtable]) added, ?_,
        count.trans named.count⟩
      refine bounded_addSstable named.sound.layered fresh ?_ ?_ named.bounded added
      · rw [SSTable.path_fromMemtable]
      · rw [SSTable.path_fromMemtable]
        exact stamped
  | compactIfNeeded nowMs timestamp =>
      obtain ⟨⟨ran, other⟩, compacted, rest⟩ := bind_eq_ok.mp done
      obtain rfl := Except.ok.inj rest
      exact compactIfNeeded_invariant compacted named
        (fun _ _ merged => named.compactLevel few stamped merged)
  | compactAll clock stamp =>
      have done : strategy.compactAll clock stamp = .ok next := done
      rw [compactAll_eq] at done
      refine compactFrom_invariant (Named numLevels) done named ?_
      intro i member before after namedBefore merged
      refine namedBefore.compactLevel few (stamped i ?_) merged
      rw [← named.count]
      exact List.mem_range.mp member

/-- Every run of flushes and compactions. -/
theorem Named.performAll (named : strategy.Named numLevels) (few : numLevels ≤ uintBound)
    {steps : List Step} (storable : ∀ step ∈ steps, step.Flushes StorableTable)
    (stamped : ∀ step ∈ steps, step.Stamped numLevels)
    (done : Leveled.performAll steps strategy = .ok next)
    : next.Named numLevels := by
  induction steps generalizing strategy with
  | nil =>
      obtain rfl := Except.ok.inj done
      exact named
  | cons step rest ih =>
      unfold Leveled.performAll at done
      rw [List.foldlM_cons] at done
      obtain ⟨middle, first, later⟩ := bind_eq_ok.mp done
      exact ih
        (named.perform few (storable step (by simp)) (stamped step (by simp)) first)
        (fun other member => storable other (List.mem_cons_of_mem _ member))
        (fun other member => stamped other (List.mem_cons_of_mem _ member)) later

theorem Named.valid (named : strategy.Named numLevels)
    : ∀ table ∈ strategy.iterAll, table.Valid := by
  intro table member
  obtain ⟨level, inLevels, held⟩ := mem_iterAll.mp member
  exact named.sound.valid level inLevels table held

theorem Named.known (named : strategy.Named numLevels) {dbName : String}
    (safe : safeName dbName = true)
    : ∀ table ∈ strategy.iterAll, table.path.recognised dbName = true := by
  intro table member
  obtain ⟨level, inLevels, held⟩ := mem_iterAll.mp member
  exact (named.bounded level inLevels table held).recognised safe

-----------------------------------------------------------------------------------------
-- Fewer levels
-----------------------------------------------------------------------------------------

/-- What `get` finds in the tables of the strategy at this time. -/
def lookup (strategy : Leveled) (key : String) (nowMs : UInt64)
    : Except IoError (Option String) :=
  lookupTables key nowMs ((StorageStrategy.leveled strategy).iterForKey key)

theorem lookup_eq (valid : ∀ table ∈ strategy.iterAll, table.Valid) (key : String)
    (nowMs : UInt64)
    : strategy.lookup key nowMs = .ok (readAt (strategy.version key) nowMs) :=
  lookupTables_filter valid key nowMs

/-- With this many levels, the newest tables of a key in the first level that holds it read
as the table that is read now.
-/
def ReadsAlikeWith (numLevels : Nat) (strategy : Leveled) : Prop :=
  ∀ (key : String) (table : SSTable),
    table.LoadedFirst numLevels strategy.iterAll key
    → ∀ nowMs, readAt (table.version key) nowMs = readAt (strategy.version key) nowMs

/-- Every run with `numLevels` levels, reopened with any number of them. -/
theorem fewer_levels_preserve_reads_iff {numLevels : Nat} (few : numLevels ≤ uintBound)
    (l0Threshold l1MaxBytes : Nat) (settings : BlockSettings) {steps : List Step}
    (storable : ∀ step ∈ steps, step.Flushes StorableTable)
    (stamped : ∀ step ∈ steps, step.Stamped numLevels)
    (done
      : performAll steps (Leveled.new numLevels l0Threshold l1MaxBytes settings)
        = .ok strategy)
    {dbName : String} (safe : safeName dbName = true) {loadedLevels : Nat}
    (inhabited : 1 ≤ loadedLevels)
    : (∀ directory,
        Lists dbName directory strategy.iterAll
        → ∃ next,
            loadFromDir dbName directory loadedLevels l0Threshold l1MaxBytes settings
              = .ok next
            ∧ ∀ key nowMs, next.lookup key nowMs = strategy.lookup key nowMs)
      ↔ strategy.ReadsAlikeWith loadedLevels := by
  have named := (named_new numLevels l0Threshold l1MaxBytes settings).performAll few storable
    stamped done
  have valid := named.valid
  have known := named.known safe
  constructor
  · intro preserved key table first nowMs
    obtain ⟨directory, next, lists, loaded, perm, chosen⟩ :=
      loadFromDir_chooses first known valid inhabited l0Threshold l1MaxBytes settings
    obtain ⟨other, again, same⟩ := preserved directory lists
    obtain rfl := Except.ok.inj (loaded.symm.trans again)
    have reads := same key nowMs
    rw [lookup_eq (fun table member => valid table (perm.mem_iff.mp member)),
      lookup_eq valid, chosen] at reads
    exact Except.ok.inj reads
  · intro alike directory lists
    obtain ⟨next, loaded, perm, versions⟩ :=
      loadFromDir_first lists known valid inhabited l0Threshold l1MaxBytes settings
    refine ⟨next, loaded, fun key nowMs => ?_⟩
    rw [lookup_eq (fun table member => valid table (perm.mem_iff.mp member)),
      lookup_eq valid]
    rcases versions key with ⟨absent, nowhere⟩ | ⟨table, first, chosen⟩
    · have empty : strategy.version key = none :=
        List.findSome?_eq_none_iff.mpr nowhere
      rw [absent, empty]
    · rw [chosen, alike key table first nowMs]

theorem stamped_flushedTwice : ∀ step ∈ flushedTwice, step.Stamped 3 := by
  simp [flushedTwice, Step.Stamped, uintBound]

/-- Witness: two tables of level 1 that share no key, reopened with one level, so that both
move to level 0.
-/
theorem fewer_levels_preserve_reads_apart
    : ∃ strategy : Leveled,
        performAll flushedTwice (Leveled.new 3 1 1000 smallBlocks) = .ok strategy
        ∧ strategy.iterAll.length = 2
        ∧ ∀ directory,
            Lists "db" directory strategy.iterAll
            → ∃ next,
                loadFromDir "db" directory 1 1 1000 smallBlocks = .ok next
                ∧ ∀ key nowMs, next.lookup key nowMs = strategy.lookup key nowMs := by
  have computed : (performAll flushedTwice (Leveled.new 3 1 1000 smallBlocks)).toOption.any
      (fun final =>
        final.iterAll.length = 2
        && final.iterAll.all (fun table =>
          table.records.all (fun record =>
            table.version record.key = final.version record.key)))
      = true := by
    decide +kernel
  simp only [Option.any_eq_true, toOption_eq_some, Bool.and_eq_true, decide_eq_true_eq,
    List.all_eq_true] at computed
  obtain ⟨strategy, ran, two, same⟩ := computed
  refine ⟨strategy, ran, two, ?_⟩
  refine (fewer_levels_preserve_reads_iff (by decide) 1 1000 smallBlocks
    storable_flushedTwice stamped_flushedTwice ran
    (by decide +kernel : safeName "db" = true) (by decide : 1 ≤ 1)).mpr ?_
  intro key table first nowMs
  obtain ⟨record, member, rfl⟩ := SSTable.exists_record first.holds
  rw [same table first.member record member]

/-- Two values reach level 1, one of them is replaced in level 0, and then level 1 is
squashed.
-/
def squashedLast : List Step :=
  [
    .flush smallBlocks (oneEntry "k" "u") 1,
    .flush smallBlocks (oneEntry "l" "u") 2,
    .compactIfNeeded 0 3,
    .flush smallBlocks (oneEntry "k" "v") 4,
    .compactIfNeeded 0 5
  ]

/-- Counterexample: with one level the old value is read, since its file is the newest. -/
theorem fewer_levels_read_old_value
    : ∃ strategy next : Leveled,
        performAll squashedLast (Leveled.new 2 2 1 smallBlocks) = .ok strategy
        ∧ loadFromDir "db" (strategy.iterAll.map (SSTable.file "db")) 1 2 1 smallBlocks
          = .ok next
        ∧ strategy.lookup "k" 10 = .ok (some "v")
        ∧ next.lookup "k" 10 = .ok (some "u") := by
  have computed : (performAll squashedLast (Leveled.new 2 2 1 smallBlocks)).toOption.any
      (fun strategy =>
        (loadFromDir "db" (strategy.iterAll.map (SSTable.file "db")) 1 2 1
          smallBlocks).toOption.any
          (fun next =>
            (strategy.lookup "k" 10).toOption = some (some "v")
            && (next.lookup "k" 10).toOption = some (some "u")))
      = true := by
    decide +kernel
  simp only [Option.any_eq_true, toOption_eq_some, Bool.and_eq_true, decide_eq_true_eq]
    at computed
  obtain ⟨strategy, ran, next, loaded, before, after⟩ := computed
  exact ⟨strategy, next, ran, loaded, before, after⟩

end Leveled

end Rustikv.Lsm

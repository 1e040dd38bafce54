import Rustikv.Lsm.Progress
import Rustikv.Lsm.Recompact

/-! When calling `compact_if_needed` again and again comes to an end: the level that is
compacted must not ask for the same compaction afterwards.
-/

namespace Rustikv.Lsm

open Library

-----------------------------------------------------------------------------------------
-- Live records
-----------------------------------------------------------------------------------------

/-- The newest version of a key that is alive, among records listed newest first. -/
def liveVersion (records : List Record) (nowMs : UInt64) (key : String)
    : Option MemtableEntry :=
  (earliest Record.key (records.filter (fun record => !isDead record nowMs)) key).map
    Record.entry

section LiveVersions

variable {records : List Record} {nowMs : UInt64} {key : String}

/-- A merge that drops dead records keeps the newest live one of each key. -/
theorem entry_merge_live
    : (records.foldl (mergeRecord true nowMs) Memtable.new).entry key
      = liveVersion records nowMs key := by
  rw [entry_merge, Memtable.entry_new, Option.none_or]
  induction records with
  | nil => rfl
  | cons record rest ih =>
      rw [List.findSome?_cons, ih, liveVersion, liveVersion]
      cases dead : isDead record nowMs with
      | true => by_cases same : record.key = key <;> simp [mergedEntry, dead, same]
      | false =>
          by_cases same : record.key = key <;> simp [mergedEntry, dead, same, earliest_cons]

theorem liveVersion_some {entry : MemtableEntry}
    (found : liveVersion records nowMs key = some entry)
    : (entry.read nowMs).isSome = true := by
  obtain ⟨record, first, rfl⟩ := Option.map_eq_some_iff.mp found
  have alive := (List.mem_filter.mp (earliest_some Record.key first).1).2
  simpa [isDead_eq] using alive

/-- A table that holds the live versions of some records has the same live versions. -/
theorem liveVersion_mergedTable (settings : BlockSettings) (path : TablePath)
    (valid : ∀ record ∈ records, Record.codec.Valid record)
    : liveVersion (mergedTable settings path true nowMs records).records nowMs key
      = liveVersion records nowMs key := by
  have storable := storableTable_merge true nowMs valid storableTable_new
  have version (other : String)
      : (mergedTable settings path true nowMs records).version other
        = liveVersion records nowMs other :=
    (SSTable.version_fromMemtable settings path storable other).trans entry_merge_live
  have sorted := (valid_mergedTable settings path true nowMs valid).sorted
  have alive : ∀ record ∈ (mergedTable settings path true nowMs records).records,
      (!isDead record nowMs) = true := by
    intro record member
    have first := earliest_of_distinct Record.key
      (sorted.imp (fun before => before.ne)) member
    have found := version record.key
    rw [SSTable.version, first, Option.map_some] at found
    simpa [isDead_eq] using liveVersion_some found.symm
  rw [liveVersion, List.filter_eq_self.mpr alive]
  exact version key

end LiveVersions

/-- The size of a table is that of the entries it was written from. -/
theorem SSTable.sizeOnDisk_fromMemtable (settings : BlockSettings) (path other : TablePath)
    {first second : Memtable} (same : ∀ key, first.entry key = second.entry key)
    : (SSTable.fromMemtable settings path first).sizeOnDisk
      = (SSTable.fromMemtable settings other second).sizeOnDisk := by
  have entries : first.entries.toList = second.entries.toList := by
    refine SortedMap.toList_eq second.entries.sorted_toList (fun key value => ?_)
    have alike : first.entries[key]? = second.entries[key]? := same key
    rw [SortedMap.mem_toList, alike]
  rw [SSTable.fromMemtable, SSTable.fromMemtable, entries]
  rfl

-----------------------------------------------------------------------------------------
-- Compactions that succeed
-----------------------------------------------------------------------------------------

/-- A reader gets through the table's file. -/
def SSTable.Readable (table : SSTable) : Prop :=
  ∃ records, table.iter.mapM id = .ok records

/-- A merge succeeds exactly if all its tables can be read. -/
theorem mergeTables_ok_iff {dropDead : Bool} {nowMs : UInt64} {tables : List SSTable}
    {memtable : Memtable}
    : (∃ merged, mergeTables dropDead nowMs tables memtable = .ok merged)
      ↔ ∀ table ∈ tables, table.Readable := by
  induction tables generalizing memtable with
  | nil => simp [mergeTables, pure, Except.pure]
  | cons table rest ih =>
      unfold mergeTables at ih ⊢
      rw [List.forall_mem_cons, List.foldlM_cons]
      constructor
      · rintro ⟨merged, done⟩
        obtain ⟨middle, first, later⟩ := bind_eq_ok.mp done
        obtain ⟨records, read, -⟩ := bind_eq_ok.mp first
        exact ⟨⟨records, read⟩, ih.mp ⟨merged, later⟩⟩
      · rintro ⟨⟨records, read⟩, others⟩
        rw [read, ok_bind, pure_bind]
        exact ih.mpr others

/-- The table of what is alive in the level takes less than its maximum of bytes. -/
def Level.LiveFits (level : Level) (settings : BlockSettings) (nowMs : UInt64) : Prop :=
  ∀ path memtable,
    (∀ key,
      memtable.entry key = liveVersion (level.iter.flatMap SSTable.records) nowMs key)
    → (SSTable.fromMemtable settings path memtable).sizeOnDisk < level.maxBytes

/-- A compaction takes away what it is for: a level above the last one has a key to move,
and the last one is left with a single table that is not enough to ask for another, for
level 0 by its threshold and for any other by the size of what is alive.
-/
def Level.Relieved (level : Level) (settings : BlockSettings) (nowMs : UInt64) : Prop :=
  if level.isTerminal then
    level.sstables ≠ []
    ∧ if level.levelNum = 0 then level.l0Threshold ≠ 1 else level.LiveFits settings nowMs
  else
    level.keyRange ≠ none

namespace Level

variable {level : Level} {settings : BlockSettings} {nowMs : UInt64}

/-- The level after a squash. -/
def squashed (level : Level) (settings : BlockSettings) (path : TablePath) (nowMs : UInt64)
    : Level :=
  level.bare.append
    (mergedTable settings path true nowMs (level.iter.flatMap SSTable.records))

theorem liveFits_iff (path : TablePath)
    : level.LiveFits settings nowMs
      ↔ (mergedTable settings path true nowMs
          (level.iter.flatMap SSTable.records)).sizeOnDisk
        < level.maxBytes := by
  constructor
  · exact fun fits => fits path _ (fun _ => entry_merge_live)
  · intro fits other memtable same
    rwa [mergedTable, SSTable.sizeOnDisk_fromMemtable settings path other
      (fun key => entry_merge_live.trans (same key).symm)] at fits

/-- The last level asks for another squash exactly if one does not relieve it. -/
theorem needsCompaction_squashed (terminal : level.isTerminal = true)
    (some : level.sstables ≠ []) (path : TablePath)
    : (level.squashed settings path nowMs).needsCompaction = true
      ↔ ¬ level.Relieved settings nowMs := by
  rw [Relieved, if_pos terminal, liveFits_iff path]
  by_cases zero : level.levelNum = 0
  · simp [needsCompaction, squashed, append, bare, some, zero]
    exact eq_comm
  · simp [needsCompaction, squashed, append, bare, some, zero, totalBytes]

/-- A squash does not change whether another one relieves the level. -/
theorem relieved_squashed (terminal : level.isTerminal = true)
    (some : level.sstables ≠ []) (path : TablePath)
    (valid : ∀ table ∈ level.sstables, table.Valid)
    : (level.squashed settings path nowMs).Relieved settings nowMs
      ↔ level.Relieved settings nowMs := by
  have records : ∀ record ∈ level.iter.flatMap SSTable.records,
      Record.codec.Valid record :=
    valid_flatMap_records (fun table member => valid table (List.mem_reverse.mp member))
  have live : (level.squashed settings path nowMs).LiveFits settings nowMs
      ↔ level.LiveFits settings nowMs := by
    unfold LiveFits
    have same (key : String)
        : liveVersion ((level.squashed settings path nowMs).iter.flatMap SSTable.records)
            nowMs key
          = liveVersion (level.iter.flatMap SSTable.records) nowMs key := by
      rw [← liveVersion_mergedTable settings path records]
      simp [squashed, Level.iter, append, bare]
    simp only [same]
    rfl
  simp only [Relieved, live]
  simp [squashed, append, bare, terminal, some]

end Level

namespace Leveled

/-- The tables that compacting level `i` reads. -/
def tablesAt (strategy : Leveled) (i : Nat) : List SSTable :=
  match strategy.levels[i]? with
  | some level =>
      if level.isTerminal then
        level.iter
      else
        match strategy.levels[i + 1]?, level.keyRange with
        | some target, some (start, end_) => level.iter ++ target.overlappingFiles start end_
        | _, _ => []
  | none => []

/-- The name that compacting level `i` gives its table is not taken. The last level's own
files are gone by then.
-/
def NameFree (strategy : Leveled) (i timestamp : Nat) : Prop :=
  ∀ level,
    strategy.levels[i]? = some level
    → if level.isTerminal then
        { level := some i, timestamp } ∉ paths (strategy.levels.eraseIdx i)
      else
        { level := some (i + 1), timestamp } ∉ paths strategy.levels

/-- Level `i` is the first one that asks for a compaction. -/
structure Chosen (strategy : Leveled) (i : Nat) (level : Level) : Prop where
  found : strategy.levels[i]? = some level
  needs : level.needsCompaction = true
  first : ∀ j < i, ∀ other, strategy.levels[j]? = some other → other.needsCompaction = false

/-- If a level asks for a compaction, then its tables can be read, the name of the new table
is free, and the compaction relieves the level.
-/
def CanSettle (strategy : Leveled) (nowMs : UInt64) (timestamp : Nat) : Prop :=
  ∀ i level,
    strategy.Chosen i level
    → (∀ table ∈ strategy.tablesAt i, table.Readable)
      ∧ strategy.NameFree i timestamp
      ∧ level.Relieved strategy.settings nowMs

variable {strategy next : Leveled} {i : Nat} {level : Level} {nowMs : UInt64}
  {timestamp : Nat}

theorem findIdx?_eq_some_iff
    : strategy.levels.findIdx? Level.needsCompaction = some i
      ↔ ∃ level, strategy.Chosen i level := by
  rw [List.findIdx?_eq_some_iff_getElem]
  constructor
  · rintro ⟨inside, needs, first⟩
    refine ⟨_, List.getElem?_eq_getElem inside, needs, fun j before other found => ?_⟩
    obtain ⟨within, rfl⟩ := List.getElem?_eq_some_iff.mp found
    simpa using first j before
  · rintro ⟨level, found, needs, first⟩
    obtain ⟨inside, rfl⟩ := List.getElem?_eq_some_iff.mp found
    refine ⟨inside, needs, fun j before => ?_⟩
    simp [first j before _ (List.getElem?_eq_getElem (by omega))]

/-- A call that reports a step has compacted the chosen level. -/
theorem compactIfNeeded_ran
    : strategy.compactIfNeeded nowMs timestamp = .ok (true, next)
      ↔ ∃ i level,
          strategy.Chosen i level ∧ strategy.compactLevel i nowMs timestamp = .ok next := by
  unfold Leveled.compactIfNeeded
  split
  next i found =>
    obtain ⟨level, chosen⟩ := findIdx?_eq_some_iff.mp found
    constructor
    · intro done
      obtain ⟨after, compacted, done⟩ := bind_eq_ok.mp done
      obtain ⟨-, rfl⟩ := Prod.mk.inj (Except.ok.inj done)
      exact ⟨i, level, chosen, compacted⟩
    · rintro ⟨j, other, chosen', compacted⟩
      have same := findIdx?_eq_some_iff.mpr ⟨other, chosen'⟩
      rw [found] at same
      obtain rfl := Option.some.inj same
      rw [compacted]
      rfl
  next none =>
    simp only [Except.ok.injEq, Prod.mk.injEq, Bool.false_eq_true, false_and, false_iff]
    rintro ⟨j, other, chosen, -⟩
    rw [findIdx?_eq_some_iff.mpr ⟨other, chosen⟩] at none
    cases none

theorem Chosen.unique {j : Nat} {other : Level} (chosen : strategy.Chosen i level)
    (again : strategy.Chosen j other)
    : i = j ∧ level = other := by
  have first := findIdx?_eq_some_iff.mpr ⟨level, chosen⟩
  rw [findIdx?_eq_some_iff.mpr ⟨other, again⟩] at first
  obtain rfl := Option.some.inj first
  exact ⟨rfl, Option.some.inj (chosen.found.symm.trans again.found)⟩

/-- The last level, or one with another below it. -/
theorem Made.position (made : strategy.Made) (found : strategy.levels[i]? = some level)
    : level.isTerminal = true
        ∧ (∃ front, strategy.levels = front ++ [level] ∧ front.length = i)
      ∨ level.isTerminal = false
        ∧ ∃ front target back,
            strategy.levels = front ++ level :: target :: back ∧ front.length = i := by
  obtain ⟨before, last, ending, terminal, inner⟩ :=
    made.exists_last (List.ne_nil_of_mem (List.mem_of_getElem? found))
  obtain ⟨front, back, split, count⟩ := exists_split found
  cases back with
  | nil =>
      obtain ⟨rfl, same⟩ := List.append_inj' (split.symm.trans ending) rfl
      obtain rfl := List.singleton_inj.mp same
      exact .inl ⟨terminal, front, split, count⟩
  | cons target back =>
      have position : i < before.length := by
        have length := congrArg List.length (split.symm.trans ending)
        simp at length
        omega
      rw [ending, List.getElem?_append_left position] at found
      exact .inr ⟨inner level (List.mem_of_getElem? found), front, target, back, split, count⟩

/-- Two levels are merged exactly if the tables can be read and the new name is free. -/
theorem mergeLevels_ok_iff (settings : BlockSettings) {files : List TablePath}
    {source target : Level} {start end_ : String}
    (range : source.keyRange = some (start, end_))
    : (∃ both, mergeLevels settings files source target nowMs timestamp = .ok both)
      ↔ (∀ table ∈ source.iter ++ target.overlappingFiles start end_, table.Readable)
        ∧ ({ level := some target.levelNum, timestamp } : TablePath) ∉ files := by
  simp only [mergeLevels, range]
  rw [List.forall_mem_append]
  constructor
  · rintro ⟨both, done⟩
    obtain ⟨first, mergedFirst, done⟩ := bind_eq_ok.mp done
    obtain ⟨second, mergedSecond, done⟩ := bind_eq_ok.mp done
    obtain ⟨sst, created, -⟩ := bind_eq_ok.mp done
    exact ⟨⟨mergeTables_ok_iff.mp ⟨first, mergedFirst⟩,
      mergeTables_ok_iff.mp ⟨second, mergedSecond⟩⟩, (createTable_eq_ok.mp created).1⟩
  · rintro ⟨⟨fromSource, fromTarget⟩, free⟩
    obtain ⟨first, mergedFirst⟩ := mergeTables_ok_iff.mpr fromSource
    obtain ⟨second, mergedSecond⟩ := mergeTables_ok_iff.mpr fromTarget
    rw [mergedFirst, ok_bind, mergedSecond, ok_bind, createTable_eq_ok.mpr ⟨free, rfl⟩]
    exact ⟨_, rfl⟩

/-- So is a level with tables squashed. -/
theorem squash_ok_iff (settings : BlockSettings) {others : List TablePath}
    (some_ : level.sstables ≠ [])
    : (∃ result, level.squash settings others nowMs timestamp = .ok result)
      ↔ (∀ table ∈ level.iter, table.Readable)
        ∧ ({ level := some level.levelNum, timestamp } : TablePath) ∉ others := by
  rw [Level.squash, if_neg (by simpa using some_)]
  constructor
  · rintro ⟨result, done⟩
    obtain ⟨memtable, merged, done⟩ := bind_eq_ok.mp done
    obtain ⟨sst, created, -⟩ := bind_eq_ok.mp done
    exact ⟨mergeTables_ok_iff.mp ⟨memtable, merged⟩, (createTable_eq_ok.mp created).1⟩
  · rintro ⟨read, free⟩
    obtain ⟨memtable, merged⟩ := mergeTables_ok_iff.mpr read
    rw [merged, ok_bind, createTable_eq_ok.mpr ⟨free, rfl⟩]
    exact ⟨_, rfl⟩

/-- Compacting a level that has something to compact succeeds exactly if its tables can be
read and the new name is free.
-/
theorem Made.compactLevel_ok_iff (made : strategy.Made)
    (found : strategy.levels[i]? = some level)
    (relieved : level.Relieved strategy.settings nowMs)
    : (∃ next, strategy.compactLevel i nowMs timestamp = .ok next)
      ↔ (∀ table ∈ strategy.tablesAt i, table.Readable) ∧ strategy.NameFree i timestamp := by
  have number := made.levelNum found
  rcases made.position found with ⟨terminal, -⟩ | ⟨inner, front, target, back, split, count⟩
  · rw [Level.Relieved, if_pos terminal] at relieved
    simp only [tablesAt, NameFree, compactLevel, found, terminal, if_true, Option.some.injEq,
      forall_eq']
    rw [← number, ← squash_ok_iff strategy.settings relieved.1, number]
    constructor
    · rintro ⟨next, done⟩
      obtain ⟨result, squashed, -⟩ := bind_eq_ok.mp done
      exact ⟨result, squashed⟩
    · rintro ⟨⟨sst, rest⟩, squashed⟩
      rw [squashed, ok_bind]
      cases sst <;> exact ⟨_, rfl⟩
  · rw [Level.Relieved, if_neg (by simp [inner])] at relieved
    obtain ⟨⟨start, end_⟩, range⟩ := Option.ne_none_iff_exists'.mp relieved
    have below : strategy.levels[i + 1]? = some target := by
      simp [split, ← count]
    simp only [tablesAt, NameFree, compactLevel, found, inner, below, range,
      Bool.false_eq_true, if_false, Option.some.injEq, forall_eq']
    rw [← made.levelNum below, ← mergeLevels_ok_iff strategy.settings range,
      made.levelNum below, ← count, compactLevels_eq split]
    constructor
    · rintro ⟨next, done⟩
      obtain ⟨both, merged, -⟩ := bind_eq_ok.mp done
      exact ⟨both, merged⟩
    · rintro ⟨both, merged⟩
      rw [merged, ok_bind]
      exact ⟨_, rfl⟩

theorem compactLevel_settings (done : strategy.compactLevel i nowMs timestamp = .ok next)
    : next.settings = strategy.settings := by
  rcases compactLevel_split done with ⟨rfl, -⟩ | ⟨_, _, _, _, _, -, -, -, -, rfl⟩
    | ⟨_, _, _, _, _, _, -, -, -, -, rfl⟩ <;> rfl

/-- What compacting the last level leaves. -/
theorem compactLevel_squashed (written : ∀ table ∈ strategy.iterAll, table.Written)
    (found : strategy.levels[i]? = some level) (terminal : level.isTerminal = true)
    (some_ : level.sstables ≠ [])
    (done : strategy.compactLevel i nowMs timestamp = .ok next)
    : (∃ path, next.levels[i]? = some (level.squashed strategy.settings path nowMs))
      ∧ ∀ table ∈ level.sstables, table.Valid := by
  rcases compactLevel_split done with ⟨rfl, unchanged⟩
    | ⟨front, other, back, rest, sst, split, rfl, -, squashed, rfl⟩
    | ⟨front, source, target, back, source', target', split, rfl, inner, -, rfl⟩
  · exact absurd (unchanged level found).2 some_
  · obtain rfl : other = level := by simpa [split] using found
    obtain ⟨valid, -, rfl, rfl⟩ := Level.squash_eq
      (fun table inside => written table (mem_iterAll.mpr ⟨other, by simp [split], inside⟩))
      squashed
    rw [terminal]
    exact ⟨⟨{ level := some other.levelNum, timestamp }, by simp [Level.squashed]⟩, valid⟩
  · obtain rfl : source = level := by simpa [split] using found
    rw [inner] at terminal
    cases terminal

/-- A level that its compaction does not relieve is chosen again, and not relieved then
either.
-/
theorem Chosen.again (chosen : strategy.Chosen i level)
    (written : ∀ table ∈ strategy.iterAll, table.Written)
    (stuck : ¬ level.Relieved strategy.settings nowMs)
    (done : strategy.compactLevel i nowMs timestamp = .ok next)
    : ∃ other, next.Chosen i other ∧ ¬ other.Relieved next.settings nowMs := by
  cases terminal : level.isTerminal with
  | false =>
      have settled : level.Settled := by
        simpa [Level.Settled, Level.Relieved, terminal] using stuck
      obtain rfl := compactLevel_settled chosen.found terminal settled done
      exact ⟨level, chosen, stuck⟩
  | true =>
      by_cases empty : level.sstables = []
      · have same : next = strategy := by
          rcases compactLevel_split done with ⟨rfl, -⟩
            | ⟨front, other, back, rest, sst, split, rfl, -, squashed, -⟩
            | ⟨front, source, target, back, source', target', split, rfl, inner, -, -⟩
          · rfl
          · obtain rfl : other = level := by simpa [split] using chosen.found
            exact absurd empty (Level.squash_bare squashed).2
          · obtain rfl : source = level := by simpa [split] using chosen.found
            rw [inner] at terminal
            cases terminal
        rw [same]
        exact ⟨level, chosen, stuck⟩
      · obtain ⟨⟨path, after⟩, valid⟩ :=
          compactLevel_squashed written chosen.found terminal empty done
        refine ⟨_, ⟨after, (Level.needsCompaction_squashed terminal empty path).mpr stuck,
          fun j before other found => ?_⟩, ?_⟩
        · rw [(compactLevel_settles done).2 j before] at found
          exact chosen.first j before other found
        · rw [compactLevel_settings done, Level.relieved_squashed terminal empty path valid]
          exact stuck

/-- How far the compactions have come: the number of levels from the chosen one on. -/
def levelsLeft (strategy : Leveled) : Nat :=
  match strategy.levels.findIdx? Level.needsCompaction with
  | some i => strategy.levels.length - i
  | none => 0

/-- After a level that its compaction relieves comes a deeper one. -/
theorem Chosen.descends (chosen : strategy.Chosen i level)
    (written : ∀ table ∈ strategy.iterAll, table.Written)
    (relieved : level.Relieved strategy.settings nowMs)
    (done : strategy.compactLevel i nowMs timestamp = .ok next)
    (after
      : ∀ j other, next.Chosen j other → other.Relieved next.settings nowMs)
    : next.levelsLeft < strategy.levelsLeft := by
  have bare := (compactLevel_shrinks done).bare
  have count : next.levels.length = strategy.levels.length := by
    simpa using congrArg List.length bare
  have inside : i < strategy.levels.length := (List.getElem?_eq_some_iff.mp chosen.found).1
  have before : strategy.levelsLeft = strategy.levels.length - i := by
    rw [levelsLeft, findIdx?_eq_some_iff.mpr ⟨level, chosen⟩]
  rw [before, levelsLeft]
  split
  next j again =>
    obtain ⟨other, chosen'⟩ := findIdx?_eq_some_iff.mp again
    have deeper : i < j := by
      by_contra! shallow
      rcases shallow.lt_or_eq with earlier | rfl
      · have found := chosen'.found
        rw [(compactLevel_settles done).2 j earlier] at found
        have needs := chosen'.needs
        rw [chosen.first j earlier other found] at needs
        cases needs
      · have eased := after j other chosen'
        have flags : other.isTerminal = level.isTerminal := by
          have same := congrArg (fun levels => levels[j]?) bare
          simp only [List.getElem?_map, chosen'.found, chosen.found, Option.map_some,
            Option.some.injEq] at same
          have flag := congrArg Level.isTerminal same
          exact flag
        cases terminal : level.isTerminal with
        | false =>
            have settled := (compactLevel_settles done).1 other chosen'.found
            rw [Level.Settled, flags, terminal, if_neg Bool.false_ne_true] at settled
            rw [Level.Relieved, flags, terminal, if_neg Bool.false_ne_true] at eased
            exact eased settled
        | true =>
            have some_ : level.sstables ≠ [] := by
              rw [Level.Relieved, if_pos terminal] at relieved
              exact relieved.1
            obtain ⟨⟨path, squashed⟩, -⟩ :=
              compactLevel_squashed written chosen.found terminal some_ done
            obtain rfl := Option.some.inj (squashed.symm.trans chosen'.found)
            have stuck :=
              (Level.needsCompaction_squashed terminal some_ path).mp chosen'.needs
            exact stuck relieved
    omega
  next => omega

-----------------------------------------------------------------------------------------
-- Calling again and again
-----------------------------------------------------------------------------------------

/-- Tables are added that were written from memtables, and no directory is loaded. -/
def Grows (_ : Leveled) : Operation → Prop
  | .addSstable sst => sst.Written
  | .loadFromDir .. => False
  | _ => True

theorem ReachedBy.written {start : Leveled} (sane : (StorageStrategy.leveled start).Written)
    (reached : ReachedBy Grows start strategy)
    : (StorageStrategy.leveled strategy).Written := by
  induction reached with
  | start => exact sane
  | @operate strategy next operation reached permitted done ih =>
      cases operation with
      | addSstable sst =>
          have added : strategy.addSstable sst = .ok next := done
          exact ih.addSstable permitted (by rw [StorageStrategy.addSstable, added]; rfl)
      | compactIfNeeded nowMs timestamp =>
          obtain ⟨⟨ran, after⟩, compacted, same⟩ := bind_eq_ok.mp done
          obtain rfl := Except.ok.inj same
          have same : (StorageStrategy.leveled strategy).compactIfNeeded nowMs timestamp
              = .ok (ran, .leveled after) := by
            rw [StorageStrategy.compactIfNeeded, compacted]
            rfl
          exact ih.compactIfNeeded same
      | compactAll clock stamp =>
          have compacted : strategy.compactAll clock stamp = .ok next := done
          exact ih.compactAll (by rw [StorageStrategy.compactAll, compacted]; rfl)
      | loadFromDir => exact permitted.elim

/-- The calls while time stands still; the `n`-th one names its table by the `n`-th stamp. -/
def callAt (nowMs : UInt64) (stamp : Nat → Nat) (count : Nat) (strategy : Leveled)
    : Option (Bool × Leveled) :=
  (strategy.compactIfNeeded nowMs (stamp count)).toOption

theorem callAt_eq_some {stamp : Nat → Nat} {count : Nat} {ran : Bool}
    : callAt nowMs stamp count strategy = some (ran, next)
      ↔ strategy.compactIfNeeded nowMs (stamp count) = .ok (ran, next) := by
  rw [callAt, toOption_eq_some]

/-- A call that finds a level it can relieve lowers the levels that ask, and one that cannot
relieve the level it finds leaves it asking.
-/
theorem settling_callAt (nowMs : UInt64) (stamp : Nat → Nat)
    : Settling (callAt nowMs stamp) (fun state => (StorageStrategy.leveled state).Written)
        (fun count state => state.CanSettle nowMs (stamp count)) levelsLeft where
  keeps := by
    intro count state next kept called
    rw [callAt_eq_some] at called
    exact kept.compactIfNeeded (by rw [StorageStrategy.compactIfNeeded, called]; rfl)
  runs := by
    intro count state kept settles
    by_cases chosen : ∃ i level, state.Chosen i level
    · obtain ⟨i, level, chosen⟩ := chosen
      obtain ⟨read, free, relieved⟩ := settles i level chosen
      obtain ⟨next, done⟩ := ((kept.made _ rfl).compactLevel_ok_iff chosen.found relieved).mpr
        ⟨read, free⟩
      exact ⟨true, next,
        callAt_eq_some.mpr (compactIfNeeded_ran.mpr ⟨i, level, chosen, done⟩)⟩
    · have none : state.levels.findIdx? Level.needsCompaction = none := by
        rw [Option.eq_none_iff_forall_ne_some]
        exact fun i found => chosen ⟨i, findIdx?_eq_some_iff.mp found⟩
      exact ⟨false, state, callAt_eq_some.mpr (compactIfNeeded_declines.mpr
        ⟨rfl, List.findIdx?_eq_none_iff.mp none⟩)⟩
  descends := by
    intro count state next kept settles called after
    obtain ⟨i, level, chosen, done⟩ := compactIfNeeded_ran.mp (callAt_eq_some.mp called)
    exact chosen.descends kept.tables (settles i level chosen).2.2 done
      (fun j other again => (after j other again).2.2)
  persists := by
    intro count state next ran kept fails called
    rw [callAt_eq_some] at called
    simp only [CanSettle, not_forall] at fails
    obtain ⟨i, level, chosen, fails⟩ := fails
    cases ran with
    | false =>
        have none := (compactIfNeeded_declines.mp called).2 level
          (List.mem_of_getElem? chosen.found)
        rw [chosen.needs] at none
        cases none
    | true =>
        obtain ⟨j, other, chosen', done⟩ := compactIfNeeded_ran.mp called
        obtain ⟨rfl, rfl⟩ := chosen.unique chosen'
        have stuck : ¬ level.Relieved state.settings nowMs := by
          intro relieved
          obtain ⟨read, free⟩ := ((kept.made _ rfl).compactLevel_ok_iff chosen.found
            relieved).mp ⟨next, done⟩
          exact fails ⟨read, free, relieved⟩
        obtain ⟨after, again, stuckAfter⟩ := chosen.again kept.tables stuck done
        exact ⟨rfl, fun settles => stuckAfter (settles i after again).2.2⟩

/-- Whatever time it is, the calls end exactly if every one of them finds a state that can
settle: each level that asks for a compaction can be read, its table can be created, and the
compaction relieves it.
-/
theorem compactIfNeeded_quiesces_iff {numLevels l0Threshold l1MaxBytes : Nat}
    {settings : BlockSettings} {strategy : Leveled}
    (reached : ReachedBy Grows (new numLevels l0Threshold l1MaxBytes settings) strategy)
    (nowMs : UInt64) (stamp : Nat → Nat)
    : Quiesces (callAt nowMs stamp) strategy
      ↔ ∀ count state,
          repeated (callAt nowMs stamp) strategy count = some state
          → state.CanSettle nowMs (stamp count) := by
  have sane := reached.written (StorageStrategy.New.leveled _ _ _ _).written
  exact (settling_callAt nowMs stamp).quiesces_iff sane

/-- With new names at every call, a strategy whose compaction does not relieve the level it
is for runs one step after the other. Witness: induction over the calls.
-/
theorem Chosen.runs_forever (chosen : strategy.Chosen i level) (sound : strategy.Sound)
    (stuck : ¬ level.Relieved strategy.settings nowMs) (stamp : Nat → Nat)
    (older : OlderThan (stamp 0) strategy.iterAll)
    (increasing : ∀ count, stamp count < stamp (count + 1)) (count : Nat)
    : ∃ state next,
        repeated (callAt nowMs stamp) strategy count = some state
        ∧ callAt nowMs stamp count state = some (true, next) := by
  have kept (count : Nat)
      : ∃ state level,
          repeated (callAt nowMs stamp) strategy count = some state
          ∧ state.Sound
          ∧ OlderThan (stamp count) state.iterAll
          ∧ state.Chosen i level
          ∧ ¬ level.Relieved state.settings nowMs := by
    induction count with
    | zero => exact ⟨strategy, level, rfl, sound, older, chosen, stuck⟩
    | succ count ih =>
        obtain ⟨state, other, reached, soundNow, olderNow, chosenNow, stuckNow⟩ := ih
        obtain ⟨next, done⟩ := soundNow.compactLevel_ok olderNow i nowMs
        have written : ∀ table ∈ state.iterAll, table.Written := by
          intro table member
          obtain ⟨held, inLevels, inside⟩ := mem_iterAll.mp member
          exact .inl (soundNow.valid held inLevels table inside)
        obtain ⟨after, again, stuckAfter⟩ := chosenNow.again written stuckNow done
        have called := callAt_eq_some.mpr
          (compactIfNeeded_ran.mpr ⟨i, other, chosenNow, done⟩)
        exact ⟨next, after, repeated_succ.mpr ⟨state, reached, called⟩,
          (soundNow.compactLevel done).1,
          soundNow.older_compactLevel (olderNow.mono (increasing count).le)
            (increasing count) done, again, stuckAfter⟩
  obtain ⟨state, other, reached, soundNow, olderNow, chosenNow, -⟩ := kept count
  obtain ⟨next, done⟩ := soundNow.compactLevel_ok olderNow i nowMs
  exact ⟨state, next, reached,
    callAt_eq_some.mpr (compactIfNeeded_ran.mpr ⟨i, other, chosenNow, done⟩)⟩

/-- Two levels that merge level 0 at one table, with that table in it. -/
def firstTable (l1MaxBytes : Nat) : Leveled :=
  {
    new 2 1 l1MaxBytes smallBlocks with
    levels :=
      (new 2 1 l1MaxBytes smallBlocks).levels.modify 0
        (fun l0 => { l0 with sstables := [smallTable 1] })
  }

theorem valid_smallTable (timestamp : Nat) : (smallTable timestamp).Valid :=
  SSTable.valid_fromMemtable _ _ (storableTable_new.insert (by decide) _)

theorem reached_firstTable (l1MaxBytes : Nat)
    : ReachedBy Grows (new 2 1 l1MaxBytes smallBlocks) (firstTable l1MaxBytes) := by
  have added : (new 2 1 l1MaxBytes smallBlocks).operate (.addSstable (smallTable 1))
      = .ok (firstTable l1MaxBytes) := rfl
  have permitted : (new 2 1 l1MaxBytes smallBlocks).Grows (.addSstable (smallTable 1)) :=
    .inl (valid_smallTable 1)
  exact .operate .start permitted added

/-- Witness: a table that is merged into a last level with room for it. -/
theorem compactIfNeeded_quiesces_iff_merge
    : Quiesces (callAt 0 (· + 2)) (firstTable 1000)
      ∧ ∀ count state,
          repeated (callAt 0 (· + 2)) (firstTable 1000) count = some state
          → state.CanSettle 0 (count + 2) := by
  have quiesces : Quiesces (callAt 0 (· + 2)) (firstTable 1000) := by
    have computed : ((repeated (callAt 0 (· + 2)) (firstTable 1000) 1).bind
        (callAt 0 (· + 2) 1)).any (fun result => !result.1) = true := by
      decide +kernel
    simp only [Option.any_eq_true, Option.bind_eq_some_iff, Bool.not_eq_true'] at computed
    obtain ⟨⟨ran, next⟩, ⟨state, reached, called⟩, rfl⟩ := computed
    exact ⟨1, state, next, reached, called⟩
  exact ⟨quiesces,
    (compactIfNeeded_quiesces_iff (reached_firstTable 1000) 0 (· + 2)).mp quiesces⟩

/-- Counterexample: a last level whose live data fill it is squashed at every call. -/
theorem squash_repeats
    : ∃ strategy,
        ReachedBy Grows (new 2 1 1 smallBlocks) strategy
        ∧ (∀ count,
            ∃ state next,
              repeated (callAt 0 (· + 3)) strategy count = some state
              ∧ callAt 0 (· + 3) count state = some (true, next))
        ∧ ¬ Quiesces (callAt 0 (· + 3)) strategy := by
  have sound : (firstTable 1).Sound :=
    ((sound_new 2 1 1 smallBlocks).addSstable (valid_smallTable 1) (by decide +kernel) rfl).1
  have older : OlderThan 2 (firstTable 1).iterAll := by
    intro table member
    have only : (firstTable 1).iterAll = [smallTable 1] := rfl
    rw [only, List.mem_singleton] at member
    rw [member]
    decide
  have computed : ((firstTable 1).compactIfNeeded 0 2).toOption.any
      (fun result =>
        result.1
        && decide (result.2.levels.findIdx? Level.needsCompaction = some 1)
        && result.2.levels[1]?.any
          (fun level =>
            level.isTerminal
            && decide (level.levelNum ≠ 0)
            && decide (level.maxBytes
              ≤ (mergedTable smallBlocks { level := none, timestamp := 0 } true 0
                (level.iter.flatMap SSTable.records)).sizeOnDisk)))
      = true := by
    decide +kernel
  simp only [Option.any_eq_true, toOption_eq_some, Bool.and_eq_true, decide_eq_true_eq]
    at computed
  obtain ⟨⟨ran, strategy⟩, done, ⟨rfl, found⟩, level, held, ⟨terminal, deeper⟩, full⟩ :=
    computed
  obtain ⟨other, chosen⟩ := findIdx?_eq_some_iff.mp found
  obtain rfl := Option.some.inj (held.symm.trans chosen.found)
  obtain ⟨i, first, -, compacted⟩ := compactIfNeeded_ran.mp done
  have settings : strategy.settings = smallBlocks := compactLevel_settings compacted
  have stuck : ¬ level.Relieved strategy.settings 0 := by
    rw [Level.Relieved, if_pos terminal, if_neg deeper, settings,
      Level.liveFits_iff { level := none, timestamp := 0 }]
    exact fun relieved => relieved.2.not_ge full
  have soundNow := (sound.compactLevel compacted).1
  have olderNow : OlderThan 3 strategy.iterAll :=
    sound.older_compactLevel (older.mono (by decide)) (by decide) compacted
  have forever := chosen.runs_forever soundNow stuck (· + 3) olderNow
    (fun count => by omega)
  refine ⟨strategy, ?_, forever, ?_⟩
  · have compacts : (firstTable 1).operate (.compactIfNeeded 0 2) = .ok strategy := by
      rw [operate, done]
      rfl
    have permitted : (firstTable 1).Grows (.compactIfNeeded 0 2) := trivial
    exact .operate (reached_firstTable 1) permitted compacts
  · rintro ⟨count, state, next, reached, called⟩
    obtain ⟨same, after, again, ran⟩ := forever count
    obtain rfl := Option.some.inj (reached.symm.trans again)
    rw [called] at ran
    cases ran

end Leveled

end Rustikv.Lsm

import Rustikv.Lsm.Reload

/-! Below level 0 the key ranges of a level's tables stay disjoint, whatever is flushed,
compacted and reloaded.
-/

namespace Rustikv.Lsm

open Library

/-- The closed key ranges of two tables do not meet. An empty table has no range. -/
def SSTable.DisjointRanges (left right : SSTable) : Prop :=
  ∀ leftMin leftMax rightMin rightMax,
    left.min.map Prod.fst = some leftMin
    → left.max.map Prod.fst = some leftMax
    → right.min.map Prod.fst = some rightMin
    → right.max.map Prod.fst = some rightMax
    → leftMax < rightMin ∨ rightMax < leftMin

/-- The bounds of a valid table are keys of its records. -/
theorem SSTable.Valid.bound_keys {table : SSTable} (valid : table.Valid) {min max : String}
    (minEq : table.min.map Prod.fst = some min) (maxEq : table.max.map Prod.fst = some max)
    : (∃ record ∈ table.records, record.key = min)
      ∧ ∃ record ∈ table.records, record.key = max := by
  have lowest := valid.min
  rw [minEq] at lowest
  obtain ⟨first, found, -⟩ := Option.map_eq_some_iff.mp lowest.symm
  obtain ⟨low, high, lowEq, highEq, -, -, isLow, isHigh⟩ :=
    valid.bounds (List.mem_of_mem_head? found)
  obtain rfl : low = min := Option.some.inj (lowEq.symm.trans minEq)
  obtain rfl : high = max := Option.some.inj (highEq.symm.trans maxEq)
  exact ⟨isLow, isHigh⟩

theorem SSTable.Apart.disjointRanges {left right : SSTable} (apart : left.Apart right)
    (validLeft : left.Valid) (validRight : right.Valid)
    : left.DisjointRanges right := by
  intro leftMin leftMax rightMin rightMax leftMinEq leftMaxEq rightMinEq rightMaxEq
  obtain ⟨⟨leftFirst, inLeft, rfl⟩, leftLast, inLeft', rfl⟩ :=
    validLeft.bound_keys leftMinEq leftMaxEq
  obtain ⟨⟨rightFirst, inRight, rfl⟩, rightLast, inRight', rfl⟩ :=
    validRight.bound_keys rightMinEq rightMaxEq
  rcases apart with below | below
  · exact .inl (below leftLast inLeft' rightFirst inRight)
  · exact .inr (below rightLast inRight' leftFirst inLeft)

theorem StorableTable.addressable {memtable : Memtable} (storable : StorableTable memtable)
    : Addressable memtable := by
  intro key entry found
  obtain ⟨keyLimit, valueLimit⟩ := (storable key entry found).fits
  simp only [maxKeySize, maxValueSize, uintBound] at keyLimit valueLimit ⊢
  omega

namespace Leveled

-----------------------------------------------------------------------------------------
-- Reachable strategies
-----------------------------------------------------------------------------------------

/-- A flushed memtable is added, or the tables are compacted. -/
inductive Step
  | flush (settings : BlockSettings) (memtable : Memtable) (timestamp : Nat)
  | compactIfNeeded (nowMs : UInt64) (timestamp : Nat)
  | compactAll (clock : Nat → UInt64) (stamp : Nat → Nat)

def perform (strategy : Leveled) : Step → Except IoError Leveled
  | .flush settings memtable timestamp => do
      let sst ←
        createTable settings (paths strategy.levels) { level := none, timestamp } memtable
      strategy.addSstable sst
  | .compactIfNeeded nowMs timestamp => do
      let (_, strategy) ← strategy.compactIfNeeded nowMs timestamp
      return strategy
  | .compactAll clock stamp => strategy.compactAll clock stamp

/-- The memtables that are flushed satisfy `holds`. -/
def Step.Flushes (holds : Memtable → Prop) : Step → Prop
  | .flush _ memtable _ => holds memtable
  | _ => True

/-- What flushes, compactions and reloads lead to. A reload keeps the number of levels; its
other parameters may be new ones.
-/
inductive Reachable (dbName : String) (numLevels : Nat) : Leveled → Prop
  | new (l0Threshold l1MaxBytes : Nat) (settings : BlockSettings)
    : Reachable dbName numLevels (Leveled.new numLevels l0Threshold l1MaxBytes settings)
  | perform {strategy next : Leveled} {step : Step}
      (reached : Reachable dbName numLevels strategy)
      (addressable : step.Flushes Addressable)
      (done : strategy.perform step = .ok next)
    : Reachable dbName numLevels next
  | reload {strategy next : Leveled} {directory : List TableFile}
      {l0Threshold l1MaxBytes : Nat} {settings : BlockSettings}
      (reached : Reachable dbName numLevels strategy)
      (lists : Lists dbName directory strategy.iterAll)
      (loaded
        : loadFromDir dbName directory numLevels l0Threshold l1MaxBytes settings = .ok next)
    : Reachable dbName numLevels next

/-- What is true of every reachable strategy. A table of level 0 is valid, unless it cannot
be read at all.
-/
structure Tidy (numLevels : Nat) (strategy : Leveled) : Prop where
  layered : strategy.Layered
  filed : strategy.Filed
  tables
    : ∀ level ∈ strategy.levels, ∀ table ∈ level.sstables, table.Valid ∨ table.Unreadable
  count : strategy.levels.length = numLevels

variable {numLevels : Nat} {strategy next : Leveled}

theorem tidy_new (numLevels l0Threshold l1MaxBytes : Nat) (settings : BlockSettings)
    : (Leveled.new numLevels l0Threshold l1MaxBytes settings).Tidy numLevels where
  layered := (sound_new numLevels l0Threshold l1MaxBytes settings).layered
  filed := filed_new numLevels l0Threshold l1MaxBytes settings
  tables level member table inside :=
    .inl ((sound_new numLevels l0Threshold l1MaxBytes settings).valid level member table
      inside)
  count := by simp [Leveled.new]

theorem Tidy.flush (tidy : strategy.Tidy numLevels) {settings : BlockSettings}
    {timestamp : Nat} {memtable : Memtable} (addressable : Addressable memtable)
    (done : strategy.perform (.flush settings memtable timestamp) = .ok next)
    : next.Tidy numLevels := by
  obtain ⟨sst, created, added⟩ := bind_eq_ok.mp done
  obtain ⟨fresh, rfl⟩ := createTable_eq_ok.mp created
  obtain ⟨layered, count, tables⟩ := tidy.layered.addSstable
    (by simpa [SSTable.path_fromMemtable] using fresh) added
  refine ⟨layered, ?_, ?_, count.trans tidy.count⟩
  · exact tidy.filed.addSstable (by rw [SSTable.path_fromMemtable]) added
  · intro level member table inside
    rcases tables level member table inside with rfl | ⟨other, inLevels, held⟩
    · exact SSTable.valid_or_unreadable settings _ addressable
    · exact tidy.tables other inLevels table held

/-- A compaction that changes anything has read the level it starts from. -/
theorem Layered.compactLevel_reads (layered : strategy.Layered) {i : Nat} {nowMs : UInt64}
    {timestamp : Nat} (done : strategy.compactLevel i nowMs timestamp = .ok next)
    : next = strategy
      ∨ ∀ level,
          strategy.levels[i]? = some level → ∀ table ∈ level.sstables, ¬ table.Unreadable := by
  cases found : strategy.levels[i]? with
  | none => exact .inr (by simp)
  | some level =>
      unfold Leveled.compactLevel at done
      simp only [found] at done
      cases terminal : level.isTerminal with
      | true =>
          right
          rintro other ⟨⟩ table member
          have nonempty : level.sstables.isEmpty = false := by
            cases shape : level.sstables with
            | nil => simp [shape] at member
            | cons first rest => rfl
          simp only [terminal, if_true, Level.squash, nonempty, Bool.false_eq_true,
            if_false] at done
          obtain ⟨pair, squashed, -⟩ := bind_eq_ok.mp done
          obtain ⟨memtable, merged, -⟩ := bind_eq_ok.mp squashed
          exact readable_of_mergeTables merged (List.mem_reverse.mpr member)
      | false =>
          obtain ⟨front, back, split, count⟩ := exists_split found
          obtain ⟨target, more, rfl⟩ := layered.exists_next split terminal
          simp only [terminal, Bool.false_eq_true, if_false] at done
          rw [← count] at done
          obtain ⟨source', target', merged, rfl⟩ := compactLevels_next split done
          unfold mergeLevels at merged
          split at merged
          next start end_ range =>
            right
            rintro other ⟨⟩ table member
            obtain ⟨memtable, read, -⟩ := bind_eq_ok.mp merged
            exact readable_of_mergeTables read (List.mem_reverse.mpr member)
          next =>
            left
            obtain ⟨rfl, rfl⟩ := Prod.mk.inj (Except.ok.inj merged)
            rw [← split]

theorem Tidy.compactLevel (tidy : strategy.Tidy numLevels) {i : Nat} {nowMs : UInt64}
    {timestamp : Nat} (done : strategy.compactLevel i nowMs timestamp = .ok next)
    : next.Tidy numLevels := by
  rcases tidy.layered.compactLevel_reads done with rfl | reads
  · exact tidy
  · have readable : ∀ level, strategy.levels[i]? = some level
        → ∀ table ∈ level.sstables, table.Valid := by
      intro level found table member
      have either := tidy.tables level (List.mem_of_getElem? found) table member
      exact either.resolve_right (reads level found table member)
    obtain ⟨layered, count, carries⟩ := tidy.layered.compactLevel readable done
    exact ⟨layered, tidy.filed.compactLevel tidy.layered readable done,
      carries _ (fun _ valid => .inl valid) tidy.tables, count.trans tidy.count⟩

theorem Tidy.compactIfNeeded (tidy : strategy.Tidy numLevels) {nowMs : UInt64}
    {timestamp : Nat} {ran : Bool}
    (done : strategy.compactIfNeeded nowMs timestamp = .ok (ran, next))
    : next.Tidy numLevels :=
  compactIfNeeded_invariant done tidy (fun _ _ compacted => tidy.compactLevel compacted)

theorem Tidy.compactAll (tidy : strategy.Tidy numLevels) {clock : Nat → UInt64}
    {stamp : Nat → Nat} (done : strategy.compactAll clock stamp = .ok next)
    : next.Tidy numLevels := by
  rw [compactAll_eq] at done
  exact compactFrom_invariant (Tidy numLevels) done tidy
    (fun _ _ _ _ before compacted => before.compactLevel compacted)

/-- A directory that can be loaded holds no unreadable table of the database. -/
theorem valid_of_loadFromDir {dbName : String} {directory : List TableFile}
    {tables : List SSTable} (lists : Lists dbName directory tables)
    (each : ∀ table ∈ tables, table.Valid ∨ table.Unreadable)
    {l0Threshold l1MaxBytes : Nat} {settings : BlockSettings}
    (loaded
      : loadFromDir dbName directory numLevels l0Threshold l1MaxBytes settings = .ok next)
    : ∀ table ∈ recognisedTables dbName tables, table.Valid := by
  intro table member
  obtain ⟨sorted, listed, -⟩ := bind_eq_ok.mp loaded
  refine (each table (List.mem_of_mem_filter member)).resolve_right (fun unreadable => ?_)
  have inFiles : (table.path, table.blocks)
      ∈ (databaseFiles dbName directory).insertionSort
        (fun left right => left.1.timestamp ≤ right.1.timestamp) := by
    rw [List.mem_insertionSort, (databaseFiles_perm lists).mem_iff]
    exact List.mem_map_of_mem member
  obtain ⟨rebuilt, done⟩ := mapM_eq_ok_of_mem listed inFiles
  obtain ⟨error, failed⟩ := unreadable.rebuildIndex table.path
  rw [failed] at done
  cases done

theorem Tidy.reload (tidy : strategy.Tidy numLevels) {dbName : String}
    {directory : List TableFile} (lists : Lists dbName directory strategy.iterAll)
    {l0Threshold l1MaxBytes : Nat} {settings : BlockSettings}
    (loaded
      : loadFromDir dbName directory numLevels l0Threshold l1MaxBytes settings = .ok next)
    : next.Tidy numLevels := by
  have valid := valid_of_loadFromDir lists (by
    intro table member
    obtain ⟨level, inLevels, held⟩ := mem_iterAll.mp member
    exact tidy.tables level inLevels table held) loaded
  obtain ⟨other, again, reloads⟩ := tidy.filed.reloads lists valid l0Threshold l1MaxBytes
    settings
  rw [tidy.count, loaded] at again
  obtain rfl := Except.ok.inj again
  have sound := reloads.sound tidy.layered valid
  exact ⟨sound.layered, reloads.filed tidy.filed,
    fun level member table inside => .inl (sound.valid level member table inside),
    reloads.count.trans tidy.count⟩

theorem Tidy.perform (tidy : strategy.Tidy numLevels) {step : Step}
    (addressable : step.Flushes Addressable) (done : strategy.perform step = .ok next)
    : next.Tidy numLevels := by
  cases step with
  | flush settings memtable timestamp => exact tidy.flush addressable done
  | compactIfNeeded nowMs timestamp =>
      obtain ⟨⟨ran, other⟩, compacted, rest⟩ := bind_eq_ok.mp done
      obtain rfl := Except.ok.inj rest
      exact tidy.compactIfNeeded compacted
  | compactAll clock stamp => exact tidy.compactAll done

theorem Reachable.tidy {dbName : String} (reached : Reachable dbName numLevels strategy)
    : strategy.Tidy numLevels := by
  induction reached with
  | new l0Threshold l1MaxBytes settings => exact tidy_new _ _ _ _
  | perform reached addressable done ih => exact ih.perform addressable done
  | reload reached lists loaded ih => exact ih.reload lists loaded

/-- Two tables of a level below level 0 never share a part of the key space. -/
theorem levels_do_not_overlap {dbName : String}
    (reached : Reachable dbName numLevels strategy) {i : Nat} {level : Level}
    (below : 1 ≤ i) (found : strategy.levels[i]? = some level)
    : level.sstables.Pairwise SSTable.DisjointRanges := by
  have tidy := reached.tidy
  have deeper : level ∈ strategy.levels.tail := by
    rw [List.mem_iff_getElem?]
    refine ⟨i - 1, ?_⟩
    rw [List.getElem?_tail, Nat.sub_add_cancel below]
    exact found
  have valid := tidy.layered.valid level deeper
  refine (tidy.layered.apart level deeper).imp_of_mem ?_
  intro left right inLeft inRight apart
  exact apart.disjointRanges (valid left inLeft) (valid right inRight)

/-- One step after the other. -/
def performAll (steps : List Step) (strategy : Leveled) : Except IoError Leveled :=
  steps.foldlM perform strategy

theorem Reachable.performAll {dbName : String} (reached : Reachable dbName numLevels strategy)
    {steps : List Step} (storable : ∀ step ∈ steps, step.Flushes StorableTable)
    (done : Leveled.performAll steps strategy = .ok next)
    : Reachable dbName numLevels next := by
  induction steps generalizing strategy with
  | nil =>
      obtain rfl := Except.ok.inj done
      exact reached
  | cons step rest ih =>
      unfold Leveled.performAll at done
      rw [List.foldlM_cons] at done
      obtain ⟨middle, first, later⟩ := bind_eq_ok.mp done
      have addressable : step.Flushes Addressable := by
        cases step with
        | flush settings memtable timestamp =>
            have fits : StorableTable memtable :=
              storable (.flush settings memtable timestamp) (by simp)
            exact fits.addressable
        | compactIfNeeded nowMs timestamp => trivial
        | compactAll clock stamp => trivial
      exact ih (reached.perform addressable first)
        (fun other member => storable other (List.mem_cons_of_mem _ member)) later

/-- A memtable with one value. -/
def oneEntry (key value : String) : Memtable :=
  Memtable.new.insert key value none

/-- Two flushes, each compacted into level 1. -/
def flushedTwice : List Step :=
  [
    .flush smallBlocks (oneEntry "a" "v") 1,
    .compactIfNeeded 0 2,
    .flush smallBlocks (oneEntry "c" "v") 3,
    .compactIfNeeded 0 4
  ]

theorem storable_flushedTwice : ∀ step ∈ flushedTwice, step.Flushes StorableTable := by
  simp only [flushedTwice, List.mem_cons, List.not_mem_nil, or_false, forall_eq_or_imp,
    forall_eq, Step.Flushes, true_and, and_true]
  exact ⟨storableTable_new.insert (by decide) _, storableTable_new.insert (by decide) _⟩

/-- Witness: two tables side by side in level 1. -/
theorem levels_do_not_overlap_merged
    : ∃ strategy level,
        Reachable "db" 3 strategy
        ∧ strategy.levels[1]? = some level
        ∧ level.sstables.length = 2
        ∧ level.sstables.Pairwise SSTable.DisjointRanges := by
  have computed : (Leveled.performAll flushedTwice
      (Leveled.new 3 1 1000 smallBlocks)).toOption.any
        (fun final =>
          final.levels[1]?.any (fun level => level.sstables.length = 2)) = true := by
    decide +kernel
  simp only [Option.any_eq_true, toOption_eq_some, decide_eq_true_eq] at computed
  obtain ⟨final, ran, level, found, two⟩ := computed
  have reached : Reachable "db" 3 final :=
    (Reachable.new 1 1000 smallBlocks).performAll storable_flushedTwice ran
  exact ⟨final, level, reached, found, two, levels_do_not_overlap reached le_rfl found⟩

end Leveled

end Rustikv.Lsm

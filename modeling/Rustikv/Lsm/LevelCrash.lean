import Rustikv.Lsm.FewerLevels
import Rustikv.Lsm.FileOperations

/-! Crashes while one level is compacted into the next. The merged table is written first,
then the tables it replaces are removed, those of the source level newest first.
-/

namespace Rustikv.Lsm

open Library

/-- The files of the target level that a merge replaces. -/
def Level.overlapPaths (source target : Level) : List TablePath :=
  match source.keyRange with
  | some (start, end_) => (target.overlappingFiles start end_).map SSTable.path
  | none => []

/-- The tables of the level that hold a key read alike from this time on. -/
def Level.ReadsAlike (level : Level) (nowMs : UInt64) : Prop :=
  ∀ (key : String),
    ∀ left ∈ level.sstables,
      ∀ right ∈ level.sstables,
        (left.version key).isSome = true
        → (right.version key).isSome = true
        → ∀ laterMs,
            nowMs ≤ laterMs
            → readAt (left.version key) laterMs = readAt (right.version key) laterMs

namespace Leveled

/-- The file operations of `compact_levels`. The overlapped files are removed in the order
in which a hash set gives them.
-/
def levelsOperations (settings : BlockSettings) (files : List TablePath)
    (source target : Level) (nowMs : UInt64) (timestamp : Nat) (order : List TablePath)
    : Except IoError (List FileOperation) :=
  match source.keyRange with
  | some (start, end_) => do
      let overlap := target.overlappingFiles start end_
      let memtable ← mergeTables target.isTerminal nowMs source.iter Memtable.new
      let memtable ← mergeTables target.isTerminal nowMs overlap memtable
      let sstable ←
        createTable settings files { level := some target.levelNum, timestamp } memtable
      return .create sstable
        :: (order ++ source.iter.map SSTable.path).map .remove
  | none => .ok []

-----------------------------------------------------------------------------------------
-- Runs with increasing timestamps
-----------------------------------------------------------------------------------------

/-- A flushed table is newer than the tables of level 0. -/
def Step.isNewest (strategy : Leveled) : Step → Bool
  | .flush _ _ timestamp =>
      strategy.levels.head?.all
        (fun level => level.sstables.all (fun table => table.path.timestamp < timestamp))
  | _ => true

/-- What flushes with increasing timestamps and compactions lead to. -/
inductive Grown (numLevels : Nat) : Leveled → Prop
  | new (l0Threshold l1MaxBytes : Nat) (settings : BlockSettings)
    : Grown numLevels (Leveled.new numLevels l0Threshold l1MaxBytes settings)
  | perform {strategy next : Leveled} {step : Step} (reached : Grown numLevels strategy)
      (storable : step.Flushes StorableTable) (stamped : step.Stamped numLevels)
      (newest : step.isNewest strategy = true) (done : strategy.perform step = .ok next)
    : Grown numLevels next

variable {numLevels : Nat} {strategy next : Leveled}

theorem Orderly.perform (orderly : strategy.Orderly) {step : Step}
    (storable : step.Flushes StorableTable) (stamped : step.Stamped strategy.levels.length)
    (newest : step.isNewest strategy = true) (done : strategy.perform step = .ok next)
    : next.Orderly ∧ next.levels.length = strategy.levels.length := by
  cases step with
  | flush settings memtable timestamp =>
      obtain ⟨sst, created, added⟩ := bind_eq_ok.mp done
      obtain ⟨fresh, rfl⟩ := createTable_eq_ok.mp created
      have path := SSTable.path_fromMemtable settings { level := none, timestamp } memtable
      refine orderly.addSstable (SSTable.valid_fromMemtable settings _ storable) ?_ ?_ ?_ ?_
        added
      · rwa [path]
      · rw [path]
      · rw [path]
        exact stamped
      · intro level first table member
        simp only [Step.isNewest, first, Option.all_some, List.all_eq_true,
          decide_eq_true_eq] at newest
        rw [SSTable.Before, path]
        exact newest table member
  | compactIfNeeded nowMs timestamp =>
      obtain ⟨⟨ran, other⟩, compacted, rest⟩ := bind_eq_ok.mp done
      obtain rfl := Except.ok.inj rest
      exact orderly.compactIfNeeded stamped compacted
  | compactAll clock stamp => exact orderly.compactAll stamped done

theorem Grown.orderly (grown : Grown numLevels strategy) (few : numLevels ≤ uintBound)
    : strategy.Orderly ∧ strategy.levels.length = numLevels := by
  induction grown with
  | new l0Threshold l1MaxBytes settings =>
      exact ⟨orderly_new few l0Threshold l1MaxBytes settings, by simp [Leveled.new]⟩
  | perform reached storable stamped newest done ih =>
      obtain ⟨orderly, count⟩ := ih
      obtain ⟨orderlyNext, same⟩ := orderly.perform storable (by rwa [count]) newest done
      exact ⟨orderlyNext, same.trans count⟩

/-- Each step of the run flushes a newest table. -/
def newestFrom : List Step → Leveled → Bool
  | [], _ => true
  | step :: rest, strategy =>
      step.isNewest strategy && (strategy.perform step).toOption.all (newestFrom rest)

theorem Grown.performAll (grown : Grown numLevels strategy) {steps : List Step}
    (storable : ∀ step ∈ steps, step.Flushes StorableTable)
    (stamped : ∀ step ∈ steps, step.Stamped numLevels)
    (newest : newestFrom steps strategy = true)
    (done : Leveled.performAll steps strategy = .ok next)
    : Grown numLevels next := by
  induction steps generalizing strategy with
  | nil =>
      obtain rfl := Except.ok.inj done
      exact grown
  | cons step rest ih =>
      unfold Leveled.performAll at done
      rw [List.foldlM_cons] at done
      obtain ⟨middle, first, later⟩ := bind_eq_ok.mp done
      obtain ⟨here, behind⟩ := Bool.and_eq_true_iff.mp newest
      rw [first] at behind
      exact ih
        (grown.perform (storable step (by simp)) (stamped step (by simp)) here first)
        (fun other member => storable other (List.mem_cons_of_mem _ member))
        (fun other member => stamped other (List.mem_cons_of_mem _ member)) behind later

theorem Orderly.valid (orderly : strategy.Orderly)
    : ∀ table ∈ strategy.iterAll, table.Valid := by
  intro table member
  obtain ⟨level, inLevels, held⟩ := mem_iterAll.mp member
  exact orderly.sound.valid level inLevels table held

/-- A table is loaded into the level it is in. -/
theorem Orderly.slot_eq (orderly : strategy.Orderly) {i : Nat} {level : Level}
    (found : strategy.levels[i]? = some level) {table : SSTable}
    (member : table ∈ level.sstables)
    : table.slot strategy.levels.length = i := by
  have placed := orderly.filed.placed level (List.mem_of_getElem? found) table member
  rw [orderly.filed.levelNum_eq found] at placed
  obtain ⟨inside, -⟩ := List.getElem?_eq_some_iff.mp found
  rw [SSTable.slot, placed, if_pos inside]

theorem Orderly.mem_slot (orderly : strategy.Orderly) {table : SSTable}
    (member : table ∈ strategy.iterAll)
    : ∃ level,
        strategy.levels[table.slot strategy.levels.length]? = some level
        ∧ table ∈ level.sstables := by
  obtain ⟨level, inLevels, held⟩ := mem_iterAll.mp member
  obtain ⟨i, found⟩ := List.mem_iff_getElem?.mp inLevels
  rw [orderly.slot_eq found held]
  exact ⟨level, found, held⟩

theorem length_pos_of_mem_iterAll {table : SSTable} (member : table ∈ strategy.iterAll)
    : 0 < strategy.levels.length := by
  obtain ⟨level, inLevels, -⟩ := mem_iterAll.mp member
  exact List.length_pos_of_mem inLevels

/-- The strategy itself reads in the order of loading. -/
theorem Orderly.version_of_first (orderly : strategy.Orderly) {key : String}
    {table : SSTable}
    (first : table.LoadedFirst strategy.levels.length strategy.iterAll key)
    : strategy.version key = table.version key := by
  have known := orderly.known (by decide +kernel : safeName "db" = true)
  have inhabited := length_pos_of_mem_iterAll first.member
  obtain ⟨directory, loaded, lists, opened, -, chosen⟩ :=
    loadFromDir_chooses first known orderly.valid inhabited 0 0 strategy.settings
  obtain ⟨other, again, reloads⟩ := orderly.filed.reloads lists (by
    rw [recognisedTables_eq known]
    exact orderly.valid) 0 0 strategy.settings
  obtain rfl := Except.ok.inj (opened.symm.trans again)
  rw [← chosen, reloads.version orderly.sound known orderly.ascending]

theorem Orderly.distinct_paths (orderly : strategy.Orderly)
    : (strategy.iterAll.map SSTable.path).Nodup := by
  have all : (strategy.iterAll.map SSTable.path).Perm (paths strategy.levels) :=
    ((iterAll_perm strategy).map _).trans (List.Perm.of_eq List.map_flatMap)
  exact all.nodup_iff.mpr orderly.sound.distinct

/-- Tables of different levels have different files. -/
theorem Orderly.path_ne (orderly : strategy.Orderly) {i j : Nat} {level other : Level}
    (differ : i ≠ j) (found : strategy.levels[i]? = some level)
    (here : strategy.levels[j]? = some other) {left right : SSTable}
    (inLeft : left ∈ level.sstables) (inRight : right ∈ other.sstables)
    : left.path ≠ right.path := by
  intro same
  obtain rfl := List.inj_on_of_nodup_map orderly.distinct_paths
    (mem_iterAll.mpr ⟨level, List.mem_of_getElem? found, inLeft⟩)
    (mem_iterAll.mpr ⟨other, List.mem_of_getElem? here, inRight⟩) same
  exact differ ((orderly.slot_eq found inLeft).symm.trans (orderly.slot_eq here inRight))

theorem Orderly.exists_first (orderly : strategy.Orderly) {key : String} {table : SSTable}
    (member : table ∈ strategy.iterAll) (held : (table.version key).isSome = true)
    : ∃ first : SSTable,
        first.LoadedFirst strategy.levels.length strategy.iterAll key := by
  have inhabited := length_pos_of_mem_iterAll member
  obtain ⟨next, -, -, versions⟩ :=
    loadFromDir_first ⟨[], List.Perm.of_eq (List.append_nil _).symm, by simp⟩
      (orderly.known (by decide +kernel : safeName "db" = true)) orderly.valid inhabited 0 0
      strategy.settings
  rcases versions key with ⟨-, nowhere⟩ | ⟨first, isFirst, -⟩
  · rw [nowhere table member] at held
    cases held
  · exact ⟨first, isFirst⟩

-----------------------------------------------------------------------------------------
-- The tables at a crash
-----------------------------------------------------------------------------------------

/-- With readable tables and a fresh name the merge goes through. -/
theorem levelsOperations_ok {settings : BlockSettings} {files order : List TablePath}
    {source target : Level} {nowMs : UInt64} {timestamp : Nat} {start end_ : String}
    (validSource : ∀ table ∈ source.sstables, table.Valid)
    (validTarget : ∀ table ∈ target.sstables, table.Valid)
    (range : source.keyRange = some (start, end_))
    (fresh : ({ level := some target.levelNum, timestamp } : TablePath) ∉ files)
    : levelsOperations settings files source target nowMs timestamp order
      = .ok (.create (mergedTable settings { level := some target.levelNum, timestamp }
            target.isTerminal nowMs (source.mergeInput target start end_))
          :: (order ++ source.iter.map SSTable.path).map .remove) := by
  have validIter : ∀ table ∈ source.iter, table.Valid :=
    fun table member => validSource table (List.mem_reverse.mp member)
  have validOverlap : ∀ table ∈ target.overlappingFiles start end_, table.Valid :=
    fun table member => validTarget table (List.mem_of_mem_filter member)
  simp only [levelsOperations, range, mergeTables_eq _ _ validIter,
    mergeTables_eq _ _ validOverlap, ok_bind, createTable, if_neg fresh]
  rw [← List.foldl_append, ← List.flatMap_append]
  rfl

/-- Everything that `compact_levels` does to the files. -/
theorem levelsOperations_cases {settings : BlockSettings} {files order : List TablePath}
    {source target : Level} {nowMs : UInt64} {timestamp : Nat}
    {operations : List FileOperation}
    (validSource : ∀ table ∈ source.sstables, table.Valid)
    (validTarget : ∀ table ∈ target.sstables, table.Valid)
    (listed
      : levelsOperations settings files source target nowMs timestamp order
        = .ok operations)
    : (source.keyRange = none ∧ operations = [])
      ∨ ∃ start end_,
          source.keyRange = some (start, end_)
          ∧ ({ level := some target.levelNum, timestamp } : TablePath) ∉ files
          ∧ operations
            = .create (mergedTable settings { level := some target.levelNum, timestamp }
                target.isTerminal nowMs (source.mergeInput target start end_))
              :: (order ++ source.iter.map SSTable.path).map .remove := by
  cases range : source.keyRange with
  | none =>
      simp only [levelsOperations, range] at listed
      exact .inl ⟨rfl, (Except.ok.inj listed).symm⟩
  | some bounds =>
      obtain ⟨start, end_⟩ := bounds
      have fresh : ({ level := some target.levelNum, timestamp } : TablePath) ∉ files := by
        intro taken
        simp only [levelsOperations, range, createTable, if_pos taken] at listed
        obtain ⟨first, _, rest⟩ := bind_eq_ok.mp listed
        obtain ⟨second, _, failed⟩ := bind_eq_ok.mp rest
        cases failed
      rw [levelsOperations_ok validSource validTarget range fresh] at listed
      exact .inr ⟨start, end_, rfl, fresh, (Except.ok.inj listed).symm⟩

/-- The tables left by a merge that stops at any point: a source table is removed only after
all overlapped ones, and nothing is removed before the output is there.
-/
structure Interrupted (before source overlap : List SSTable) (output : SSTable)
    (tables : List SSTable)
    : Prop where
  members : ∀ table ∈ tables, table ∈ before ∨ table = output ∧ output ∈ tables
  missing
    : ∀ table ∈ before,
        table ∉ tables
        → output ∈ tables
          ∧ (table ∈ overlap ∨ table ∈ source ∧ ∀ other ∈ overlap, other ∉ tables)

/-- Tables with distinct paths are told apart by them. -/
theorem eq_of_path {tables : List SSTable} (distinct : (tables.map SSTable.path).Nodup)
    {left right : SSTable} (inLeft : left ∈ tables) (inRight : right ∈ tables)
    (same : left.path = right.path)
    : left = right :=
  List.inj_on_of_nodup_map distinct inLeft inRight same

theorem interrupted {before source overlap : List SSTable} {output : SSTable}
    {order : List TablePath} (distinct : (before.map SSTable.path).Nodup)
    (inSource : ∀ table ∈ source, table ∈ before)
    (inOverlap : ∀ table ∈ overlap, table ∈ before)
    (fresh : output.path ∉ before.map SSTable.path)
    (perm : order.Perm (overlap.map SSTable.path)) (count : Nat)
    : Interrupted before source overlap output
        (afterOperations
          ((.create output :: (order ++ source.map SSTable.path).map .remove).take count)
          before) := by
  cases count with
  | zero => exact ⟨fun table member => .inl member, fun table member absent =>
      absurd member absent⟩
  | succ count =>
      rw [List.take_succ_cons, ← List.map_take, afterOperations_cons, List.take_append]
      have sub : ∀ path ∈ order.take count
          ++ (source.map SSTable.path).take (count - order.length),
          path ∈ before.map SSTable.path := by
        intro path member
        rcases List.mem_append.mp member with early | late
        · obtain ⟨table, inside, rfl⟩ :=
            List.mem_map.mp (perm.mem_iff.mp (List.mem_of_mem_take early))
          exact List.mem_map_of_mem (inOverlap table inside)
        · obtain ⟨table, inside, rfl⟩ := List.mem_map.mp (List.mem_of_mem_take late)
          exact List.mem_map_of_mem (inSource table inside)
      have stays : output ∈ afterOperations
          ((order.take count ++ (source.map SSTable.path).take (count - order.length)).map
            .remove) (FileOperation.apply before (.create output)) := by
        rw [mem_afterOperations_remove]
        exact ⟨by simp [FileOperation.apply], fun member => fresh (sub _ member)⟩
      refine ⟨?_, ?_⟩
      · intro table member
        rcases List.mem_append.mp (mem_afterOperations_remove.mp member).1 with old | new
        · exact .inl old
        · exact .inr ⟨List.mem_singleton.mp new, stays⟩
      · intro table member absent
        refine ⟨stays, ?_⟩
        have removed : table.path ∈ order.take count
            ++ (source.map SSTable.path).take (count - order.length) := by
          by_contra kept
          exact absent (mem_afterOperations_remove.mpr
            ⟨List.mem_append_left _ member, kept⟩)
        rcases List.mem_append.mp removed with early | late
        · left
          obtain ⟨other, inside, same⟩ :=
            List.mem_map.mp (perm.mem_iff.mp (List.mem_of_mem_take early))
          rwa [← eq_of_path distinct (inOverlap other inside) member same]
        · right
          obtain ⟨other, inside, same⟩ := List.mem_map.mp (List.mem_of_mem_take late)
          refine ⟨by rwa [← eq_of_path distinct (inSource other inside) member same], ?_⟩
          -- A source file goes only when the whole of `order` has been worked off.
          intro overlapped among still
          refine (mem_afterOperations_remove.mp still).2 (List.mem_append_left _ ?_)
          have reached : order.length ≤ count := by
            by_contra short
            rw [Nat.sub_eq_zero_of_le (by omega), List.take_zero] at late
            cases late
          rw [List.take_of_length_le reached, perm.mem_iff]
          exact List.mem_map_of_mem among

-----------------------------------------------------------------------------------------
-- What is read at a crash
-----------------------------------------------------------------------------------------

section Merge

variable {front back : List Level} {source target : Level} {start end_ : String}
  {nowMs : UInt64} {output : SSTable} {tables : List SSTable} {key : String}

/-- The table that a merge into the middle of the levels creates. -/
structure Merges (strategy : Leveled) (front : List Level) (source target : Level)
    (back : List Level) (start end_ : String) (nowMs : UInt64) (output : SSTable)
    : Prop where
  split : strategy.levels = front ++ source :: target :: back
  middle : target.isTerminal = false
  range : source.keyRange = some (start, end_)
  level : output.path.level = some target.levelNum
  created
    : ∃ settings,
        output
        = mergedTable settings output.path false nowMs (source.mergeInput target start end_)

variable (orderly : strategy.Orderly)
  (merges : Merges strategy front source target back start end_ nowMs output)

include merges in
theorem Merges.source_eq : strategy.levels[front.length]? = some source := by
  simp [merges.split]

include merges in
theorem Merges.target_eq : strategy.levels[front.length + 1]? = some target := by
  simp [merges.split]

include orderly merges

theorem Merges.target_apart : target.sstables.Pairwise SSTable.Apart := by
  refine orderly.sound.apart target ?_
  cases front <;> simp [merges.split]

theorem Merges.output_version (key : String)
    : output.version key
      = (earliest Record.key (source.mergeInput target start end_) key).bind
          (mergedEntry false nowMs) := by
  obtain ⟨settings, created⟩ := merges.created
  have valid := valid_mergeInput start end_
    (orderly.sound.valid source (by simp [merges.split]))
    (orderly.sound.valid target (by simp [merges.split]))
  rw [created, version_mergedTable settings output.path false nowMs valid (by simp) key]

theorem Merges.output_stands (key : String)
    : StandsFor nowMs (output.version key)
        ((versionIn source.iter key).or
          (versionIn (target.overlappingFiles start end_) key)) := by
  rw [merges.output_version orderly, versionIn_mergeInput]
  exact mergedEntry_standsFor false nowMs _

theorem Merges.output_holds (key : String)
    : (output.version key).isSome
      = ((versionIn source.iter key).or
          (versionIn (target.overlappingFiles start end_) key)).isSome := by
  rw [merges.output_version orderly, versionIn_mergeInput]
  cases earliest Record.key (source.mergeInput target start end_) key with
  | none => rfl
  | some record =>
      simp only [Option.bind_some, Option.map_some, mergedEntry]
      split <;> rfl

theorem Merges.output_slot : output.slot strategy.levels.length = front.length + 1 := by
  have number := orderly.filed.levelNum_eq merges.target_eq
  obtain ⟨inside, -⟩ := List.getElem?_eq_some_iff.mp merges.target_eq
  rw [SSTable.slot, merges.level, Option.getD_some, number, if_pos inside]

/-- A target table that holds a merged key is one of those that the output replaces. -/
theorem Merges.mem_overlap (held : (output.version key).isSome = true) {table : SSTable}
    (member : table ∈ target.sstables) (some : (table.version key).isSome = true)
    : table ∈ target.overlappingFiles start end_ := by
  rw [Level.overlappingFiles, List.mem_filter]
  refine ⟨member, ?_⟩
  by_contra misses
  rw [merges.output_version orderly] at held
  cases found : earliest Record.key (source.mergeInput target start end_) key with
  | none =>
      rw [found] at held
      cases held
  | some record =>
      obtain ⟨isInput, rfl⟩ := earliest_some Record.key found
      have absent := version_untouched
        (orderly.sound.valid source (by simp [merges.split]))
        (orderly.sound.valid target (by simp [merges.split])) (merges.target_apart orderly)
        merges.range (List.mem_filter.mpr ⟨member, by simpa using misses⟩) isInput
      rw [absent] at some
      cases some

/-- A table that is missing at the crash is in one of the two levels. -/
theorem Merges.slot_of_missing
    (cut
      : Interrupted strategy.iterAll source.iter (target.overlappingFiles start end_) output
          tables)
    {table : SSTable} (member : table ∈ strategy.iterAll) (absent : table ∉ tables)
    : front.length ≤ table.slot strategy.levels.length
      ∧ table.slot strategy.levels.length ≤ front.length + 1 := by
  obtain ⟨-, inOverlap | ⟨inSource, -⟩⟩ := cut.missing table member absent
  · rw [orderly.slot_eq merges.target_eq (List.mem_of_mem_filter inOverlap)]
    omega
  · rw [orderly.slot_eq merges.source_eq (List.mem_reverse.mp inSource)]
    omega

/-- A removed table leaves its keys in the output. -/
theorem Merges.output_holds_of_missing
    (cut
      : Interrupted strategy.iterAll source.iter (target.overlappingFiles start end_) output
          tables)
    {table : SSTable} (member : table ∈ strategy.iterAll) (absent : table ∉ tables)
    (held : (table.version key).isSome = true)
    : (output.version key).isSome = true := by
  have found : ∀ tables : List SSTable, table ∈ tables
      → (versionIn tables key).isSome = true := by
    intro tables inside
    rw [versionIn, List.isSome_findSome?, List.any_eq_true]
    exact ⟨table, inside, held⟩
  rw [merges.output_holds orderly, Option.isSome_or, Bool.or_eq_true]
  obtain ⟨-, inOverlap | ⟨inSource, -⟩⟩ := cut.missing table member absent
  · exact .inr (found _ inOverlap)
  · exact .inl (found _ inSource)

/-- A table of the strategy that is read first at the crash. -/
theorem Merges.reads_old
    (cut
      : Interrupted strategy.iterAll source.iter (target.overlappingFiles start end_) output
          tables)
    (alike : source.ReadsAlike nowMs) {table : SSTable}
    (first : table.LoadedFirst strategy.levels.length tables key)
    (old : table ∈ strategy.iterAll) {laterMs : UInt64} (reached : nowMs ≤ laterMs)
    : readAt (table.version key) laterMs = readAt (strategy.version key) laterMs := by
  by_cases still : table.LoadedFirst strategy.levels.length strategy.iterAll key
  · rw [orderly.version_of_first still]
  obtain ⟨other, member, held, behind⟩ : ∃ other ∈ strategy.iterAll,
      (other.version key).isSome = true
      ∧ ¬ table.LoadedBefore strategy.levels.length other := by
    by_contra none
    refine still ⟨old, first.holds, fun other member held => ?_⟩
    by_contra behind
    exact none ⟨other, member, held, behind⟩
  have absent : other ∉ tables := fun inside => behind (first.first other inside held)
  obtain ⟨created, removed⟩ := cut.missing other member absent
  have outputHolds := merges.output_holds_of_missing orderly cut member absent held
  have beforeOutput := first.first output created outputHolds
  obtain ⟨level, found, inLevel⟩ := orderly.mem_slot old
  have outputSlot := merges.output_slot orderly
  unfold SSTable.LoadedBefore at behind beforeOutput
  by_cases inTarget : table.slot strategy.levels.length = front.length + 1
  · -- Next to the output there is no other table with the key.
    rw [inTarget, merges.target_eq] at found
    obtain rfl := Option.some.inj found
    have overlapped := merges.mem_overlap orderly outputHolds inLevel first.holds
    rcases removed with inOverlap | ⟨-, gone⟩
    · have apart := (merges.target_apart orderly).forall inLevel
        (List.mem_of_mem_filter inOverlap) (by rintro rfl; exact absent first.member)
      rcases apart.version key with missing | missing
      · have holds := first.holds
        simp [missing] at holds
      · simp [missing] at held
    · exact absurd first.member (gone table overlapped)
  · -- The table is in the source level, and so is the one that is read first now.
    have bounds := merges.slot_of_missing orderly cut member absent
    have inSource : table.slot strategy.levels.length = front.length := by omega
    rw [inSource, merges.source_eq] at found
    obtain rfl := Option.some.inj found
    obtain ⟨newest, isFirst⟩ := orderly.exists_first old first.holds
    have order := isFirst.first table old first.holds
    obtain ⟨other, found, inOther⟩ := orderly.mem_slot isFirst.member
    have same : newest.slot strategy.levels.length = front.length := by
      by_contra shallower
      have kept : newest ∈ tables := by
        by_contra gone
        have bounds := merges.slot_of_missing orderly cut isFirst.member gone
        unfold SSTable.LoadedBefore at order
        omega
      have later := first.first newest kept isFirst.holds
      unfold SSTable.LoadedBefore at order later
      omega
    rw [same, merges.source_eq] at found
    obtain rfl := Option.some.inj found
    rw [orderly.version_of_first isFirst]
    exact alike key table inLevel newest inOther first.holds isFirst.holds laterMs reached

/-- The output is read first at the crash. -/
theorem Merges.reads_output
    (cut
      : Interrupted strategy.iterAll source.iter (target.overlappingFiles start end_) output
          tables)
    (first : output.LoadedFirst strategy.levels.length tables key) {laterMs : UInt64}
    (reached : nowMs ≤ laterMs)
    : readAt (output.version key) laterMs = readAt (strategy.version key) laterMs := by
  have shallow : versionIn (front.flatMap Level.iter) key = none := by
    rw [versionIn_eq_none]
    intro table inFront
    by_contra held
    obtain ⟨level, inLevels, inside⟩ := List.mem_flatMap.mp inFront
    obtain ⟨i, found⟩ := List.mem_iff_getElem?.mp inLevels
    obtain ⟨bound, -⟩ := List.getElem?_eq_some_iff.mp found
    have here : strategy.levels[i]? = some level := by
      rw [merges.split, List.getElem?_append_left bound, found]
    have inStrategy : table ∈ strategy.iterAll :=
      mem_iterAll.mpr ⟨level, List.mem_of_getElem? here, List.mem_reverse.mp inside⟩
    have slot := orderly.slot_eq here (List.mem_reverse.mp inside)
    have kept : table ∈ tables := by
      by_contra gone
      have bounds := merges.slot_of_missing orderly cut inStrategy gone
      omega
    have before := first.first table kept (Option.isSome_iff_ne_none.mpr held)
    have outputSlot := merges.output_slot orderly
    unfold SSTable.LoadedBefore at before
    omega
  have whole : strategy.version key
      = (versionIn source.iter key).or
        (versionIn (target.overlappingFiles start end_) key) := by
    have held := first.holds
    rw [merges.output_holds orderly] at held
    rw [version, iterAll, merges.split, List.flatMap_append, List.flatMap_cons,
      List.flatMap_cons, versionIn_append, versionIn_append, versionIn_append, shallow,
      Option.none_or, versionIn_target (merges.target_apart orderly), ← Option.or_assoc,
      ← Option.or_assoc]
    obtain ⟨entry, found⟩ := Option.isSome_iff_exists.mp held
    rw [found]
    rfl
  rw [whole]
  exact (merges.output_stands orderly key).read reached

/-- Every table that a crash leaves can be loaded. -/
theorem Merges.loadable
    (cut
      : Interrupted strategy.iterAll source.iter (target.overlappingFiles start end_) output
          tables)
    (stamped : output.path.timestamp < uintBound) {dbName : String}
    (safe : safeName dbName = true)
    : (∀ table ∈ tables, table.path.recognised dbName = true)
      ∧ ∀ table ∈ tables, table.Valid := by
  constructor
  · intro table member
    rcases cut.members table member with old | ⟨rfl, -⟩
    · exact orderly.known safe table old
    · refine TablePath.Bounded.recognised ⟨stamped, ?_⟩ safe
      rw [merges.level]
      rintro level ⟨⟩
      have number := orderly.filed.levelNum_eq merges.target_eq
      obtain ⟨inside, -⟩ := List.getElem?_eq_some_iff.mp merges.target_eq
      rw [number]
      exact lt_of_lt_of_le inside orderly.few
  · intro table member
    rcases cut.members table member with old | ⟨rfl, -⟩
    · exact orderly.valid table old
    · obtain ⟨settings, created⟩ := merges.created
      rw [created]
      exact valid_mergedTable _ _ _ _ (valid_mergeInput start end_
        (orderly.sound.valid source (by simp [merges.split]))
        (orderly.sound.valid target (by simp [merges.split])))

/-- Loading what a crash leaves gives back what every key reads as. -/
theorem Merges.reload
    (cut
      : Interrupted strategy.iterAll source.iter (target.overlappingFiles start end_) output
          tables)
    (stamped : output.path.timestamp < uintBound) (alike : source.ReadsAlike nowMs)
    {dbName : String} (safe : safeName dbName = true) {directory : List TableFile}
    (lists : Lists dbName directory tables) (l0Threshold l1MaxBytes : Nat)
    (settings : BlockSettings)
    : ∃ next,
        loadFromDir dbName directory strategy.levels.length l0Threshold l1MaxBytes settings
          = .ok next
        ∧ ∀ key laterMs,
            nowMs ≤ laterMs → next.lookup key laterMs = strategy.lookup key laterMs := by
  obtain ⟨known, valid⟩ := merges.loadable orderly cut stamped safe
  have inhabited : 0 < strategy.levels.length := by simp [merges.split]
  obtain ⟨next, loaded, perm, versions⟩ :=
    loadFromDir_first lists known valid inhabited l0Threshold l1MaxBytes settings
  refine ⟨next, loaded, fun key laterMs reached => ?_⟩
  rw [lookup_eq (fun table member => valid table (perm.mem_iff.mp member)),
    lookup_eq orderly.valid]
  congr 1
  rcases versions key with ⟨absent, nowhere⟩ | ⟨table, first, chosen⟩
  · have empty : strategy.version key = none := by
      rw [version, versionIn_eq_none]
      intro table member
      by_contra held
      have holds := Option.isSome_iff_ne_none.mpr held
      by_cases inside : table ∈ tables
      · exact held (nowhere table inside)
      · have created := (cut.missing table member inside).1
        have kept := merges.output_holds_of_missing orderly cut member inside holds
        rw [nowhere output created] at kept
        cases kept
    rw [absent, empty]
  · rw [chosen]
    rcases cut.members table first.member with old | ⟨rfl, -⟩
    · exact merges.reads_old orderly cut alike first old reached
    · exact merges.reads_output orderly cut first reached

omit orderly merges in
/-- Before level 0 is merged, each of its tables with a key is read first once the newer
ones are removed.
-/
theorem Orderly.loadedFirst_removed (orderly : strategy.Orderly)
    (found : strategy.levels[0]? = some source) {newer older : List SSTable}
    {table : SSTable} (position : source.iter = newer ++ table :: older)
    (held : (table.version key).isSome = true) (member : table ∈ tables)
    (others
      : ∀ other ∈ tables,
          other.slot strategy.levels.length = 0
          → other ∈ source.iter ∧ other.path ∉ newer.map SSTable.path)
    : table.LoadedFirst strategy.levels.length tables key := by
  have inSource : table ∈ source.sstables := by
    rw [← List.mem_reverse, ← Level.iter, position]
    simp
  have slot := orderly.slot_eq found inSource
  refine ⟨member, held, fun other inside _ => ?_⟩
  rcases Nat.eq_zero_or_pos (other.slot strategy.levels.length) with zero | deeper
  · refine .inr ⟨slot.trans zero.symm, ?_⟩
    obtain ⟨inIter, kept⟩ := others other inside zero
    rw [position] at inIter
    rcases List.mem_append.mp inIter with removed | rest
    · exact absurd (List.mem_map_of_mem removed) kept
    · have order := orderly.ascending source (by rwa [List.head?_eq_getElem?])
      rw [← List.pairwise_reverse, ← Level.iter, position] at order
      rcases List.mem_cons.mp rest with rfl | later
      · exact Nat.le_refl _
      · exact Nat.le_of_lt
          ((List.pairwise_cons.mp (List.pairwise_append.mp order).2.1).1 other later)
  · exact .inl (by rw [slot]; exact deeper)

end Merge

/-- The two levels of a merge in their place. -/
theorem split_of_getElem? {i : Nat} {source target : Level}
    (isSource : strategy.levels[i]? = some source)
    (isTarget : strategy.levels[i + 1]? = some target)
    : ∃ front back,
        strategy.levels = front ++ source :: target :: back ∧ front.length = i := by
  obtain ⟨inside, held⟩ := List.getElem?_eq_some_iff.mp isSource
  obtain ⟨deeper, below⟩ := List.getElem?_eq_some_iff.mp isTarget
  refine ⟨strategy.levels.take i, strategy.levels.drop (i + 2), ?_, by simp; omega⟩
  rw [← held, ← below, ← List.drop_eq_getElem_cons deeper,
    ← List.drop_eq_getElem_cons inside, List.take_append_drop]

-----------------------------------------------------------------------------------------
-- Crash safety
-----------------------------------------------------------------------------------------

/-- Whichever operation of the merge is the last one before a crash, loading the files gives
back what every key reads as.
-/
def CrashSafe (strategy : Leveled) (dbName : String) (source target : Level)
    (nowMs : UInt64) (timestamp : Nat)
    : Prop :=
  ∀ order operations count directory l0Threshold l1MaxBytes settings,
    order.Perm (source.overlapPaths target)
    → levelsOperations strategy.settings (paths strategy.levels) source target nowMs
        timestamp order
      = .ok operations
    → Lists dbName directory (afterOperations (operations.take count) strategy.iterAll)
    → ∃ next,
        loadFromDir dbName directory strategy.levels.length l0Threshold l1MaxBytes settings
          = .ok next
        ∧ ∀ key laterMs,
            nowMs ≤ laterMs → next.lookup key laterMs = strategy.lookup key laterMs

section CrashSafe

variable {i : Nat} {source target : Level} {nowMs : UInt64} {timestamp : Nat}
  {dbName : String}

/-- The output of the merge, and what a crash may leave. -/
theorem Orderly.merges (orderly : strategy.Orderly) (nowMs : UInt64)
    {front back : List Level} (split : strategy.levels = front ++ source :: target :: back)
    (middle : target.isTerminal = false) {start end_ : String}
    (range : source.keyRange = some (start, end_))
    (fresh
      : ({ level := some target.levelNum, timestamp } : TablePath) ∉ paths strategy.levels)
    {order : List TablePath} (perm : order.Perm (source.overlapPaths target))
    : ∃ output,
        Merges strategy front source target back start end_ nowMs output
        ∧ output.path = { level := some target.levelNum, timestamp }
        ∧ output = mergedTable strategy.settings { level := some target.levelNum, timestamp }
          target.isTerminal nowMs (source.mergeInput target start end_)
        ∧ ∀ count,
            Interrupted strategy.iterAll source.iter (target.overlappingFiles start end_)
              output
              (afterOperations
                ((.create output :: (order ++ source.iter.map SSTable.path).map
                  .remove).take count)
                strategy.iterAll) := by
  let path : TablePath := { level := some target.levelNum, timestamp }
  let output := mergedTable strategy.settings path target.isTerminal nowMs
    (source.mergeInput target start end_)
  have isPath : output.path = path := SSTable.path_fromMemtable _ _ _
  refine ⟨output, ⟨split, middle, range, by rw [isPath], strategy.settings, ?_⟩, isPath, rfl,
    fun count => ?_⟩
  · rw [isPath, ← middle]
  · refine interrupted orderly.distinct_paths ?_ ?_ ?_ ?_ count
    · intro table member
      exact mem_iterAll.mpr ⟨source, by simp [split], List.mem_reverse.mp member⟩
    · intro table member
      exact mem_iterAll.mpr ⟨target, by simp [split], List.mem_of_mem_filter member⟩
    · rw [isPath, ((iterAll_perm strategy).map SSTable.path).mem_iff, List.map_flatMap]
      exact fresh
    · simpa [Level.overlapPaths, range] using perm

theorem Orderly.crashSafe (orderly : strategy.Orderly)
    (isSource : strategy.levels[i]? = some source)
    (isTarget : strategy.levels[i + 1]? = some target)
    (middle : target.isTerminal = false) (stamped : timestamp < uintBound)
    (safe : safeName dbName = true) (alike : source.ReadsAlike nowMs)
    : strategy.CrashSafe dbName source target nowMs timestamp := by
  intro order operations count directory l0Threshold l1MaxBytes settings perm listed lists
  obtain ⟨front, back, split, -⟩ := split_of_getElem? isSource isTarget
  rcases levelsOperations_cases (orderly.sound.valid source (by simp [split]))
      (orderly.sound.valid target (by simp [split])) listed with
    ⟨-, rfl⟩ | ⟨start, end_, range, fresh, rfl⟩
  · rw [List.take_nil, afterOperations_nil] at lists
    have known := orderly.known safe
    obtain ⟨next, loaded, reloads⟩ := orderly.filed.reloads lists (by
      rw [recognisedTables_eq known]
      exact orderly.valid) l0Threshold l1MaxBytes settings
    refine ⟨next, loaded, fun key laterMs _ => ?_⟩
    have sound := reloads.sound orderly.sound.layered (by
      rw [recognisedTables_eq known]
      exact orderly.valid)
    rw [lookup_eq (fun table member => by
        obtain ⟨level, inLevels, held⟩ := mem_iterAll.mp member
        exact sound.valid level inLevels table held), lookup_eq orderly.valid,
      reloads.version orderly.sound known orderly.ascending]
  · obtain ⟨output, merges, path, same, cut⟩ :=
      orderly.merges nowMs split middle range fresh perm
    rw [← same] at lists
    exact merges.reload orderly (cut count) (by rw [path]; exact stamped) alike safe lists
      l0Threshold l1MaxBytes settings

/-- The tables before the merge, by where they stand. -/
theorem mem_iterAll_around {front back : List Level}
    (split : strategy.levels = front ++ source :: target :: back) {table : SSTable}
    : table ∈ strategy.iterAll
      ↔ (∃ level ∈ front ++ back, table ∈ level.sstables)
        ∨ table ∈ source.sstables
        ∨ table ∈ target.sstables := by
  rw [mem_iterAll, split]
  simp only [List.mem_append, List.mem_cons]
  constructor
  · rintro ⟨level, early | rfl | rfl | late, held⟩
    · exact .inl ⟨level, .inl early, held⟩
    · exact .inr (.inl held)
    · exact .inr (.inr held)
    · exact .inl ⟨level, .inr late, held⟩
  · rintro (⟨level, early | late, held⟩ | held | held)
    · exact ⟨level, .inl early, held⟩
    · exact ⟨level, .inr (.inr (.inr late)), held⟩
    · exact ⟨source, .inr (.inl rfl), held⟩
    · exact ⟨target, .inr (.inr (.inl rfl)), held⟩

/-- The levels around a merge stand at other places than the two merged ones. -/
theorem exists_place_around {front back : List Level}
    (split : strategy.levels = front ++ source :: target :: back) {level : Level}
    (member : level ∈ front ++ back)
    : ∃ j, strategy.levels[j]? = some level ∧ j ≠ front.length ∧ j ≠ front.length + 1 := by
  rcases List.mem_append.mp member with early | late
  · obtain ⟨j, found⟩ := List.mem_iff_getElem?.mp early
    obtain ⟨bound, -⟩ := List.getElem?_eq_some_iff.mp found
    exact ⟨j, by rw [split, List.getElem?_append_left bound, found], by omega, by omega⟩
  · obtain ⟨j, found⟩ := List.mem_iff_getElem?.mp late
    refine ⟨front.length + (j + 2), ?_, by omega, by omega⟩
    rw [split, List.getElem?_append_right (by omega)]
    simpa using found

/-- The levels around a merge keep their files. -/
theorem Orderly.path_ne_around (orderly : strategy.Orderly) {front back : List Level}
    (split : strategy.levels = front ++ source :: target :: back) {level : Level}
    (member : level ∈ front ++ back) {table other : SSTable} (held : table ∈ level.sstables)
    (merged : other ∈ source.sstables ∨ other ∈ target.sstables)
    : table.path ≠ other.path := by
  obtain ⟨j, found, notSource, notTarget⟩ := exists_place_around split member
  rcases merged with inSource | inTarget
  · exact orderly.path_ne notSource found (by simp [split]) held inSource
  · exact orderly.path_ne notTarget found (by simp [split]) held inTarget

/-- After its last operation the merge leaves the tables of the compacted strategy. -/
theorem Orderly.mem_after_levelsOperations (orderly : strategy.Orderly)
    (isSource : strategy.levels[i]? = some source)
    (isTarget : strategy.levels[i + 1]? = some target) {order : List TablePath}
    (perm : order.Perm (source.overlapPaths target)) {after : Leveled}
    (done : strategy.compactLevels i (i + 1) nowMs timestamp = .ok after)
    : ∃ operations,
        levelsOperations strategy.settings (paths strategy.levels) source target nowMs
            timestamp order
          = .ok operations
        ∧ ∀ table,
            table ∈ afterOperations operations strategy.iterAll ↔ table ∈ after.iterAll := by
  obtain ⟨front, back, split, count⟩ := split_of_getElem? isSource isTarget
  have validSource := orderly.sound.valid source (by simp [split])
  have validTarget := orderly.sound.valid target (by simp [split])
  rw [← count] at done
  obtain ⟨source', target', merged, rfl⟩ := compactLevels_next split done
  rcases mergeLevels_cases validSource validTarget merged with
    ⟨range, rfl, rfl⟩ | ⟨start, end_, range, fresh, rfl, rfl⟩
  · refine ⟨[], by simp only [levelsOperations, range], fun table => ?_⟩
    rw [afterOperations_nil, ← split]
  · refine ⟨_, levelsOperations_ok validSource validTarget range fresh, fun table => ?_⟩
    have overlapped : source.overlapPaths target
        = (target.overlappingFiles start end_).map SSTable.path := by
      simp [Level.overlapPaths, range]
    rw [overlapped] at perm
    have outside : ∀ level ∈ front ++ back, table ∈ level.sstables
        → table.path ∉ (target.overlappingFiles start end_).map SSTable.path
          ∧ table.path ∉ source.iter.map SSTable.path := by
      intro level member held
      constructor
      · intro clash
        obtain ⟨other, inOverlap, same⟩ := List.mem_map.mp clash
        exact orderly.path_ne_around split member held
          (.inr (List.mem_of_mem_filter inOverlap)) same.symm
      · intro clash
        obtain ⟨other, inSource, same⟩ := List.mem_map.mp clash
        exact orderly.path_ne_around split member held
          (.inl (List.mem_reverse.mp inSource)) same.symm
    rw [afterOperations_cons, mem_afterOperations_remove, FileOperation.apply,
      List.mem_append, List.mem_singleton, mem_iterAll_around split, List.mem_append, not_or,
      perm.mem_iff, mem_iterAll]
    simp only [List.mem_append, List.mem_cons]
    constructor
    · rintro ⟨(⟨level, early | late, held⟩ | inSource | inTarget) | rfl, kept, notSource⟩
      · exact ⟨level, .inl early, held⟩
      · exact ⟨level, .inr (.inr (.inr late)), held⟩
      · exact absurd (List.mem_map_of_mem (List.mem_reverse.mpr inSource)) notSource
      · refine ⟨_, .inr (.inr (.inl rfl)), List.mem_append_left _ ?_⟩
        exact List.mem_filter.mpr ⟨inTarget, by simpa using kept⟩
      · exact ⟨_, .inr (.inr (.inl rfl)), List.mem_append_right _ (List.mem_singleton.mpr rfl)⟩
    · rintro ⟨level, early | rfl | rfl | late, held⟩
      · exact ⟨.inl (.inl ⟨level, .inl early, held⟩),
          outside level (List.mem_append_left _ early) held⟩
      · cases held
      · rcases List.mem_append.mp held with kept | new
        · obtain ⟨inTarget, notOverlap⟩ := List.mem_filter.mp kept
          refine ⟨.inl (.inr (.inr inTarget)), by simpa using notOverlap, ?_⟩
          intro clash
          obtain ⟨other, inSource, same⟩ := List.mem_map.mp clash
          exact orderly.path_ne (by omega) isTarget isSource inTarget
            (List.mem_reverse.mp inSource) same.symm
        · rw [List.mem_singleton.mp new, mergedTable, SSTable.path_fromMemtable]
          refine ⟨.inr rfl, fun clash => ?_, fun clash => ?_⟩
          · obtain ⟨other, inOverlap, same⟩ := List.mem_map.mp clash
            refine fresh (same ▸ List.mem_flatMap.mpr ⟨target, by simp [split], ?_⟩)
            exact List.mem_map_of_mem (List.mem_of_mem_filter inOverlap)
          · obtain ⟨other, inSource, same⟩ := List.mem_map.mp clash
            refine fresh (same ▸ List.mem_flatMap.mpr ⟨source, by simp [split], ?_⟩)
            exact List.mem_map_of_mem (List.mem_reverse.mp inSource)
      · exact ⟨.inl (.inl ⟨level, .inr late, held⟩),
          outside level (List.mem_append_right _ late) held⟩

/-- A crash after the tables newer than this one are removed. -/
theorem Orderly.reads_of_crashSafe (orderly : strategy.Orderly)
    (isSource : strategy.levels[0]? = some source)
    (isTarget : strategy.levels[1]? = some target) (middle : target.isTerminal = false)
    (stamped : timestamp < uintBound) {start end_ : String}
    (range : source.keyRange = some (start, end_))
    (fresh
      : ({ level := some target.levelNum, timestamp } : TablePath) ∉ paths strategy.levels)
    (safe : safeName dbName = true)
    (crashSafe : strategy.CrashSafe dbName source target nowMs timestamp) {table : SSTable}
    (member : table ∈ source.sstables) {key : String}
    (held : (table.version key).isSome = true) {laterMs : UInt64} (reached : nowMs ≤ laterMs)
    : readAt (table.version key) laterMs = readAt (strategy.version key) laterMs := by
  obtain ⟨front, back, split, empty⟩ := split_of_getElem? isSource isTarget
  have validSource := orderly.sound.valid source (by simp [split])
  have validTarget := orderly.sound.valid target (by simp [split])
  obtain ⟨output, merges, path, same, cut⟩ :=
    orderly.merges nowMs split middle range fresh (.refl _)
  obtain ⟨newer, older, position⟩ := List.append_of_mem (List.mem_reverse.mpr member)
  have distinct := orderly.distinct_paths
  have inAll : table ∈ strategy.iterAll := mem_iterAll.mpr ⟨source, by simp [split], member⟩
  let removed := source.overlapPaths target ++ newer.map SSTable.path
  let operations : List FileOperation :=
    .create output
      :: (source.overlapPaths target ++ source.iter.map SSTable.path).map .remove
  have listed : levelsOperations strategy.settings (paths strategy.levels) source target
      nowMs timestamp (source.overlapPaths target) = .ok operations := by
    rw [levelsOperations_ok validSource validTarget range fresh, ← same]
  have done : operations.take (removed.length + 1)
      = .create output :: removed.map .remove := by
    have whole : source.overlapPaths target ++ source.iter.map SSTable.path
        = removed ++ (table :: older).map SSTable.path := by
      rw [Level.iter, position, List.map_append, ← List.append_assoc]
    rw [List.take_succ_cons, ← List.map_take, whole, List.take_left]
  let tables := afterOperations (operations.take (removed.length + 1)) strategy.iterAll
  have left : ∀ other, other ∈ tables
      ↔ (other ∈ strategy.iterAll ∨ other = output) ∧ other.path ∉ removed := by
    intro other
    simp only [tables, done, afterOperations_cons, mem_afterOperations_remove,
      FileOperation.apply, List.mem_append, List.mem_singleton]
  have kept : table ∈ tables := by
    refine (left table).mpr ⟨.inl inAll, fun gone => ?_⟩
    rcases List.mem_append.mp gone with overlapped | early
    · simp only [Level.overlapPaths, range, List.mem_map] at overlapped
      obtain ⟨other, inOverlap, samePath⟩ := overlapped
      have inTarget := List.mem_of_mem_filter inOverlap
      obtain rfl := eq_of_path distinct
        (mem_iterAll.mpr ⟨target, by simp [split], inTarget⟩) inAll samePath
      have first := orderly.slot_eq isSource member
      have second := orderly.slot_eq isTarget inTarget
      omega
    · obtain ⟨other, inNewer, samePath⟩ := List.mem_map.mp early
      have order := orderly.ascending source (by rwa [List.head?_eq_getElem?])
      rw [← List.pairwise_reverse, position] at order
      have later := (List.pairwise_append.mp order).2.2 other inNewer table (by simp)
      rw [SSTable.Before, samePath] at later
      exact Nat.lt_irrefl _ later
  have first : table.LoadedFirst strategy.levels.length tables key := by
    refine orderly.loadedFirst_removed isSource position held kept ?_
    intro other inside shallow
    obtain ⟨old | rfl, gone⟩ := (left other).mp inside
    · obtain ⟨level, found, inLevel⟩ := orderly.mem_slot old
      rw [shallow, isSource] at found
      obtain rfl := Option.some.inj found
      exact ⟨List.mem_reverse.mpr inLevel, fun early => gone (List.mem_append_right _ early)⟩
    · have slot := merges.output_slot orderly
      omega
  obtain ⟨known, valid⟩ := merges.loadable orderly (cut (removed.length + 1))
    (by rw [path]; exact stamped) safe
  have inhabited : 0 < strategy.levels.length := by simp [split]
  obtain ⟨directory, next, lists, loaded, perm, chosen⟩ :=
    loadFromDir_chooses first known valid inhabited 0 0 strategy.settings
  obtain ⟨other, again, reads⟩ := crashSafe _ operations (removed.length + 1) directory 0 0
    strategy.settings (.refl _) listed lists
  obtain rfl := Except.ok.inj (loaded.symm.trans again)
  have result := reads key laterMs reached
  rw [lookup_eq (fun table member => valid table (perm.mem_iff.mp member)),
    lookup_eq orderly.valid, chosen] at result
  exact Except.ok.inj result

/-- In every state that a run with increasing timestamps reaches, a merge into a middle
level is crash safe exactly if the tables of its source level read alike wherever they hold
the same key. This is always so below level 0.
-/
theorem compact_levels_crash_safe_iff {numLevels : Nat} (few : numLevels ≤ uintBound)
    (grown : Grown numLevels strategy) (isSource : strategy.levels[i]? = some source)
    (isTarget : strategy.levels[i + 1]? = some target)
    (middle : target.isTerminal = false) (stamped : timestamp < uintBound) {after : Leveled}
    (done : strategy.compactLevels i (i + 1) nowMs timestamp = .ok after)
    (safe : safeName dbName = true)
    : strategy.CrashSafe dbName source target nowMs timestamp ↔ source.ReadsAlike nowMs := by
  obtain ⟨orderly, -⟩ := grown.orderly few
  constructor
  · intro crashSafe key left inLeft right inRight heldLeft heldRight laterMs reached
    cases i with
    | zero =>
        obtain ⟨front, back, split, count⟩ := split_of_getElem? isSource isTarget
        have validSource := orderly.sound.valid source (by simp [split])
        rw [← count] at done
        obtain ⟨source', target', merged, -⟩ := compactLevels_next split done
        rcases mergeLevels_cases validSource
            (orderly.sound.valid target (by simp [split])) merged with
          ⟨range, -, -⟩ | ⟨start, end_, range, fresh, -, -⟩
        · have blank : left.version key = none := by
            rw [SSTable.version_eq_none, Level.keyRange_none validSource range inLeft]
            simp
          rw [blank] at heldLeft
          cases heldLeft
        · have reads : ∀ table ∈ source.sstables, (table.version key).isSome = true
              → readAt (table.version key) laterMs = readAt (strategy.version key) laterMs :=
            fun table member held => orderly.reads_of_crashSafe isSource isTarget middle
              stamped range fresh safe crashSafe member held reached
          rw [reads left inLeft heldLeft, reads right inRight heldRight]
    | succ i =>
        -- Below level 0 no two tables hold the same key.
        by_cases same : left = right
        · rw [same]
        · have deeper : source ∈ strategy.levels.tail := by
            rw [List.mem_iff_getElem?]
            exact ⟨i, by rw [List.getElem?_tail, isSource]⟩
          have apart := (orderly.sound.apart source deeper).forall inLeft inRight same
          rcases apart.version key with none | none
          · rw [none] at heldLeft
            cases heldLeft
          · rw [none] at heldRight
            cases heldRight
  · exact orderly.crashSafe isSource isTarget middle stamped safe

end CrashSafe

/-- Two flushed tables, one value in each. -/
def twoFlushes (firstKey secondKey : String) : List Step :=
  [.flush smallBlocks (oneEntry firstKey "u") 1, .flush smallBlocks (oneEntry secondKey "v") 2]

theorem twoFlushes_grown {firstKey secondKey : String} (first : Record.Fits firstKey "u")
    (second : Record.Fits secondKey "v")
    (newest
      : newestFrom (twoFlushes firstKey secondKey) (Leveled.new 3 2 1000 smallBlocks) = true)
    (done
      : performAll (twoFlushes firstKey secondKey) (Leveled.new 3 2 1000 smallBlocks)
        = .ok strategy)
    : Grown 3 strategy := by
  refine (Grown.new 2 1000 smallBlocks).performAll ?_ ?_ newest done
  · simp only [twoFlushes, List.mem_cons, List.not_mem_nil, or_false, forall_eq_or_imp,
      forall_eq, Step.Flushes]
    exact ⟨storableTable_new.insert first _, storableTable_new.insert second _⟩
  · simp [twoFlushes, Step.Stamped, uintBound]

/-- Witness: two tables of level 0 that share no key. -/
theorem compact_levels_crash_safe_apart
    : ∃ strategy source target,
        Grown 3 strategy
        ∧ strategy.levels[0]? = some source
        ∧ strategy.levels[1]? = some target
        ∧ source.sstables.length = 2
        ∧ strategy.CrashSafe "db" source target 0 3 := by
  have computed : (performAll (twoFlushes "k" "l")
      (Leveled.new 3 2 1000 smallBlocks)).toOption.any
      (fun strategy =>
        newestFrom (twoFlushes "k" "l") (Leveled.new 3 2 1000 smallBlocks)
        && (strategy.compactLevels 0 1 0 3).toOption.isSome
        && strategy.levels[0]?.any (fun source =>
          source.sstables.length = 2
          && source.sstables.all (fun left =>
            left.records.all (fun record =>
              source.sstables.all (fun right =>
                (right.version record.key).isNone || right = left))))
        && strategy.levels[1]?.any (fun target => !target.isTerminal))
      = true := by
    decide +kernel
  simp only [Option.any_eq_true, toOption_eq_some, Bool.and_eq_true, decide_eq_true_eq,
    List.all_eq_true, Bool.or_eq_true, Option.isNone_iff_eq_none, Bool.not_eq_true',
    Option.isSome_iff_exists] at computed
  obtain ⟨strategy, ran, ⟨⟨newest, after, done⟩, source, isSource, two, apart⟩, target,
    isTarget, middle⟩ := computed
  have grown := twoFlushes_grown (by decide) (by decide) newest ran
  refine ⟨strategy, source, target, grown, isSource, isTarget, two, ?_⟩
  refine (compact_levels_crash_safe_iff (by decide) grown isSource isTarget middle
    (by decide : 3 < uintBound) done (by decide +kernel)).mpr ?_
  intro key left inLeft right inRight heldLeft heldRight laterMs _
  obtain ⟨record, member, rfl⟩ := SSTable.exists_record heldLeft
  rcases apart left inLeft record member right inRight with absent | rfl
  · rw [absent] at heldRight
    cases heldRight
  · rfl

/-- Counterexample: the newer of two values of a key is removed first, and the older one
hides the merged table.
-/
theorem compact_levels_crash_reads_old_value
    : ∃ strategy source target operations next,
        Grown 3 strategy
        ∧ strategy.levels[0]? = some source
        ∧ strategy.levels[1]? = some target
        ∧ target.isTerminal = false
        ∧ levelsOperations strategy.settings (paths strategy.levels) source target 0 3
            (source.overlapPaths target)
          = .ok operations
        ∧ loadFromDir "db"
            ((afterOperations (operations.take 2) strategy.iterAll).map (SSTable.file "db"))
            3 2 1000 smallBlocks
          = .ok next
        ∧ strategy.lookup "k" 10 = .ok (some "v")
        ∧ next.lookup "k" 10 = .ok (some "u") := by
  have computed : (performAll (twoFlushes "k" "k")
      (Leveled.new 3 2 1000 smallBlocks)).toOption.any
      (fun strategy =>
        newestFrom (twoFlushes "k" "k") (Leveled.new 3 2 1000 smallBlocks)
        && strategy.levels[0]?.any (fun source =>
          strategy.levels[1]?.any (fun target =>
            !target.isTerminal
            && (levelsOperations strategy.settings (paths strategy.levels) source target 0 3
                (source.overlapPaths target)).toOption.any
              (fun operations =>
                (loadFromDir "db"
                    ((afterOperations (operations.take 2) strategy.iterAll).map
                      (SSTable.file "db"))
                    3 2 1000 smallBlocks).toOption.any
                  (fun next =>
                    (strategy.lookup "k" 10).toOption = some (some "v")
                    && (next.lookup "k" 10).toOption = some (some "u"))))))
      = true := by
    decide +kernel
  simp only [Option.any_eq_true, toOption_eq_some, Bool.and_eq_true, decide_eq_true_eq,
    Bool.not_eq_true'] at computed
  obtain ⟨strategy, ran, newest, source, isSource, target, isTarget, middle, operations,
    listed, next, loaded, before, after⟩ := computed
  exact ⟨strategy, source, target, operations, next,
    twoFlushes_grown (by decide) (by decide) newest ran, isSource, isTarget, middle, listed,
    loaded, before, after⟩

end Leveled

end Rustikv.Lsm

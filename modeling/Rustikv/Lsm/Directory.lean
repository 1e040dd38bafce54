import Mathlib.Data.List.Perm.Basic
import Mathlib.Data.List.Sort
import Rustikv.Library.SplitText
import Rustikv.Lsm.Sections

/-! The table files of a directory: how they are named, which of them `get_sstables` finds,
and how the two strategies are loaded from them.
-/

namespace Rustikv.Lsm

open Library

-----------------------------------------------------------------------------------------
-- File names
-----------------------------------------------------------------------------------------

/-- One above the largest `u64` or `usize`. -/
def uintBound : Nat := 2 ^ 64

/-- The name `SSTable::from_memtable` gives a file of the database. -/
def TablePath.fileName (dbName : String) (path : TablePath) : String :=
  match path.level with
  | some level => dbName ++ "_L" ++ toString level ++ "_" ++ toString path.timestamp ++ ".sst"
  | none => dbName ++ "_" ++ toString path.timestamp ++ ".sst"

/-- A table file of the directory. -/
structure TableFile where
  name : String
  blocks : List Block

def SSTable.file (dbName : String) (table : SSTable) : TableFile :=
  { name := table.path.fileName dbName, blocks := table.blocks }

/-- A database name, and a level where one is given behind `_L`. -/
def parseLevel (text : List Char) : List Char × Option Nat :=
  match rsplitOnce ['_', 'L'] text with
  | some (name, level) =>
      match parseUnsigned (uintBound) level with
      | some level => (name, some level)
      | none => (text, none)
  | none => (text, none)

/-- `SSTable::parse`: the database name and the path that a file name stands for. -/
def SSTable.parse (filename : String) : Option (String × TablePath) := do
  let stem ← stripSuffix ".sst".toList filename.toList
  let (nameAndMaybeLevel, ts) ← rsplitOnce ['_'] stem
  let timestamp ← parseUnsigned (uintBound) ts
  let (name, level) := parseLevel nameAndMaybeLevel
  return (String.ofList name, { level, timestamp })

/-- The path of a file, if its name says that it belongs to the database. -/
def TableFile.pathIn (dbName : String) (file : TableFile) : Option TablePath :=
  (SSTable.parse file.name).bind
    (fun parsed => if parsed.1 = dbName then some parsed.2 else none)

/-- The name does not end in `_L` and a level. A table without a level would be taken for
one of another database otherwise.
-/
def safeName (dbName : String) : Bool :=
  (parseLevel dbName.toList).2.isNone

/-- `get_sstables` takes the file of this path for a table of the database. -/
def TablePath.recognised (dbName : String) (path : TablePath) : Bool :=
  path.timestamp < uintBound
  && match path.level with
    | some level => level < uintBound
    | none => safeName dbName

/-- The numbers in the name fit a machine integer. -/
def TablePath.Bounded (path : TablePath) : Prop :=
  path.timestamp < uintBound ∧ ∀ level, path.level = some level → level < uintBound

theorem TablePath.Bounded.recognised {path : TablePath} (bounded : path.Bounded)
    {dbName : String} (safe : safeName dbName = true)
    : path.recognised dbName = true := by
  obtain ⟨stamped, leveled⟩ := bounded
  unfold TablePath.recognised
  cases level : path.level with
  | none => simp [stamped, safe]
  | some number => simp [stamped, leveled number level]

/-- A level in the name is found; one that is no machine integer leaves a longer name. -/
theorem parseLevel_level (name : List Char) (level : Nat)
    : parseLevel (name ++ ['_', 'L'] ++ Nat.toDigits 10 level)
      = if level < uintBound then (name, some level)
        else (name ++ ['_', 'L'] ++ Nat.toDigits 10 level, none) := by
  have split := rsplitOnce_append name (by decide : '_' ∉ ['L'])
    (not_mem_toDigits (by decide : ('_').isDigit = false) level)
  simp only [parseLevel, split, parseUnsigned_toDigits]
  split
  next other found =>
    split at found
    next inRange =>
      obtain rfl := Option.some.inj found
      simp [inRange]
    next => cases found
  next missing =>
    split at missing
    next => cases missing
    next outside => simp [outside]

/-- Without a level the whole text is the name; with one the name is shorter. -/
theorem parseLevel_cases (text : List Char)
    : parseLevel text = (text, none)
      ∨ ∃ name level, parseLevel text = (name, some level) ∧ name ≠ text := by
  unfold parseLevel
  split
  next name level split =>
    split
    next number parsed =>
      refine .inr ⟨name, number, rfl, ?_⟩
      rintro rfl
      exact lt_irrefl _ (length_of_rsplitOnce split)
    next => exact .inl rfl
  next => exact .inl rfl

/-- The file name of a path splits as the path was put into it. -/
theorem parse_append (name : List Char) (timestamp : Nat)
    : SSTable.parse
        (String.ofList (name ++ ['_'] ++ Nat.toDigits 10 timestamp ++ ".sst".toList))
      = if timestamp < uintBound then
          some (String.ofList (parseLevel name).1, { level := (parseLevel name).2, timestamp })
        else
          none := by
  have split := rsplitOnce_append name List.not_mem_nil
    (not_mem_toDigits (by decide : ('_').isDigit = false) timestamp)
  simp only [SSTable.parse, String.toList_ofList, stripSuffix_append, Option.bind_eq_bind,
    Option.bind_some, split, parseUnsigned_toDigits]
  split <;> rfl

theorem fileName_some (dbName : String) (level timestamp : Nat)
    : TablePath.fileName dbName { level := some level, timestamp }
      = String.ofList
        ((dbName.toList ++ ['_', 'L'] ++ Nat.toDigits 10 level) ++ ['_']
          ++ Nat.toDigits 10 timestamp ++ ".sst".toList) := by
  refine String.toList_injective ?_
  simp [TablePath.fileName]

theorem fileName_none (dbName : String) (timestamp : Nat)
    : TablePath.fileName dbName { level := none, timestamp }
      = String.ofList
        (dbName.toList ++ ['_'] ++ Nat.toDigits 10 timestamp ++ ".sst".toList) := by
  refine String.toList_injective ?_
  simp [TablePath.fileName]

/-- A file of the database is recognised by its own path or not at all. -/
theorem pathIn_file (dbName : String) (table : SSTable)
    : (table.file dbName).pathIn dbName
      = if table.path.recognised dbName then some table.path else none := by
  obtain ⟨⟨level, timestamp⟩, blocks, sparseIndex, bloom, min, max⟩ := table
  cases level with
  | some level =>
      simp only [SSTable.file, TableFile.pathIn, fileName_some, parse_append,
        parseLevel_level, TablePath.recognised, Bool.and_eq_true, decide_eq_true_eq]
      by_cases stamped : timestamp < uintBound <;> by_cases leveled : level < uintBound
      · simp [stamped, leveled]
      · have longer : dbName.toList ++ ['_', 'L'] ++ Nat.toDigits 10 level
            ≠ dbName.toList := by
          simp
        have other : String.ofList (dbName.toList ++ ['_', 'L'] ++ Nat.toDigits 10 level)
            ≠ dbName := by
          intro same
          have texts := congrArg String.toList same
          rw [String.toList_ofList] at texts
          exact longer texts
        simp only [stamped, leveled, if_true, if_false, Option.bind_some, other, and_false]
      · simp [stamped]
      · simp [stamped]
  | none =>
      simp only [SSTable.file, TableFile.pathIn, fileName_none, parse_append,
        TablePath.recognised, safeName, Bool.and_eq_true, decide_eq_true_eq]
      by_cases stamped : timestamp < uintBound
      · rcases parseLevel_cases dbName.toList with whole | ⟨name, level, parsed, other⟩
        · simp [stamped, whole]
        · have renamed : String.ofList name ≠ dbName := by
            intro same
            have texts := congrArg String.toList same
            rw [String.toList_ofList] at texts
            exact other texts
          simp [stamped, parsed, renamed]
      · simp [stamped]

-----------------------------------------------------------------------------------------
-- Loading
-----------------------------------------------------------------------------------------

/-- The files of the database with what their names say, in the order of the directory. -/
def databaseFiles (dbName : String) (directory : List TableFile)
    : List (TablePath × List Block) :=
  directory.filterMap
    (fun file => (file.pathIn dbName).map (fun path => (path, file.blocks)))

/-- The tables of the database, oldest first. -/
def getSstables (dbName : String) (directory : List TableFile)
    : Except IoError (List SSTable) :=
  let tables :=
    (databaseFiles dbName directory).insertionSort
      (fun left right => left.1.timestamp ≤ right.1.timestamp)
  tables.mapM (fun table => SSTable.rebuildIndex table.1 table.2)

namespace Leveled

/-- A table goes to the level of its name, or to the last one if there are fewer. -/
def loadSstable (strategy : Leveled) (sst : SSTable) : Except IoError Leveled := do
  let sst ← SSTable.rebuildIndex sst.path sst.blocks
  let level := sst.path.level.getD 0
  let count := strategy.levels.length
  if level < count then
    return { strategy with levels := strategy.levels.modify level (fun l => l.append sst) }
  else if 0 < count then
    return {
      strategy with
      levels := strategy.levels.modify (count - 1) (fun l => l.append sst)
    }
  else
    .error
      { kind := .other, message := "called `Option::unwrap()` on a `None` value" }

def loadFromDir (dbName : String) (directory : List TableFile)
    (numLevels l0Threshold l1MaxBytes : Nat) (settings : BlockSettings)
    : Except IoError Leveled := do
  let sstables ← getSstables dbName directory
  sstables.foldlM loadSstable (new numLevels l0Threshold l1MaxBytes settings)

end Leveled

def SizeTiered.loadFromDir (dbName : String) (directory : List TableFile)
    (minThreshold maxThreshold : Nat) (settings : BlockSettings)
    : Except IoError SizeTiered := do
  let sstables ← getSstables dbName directory
  sstables.foldlM
    (fun strategy sst => do
      let sst ← SSTable.rebuildIndex sst.path sst.blocks
      return strategy.addSstable sst)
    (SizeTiered.new minThreshold maxThreshold settings)

-----------------------------------------------------------------------------------------
-- What is loaded
-----------------------------------------------------------------------------------------

/-- The directory holds the files of the tables, and others that the database ignores. -/
def Lists (dbName : String) (directory : List TableFile) (tables : List SSTable) : Prop :=
  ∃ others,
    directory.Perm (tables.map (SSTable.file dbName) ++ others)
    ∧ ∀ file ∈ others, file.pathIn dbName = none

/-- The tables whose files are recognised. -/
def recognisedTables (dbName : String) (tables : List SSTable) : List SSTable :=
  tables.filter (fun table => table.path.recognised dbName)

/-- The first table is not the later one. -/
def SSTable.Until (left right : SSTable) : Prop :=
  left.path.timestamp ≤ right.path.timestamp

theorem SSTable.Valid.rebuildIndex {table : SSTable} (valid : table.Valid)
    : SSTable.rebuildIndex table.path table.blocks = .ok table := by
  obtain ⟨settings, groups, grouped, same⟩ := valid
  rw [same]
  exact SSTable.rebuildIndex_groups settings table.path grouped.valid

theorem databaseFiles_perm {dbName : String} {directory : List TableFile}
    {tables : List SSTable} (lists : Lists dbName directory tables)
    : (databaseFiles dbName directory).Perm
        ((recognisedTables dbName tables).map (fun table => (table.path, table.blocks))) := by
  obtain ⟨others, perm, ignored⟩ := lists
  refine (perm.filterMap _).trans ?_
  have none : others.filterMap
      (fun file => (file.pathIn dbName).map (fun path => (path, file.blocks))) = [] := by
    rw [List.filterMap_eq_nil_iff]
    intro file member
    rw [ignored file member, Option.map_none]
  rw [List.filterMap_append, none, List.append_nil]
  refine List.Perm.of_eq ?_
  clear perm ignored none
  induction tables with
  | nil => rfl
  | cons table rest ih =>
      rw [List.map_cons, List.filterMap_cons, pathIn_file, recognisedTables,
        List.filter_cons]
      rw [recognisedTables] at ih
      cases table.path.recognised dbName with
      | true => simp [ih, SSTable.file]
      | false => simp [ih]

/-- The recognised tables are loaded, in the order of their timestamps. -/
theorem getSstables_eq {dbName : String} {directory : List TableFile}
    {tables : List SSTable} (lists : Lists dbName directory tables)
    (valid : ∀ table ∈ recognisedTables dbName tables, table.Valid)
    : ∃ sorted,
        getSstables dbName directory = .ok sorted
        ∧ sorted.Perm (recognisedTables dbName tables)
        ∧ sorted.Pairwise SSTable.Until := by
  let order := fun left right : TablePath × List Block => left.1.timestamp ≤ right.1.timestamp
  have found := ((databaseFiles dbName directory).perm_insertionSort order).trans
    (databaseFiles_perm lists)
  have ascending := (databaseFiles dbName directory).pairwise_insertionSort order
  have split : Relation.Comp
      (· = List.map (fun table : SSTable => (table.path, table.blocks)) ·) List.Perm
      ((databaseFiles dbName directory).insertionSort order)
      (recognisedTables dbName tables) := by
    rw [List.eq_map_comp_perm]
    exact found
  obtain ⟨sorted, same, perm⟩ := split
  refine ⟨sorted, ?_, perm, ?_⟩
  · have each : ∀ table ∈ sorted,
        SSTable.rebuildIndex table.path table.blocks = .ok table :=
      fun table member => (valid table (perm.mem_iff.mp member)).rebuildIndex
    unfold getSstables
    rw [same]
    clear same ascending found perm
    induction sorted with
    | nil => rfl
    | cons table rest ih =>
        simp only [List.map_cons, List.mapM_cons, each table (by simp), ok_bind]
        rw [ih (fun other member => each other (List.mem_cons_of_mem _ member))]
        rfl
  · rw [same, List.pairwise_map] at ascending
    exact ascending

/-- The level a table is loaded into. -/
def SSTable.slot (numLevels : Nat) (sst : SSTable) : Nat :=
  if sst.path.level.getD 0 < numLevels then sst.path.level.getD 0 else numLevels - 1

/-- A level with the tables loaded into it. -/
def Level.loaded (tables : List SSTable) (numLevels i : Nat) (level : Level) : Level :=
  {
    level with
    sstables := level.sstables ++ tables.filter (fun sst => sst.slot numLevels = i)
  }

namespace Leveled

theorem loadSstable_eq {strategy : Leveled} {sst : SSTable} (valid : sst.Valid)
    (inhabited : 0 < strategy.levels.length)
    : strategy.loadSstable sst
      = .ok {
          strategy with
          levels :=
            strategy.levels.modify (sst.slot strategy.levels.length)
              (fun level => level.append sst)
        } := by
  simp only [loadSstable, valid.rebuildIndex, ok_bind, inhabited, if_true]
  split
  next inside =>
    rw [SSTable.slot, if_pos inside]
    rfl
  next outside =>
    rw [SSTable.slot, if_neg outside]
    rfl

/-- Each table lands in its slot, behind the tables that were there. -/
theorem loadSstables_eq {tables : List SSTable} (valid : ∀ table ∈ tables, table.Valid)
    (strategy : Leveled) (inhabited : 0 < strategy.levels.length ∨ tables = [])
    : ∃ next,
        tables.foldlM loadSstable strategy = .ok next
        ∧ next.settings = strategy.settings
        ∧ ∀ i,
            next.levels[i]?
            = strategy.levels[i]?.map (Level.loaded tables strategy.levels.length i) := by
  induction tables generalizing strategy with
  | nil => exact ⟨strategy, rfl, rfl, fun i => by simp +unfoldPartialApp [Level.loaded]⟩
  | cons table rest ih =>
      have inhabited := inhabited.resolve_right (by simp)
      obtain ⟨next, loaded, settings, levels⟩ := ih
        (fun other member => valid other (List.mem_cons_of_mem _ member))
        {
          strategy with
          levels :=
            strategy.levels.modify (table.slot strategy.levels.length)
              (fun level => level.append table)
        }
        (.inl (by simpa using inhabited))
      refine ⟨next, ?_, settings, fun i => ?_⟩
      · rw [List.foldlM_cons, loadSstable_eq (valid table (by simp)) inhabited]
        exact loaded
      · rw [levels i, List.length_modify, List.getElem?_modify, Option.map_eq_map,
          Option.map_map]
        congr 1
        funext level
        by_cases here : table.slot strategy.levels.length = i <;>
          simp [Level.loaded, Level.append, here]

/-- Each level holds the tables of its slot, in the order in which they were listed. -/
theorem loadFromDir_listed {dbName : String} {directory : List TableFile}
    {sorted : List SSTable} (listed : getSstables dbName directory = .ok sorted)
    (valid : ∀ table ∈ sorted, table.Valid) {numLevels : Nat}
    (inhabited : 0 < numLevels ∨ sorted = []) (l0Threshold l1MaxBytes : Nat)
    (settings : BlockSettings)
    : ∃ next : Leveled,
        loadFromDir dbName directory numLevels l0Threshold l1MaxBytes settings = .ok next
        ∧ next.settings = settings
        ∧ ∀ i,
            next.levels[i]?
            = (new numLevels l0Threshold l1MaxBytes settings).levels[i]?.map
                (Level.loaded sorted numLevels i) := by
  have count : (new numLevels l0Threshold l1MaxBytes settings).levels.length = numLevels := by
    simp [new]
  obtain ⟨next, loaded, same, levels⟩ := loadSstables_eq valid
    (new numLevels l0Threshold l1MaxBytes settings) (by rwa [count])
  refine ⟨next, ?_, same, fun i => ?_⟩
  · rw [loadFromDir, listed, ok_bind]
    exact loaded
  · rw [levels i, count]

/-- The loaded levels, one by one. -/
theorem levels_loaded {sorted : List SSTable} {numLevels l0Threshold l1MaxBytes : Nat}
    {settings : BlockSettings} {next : Leveled}
    (levels
      : ∀ i,
          next.levels[i]?
          = (new numLevels l0Threshold l1MaxBytes settings).levels[i]?.map
              (Level.loaded sorted numLevels i))
    : next.levels
      = (List.range numLevels).map
        (fun i => ({
          sstables := sorted.filter (fun sst => sst.slot numLevels = i)
          levelNum := i
          maxBytes := l1MaxBytes * 10 ^ (i - 1) % 2 ^ 64
          l0Threshold
          isTerminal := i == numLevels - 1
        } : Level)) := by
  refine List.ext_getElem? (fun i => ?_)
  rw [levels i]
  simp only [new, List.getElem?_map, Option.map_map]
  by_cases inside : i < numLevels
  · simp [List.getElem?_range inside, Level.loaded]
  · have outside : (List.range numLevels)[i]? = none :=
      List.getElem?_eq_none (by simpa using inside)
    rw [outside, Option.map_none, Option.map_none]

/-- What `load_from_dir` makes of the files of the given tables. -/
theorem loadFromDir_eq {dbName : String} {directory : List TableFile}
    {tables : List SSTable} (lists : Lists dbName directory tables)
    (valid : ∀ table ∈ recognisedTables dbName tables, table.Valid)
    {numLevels : Nat} (inhabited : 0 < numLevels ∨ tables = [])
    (l0Threshold l1MaxBytes : Nat) (settings : BlockSettings)
    : ∃ (sorted : List SSTable) (next : Leveled),
        sorted.Perm (recognisedTables dbName tables)
        ∧ sorted.Pairwise SSTable.Until
        ∧ loadFromDir dbName directory numLevels l0Threshold l1MaxBytes settings = .ok next
        ∧ next.settings = settings
        ∧ ∀ i,
            next.levels[i]?
            = (new numLevels l0Threshold l1MaxBytes settings).levels[i]?.map
                (Level.loaded sorted numLevels i) := by
  obtain ⟨sorted, listed, perm, ascending⟩ := getSstables_eq lists valid
  have nonempty : 0 < numLevels ∨ sorted = [] := by
    rcases inhabited with some | rfl
    · exact .inl some
    · exact .inr (List.perm_nil.mp perm)
  obtain ⟨next, loaded, same, levels⟩ := loadFromDir_listed listed
    (fun table member => valid table (perm.mem_iff.mp member)) nonempty l0Threshold
    l1MaxBytes settings
  exact ⟨sorted, next, perm, ascending, loaded, same, levels⟩

end Leveled

/-- The size-tiered strategy files the tables anew, oldest first. -/
theorem SizeTiered.loadFromDir_eq {dbName : String} {directory : List TableFile}
    {tables : List SSTable} (lists : Lists dbName directory tables)
    (valid : ∀ table ∈ recognisedTables dbName tables, table.Valid)
    (minThreshold maxThreshold : Nat) (settings : BlockSettings)
    : ∃ sorted : List SSTable,
        sorted.Perm (recognisedTables dbName tables)
        ∧ sorted.Pairwise SSTable.Until
        ∧ loadFromDir dbName directory minThreshold maxThreshold settings
          = .ok (sorted.foldl addSstable (new minThreshold maxThreshold settings)) := by
  obtain ⟨sorted, listed, perm, ascending⟩ := getSstables_eq lists valid
  refine ⟨sorted, perm, ascending, ?_⟩
  have each : ∀ table ∈ sorted,
      SSTable.rebuildIndex table.path table.blocks = .ok table :=
    fun table member => (valid table (perm.mem_iff.mp member)).rebuildIndex
  rw [loadFromDir, listed, ok_bind]
  clear perm ascending listed
  generalize new minThreshold maxThreshold settings = strategy
  induction sorted generalizing strategy with
  | nil => rfl
  | cons table rest ih =>
      rw [List.foldlM_cons, each table (by simp), List.foldl_cons]
      exact ih (fun other member => each other (List.mem_cons_of_mem _ member)) _

end Rustikv.Lsm

import Rustikv.Lsm.Written

/-! Databases that share a directory: which file names decode to what was encoded, and whose
tables `get_sstables` lists.
-/

namespace Rustikv.Lsm

open Library

-----------------------------------------------------------------------------------------
-- One file name
-----------------------------------------------------------------------------------------

/-- The name ends in `_L` and a number, as the part of a file name in front of the timestamp
does where it gives a level.
-/
def EndsInLevel (dbName : String) : Prop :=
  ∃ front digits number,
    dbName.toList = front ++ ['_', 'L'] ++ digits
    ∧ parseUnsigned uintBound digits = some number

theorem safeName_iff {dbName : String} : safeName dbName = true ↔ ¬ EndsInLevel dbName := by
  rw [safeName, Option.isNone_iff_eq_none]
  constructor
  · rintro unleveled ⟨front, digits, number, name, parsed⟩
    have split := rsplitOnce_append front (by decide : '_' ∉ ['L'])
      (not_mem_of_parseUnsigned parsed (by decide) (by decide))
    rw [parseLevel, name, split] at unleveled
    simp [parsed] at unleveled
  · intro plain
    unfold parseLevel
    split
    next name digits split =>
      split
      next number parsed =>
        exact absurd ⟨name, digits, number, append_of_rsplitOnce split, parsed⟩ plain
      next => rfl
    next => rfl

theorem TablePath.Bounded.recognised_iff {path : TablePath} (bounded : path.Bounded)
    {dbName : String}
    : path.recognised dbName = true ↔ (path.level = none → ¬ EndsInLevel dbName) := by
  obtain ⟨stamped, leveled⟩ := bounded
  unfold TablePath.recognised
  cases level : path.level with
  | none => simp [stamped, safeName_iff]
  | some number => simp [stamped, leveled number level]

theorem pathIn_fileName (dbName : String) (path : TablePath) (blocks : List Block)
    : TableFile.pathIn dbName { name := path.fileName dbName, blocks }
      = if path.recognised dbName then some path else none :=
  pathIn_file dbName
    { path, blocks, sparseIndex := [], bloom := newBloom 0, min := none, max := none }

theorem pathIn_eq_some {dbName : String} {file : TableFile} {path : TablePath}
    : file.pathIn dbName = some path ↔ SSTable.parse file.name = some (dbName, path) := by
  unfold TableFile.pathIn
  cases SSTable.parse file.name with
  | none => simp
  | some parsed =>
      obtain ⟨name, other⟩ := parsed
      simp only [Option.bind_some, Option.ite_none_right_eq_some, Option.some.injEq,
        Prod.mk.injEq]

/-- A file name decodes to what was encoded, unless it has no level and a name that ends in
one.
-/
theorem parse_fileName_iff {path : TablePath} (bounded : path.Bounded) (dbName : String)
    : SSTable.parse (path.fileName dbName) = some (dbName, path)
      ↔ (path.level = none → ¬ EndsInLevel dbName) := by
  have decodes : TableFile.pathIn dbName ⟨path.fileName dbName, []⟩ = some path
      ↔ SSTable.parse (path.fileName dbName) = some (dbName, path) := pathIn_eq_some
  rw [← bounded.recognised_iff, ← decodes, pathIn_fileName]
  simp

/-- A file without a level whose name ends in one decodes to a path with a level. -/
theorem level_of_parse_fileName {path other : TablePath} {dbName name : String}
    (bounded : path.Bounded) (unleveled : path.level = none) (ends : EndsInLevel dbName)
    (parsed : SSTable.parse (path.fileName dbName) = some (name, other))
    : other.level ≠ none := by
  obtain ⟨level, timestamp⟩ := path
  obtain rfl : level = none := unleveled
  rw [fileName_none, parse_append, if_pos bounded.1] at parsed
  obtain ⟨-, rfl⟩ := Prod.mk.inj (Option.some.inj parsed)
  intro none
  have safe : safeName dbName = true := by
    rw [safeName, Option.isNone_iff_eq_none]
    exact none
  exact safeName_iff.mp safe ends

-----------------------------------------------------------------------------------------
-- One directory
-----------------------------------------------------------------------------------------

/-- The directory holds the files of tables, each written for the database it is listed
with, and files that are no tables.
-/
def Shares (directory : List TableFile) (written : List (String × SSTable)) : Prop :=
  ∃ others,
    directory.Perm (written.map (fun item => item.2.file item.1) ++ others)
    ∧ ∀ file ∈ others, SSTable.parse file.name = none

/-- The tables written for the database. -/
def tablesOf (dbName : String) (written : List (String × SSTable)) : List SSTable :=
  (written.filter (fun item => item.1 = dbName)).map Prod.snd

/-- `get_sstables` lists the tables of each database, and no others. -/
def ListsEach (directory : List TableFile) (written : List (String × SSTable)) : Prop :=
  ∀ dbName,
    ∃ tables,
      getSstables dbName directory = .ok tables
      ∧ tables.Perm (tablesOf dbName written)

variable {directory : List TableFile} {written : List (String × SSTable)}

theorem mem_tablesOf {dbName : String} {table : SSTable}
    : table ∈ tablesOf dbName written ↔ (dbName, table) ∈ written := by
  simp only [tablesOf, List.mem_map, List.mem_filter, decide_eq_true_eq, Prod.exists]
  constructor
  · rintro ⟨name, other, ⟨member, rfl⟩, rfl⟩
    exact member
  · exact fun member => ⟨dbName, table, ⟨member, rfl⟩, rfl⟩

/-- Where every name decodes, a directory lists the tables of each of its databases. -/
theorem Shares.lists (shares : Shares directory written)
    (decodes
      : ∀ item ∈ written,
          SSTable.parse (item.2.path.fileName item.1) = some (item.1, item.2.path))
    (dbName : String)
    : Lists dbName directory (tablesOf dbName written) := by
  obtain ⟨others, perm, ignored⟩ := shares
  refine ⟨(written.filter (fun item => !decide (item.1 = dbName))).map
    (fun item => item.2.file item.1) ++ others, perm.trans ?_, ?_⟩
  · have split := (List.filter_append_perm (fun item => decide (item.1 = dbName)) written).map
      (fun item : String × SSTable => item.2.file item.1)
    rw [List.map_append] at split
    have own : (tablesOf dbName written).map (SSTable.file dbName)
        = (written.filter (fun item => item.1 = dbName)).map
          (fun item => item.2.file item.1) := by
      rw [tablesOf, List.map_map]
      refine List.map_congr_left (fun item member => ?_)
      have same := (List.mem_filter.mp member).2
      simp only [decide_eq_true_eq] at same
      rw [← same]
      rfl
    rw [own, ← List.append_assoc]
    exact split.symm.append_right others
  · intro file member
    rcases List.mem_append.mp member with foreign | other
    · obtain ⟨item, among, rfl⟩ := List.mem_map.mp foreign
      obtain ⟨inWritten, differs⟩ := List.mem_filter.mp among
      simp only [Bool.not_eq_eq_eq_not, Bool.not_true, decide_eq_false_iff_not] at differs
      simp [TableFile.pathIn, SSTable.file, decodes item inWritten, differs]
    · simp [TableFile.pathIn, ignored file other]

/-- A table that is listed was rebuilt from the file of its path. -/
theorem file_of_getSstables {dbName : String} {tables : List SSTable}
    (listed : getSstables dbName directory = .ok tables) {table : SSTable}
    (member : table ∈ tables)
    : SSTable.rebuildIndex table.path table.blocks = .ok table
      ∧ ∃ file ∈ directory, SSTable.parse file.name = some (dbName, table.path) := by
  obtain ⟨item, among, rebuilt⟩ := exists_of_mem_mapM listed member
  rw [List.mem_insertionSort] at among
  obtain ⟨file, inDirectory, found⟩ := List.mem_filterMap.mp among
  obtain ⟨path, known, rfl⟩ := Option.map_eq_some_iff.mp found
  obtain rfl := SSTable.path_of_rebuildIndex rebuilt
  have blocks : table.blocks = file.blocks := by
    obtain ⟨scanned, -, same⟩ := bind_eq_ok.mp rebuilt
    rw [← Except.ok.inj same]
  rw [blocks]
  exact ⟨rebuilt, file, inDirectory, pathIn_eq_some.mp known⟩

theorem lists_each_iff (shares : Shares directory written)
    (bounded : ∀ item ∈ written, item.2.path.Bounded)
    (tables : ∀ item ∈ written, item.2.Written)
    : ListsEach directory written
      ↔ ∀ item ∈ written,
          item.2.Valid ∧ (item.2.path.level = none → ¬ EndsInLevel item.1) := by
  constructor
  · intro lists item member
    obtain ⟨sorted, listed, perm⟩ := lists item.1
    have inSorted := perm.mem_iff.mpr (mem_tablesOf.mpr member)
    obtain ⟨rebuilt, file, inDirectory, parsed⟩ := file_of_getSstables listed inSorted
    refine ⟨(tables item member).resolve_right (fun unreadable => ?_), ?_⟩
    · obtain ⟨error, failed⟩ := unreadable.rebuildIndex item.2.path
      rw [failed] at rebuilt
      cases rebuilt
    · obtain ⟨others, all, ignored⟩ := shares
      rcases List.mem_append.mp (all.mem_iff.mp inDirectory) with own | foreign
      · obtain ⟨other, among, rfl⟩ := List.mem_map.mp own
        by_cases decodes : other.2.path.level = none → ¬ EndsInLevel other.1
        · have same := (parse_fileName_iff (bounded other among) other.1).mpr decodes
          obtain ⟨name, path⟩ := Prod.mk.inj (Option.some.inj (same.symm.trans parsed))
          rwa [name, path] at decodes
        · obtain ⟨unleveled, ends⟩ := Classical.not_imp.mp decodes
          have leveled := level_of_parse_fileName (bounded other among) unleveled
            (not_not.mp ends) parsed
          exact fun none => absurd none leveled
      · rw [ignored file foreign] at parsed
        cases parsed
  · intro each dbName
    have decodes : ∀ item ∈ written,
        SSTable.parse (item.2.path.fileName item.1) = some (item.1, item.2.path) :=
      fun item member => (parse_fileName_iff (bounded item member) item.1).mpr
        (each item member).2
    have known : recognisedTables dbName (tablesOf dbName written)
        = tablesOf dbName written := by
      refine List.filter_eq_self.mpr (fun table member => ?_)
      have inWritten := mem_tablesOf.mp member
      exact (bounded _ inWritten).recognised_iff.mpr (each _ inWritten).2
    obtain ⟨sorted, listed, perm, -⟩ := getSstables_eq (shares.lists decodes dbName) (by
      intro table member
      rw [known] at member
      exact (each _ (mem_tablesOf.mp member)).1)
    rw [known] at perm
    exact ⟨sorted, listed, perm⟩

/-- File names decode to what was encoded exactly if no table without a level belongs to a
database whose name ends in one; and exactly then `get_sstables` lists the tables of every
database in the directory, as far as each of them can be read.
-/
theorem file_names_decode_iff (dbName : String) (path : TablePath)
    (bounded : TablePath.Bounded path) {directory : List TableFile}
    {written : List (String × SSTable)} (shares : Shares directory written)
    (boundedAll : ∀ item ∈ written, item.2.path.Bounded)
    (tables : ∀ item ∈ written, item.2.Written)
    : (SSTable.parse (path.fileName dbName) = some (dbName, path)
        ↔ (path.level = none → ¬ EndsInLevel dbName))
      ∧ (ListsEach directory written
        ↔ ∀ item ∈ written,
            item.2.Valid ∧ (item.2.path.level = none → ¬ EndsInLevel item.1)) :=
  ⟨parse_fileName_iff bounded dbName, lists_each_iff shares boundedAll tables⟩

/-- Tables for two databases of these names. -/
def oneTableEach (first second : String) : List (String × SSTable) :=
  [(first, Leveled.smallTable 1), (second, Leveled.smallTable 2)]

theorem shares_oneTableEach (first second : String)
    : Shares ((oneTableEach first second).map (fun item => item.2.file item.1))
        (oneTableEach first second) :=
  ⟨[], by simp, by simp⟩

theorem sane_oneTableEach {first second : String}
    : ∀ item ∈ oneTableEach first second, item.2.path.Bounded ∧ item.2.Valid := by
  have sane : ∀ timestamp, timestamp < uintBound
      → (Leveled.smallTable timestamp).path.Bounded ∧ (Leveled.smallTable timestamp).Valid :=
    fun timestamp stamped => ⟨⟨stamped, by rintro _ ⟨⟩⟩,
      SSTable.valid_fromMemtable _ _ (storableTable_new.insert (by decide) _)⟩
  intro item member
  simp only [oneTableEach, List.mem_cons, List.not_mem_nil, or_false] at member
  rcases member with rfl | rfl
  · exact sane 1 (by decide)
  · exact sane 2 (by decide)

/-- Witness: two names, one of which the other begins with. -/
theorem file_names_decode_iff_apart
    : SSTable.parse (TablePath.fileName "a_1" { level := some 3, timestamp := 7 })
        = some ("a_1", { level := some 3, timestamp := 7 })
      ∧ ListsEach ((oneTableEach "a" "a_1").map (fun item => item.2.file item.1))
        (oneTableEach "a" "a_1") := by
  have plain : ∀ item ∈ oneTableEach "a" "a_1", ¬ EndsInLevel item.1 := by
    simp only [oneTableEach, List.mem_cons, List.not_mem_nil, or_false, forall_eq_or_imp,
      forall_eq, ← safeName_iff]
    decide
  have bounded : TablePath.Bounded { level := some 3, timestamp := 7 } :=
    ⟨by decide, by simp [uintBound]⟩
  obtain ⟨decodes, lists⟩ := file_names_decode_iff "a_1" _ bounded
    (shares_oneTableEach "a" "a_1") (fun item member => (sane_oneTableEach item member).1)
    (fun item member => .inl (sane_oneTableEach item member).2)
  refine ⟨decodes.mpr (by simp), lists.mpr fun item member => ?_⟩
  exact ⟨(sane_oneTableEach item member).2, fun _ => plain item member⟩

/-- Counterexample: a table of `a_L1` without a level is listed for `a`. -/
theorem level_suffix_misread
    : SSTable.parse (TablePath.fileName "a_L1" { level := none, timestamp := 7 })
        = some ("a", { level := some 1, timestamp := 7 })
      ∧ ¬ ListsEach ((oneTableEach "a" "a_L1").map (fun item => item.2.file item.1))
        (oneTableEach "a" "a_L1") := by
  refine ⟨by decide +kernel, fun lists => ?_⟩
  have each := (lists_each_iff (shares_oneTableEach "a" "a_L1")
    (fun item member => (sane_oneTableEach item member).1)
    (fun item member => .inl (sane_oneTableEach item member).2)).mp lists
    ("a_L1", Leveled.smallTable 2) (by simp [oneTableEach])
  exact each.2 rfl ⟨['a'], ['1'], 1, by decide, by decide⟩

end Rustikv.Lsm

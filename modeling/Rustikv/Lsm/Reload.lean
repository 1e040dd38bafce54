import Rustikv.Lsm.Unreadable

/-! Loading a leveled strategy from its own files: the names of the files say which level
each table belongs to.
-/

namespace Rustikv.Lsm

open Library

/-- The first table is the older one. -/
def SSTable.Before (left right : SSTable) : Prop :=
  left.path.timestamp < right.path.timestamp

/-- Tables in the order of their timestamps are found again in this order. -/
theorem eq_of_ascending {sorted tables : List SSTable} (perm : sorted.Perm tables)
    (ascending : sorted.Pairwise SSTable.Until) (strict : tables.Pairwise SSTable.Before)
    : sorted = tables := by
  have distinct : (tables.map (fun table => table.path.timestamp)).Nodup :=
    List.pairwise_map.mpr (strict.imp Nat.ne_of_lt)
  refine perm.eq_of_pairwise ?_ ascending (strict.imp Nat.le_of_lt)
  intro left right inLeft inRight forth back
  exact List.inj_on_of_nodup_map distinct (perm.mem_iff.mp inLeft) inRight
    (Nat.le_antisymm forth back)

theorem recognisedTables_eq {dbName : String} {tables : List SSTable}
    (known : ∀ table ∈ tables, table.path.recognised dbName = true)
    : recognisedTables dbName tables = tables :=
  List.filter_eq_self.mpr known

namespace Leveled

-----------------------------------------------------------------------------------------
-- Tables filed by name
-----------------------------------------------------------------------------------------

/-- Every level has its number and holds tables whose names say so. -/
structure Filed (strategy : Leveled) : Prop where
  numbered : strategy.levels.map Level.levelNum = List.range strategy.levels.length
  placed
    : ∀ level ∈ strategy.levels,
        ∀ sst ∈ level.sstables, sst.path.level.getD 0 = level.levelNum

variable {strategy next : Leveled}

theorem filed_new (numLevels l0Threshold l1MaxBytes : Nat) (settings : BlockSettings)
    : (new numLevels l0Threshold l1MaxBytes settings).Filed where
  numbered := by simp [new, Function.comp_def]
  placed level member := by
    obtain ⟨i, -, rfl⟩ := List.mem_map.mp member
    simp

/-- Flushed tables have no level in their names. -/
theorem Filed.addSstable (filed : strategy.Filed) {sst : SSTable}
    (unleveled : sst.path.level = none) (added : strategy.addSstable sst = .ok next)
    : next.Filed := by
  obtain ⟨levels, settings⟩ := strategy
  unfold Leveled.addSstable at added
  cases levels with
  | nil => cases added
  | cons l0 rest =>
      obtain rfl := Except.ok.inj added
      have numbered := filed.numbered
      have first : l0.levelNum = 0 := by
        rw [List.map_cons, List.length_cons, List.range_succ_eq_map] at numbered
        exact (List.cons.inj numbered).1
      refine ⟨by simpa [Level.append] using numbered, ?_⟩
      intro level member table inside
      rcases List.mem_cons.mp member with rfl | deeper
      · rcases List.mem_append.mp inside with old | last
        · exact filed.placed l0 (by simp) table old
        · rw [List.mem_singleton.mp last, unleveled]
          exact first.symm
      · exact filed.placed level (List.mem_cons_of_mem _ deeper) table inside

theorem Filed.compactLevel (filed : strategy.Filed) (layered : strategy.Layered) {i : Nat}
    (readable
      : ∀ level, strategy.levels[i]? = some level → ∀ table ∈ level.sstables, table.Valid)
    {nowMs : UInt64} {timestamp : Nat}
    (done : strategy.compactLevel i nowMs timestamp = .ok next)
    : next.Filed := by
  rcases layered.compactLevel_cases readable done with
    rfl | ⟨front, level, split, -, -, -, rfl⟩
    | ⟨front, source, target, back, start, end_, split, -, -, -, -, rfl⟩
  · exact filed
  · refine ⟨by simpa [split] using filed.numbered, ?_⟩
    intro other member table inside
    rcases List.mem_append.mp member with early | late
    · exact filed.placed other (by simp [split, early]) table inside
    · rw [List.mem_singleton.mp late] at inside ⊢
      rw [List.mem_singleton.mp inside, mergedTable, SSTable.path_fromMemtable]
      rfl
  · refine ⟨by simpa [split] using filed.numbered, ?_⟩
    intro other member table inside
    simp only [List.mem_append, List.mem_cons] at member
    rcases member with early | rfl | rfl | late
    · exact filed.placed other (by simp [split, early]) table inside
    · simp at inside
    · rcases List.mem_append.mp inside with kept | last
      · exact filed.placed target (by simp [split]) table (List.mem_of_mem_filter kept)
      · rw [List.mem_singleton.mp last, mergedTable, SSTable.path_fromMemtable]
        rfl
    · exact filed.placed other (by simp [split, late]) table inside

/-- The number of a level is its position. -/
theorem Filed.levelNum_eq (filed : strategy.Filed) {i : Nat} {level : Level}
    (found : strategy.levels[i]? = some level)
    : level.levelNum = i := by
  have position := congrArg (fun numbers => numbers[i]?) filed.numbered
  obtain ⟨inside, -⟩ := List.getElem?_eq_some_iff.mp found
  simp only [List.getElem?_map, found, Option.map_some, List.getElem?_range inside,
    Option.some.injEq] at position
  exact position

/-- The tables of a level are those whose names give its number. -/
theorem Filed.filter_level (filed : strategy.Filed) {i : Nat} {level : Level}
    (found : strategy.levels[i]? = some level)
    : (strategy.levels.flatMap Level.sstables).filter
        (fun sst => sst.path.level.getD 0 = i)
      = level.sstables := by
  have number := filed.levelNum_eq found
  obtain ⟨front, back, split, -⟩ := exists_split found
  have distinct : (strategy.levels.map Level.levelNum).Nodup := by
    rw [filed.numbered]
    exact List.nodup_range
  rw [split, List.map_append, List.map_cons, List.nodup_middle, List.nodup_cons,
    ← List.map_append] at distinct
  have others : ∀ other ∈ front ++ back, ∀ sst ∈ other.sstables,
      ¬ sst.path.level.getD 0 = i := by
    intro other member sst held same
    have inLevels : other ∈ strategy.levels := by
      rw [split]
      exact List.mem_append.mpr ((List.mem_append.mp member).imp_right (List.mem_cons_of_mem _))
    rw [filed.placed other inLevels sst held] at same
    exact distinct.1 (List.mem_map.mpr ⟨other, member, by rw [same, number]⟩)
  have none : ∀ levels : List Level,
      (∀ other ∈ levels, ∀ sst ∈ other.sstables, ¬ sst.path.level.getD 0 = i)
      → (levels.flatMap Level.sstables).filter
        (fun sst => sst.path.level.getD 0 = i) = [] := by
    intro levels differ
    rw [List.filter_eq_nil_iff]
    intro sst member
    obtain ⟨other, inLevels, held⟩ := List.mem_flatMap.mp member
    simpa using differ other inLevels sst held
  have here : level.sstables.filter (fun sst => sst.path.level.getD 0 = i)
      = level.sstables := by
    rw [List.filter_eq_self]
    intro sst member
    have placed := filed.placed level (List.mem_of_getElem? found) sst member
    simpa [number] using placed
  rw [split, List.flatMap_append, List.flatMap_cons, List.filter_append, List.filter_append,
    here, none _ (fun other member => others other (List.mem_append_left _ member)),
    none _ (fun other member => others other (List.mem_append_right _ member)),
    List.nil_append, List.append_nil]

-----------------------------------------------------------------------------------------
-- Loading as many levels
-----------------------------------------------------------------------------------------

theorem iterAll_perm (strategy : Leveled)
    : strategy.iterAll.Perm (strategy.levels.flatMap Level.sstables) :=
  List.Perm.flatMap_left _ (fun level _ => List.reverse_perm level.sstables)

/-- Each level of `next` holds the recognised tables of the same level of `strategy`, in the
order of their timestamps.
-/
structure Reloads (dbName : String) (strategy next : Leveled) : Prop where
  count : next.levels.length = strategy.levels.length
  shape : next.levels.map Level.isTerminal
    = (List.range strategy.levels.length).map (fun i => i == strategy.levels.length - 1)
  numbered : next.levels.map Level.levelNum = List.range strategy.levels.length
  tables
    : ∀ (i : Nat) (level loaded : Level),
        strategy.levels[i]? = some level
        → next.levels[i]? = some loaded
        → loaded.sstables.Perm (recognisedTables dbName level.sstables)
          ∧ loaded.sstables.Pairwise SSTable.Until

/-- The loaded tables of a level are the recognised ones among its tables. -/
theorem Filed.perm_loaded (filed : strategy.Filed) {dbName : String} {sorted : List SSTable}
    (perm : sorted.Perm (recognisedTables dbName strategy.iterAll)) {i : Nat}
    {level : Level} (found : strategy.levels[i]? = some level)
    : (sorted.filter (fun sst => sst.slot strategy.levels.length = i)).Perm
        (recognisedTables dbName level.sstables) := by
  have all := perm.trans ((iterAll_perm strategy).filter _)
  have slots : ∀ sst ∈ sorted,
      (sst.slot strategy.levels.length = i ↔ sst.path.level.getD 0 = i) := by
    intro sst member
    obtain ⟨listed, -⟩ := List.mem_filter.mp (all.mem_iff.mp member)
    obtain ⟨other, inLevels, held⟩ := List.mem_flatMap.mp listed
    have inside : other.levelNum ∈ List.range strategy.levels.length := by
      rw [← filed.numbered]
      exact List.mem_map_of_mem inLevels
    rw [List.mem_range, ← filed.placed other inLevels sst held] at inside
    rw [SSTable.slot, if_pos inside]
  have same : sorted.filter (fun sst => sst.slot strategy.levels.length = i)
      = sorted.filter (fun sst => sst.path.level.getD 0 = i) := by
    refine List.filter_congr (fun sst member => ?_)
    rw [decide_eq_decide]
    exact slots sst member
  rw [same]
  refine (all.filter _).trans (List.Perm.of_eq ?_)
  rw [List.filter_comm, filed.filter_level found]
  rfl

/-- Loading as many levels as there were puts every recognised table back. -/
theorem Filed.reloads (filed : strategy.Filed) {dbName : String}
    {directory : List TableFile} (lists : Lists dbName directory strategy.iterAll)
    (valid : ∀ table ∈ recognisedTables dbName strategy.iterAll, table.Valid)
    (l0Threshold l1MaxBytes : Nat) (settings : BlockSettings)
    : ∃ next,
        loadFromDir dbName directory strategy.levels.length l0Threshold l1MaxBytes settings
          = .ok next
        ∧ Reloads dbName strategy next := by
  have inhabited : 0 < strategy.levels.length ∨ strategy.iterAll = [] := by
    rcases Nat.eq_zero_or_pos strategy.levels.length with zero | some
    · right
      rw [iterAll, List.length_eq_zero_iff.mp zero, List.flatMap_nil]
    · exact .inl some
  obtain ⟨sorted, next, perm, ascending, loaded, -, levels⟩ := loadFromDir_eq lists valid
    inhabited l0Threshold l1MaxBytes settings
  have shape := levels_loaded levels
  refine ⟨next, loaded, ⟨by simp [shape], ?_, ?_, ?_⟩⟩
  · rw [shape, List.map_map]
    rfl
  · rw [shape, List.map_map]
    exact List.map_id _
  · intro i level other found here
    obtain ⟨inside, -⟩ := List.getElem?_eq_some_iff.mp found
    rw [shape, List.getElem?_map, List.getElem?_range inside, Option.map_some] at here
    obtain rfl := Option.some.inj here
    exact ⟨filed.perm_loaded perm found, ascending.filter _⟩

/-- Lists of equal length that agree item by item up to order agree as a whole. -/
theorem flatMap_perm_flatMap {α β γ : Type} {left : List α} {right : List β}
    {ofLeft : α → List γ} {ofRight : β → List γ} (count : left.length = right.length)
    (each
      : ∀ (i : Nat) first second,
          left[i]? = some first
          → right[i]? = some second
          → (ofLeft first).Perm (ofRight second))
    : (left.flatMap ofLeft).Perm (right.flatMap ofRight) := by
  induction left generalizing right with
  | nil =>
      obtain rfl := List.length_eq_zero_iff.mp count.symm
      exact .refl _
  | cons first rest ih =>
      cases right with
      | nil => cases count
      | cons second others =>
          rw [List.flatMap_cons, List.flatMap_cons]
          refine (each 0 first second rfl rfl).append (ih (by simpa using count) ?_)
          intro i one other found here
          exact each (i + 1) one other found here

theorem exists_level {levels others : List Level} (count : others.length = levels.length)
    {i : Nat} {level : Level} (found : others[i]? = some level)
    : ∃ other, levels[i]? = some other := by
  obtain ⟨inside, -⟩ := List.getElem?_eq_some_iff.mp found
  exact ⟨levels[i], List.getElem?_eq_getElem (count ▸ inside)⟩

variable {dbName : String}

theorem Reloads.mem_tables (reloads : Reloads dbName strategy next) {i : Nat}
    {loaded : Level} (found : next.levels[i]? = some loaded) {table : SSTable}
    (member : table ∈ loaded.sstables)
    : ∃ level,
        strategy.levels[i]? = some level
        ∧ table ∈ level.sstables
        ∧ table.path.recognised dbName = true := by
  obtain ⟨level, here⟩ := exists_level reloads.count found
  have kept := (reloads.tables i level loaded here found).1.mem_iff.mp member
  exact ⟨level, here, (List.mem_filter.mp kept).1, (List.mem_filter.mp kept).2⟩

theorem Reloads.filed (reloads : Reloads dbName strategy next) (filed : strategy.Filed)
    : next.Filed where
  numbered := by rw [reloads.numbered, reloads.count]
  placed loaded member sst inside := by
    obtain ⟨i, found⟩ := List.mem_iff_getElem?.mp member
    obtain ⟨level, here, held, -⟩ := reloads.mem_tables found inside
    have number : loaded.levelNum = i := by
      have position := congrArg (fun numbers => numbers[i]?) reloads.numbered
      obtain ⟨bound, -⟩ := List.getElem?_eq_some_iff.mp here
      simpa [found, List.getElem?_range bound] using position
    rw [filed.placed level (List.mem_of_getElem? here) sst held, filed.levelNum_eq here,
      number]

theorem Reloads.paths_perm (reloads : Reloads dbName strategy next)
    : (paths next.levels).Perm
        ((recognisedTables dbName (strategy.levels.flatMap Level.sstables)).map
          SSTable.path) := by
  rw [recognisedTables, List.filter_flatMap, List.map_flatMap]
  refine flatMap_perm_flatMap reloads.count ?_
  intro i loaded level found here
  exact (reloads.tables i level loaded here found).1.map SSTable.path

/-- The reloaded strategy is sound. -/
theorem Reloads.sound (reloads : Reloads dbName strategy next) (layered : strategy.Layered)
    (valid : ∀ table ∈ recognisedTables dbName strategy.iterAll, table.Valid)
    : next.Sound where
  valid loaded member table inside := by
    obtain ⟨i, found⟩ := List.mem_iff_getElem?.mp member
    obtain ⟨level, here, held, known⟩ := reloads.mem_tables found inside
    refine valid table (List.mem_filter.mpr ⟨?_, known⟩)
    exact mem_iterAll.mpr ⟨level, List.mem_of_getElem? here, held⟩
  apart loaded member := by
    obtain ⟨i, found⟩ := List.mem_iff_getElem?.mp member
    rw [List.getElem?_tail] at found
    obtain ⟨level, here⟩ := exists_level reloads.count found
    have deeper : level ∈ strategy.levels.tail := by
      rw [List.mem_iff_getElem?]
      exact ⟨i, by rw [List.getElem?_tail, here]⟩
    have kept := (layered.apart level deeper).filter
      (fun table => table.path.recognised dbName)
    exact (reloads.tables (i + 1) level loaded here found).1.symm.pairwise kept
      (fun apart => Std.Symm.symm _ _ apart)
  terminal := by
    refine terminal_of_shape
      (sound_new strategy.levels.length 0 0 strategy.settings).terminal ?_
    rw [reloads.shape, new, List.map_map]
    rfl
  distinct := by
    rw [reloads.paths_perm.nodup_iff]
    have all : paths strategy.levels
        = (strategy.levels.flatMap Level.sstables).map SSTable.path :=
      List.map_flatMap.symm
    refine layered.distinct.sublist ?_
    rw [all]
    exact List.filter_sublist.map _

-----------------------------------------------------------------------------------------
-- Reading after a reload
-----------------------------------------------------------------------------------------

/-- Level 0 holds its tables in the order of their timestamps. -/
def Ascending (strategy : Leveled) : Prop :=
  ∀ level, strategy.levels.head? = some level → level.sstables.Pairwise SSTable.Before

/-- Levels that read alike one by one read alike as a whole. -/
theorem versionIn_levels {left right : List Level} (count : left.length = right.length)
    {key : String}
    (each
      : ∀ (i : Nat) first second,
          left[i]? = some first
          → right[i]? = some second
          → versionIn first.iter key = versionIn second.iter key)
    : versionIn (left.flatMap Level.iter) key = versionIn (right.flatMap Level.iter) key := by
  induction left generalizing right with
  | nil =>
      obtain rfl := List.length_eq_zero_iff.mp count.symm
      rfl
  | cons first rest ih =>
      cases right with
      | nil => cases count
      | cons second others =>
          rw [List.flatMap_cons, List.flatMap_cons, versionIn_append, versionIn_append,
            each 0 first second rfl rfl, ih (by simpa using count)
              (fun i one other found here => each (i + 1) one other found here)]

/-- Level 0 is found again as it was. -/
theorem Reloads.front (reloads : Reloads dbName strategy next)
    (known : ∀ table ∈ strategy.iterAll, table.path.recognised dbName = true)
    (ascending : strategy.Ascending) {level loaded : Level}
    (found : strategy.levels[0]? = some level) (here : next.levels[0]? = some loaded)
    : loaded.sstables = level.sstables := by
  obtain ⟨perm, sorted⟩ := reloads.tables 0 level loaded found here
  rw [recognisedTables_eq (fun table member => known table
    (mem_iterAll.mpr ⟨level, List.mem_of_getElem? found, member⟩))] at perm
  exact eq_of_ascending perm sorted (ascending level (by rwa [List.head?_eq_getElem?]))

/-- A strategy whose files are all recognised reads as before. -/
theorem Reloads.version (reloads : Reloads dbName strategy next) (sound : strategy.Sound)
    (known : ∀ table ∈ strategy.iterAll, table.path.recognised dbName = true)
    (ascending : strategy.Ascending) (key : String)
    : next.version key = strategy.version key := by
  refine versionIn_levels reloads.count ?_
  intro i loaded level here found
  cases i with
  | zero =>
      rw [Level.iter, Level.iter, reloads.front known ascending found here]
  | succ i =>
      obtain ⟨perm, -⟩ := reloads.tables (i + 1) level loaded found here
      rw [recognisedTables_eq (fun table member => known table
        (mem_iterAll.mpr ⟨level, List.mem_of_getElem? found, member⟩))] at perm
      have deeper : level ∈ strategy.levels.tail := by
        rw [List.mem_iff_getElem?]
        exact ⟨i, by rw [List.getElem?_tail, found]⟩
      have order : level.iter.Perm loaded.iter :=
        (List.reverse_perm _).trans (perm.symm.trans (List.reverse_perm _).symm)
      have apart : level.iter.Pairwise SSTable.Apart :=
        (List.reverse_perm level.sstables).symm.pairwise (sound.apart level deeper)
          (fun apart => Std.Symm.symm _ _ apart)
      exact (versionIn_perm apart order key).symm

/-- Level 0 stays in order when the tables added to it are newer than those there. -/
theorem Ascending.addSstable (ascending : strategy.Ascending) {sst : SSTable}
    (newest
      : ∀ level,
          strategy.levels.head? = some level → ∀ table ∈ level.sstables, table.Before sst)
    (added : strategy.addSstable sst = .ok next)
    : next.Ascending := by
  obtain ⟨levels, settings⟩ := strategy
  unfold Leveled.addSstable at added
  cases levels with
  | nil => cases added
  | cons l0 rest =>
      obtain rfl := Except.ok.inj added
      rintro level ⟨⟩
      refine List.pairwise_append.mpr
        ⟨ascending l0 rfl, List.pairwise_singleton _ _, ?_⟩
      intro table member new isNew
      rw [List.mem_singleton.mp isNew]
      exact newest l0 rfl table member

/-- Compacting level 0 empties it, or leaves one table if there is no other level. -/
theorem Ascending.compactLevel (ascending : strategy.Ascending)
    (layered : strategy.Layered) {i : Nat}
    (readable
      : ∀ level, strategy.levels[i]? = some level → ∀ table ∈ level.sstables, table.Valid)
    {nowMs : UInt64} {timestamp : Nat}
    (done : strategy.compactLevel i nowMs timestamp = .ok next)
    : next.Ascending := by
  rcases layered.compactLevel_cases readable done with
    rfl | ⟨front, level, split, -, -, -, rfl⟩
    | ⟨front, source, target, back, start, end_, split, -, -, -, -, rfl⟩
  · exact ascending
  · intro other first
    cases front with
    | nil =>
        obtain rfl := Option.some.inj first
        exact List.pairwise_singleton _ _
    | cons l0 front => exact ascending other (by simpa [split] using first)
  · intro other first
    cases front with
    | nil =>
        obtain rfl := Option.some.inj first
        exact List.Pairwise.nil
    | cons l0 front => exact ascending other (by simpa [split] using first)

-----------------------------------------------------------------------------------------
-- Strategies that survive a reload
-----------------------------------------------------------------------------------------

/-- A sound strategy whose files say where each table belongs and in which order level 0 is
read, with numbers that fit a machine integer.
-/
structure Orderly (strategy : Leveled) : Prop where
  sound : strategy.Sound
  filed : strategy.Filed
  ascending : strategy.Ascending
  bounded : ∀ level ∈ strategy.levels, ∀ table ∈ level.sstables, table.path.Bounded
  few : strategy.levels.length ≤ uintBound

theorem orderly_new {numLevels : Nat} (few : numLevels ≤ uintBound)
    (l0Threshold l1MaxBytes : Nat) (settings : BlockSettings)
    : (Leveled.new numLevels l0Threshold l1MaxBytes settings).Orderly where
  sound := sound_new numLevels l0Threshold l1MaxBytes settings
  filed := filed_new numLevels l0Threshold l1MaxBytes settings
  ascending level first := by
    obtain ⟨i, -, rfl⟩ := List.mem_map.mp (List.mem_of_mem_head? first)
    exact List.Pairwise.nil
  bounded level member := by
    obtain ⟨i, -, rfl⟩ := List.mem_map.mp member
    simp
  few := by simpa [Leveled.new] using few

theorem Orderly.known (orderly : strategy.Orderly) (safe : safeName dbName = true)
    : ∀ table ∈ strategy.iterAll, table.path.recognised dbName = true := by
  intro table member
  obtain ⟨level, inLevels, held⟩ := mem_iterAll.mp member
  exact (orderly.bounded level inLevels table held).recognised safe

/-- A new table with a timestamp within bounds. -/
theorem bounded_addSstable (layered : strategy.Layered) {sst : SSTable}
    (fresh : sst.path ∉ paths strategy.levels) (unleveled : sst.path.level = none)
    (stamped : sst.path.timestamp < uintBound)
    (bounded : ∀ level ∈ strategy.levels, ∀ table ∈ level.sstables, table.path.Bounded)
    (added : strategy.addSstable sst = .ok next)
    : ∀ level ∈ next.levels, ∀ table ∈ level.sstables, table.path.Bounded := by
  obtain ⟨-, -, tables⟩ := layered.addSstable fresh added
  intro level member table inside
  rcases tables level member table inside with rfl | ⟨other, inLevels, held⟩
  · exact ⟨stamped, by simp [unleveled]⟩
  · exact bounded other inLevels table held

theorem Orderly.addSstable (orderly : strategy.Orderly) {sst : SSTable} (valid : sst.Valid)
    (fresh : sst.path ∉ paths strategy.levels) (unleveled : sst.path.level = none)
    (stamped : sst.path.timestamp < uintBound)
    (newest
      : ∀ level,
          strategy.levels.head? = some level → ∀ table ∈ level.sstables, table.Before sst)
    (added : strategy.addSstable sst = .ok next)
    : next.Orderly ∧ next.levels.length = strategy.levels.length := by
  obtain ⟨sound, count, -⟩ := orderly.sound.addSstable valid fresh added
  exact ⟨⟨sound, orderly.filed.addSstable unleveled added,
    orderly.ascending.addSstable newest added,
    bounded_addSstable orderly.sound.layered fresh unleveled stamped orderly.bounded added,
    count ▸ orderly.few⟩, count⟩

/-- The tables after compacting a level: old ones, and one with the new timestamp. -/
theorem Layered.mem_compactLevel (layered : strategy.Layered) {i : Nat}
    (readable
      : ∀ level, strategy.levels[i]? = some level → ∀ table ∈ level.sstables, table.Valid)
    {nowMs : UInt64} {timestamp : Nat}
    (done : strategy.compactLevel i nowMs timestamp = .ok next) {level : Level}
    (member : level ∈ next.levels) {table : SSTable} (inside : table ∈ level.sstables)
    : table ∈ strategy.iterAll
      ∨ ∃ target ∈ strategy.levels,
          table.path = { level := some target.levelNum, timestamp } := by
  rcases layered.compactLevel_cases readable done with
    rfl | ⟨front, last, split, -, -, -, rfl⟩
    | ⟨front, source, target, back, start, end_, split, -, -, -, -, rfl⟩
  · exact .inl (mem_iterAll.mpr ⟨level, member, inside⟩)
  · rcases List.mem_append.mp member with early | late
    · exact .inl (mem_iterAll.mpr ⟨level, by simp [split, early], inside⟩)
    · rw [List.mem_singleton.mp late] at inside
      rw [List.mem_singleton.mp inside]
      exact .inr ⟨last, by simp [split], SSTable.path_fromMemtable _ _ _⟩
  · simp only [List.mem_append, List.mem_cons] at member
    rcases member with early | rfl | rfl | late
    · exact .inl (mem_iterAll.mpr ⟨level, by simp [split, early], inside⟩)
    · simp at inside
    · rcases List.mem_append.mp inside with kept | new
      · exact .inl (mem_iterAll.mpr
          ⟨target, by simp [split], List.mem_of_mem_filter kept⟩)
      · rw [List.mem_singleton.mp new]
        exact .inr ⟨target, by simp [split], SSTable.path_fromMemtable _ _ _⟩
    · exact .inl (mem_iterAll.mpr ⟨level, by simp [split, late], inside⟩)

theorem bounded_compactLevel (layered : strategy.Layered) (filed : strategy.Filed)
    (few : strategy.levels.length ≤ uintBound)
    (bounded : ∀ level ∈ strategy.levels, ∀ table ∈ level.sstables, table.path.Bounded)
    {i : Nat}
    (readable
      : ∀ level, strategy.levels[i]? = some level → ∀ table ∈ level.sstables, table.Valid)
    {nowMs : UInt64} {timestamp : Nat} (stamped : timestamp < uintBound)
    (done : strategy.compactLevel i nowMs timestamp = .ok next)
    : ∀ level ∈ next.levels, ∀ table ∈ level.sstables, table.path.Bounded := by
  intro level member table inside
  rcases layered.mem_compactLevel readable done member inside with old | ⟨target, held, path⟩
  · obtain ⟨other, inLevels, held⟩ := mem_iterAll.mp old
    exact bounded other inLevels table held
  · have number : target.levelNum ∈ List.range strategy.levels.length := by
      rw [← filed.numbered]
      exact List.mem_map_of_mem held
    refine ⟨by rw [path]; exact stamped, ?_⟩
    rw [path]
    rintro other ⟨⟩
    exact lt_of_lt_of_le (List.mem_range.mp number) few

theorem Orderly.compactLevel (orderly : strategy.Orderly) {i : Nat} {nowMs : UInt64}
    {timestamp : Nat} (stamped : timestamp < uintBound)
    (done : strategy.compactLevel i nowMs timestamp = .ok next)
    : next.Orderly ∧ next.levels.length = strategy.levels.length := by
  have layered := orderly.sound.layered
  have readable := fun {i : Nat} => @Sound.readable strategy orderly.sound i
  obtain ⟨sound, count⟩ := orderly.sound.compactLevel done
  exact ⟨⟨sound, orderly.filed.compactLevel layered readable done,
    orderly.ascending.compactLevel layered readable done,
    bounded_compactLevel layered orderly.filed orderly.few orderly.bounded readable stamped
      done, count ▸ orderly.few⟩, count⟩

theorem Orderly.compactIfNeeded (orderly : strategy.Orderly) {nowMs : UInt64}
    {timestamp : Nat} (stamped : timestamp < uintBound) {ran : Bool}
    (done : strategy.compactIfNeeded nowMs timestamp = .ok (ran, next))
    : next.Orderly ∧ next.levels.length = strategy.levels.length :=
  compactIfNeeded_invariant done ⟨orderly, rfl⟩
    (fun _ _ compacted => orderly.compactLevel stamped compacted)

theorem Orderly.compactAll (orderly : strategy.Orderly) {clock : Nat → UInt64}
    {stamp : Nat → Nat} (stamped : ∀ i < strategy.levels.length, stamp i < uintBound)
    (done : strategy.compactAll clock stamp = .ok next)
    : next.Orderly ∧ next.levels.length = strategy.levels.length := by
  rw [compactAll_eq] at done
  refine compactFrom_invariant
    (fun after => after.Orderly ∧ after.levels.length = strategy.levels.length) done
    ⟨orderly, rfl⟩ ?_
  rintro i member before after ⟨orderlyBefore, count⟩ compacted
  obtain ⟨orderlyAfter, same⟩ :=
    orderlyBefore.compactLevel (stamped i (List.mem_range.mp member)) compacted
  exact ⟨orderlyAfter, same.trans count⟩

end Leveled

end Rustikv.Lsm

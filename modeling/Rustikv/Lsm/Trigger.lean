import Rustikv.Lsm.Reload

/-! When `compact_if_needed` declines: level 0 asks for a compaction only while it holds
exactly its threshold of tables, so that a count past the threshold is never noticed.
-/

namespace Rustikv.Lsm

-----------------------------------------------------------------------------------------
-- Levels without their tables
-----------------------------------------------------------------------------------------

/-- What a level is made with. -/
def Level.bare (level : Level) : Level :=
  { level with sstables := [] }

theorem Level.bare_append (level : Level) (sst : SSTable)
    : (level.append sst).bare = level.bare :=
  rfl

theorem Level.squash_bare {level rest : Level} {settings : BlockSettings}
    {others : List TablePath} {nowMs : UInt64} {timestamp : Nat} {sst : SSTable}
    (done : level.squash settings others nowMs timestamp = .ok (some sst, rest))
    : rest = level.bare ∧ level.sstables ≠ [] := by
  unfold squash at done
  split at done
  · cases done
  · next nonempty =>
      obtain ⟨memtable, -, done⟩ := bind_eq_ok.mp done
      obtain ⟨new, -, done⟩ := bind_eq_ok.mp done
      obtain ⟨-, rfl⟩ := Prod.mk.inj (Except.ok.inj done)
      exact ⟨rfl, by simpa using nonempty⟩

/-- Among `numLevels` levels, the table is loaded into level 0. -/
def TablePath.toLevelZero (path : TablePath) (numLevels : Nat) : Bool :=
  path.level.getD 0 = 0 || numLevels = 1

theorem SSTable.path_of_rebuildIndex {path : TablePath} {blocks : List Block} {sst : SSTable}
    (rebuilt : SSTable.rebuildIndex path blocks = .ok sst)
    : sst.path = path := by
  obtain ⟨scanned, -, same⟩ := bind_eq_ok.mp rebuilt
  rw [← Except.ok.inj same]

theorem paths_of_mapM_rebuildIndex {files : List (TablePath × List Block)}
    {tables : List SSTable}
    (rebuilt : files.mapM (fun file => SSTable.rebuildIndex file.1 file.2) = .ok tables)
    : tables.map SSTable.path = files.map Prod.fst := by
  induction files generalizing tables with
  | nil =>
      obtain rfl := Except.ok.inj rebuilt
      rfl
  | cons file rest ih =>
      rw [List.mapM_cons] at rebuilt
      obtain ⟨sst, first, rebuilt⟩ := bind_eq_ok.mp rebuilt
      obtain ⟨others, later, same⟩ := bind_eq_ok.mp rebuilt
      obtain rfl := Except.ok.inj same
      rw [List.map_cons, List.map_cons, ih later, SSTable.path_of_rebuildIndex first]

namespace Leveled

theorem mergeLevels_bare {settings : BlockSettings} {files : List TablePath}
    {source target source' target' : Level} {nowMs : UInt64} {timestamp : Nat}
    (done : mergeLevels settings files source target nowMs timestamp = .ok (source', target'))
    : source'.bare = source.bare
      ∧ target'.bare = target.bare
      ∧ source'.sstables.length ≤ source.sstables.length := by
  unfold mergeLevels at done
  split at done
  · obtain ⟨first, -, done⟩ := bind_eq_ok.mp done
    obtain ⟨both, -, done⟩ := bind_eq_ok.mp done
    obtain ⟨sst, -, done⟩ := bind_eq_ok.mp done
    obtain ⟨rfl, rfl⟩ := Prod.mk.inj (Except.ok.inj done)
    exact ⟨rfl, rfl, Nat.zero_le _⟩
  · obtain ⟨rfl, rfl⟩ := Prod.mk.inj (Except.ok.inj done)
    exact ⟨rfl, rfl, le_rfl⟩

/-- The number of tables in level 0. -/
def l0Count (strategy : Leveled) : Nat :=
  (strategy.levels.head?.map (fun level => level.sstables.length)).getD 0

/-- What every call but `load_from_dir` keeps: the levels as they were made, and a level 0
that only `add_sstable` makes longer.
-/
structure Shrinks (before after : Leveled) : Prop where
  bare : after.levels.map Level.bare = before.levels.map Level.bare
  count : after.l0Count ≤ before.l0Count

theorem Shrinks.refl (strategy : Leveled) : strategy.Shrinks strategy :=
  ⟨rfl, le_rfl⟩

theorem Shrinks.trans {first second third : Leveled} (one : first.Shrinks second)
    (two : second.Shrinks third)
    : first.Shrinks third :=
  ⟨two.bare.trans one.bare, two.count.trans one.count⟩

/-- Levels behind the first change, or the first gets no longer. -/
theorem shrinks_of_split {strategy : Leveled} {front back changed : List Level}
    (split : strategy.levels = front ++ back)
    (bare : changed.map Level.bare = back.map Level.bare)
    (count
      : ({ strategy with levels := changed } : Leveled).l0Count
        ≤ ({ strategy with levels := back } : Leveled).l0Count)
    : strategy.Shrinks { strategy with levels := front ++ changed } := by
  refine ⟨by simp [split, bare], ?_⟩
  cases front with
  | nil => simpa [l0Count, split] using count
  | cons first rest => simp [l0Count, split]

/-- Everything that compacting a level can change: the last level's tables become one, or
the level and the next one are merged.
-/
theorem compactLevel_split {strategy next : Leveled} {i : Nat} {nowMs : UInt64}
    {timestamp : Nat} (done : strategy.compactLevel i nowMs timestamp = .ok next)
    : next = strategy
        ∧ (∀ level ∈ strategy.levels[i]?, level.isTerminal = true ∧ level.sstables = [])
      ∨ (∃ front level back rest sst,
          strategy.levels = front ++ level :: back
          ∧ front.length = i
          ∧ level.isTerminal = true
          ∧ level.squash strategy.settings (paths (strategy.levels.eraseIdx i)) nowMs
            timestamp
            = .ok (some sst, rest)
          ∧ next = { strategy with levels := front ++ rest.append sst :: back })
      ∨ ∃ front source target back source' target',
          strategy.levels = front ++ source :: target :: back
          ∧ front.length = i
          ∧ source.isTerminal = false
          ∧ mergeLevels strategy.settings (paths strategy.levels) source target nowMs
            timestamp
            = .ok (source', target')
          ∧ next = { strategy with levels := front ++ source' :: target' :: back } := by
  unfold compactLevel at done
  cases found : strategy.levels[i]? with
  | none =>
      simp only [found, Except.ok.injEq] at done
      exact .inl ⟨done.symm, by simp⟩
  | some level =>
      obtain ⟨front, back, split, count⟩ := exists_split found
      simp only [found] at done
      cases terminal : level.isTerminal with
      | true =>
          simp only [terminal, if_true] at done
          obtain ⟨⟨squashed, rest⟩, ran, done⟩ := bind_eq_ok.mp done
          cases squashed with
          | none =>
              obtain rfl := Except.ok.inj done
              refine .inl ⟨rfl, ?_⟩
              rintro _ ⟨⟩
              unfold Level.squash at ran
              split at ran
              next empty => exact ⟨terminal, List.isEmpty_iff.mp empty⟩
              next =>
                obtain ⟨memtable, -, ran⟩ := bind_eq_ok.mp ran
                obtain ⟨sst, -, ran⟩ := bind_eq_ok.mp ran
                cases Except.ok.inj ran
          | some sst =>
              obtain rfl := Except.ok.inj done
              refine .inr
                (.inl ⟨front, level, back, rest, sst, split, count, terminal, ran, ?_⟩)
              simp [split, ← count]
      | false =>
          simp only [terminal, Bool.false_eq_true, if_false] at done
          cases back with
          | nil =>
              have outside : strategy.levels.length ≤ i ∨ strategy.levels.length ≤ i + 1 := by
                simp [split, ← count]
              simp only [compactLevels, if_pos outside] at done
              cases done
          | cons target back =>
              rw [← count] at done
              obtain ⟨source', target', merged, rfl⟩ := compactLevels_next split done
              exact .inr (.inr ⟨front, level, target, back, source', target', split, count,
                terminal, merged, rfl⟩)

theorem compactLevel_shrinks {strategy next : Leveled} {i : Nat} {nowMs : UInt64}
    {timestamp : Nat} (done : strategy.compactLevel i nowMs timestamp = .ok next)
    : strategy.Shrinks next := by
  rcases compactLevel_split done with ⟨rfl, -⟩
    | ⟨front, level, back, rest, sst, split, -, -, squashed, rfl⟩
    | ⟨front, source, target, back, source', target', split, -, -, merged, rfl⟩
  · exact .refl next
  · obtain ⟨rfl, nonempty⟩ := Level.squash_bare squashed
    refine shrinks_of_split split rfl ?_
    have some := List.length_pos_iff.mpr nonempty
    simp [l0Count, Level.append, Level.bare]
    omega
  · obtain ⟨bare, bareTarget, shorter⟩ := mergeLevels_bare merged
    exact shrinks_of_split split (by simp [bare, bareTarget])
      (by simpa [l0Count] using shorter)

theorem compactAll_shrinks {strategy next : Leveled} {clock : Nat → UInt64}
    {stamp : Nat → Nat} (done : strategy.compactAll clock stamp = .ok next)
    : strategy.Shrinks next := by
  rw [compactAll_eq] at done
  exact compactFrom_invariant strategy.Shrinks done (.refl strategy)
    (fun _ _ _ _ before compacted => before.trans (compactLevel_shrinks compacted))

theorem addSstable_bare {strategy next : Leveled} {sst : SSTable}
    (added : strategy.addSstable sst = .ok next)
    : next.levels.map Level.bare = strategy.levels.map Level.bare
      ∧ next.l0Count = strategy.l0Count + 1 := by
  unfold addSstable at added
  split at added
  next l0 rest shape =>
    obtain rfl := Except.ok.inj added
    refine ⟨by simp only [shape, List.map_cons, Level.bare_append], ?_⟩
    simp [shape, l0Count, Level.append]
  · cases added

-----------------------------------------------------------------------------------------
-- Loading any directory
-----------------------------------------------------------------------------------------

theorem loadSstable_bare {strategy next : Leveled} {sst : SSTable}
    (loaded : strategy.loadSstable sst = .ok next)
    : next.levels.map Level.bare = strategy.levels.map Level.bare
      ∧ next.l0Count
        ≤ strategy.l0Count
          + (sst.path.toLevelZero strategy.levels.length).toNat := by
  have added : ∀ (i : Nat) (new : SSTable),
      (strategy.levels.modify i (fun level => level.append new)).map Level.bare
        = strategy.levels.map Level.bare
      ∧ ({
          strategy with
          levels := strategy.levels.modify i (fun level => level.append new)
        } : Leveled).l0Count
        ≤ strategy.l0Count + (decide (i = 0)).toNat := by
    intro i new
    constructor
    · refine List.ext_getElem? (fun j => ?_)
      simp only [List.getElem?_map, List.getElem?_modify]
      cases strategy.levels[j]? with
      | none => rfl
      | some level => by_cases here : i = j <;> simp [here, Level.bare_append]
    · cases shape : strategy.levels with
      | nil => simp [l0Count, shape]
      | cons l0 rest => cases i <;> simp [l0Count, shape, Level.append]
  unfold loadSstable at loaded
  obtain ⟨new, rebuilt, loaded⟩ := bind_eq_ok.mp loaded
  have same := SSTable.path_of_rebuildIndex rebuilt
  dsimp only at loaded
  split at loaded
  next inside =>
    obtain rfl := Except.ok.inj loaded
    obtain ⟨bare, count⟩ := added (new.path.level.getD 0) new
    refine ⟨bare, count.trans (Nat.add_le_add_left (Bool.toNat_le_toNat ?_) _)⟩
    intro first
    simp only [decide_eq_true_eq] at first
    simp [TablePath.toLevelZero, ← same, first]
  next outside =>
    split at loaded
    next some =>
      obtain rfl := Except.ok.inj loaded
      obtain ⟨bare, count⟩ := added (strategy.levels.length - 1) new
      refine ⟨bare, count.trans (Nat.add_le_add_left (Bool.toNat_le_toNat ?_) _)⟩
      intro first
      simp only [decide_eq_true_eq] at first
      have single : strategy.levels.length = 1 := by omega
      simp [TablePath.toLevelZero, single]
    next => cases loaded

theorem loadSstables_bare {tables : List SSTable} {strategy next : Leveled}
    (loaded : tables.foldlM loadSstable strategy = .ok next)
    : next.levels.map Level.bare = strategy.levels.map Level.bare
      ∧ next.l0Count
        ≤ strategy.l0Count
          + tables.countP (fun sst => sst.path.toLevelZero strategy.levels.length) := by
  induction tables generalizing strategy with
  | nil =>
      obtain rfl := Except.ok.inj loaded
      exact ⟨rfl, le_rfl⟩
  | cons sst rest ih =>
      rw [List.foldlM_cons] at loaded
      obtain ⟨middle, first, later⟩ := bind_eq_ok.mp loaded
      obtain ⟨bare, count⟩ := loadSstable_bare first
      obtain ⟨bareRest, countRest⟩ := ih later
      have levels : middle.levels.length = strategy.levels.length := by
        simpa using congrArg List.length bare
      refine ⟨bareRest.trans bare, ?_⟩
      rw [levels] at countRest
      rw [List.countP_cons]
      cases hit : sst.path.toLevelZero strategy.levels.length <;>
        simp [hit] at count ⊢ <;> omega

/-- The files that `load_from_dir` puts into level 0. -/
def levelZeroFiles (dbName : String) (directory : List TableFile) (numLevels : Nat) : Nat :=
  (databaseFiles dbName directory).countP (fun file => file.1.toLevelZero numLevels)

/-- The loaded levels are made with the new parameters. -/
theorem loadFromDir_bare {dbName : String} {directory : List TableFile}
    {numLevels l0Threshold l1MaxBytes : Nat} {settings : BlockSettings} {next : Leveled}
    (loaded
      : loadFromDir dbName directory numLevels l0Threshold l1MaxBytes settings = .ok next)
    : next.levels.map Level.bare = (new numLevels l0Threshold l1MaxBytes settings).levels
      ∧ next.l0Count ≤ levelZeroFiles dbName directory numLevels := by
  obtain ⟨tables, listed, loaded⟩ := bind_eq_ok.mp loaded
  obtain ⟨bare, count⟩ := loadSstables_bare loaded
  have files : tables.countP (fun sst => sst.path.toLevelZero numLevels)
      = levelZeroFiles dbName directory numLevels := by
    have perm := (databaseFiles dbName directory).perm_insertionSort
      (fun left right => left.1.timestamp ≤ right.1.timestamp)
    have paths := (perm.map Prod.fst).countP_eq (fun path => path.toLevelZero numLevels)
    rw [← paths_of_mapM_rebuildIndex listed, List.countP_map, List.countP_map] at paths
    exact paths
  have empty : (new numLevels l0Threshold l1MaxBytes settings).l0Count = 0 := by
    cases numLevels <;> simp [l0Count, new, List.range_succ_eq_map]
  have levels
      : (new numLevels l0Threshold l1MaxBytes settings).levels.length = numLevels := by
    simp [new]
  refine ⟨bare.trans ?_, ?_⟩
  · simp [new, Function.comp_def, Level.bare]
  · rwa [empty, levels, Nat.zero_add, files] at count

-----------------------------------------------------------------------------------------
-- Runs of calls
-----------------------------------------------------------------------------------------

/-- A call on a strategy, with the clocks or the directory it reads. -/
inductive Operation
  | addSstable (sst : SSTable)
  | compactIfNeeded (nowMs : UInt64) (timestamp : Nat)
  | compactAll (clock : Nat → UInt64) (stamp : Nat → Nat)
  | loadFromDir (dbName : String) (directory : List TableFile)
      (numLevels l0Threshold l1MaxBytes : Nat) (settings : BlockSettings)

def operate (strategy : Leveled) : Operation → Except IoError Leveled
  | .addSstable sst => strategy.addSstable sst
  | .compactIfNeeded nowMs timestamp => do
      let (_, strategy) ← strategy.compactIfNeeded nowMs timestamp
      return strategy
  | .compactAll clock stamp => strategy.compactAll clock stamp
  | .loadFromDir dbName directory numLevels l0Threshold l1MaxBytes settings =>
      loadFromDir dbName directory numLevels l0Threshold l1MaxBytes settings

/-- What a run of allowed calls leads to. -/
inductive ReachedBy (allowed : Leveled → Operation → Prop) (start : Leveled)
    : Leveled → Prop
  | start : ReachedBy allowed start start
  | operate {strategy next : Leveled} {operation : Operation}
      (reached : ReachedBy allowed start strategy)
      (permitted : allowed strategy operation)
      (done : strategy.operate operation = .ok next)
    : ReachedBy allowed start next

/-- The levels are those that `new` makes, with tables in them. -/
def Made (strategy : Leveled) : Prop :=
  ∃ numLevels l0Threshold l1MaxBytes settings,
    strategy.levels.map Level.bare
    = (new numLevels l0Threshold l1MaxBytes settings).levels

theorem made_new (numLevels l0Threshold l1MaxBytes : Nat) (settings : BlockSettings)
    : (new numLevels l0Threshold l1MaxBytes settings).Made :=
  ⟨numLevels, l0Threshold, l1MaxBytes, settings, by
    simp [new, Function.comp_def, Level.bare]⟩

/-- A call loads a directory, adds one table, or shrinks level 0. -/
theorem operate_cases {strategy next : Leveled} {operation : Operation}
    (done : strategy.operate operation = .ok next)
    : (∃ sst, operation = .addSstable sst ∧ strategy.addSstable sst = .ok next)
      ∨ (∃ dbName directory numLevels l0Threshold l1MaxBytes settings,
          operation
            = .loadFromDir dbName directory numLevels l0Threshold l1MaxBytes settings
          ∧ loadFromDir dbName directory numLevels l0Threshold l1MaxBytes settings
            = .ok next)
      ∨ strategy.Shrinks next := by
  cases operation with
  | addSstable sst => exact .inl ⟨sst, rfl, done⟩
  | compactIfNeeded nowMs timestamp =>
      obtain ⟨⟨ran, after⟩, compacted, done⟩ := bind_eq_ok.mp done
      obtain rfl := Except.ok.inj done
      exact .inr (.inr (compactIfNeeded_invariant compacted (.refl strategy)
        (fun _ _ compacted => compactLevel_shrinks compacted)))
  | compactAll clock stamp => exact .inr (.inr (compactAll_shrinks done))
  | loadFromDir dbName directory numLevels l0Threshold l1MaxBytes settings =>
      exact .inr (.inl ⟨dbName, directory, numLevels, l0Threshold, l1MaxBytes, settings,
        rfl, done⟩)

theorem Made.operate {strategy next : Leveled} (made : strategy.Made)
    {operation : Operation} (done : strategy.operate operation = .ok next)
    : next.Made := by
  obtain ⟨numLevels, l0Threshold, l1MaxBytes, settings, levels⟩ := made
  rcases operate_cases done with ⟨sst, -, added⟩ | ⟨_, _, _, _, _, _, -, loaded⟩ | shrinks
  · exact ⟨_, _, _, settings, (addSstable_bare added).1.trans levels⟩
  · exact ⟨_, _, _, _, (loadFromDir_bare loaded).1⟩
  · exact ⟨_, _, _, settings, shrinks.bare.trans levels⟩

theorem ReachedBy.made {allowed : Leveled → Operation → Prop} {start strategy : Leveled}
    (reached : ReachedBy allowed start strategy) (made : start.Made)
    : strategy.Made := by
  induction reached with
  | start => exact made
  | operate reached permitted done ih => exact ih.operate done

/-- The levels have their positions as numbers. -/
theorem Made.levelNum {strategy : Leveled} (made : strategy.Made) {i : Nat} {level : Level}
    (found : strategy.levels[i]? = some level)
    : level.levelNum = i := by
  obtain ⟨numLevels, l0Threshold, l1MaxBytes, settings, levels⟩ := made
  have numbers : strategy.levels.map Level.levelNum = List.range numLevels := by
    simpa [new, Function.comp_def, Level.bare] using congrArg (List.map Level.levelNum) levels
  have position : (List.range numLevels)[i]? = some level.levelNum := by
    rw [← numbers, List.getElem?_map, found, Option.map_some]
  obtain ⟨inside, same⟩ := List.getElem?_eq_some_iff.mp position
  rw [← same, List.getElem_range]

/-- No level has reached its limit. -/
structure Quiet (strategy : Leveled) : Prop where
  l0
    : ∀ level,
        strategy.levels[0]? = some level → level.sstables.length < level.l0Threshold
  deeper
    : ∀ i level,
        1 ≤ i → strategy.levels[i]? = some level → level.totalBytes < level.maxBytes

/-- Whenever `compact_if_needed` declines, no level has reached its limit. -/
def DeclinesQuiet (strategy : Leveled) : Prop :=
  ∀ nowMs timestamp next,
    strategy.compactIfNeeded nowMs timestamp = .ok (false, next) → next.Quiet

/-- Level 0 holds no more tables than its threshold. -/
def WithinThreshold (strategy : Leveled) : Prop :=
  ∀ level, strategy.levels[0]? = some level → level.sstables.length ≤ level.l0Threshold

/-- A level below level 0 holds its maximum of bytes. -/
def DeeperFull (strategy : Leveled) : Prop :=
  ∃ i level, 1 ≤ i ∧ strategy.levels[i]? = some level ∧ level.maxBytes ≤ level.totalBytes

theorem compactIfNeeded_declines {strategy next : Leveled} {nowMs : UInt64}
    {timestamp : Nat}
    : strategy.compactIfNeeded nowMs timestamp = .ok (false, next)
      ↔ next = strategy ∧ ∀ level ∈ strategy.levels, level.needsCompaction = false := by
  unfold Leveled.compactIfNeeded
  split
  next i found =>
    constructor
    · intro done
      obtain ⟨after, -, done⟩ := bind_eq_ok.mp done
      cases Except.ok.inj done
    · rintro ⟨-, none⟩
      obtain ⟨inside, needs, -⟩ := List.findIdx?_eq_some_iff_getElem.mp found
      rw [none _ (List.getElem_mem inside)] at needs
      cases needs
  next none =>
    rw [List.findIdx?_eq_none_iff] at none
    simp only [Except.ok.injEq, Prod.mk.injEq, true_and, eq_comm (a := strategy)]
    exact (and_iff_left none).symm

theorem Made.needsCompaction_l0 {strategy : Leveled} (made : strategy.Made) {level : Level}
    (found : strategy.levels[0]? = some level)
    : level.needsCompaction = false ↔ level.sstables.length ≠ level.l0Threshold := by
  simp [Level.needsCompaction, made.levelNum found]

theorem Made.needsCompaction_deeper {strategy : Leveled} (made : strategy.Made) {i : Nat}
    {level : Level} (below : 1 ≤ i) (found : strategy.levels[i]? = some level)
    : level.needsCompaction = false ↔ level.totalBytes < level.maxBytes := by
  have number := made.levelNum found
  have deeper : level.levelNum ≠ 0 := by omega
  simp [Level.needsCompaction, deeper]

/-- Exactly a count past the threshold goes unnoticed. -/
theorem Made.declinesQuiet_iff {strategy : Leveled} (made : strategy.Made)
    : strategy.DeclinesQuiet ↔ strategy.WithinThreshold ∨ strategy.DeeperFull := by
  constructor
  · intro quiet
    by_contra! beyond
    obtain ⟨beyond, deeper⟩ := beyond
    simp only [WithinThreshold, not_forall, not_le] at beyond
    obtain ⟨l0, first, past⟩ := beyond
    have declines : strategy.compactIfNeeded 0 0 = .ok (false, strategy) := by
      refine compactIfNeeded_declines.mpr ⟨rfl, fun level member => ?_⟩
      obtain ⟨i, found⟩ := List.mem_iff_getElem?.mp member
      rcases Nat.eq_zero_or_pos i with rfl | below
      · obtain rfl := Option.some.inj (first.symm.trans found)
        exact (made.needsCompaction_l0 found).mpr past.ne'
      · rw [made.needsCompaction_deeper below found]
        exact not_le.mp (fun full => deeper ⟨i, level, below, found, full⟩)
    exact absurd ((quiet 0 0 strategy declines).l0 l0 first) past.not_gt
  · intro condition nowMs timestamp next declines
    obtain ⟨rfl, none⟩ := compactIfNeeded_declines.mp declines
    have deeper : ∀ i level, 1 ≤ i → next.levels[i]? = some level
        → level.totalBytes < level.maxBytes := fun i level below found =>
      (made.needsCompaction_deeper below found).mp (none level (List.mem_of_getElem? found))
    refine ⟨fun level first => ?_, deeper⟩
    rcases condition with within | ⟨i, full, below, found, reached⟩
    · exact lt_of_le_of_ne (within level first)
        ((made.needsCompaction_l0 first).mp (none level (List.mem_of_getElem? first)))
    · exact absurd (deeper i full below found) reached.not_gt

/-- A table is added only below the threshold, and a directory that is loaded holds no more
tables of level 0.
-/
def KeepsWithin (strategy : Leveled) : Operation → Prop
  | .addSstable _ =>
      ∀ level,
        strategy.levels[0]? = some level → level.sstables.length < level.l0Threshold
  | .loadFromDir dbName directory numLevels l0Threshold _ _ =>
      levelZeroFiles dbName directory numLevels ≤ l0Threshold
  | _ => True

theorem withinThreshold_iff {strategy : Leveled}
    : strategy.WithinThreshold
      ↔ ∀ level,
          (strategy.levels.map Level.bare)[0]? = some level
          → strategy.l0Count ≤ level.l0Threshold := by
  cases shape : strategy.levels with
  | nil => simp [WithinThreshold, shape]
  | cons l0 rest => simp [WithinThreshold, shape, l0Count, Level.bare]

theorem WithinThreshold.operate {strategy next : Leveled}
    (within : strategy.WithinThreshold) {operation : Operation}
    (permitted : strategy.KeepsWithin operation)
    (done : strategy.operate operation = .ok next)
    : next.WithinThreshold := by
  rw [withinThreshold_iff]
  rw [withinThreshold_iff] at within
  rcases operate_cases done with ⟨sst, rfl, added⟩
    | ⟨dbName, directory, numLevels, l0Threshold, l1MaxBytes, settings, rfl, loaded⟩ | shrinks
  · obtain ⟨bare, count⟩ := addSstable_bare added
    rw [bare, count]
    cases shape : strategy.levels with
    | nil => simp
    | cons l0 rest =>
        have below := permitted l0 (by simp [shape])
        simpa [l0Count, shape, Level.bare, Nat.add_one_le_iff] using below
  · obtain ⟨bare, count⟩ := loadFromDir_bare loaded
    rw [bare]
    intro level first
    obtain ⟨i, -, rfl⟩ := List.mem_map.mp (List.mem_of_getElem? first)
    exact count.trans permitted
  · rw [shrinks.bare]
    exact fun level first => shrinks.count.trans (within level first)

/-- `compact_if_needed` declines only where no level has reached its limit, exactly as long
as level 0 is not past its threshold or a deeper level asks for a compaction itself; and on
a run whose additions and loads stay within the threshold it always does.
-/
theorem declines_only_when_quiet {allowed : Leveled → Operation → Prop}
    {numLevels l0Threshold l1MaxBytes : Nat} {settings : BlockSettings} {strategy : Leveled}
    (reached
      : ReachedBy allowed (new numLevels l0Threshold l1MaxBytes settings) strategy)
    : (strategy.DeclinesQuiet ↔ strategy.WithinThreshold ∨ strategy.DeeperFull)
      ∧ ((∀ before operation, allowed before operation → before.KeepsWithin operation)
        → strategy.DeclinesQuiet) := by
  have exact_ := (reached.made (made_new _ _ _ _)).declinesQuiet_iff
  refine ⟨exact_, fun keeps => exact_.mpr (.inl ?_)⟩
  induction reached with
  | start =>
      intro level first
      obtain ⟨i, -, rfl⟩ := List.mem_map.mp (List.mem_of_getElem? first)
      exact Nat.zero_le _
  | operate reached permitted done ih =>
      exact (ih (reached.made (made_new _ _ _ _)).declinesQuiet_iff).operate
        (keeps _ _ permitted) done

/-- A table with one value. -/
def smallTable (timestamp : Nat) : SSTable :=
  SSTable.fromMemtable smallBlocks { level := none, timestamp }
    (Memtable.new.insert "a" "v" none)

/-- A strategy of two levels that merges level 0 at one table, with so many in it. -/
def unmerged (tables : List SSTable) : Leveled :=
  {
    new 2 1 1000 smallBlocks with
    levels :=
      (new 2 1 1000 smallBlocks).levels.modify 0 (fun l0 => { l0 with sstables := tables })
  }

theorem adds_first
    : (new 2 1 1000 smallBlocks).operate (.addSstable (smallTable 1))
      = .ok (unmerged [smallTable 1]) :=
  rfl

/-- Witness: one table meets the threshold of one. -/
theorem declines_only_when_quiet_one
    : ReachedBy KeepsWithin (new 2 1 1000 smallBlocks) (unmerged [smallTable 1])
      ∧ (unmerged [smallTable 1]).DeclinesQuiet := by
  have reached : ReachedBy KeepsWithin (new 2 1 1000 smallBlocks)
      (unmerged [smallTable 1]) :=
    .operate .start (by simp [KeepsWithin, new]) adds_first
  exact ⟨reached, (declines_only_when_quiet reached).2 (fun _ _ permitted => permitted)⟩

/-- Two tables in a row: the threshold of one is passed, and never noticed again. -/
theorem second_table_unnoticed
    : ∃ strategy next,
        ReachedBy (fun _ _ => True) (new 2 1 1000 smallBlocks) strategy
        ∧ strategy.compactIfNeeded 0 3 = .ok (false, next)
        ∧ ¬ next.Quiet := by
  have adds : (unmerged [smallTable 1]).operate (.addSstable (smallTable 2))
      = .ok (unmerged [smallTable 1, smallTable 2]) := rfl
  have reached : ReachedBy (fun _ _ => True) (new 2 1 1000 smallBlocks)
      (unmerged [smallTable 1, smallTable 2]) :=
    .operate (.operate .start trivial adds_first) trivial adds
  refine ⟨_, _, reached, rfl, fun quiet => ?_⟩
  exact absurd (quiet.l0 _ rfl) (by decide)

end Leveled

end Rustikv.Lsm

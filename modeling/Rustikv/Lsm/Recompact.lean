import Rustikv.Library.GuardedRun
import Rustikv.Lsm.Written

/-! Compacting twice in a row: the second call flushes an empty memtable, and with two levels
or more the table of that memtable stays in level 0.
-/

namespace Rustikv.Lsm

open Library

-----------------------------------------------------------------------------------------
-- Nothing left to move
-----------------------------------------------------------------------------------------

/-- A compaction of the level has nothing left to move: the last level has at most one
table, and any other no key.
-/
def Level.Settled (level : Level) : Prop :=
  if level.isTerminal then level.sstables.length ≤ 1 else level.keyRange = none

namespace Leveled

variable {strategy next : Leveled} {i : Nat} {nowMs : UInt64} {timestamp : Nat}

theorem compactLevel_settles (done : strategy.compactLevel i nowMs timestamp = .ok next)
    : (∀ level ∈ next.levels[i]?, level.Settled)
      ∧ ∀ j < i, next.levels[j]? = strategy.levels[j]? := by
  rcases compactLevel_split done with ⟨rfl, unchanged⟩
    | ⟨front, level, back, rest, sst, split, rfl, terminal, squashed, rfl⟩
    | ⟨front, source, target, back, source', target', split, rfl, inner, merged, rfl⟩
  · refine ⟨fun level found => ?_, fun _ _ => rfl⟩
    obtain ⟨terminal, empty⟩ := unchanged level found
    simp [Level.Settled, terminal, empty]
  · obtain ⟨rfl, -⟩ := Level.squash_bare squashed
    refine ⟨?_, fun j before => by
      rw [split, List.getElem?_append_left before, List.getElem?_append_left before]⟩
    simp [Level.Settled, Level.append, Level.bare, terminal]
  · have bare := congrArg Level.isTerminal (mergeLevels_bare merged).1
    have same : source'.isTerminal = false := bare.trans inner
    refine ⟨?_, fun j before => by
      rw [split, List.getElem?_append_left before, List.getElem?_append_left before]⟩
    simp [Level.Settled, same, (mergeLevels_written merged).1]

theorem compactFrom_settles {clock : Nat → UInt64} {stamp : Nat → Nat} {count : Nat}
    (done : compactFrom clock stamp (List.range' i count) strategy = .ok next)
    (before : ∀ j < i, ∀ level ∈ strategy.levels[j]?, level.Settled)
    : ∀ j < i + count, ∀ level ∈ next.levels[j]?, level.Settled := by
  induction count generalizing i strategy with
  | zero =>
      obtain rfl := Except.ok.inj done
      exact before
  | succ count ih =>
      rw [List.range'_succ] at done
      obtain ⟨middle, compacted, later⟩ := bind_eq_ok.mp done
      obtain ⟨here, unchanged⟩ := compactLevel_settles compacted
      have settled := ih later (by
        intro j inside level found
        rcases Nat.lt_succ_iff_lt_or_eq.mp inside with earlier | rfl
        · rw [unchanged j earlier] at found
          exact before j earlier level found
        · exact here level found)
      rwa [show i + 1 + count = i + (count + 1) by omega] at settled

/-- A full compaction leaves nothing to move. -/
theorem compactAll_settles {clock : Nat → UInt64} {stamp : Nat → Nat}
    (done : strategy.compactAll clock stamp = .ok next)
    : ∀ level ∈ next.levels, level.Settled := by
  have shrinks := compactAll_shrinks done
  rw [compactAll_eq, List.range_eq_range'] at done
  have count : next.levels.length = strategy.levels.length := by
    simpa using congrArg List.length shrinks.bare
  intro level member
  obtain ⟨j, found⟩ := List.mem_iff_getElem?.mp member
  obtain ⟨inside, -⟩ := List.getElem?_eq_some_iff.mp found
  exact compactFrom_settles done (by simp) j (by omega) level found

-----------------------------------------------------------------------------------------
-- The second compaction
-----------------------------------------------------------------------------------------

/-- The levels end in the last one, and only in it. -/
theorem Made.exists_last (made : strategy.Made) (some : strategy.levels ≠ [])
    : ∃ front last,
        strategy.levels = front ++ [last]
        ∧ last.isTerminal = true
        ∧ ∀ level ∈ front, level.isTerminal = false := by
  obtain ⟨numLevels, l0Threshold, l1MaxBytes, settings, levels⟩ := made
  have flags : strategy.levels.map Level.isTerminal
      = (List.range numLevels).map (fun i => i == numLevels - 1) := by
    simpa [new, Function.comp_def, Level.bare]
      using congrArg (List.map Level.isTerminal) levels
  cases numLevels with
  | zero => exact absurd (by simpa using flags) some
  | succ count =>
      rw [List.range_succ, List.map_append, List.map_eq_append_iff] at flags
      obtain ⟨front, rest, split, inner, ending⟩ := flags
      obtain ⟨last, rfl, terminal⟩ := List.map_eq_singleton_iff.mp ending
      refine ⟨front, last, split, by simpa using terminal, fun level member => ?_⟩
      have flag := List.mem_map_of_mem (f := Level.isTerminal) member
      rw [inner, List.mem_map] at flag
      obtain ⟨i, inside, same⟩ := flag
      have before := List.mem_range.mp inside
      rw [← same, beq_eq_false_iff_ne]
      omega

/-- A level without keys is left as it is. -/
theorem compactLevel_settled {level : Level} (found : strategy.levels[i]? = some level)
    (inner : level.isTerminal = false) (settled : level.Settled)
    (done : strategy.compactLevel i nowMs timestamp = .ok next)
    : next = strategy := by
  have empty : level.keyRange = none := by simpa [Level.Settled, inner] using settled
  rcases compactLevel_split done with ⟨rfl, -⟩
    | ⟨front, other, back, rest, sst, split, rfl, terminal, -, rfl⟩
    | ⟨front, source, target, back, source', target', split, rfl, -, merged, rfl⟩
  · rfl
  · obtain rfl : other = level := by simpa [split] using found
    rw [inner] at terminal
    cases terminal
  · obtain rfl : source = level := by simpa [split] using found
    simp only [mergeLevels, empty, Except.ok.injEq, Prod.mk.injEq] at merged
    obtain ⟨rfl, rfl⟩ := merged
    rw [← split]

theorem safeDrop_of_distinct {records : List Record}
    (distinct : (records.map Record.key).Nodup) (nowMs : UInt64)
    : SafeDrop nowMs records := by
  intro record member _ dead other inside same
  rw [List.inj_on_of_nodup_map distinct inside member same]
  exact dead

/-- Squashing tables without a common key leaves at most one, which reads as they did. -/
theorem compactLevel_last {front : List Level} {last : Level}
    (split : strategy.levels = front ++ [last]) (terminal : last.isTerminal = true)
    (written : ∀ table ∈ last.sstables, table.Written)
    (distinct
      : (∀ table ∈ last.sstables, table.Valid)
        → ((last.iter.flatMap SSTable.records).map Record.key).Nodup)
    (done : strategy.compactLevel front.length nowMs timestamp = .ok next)
    : ∃ tables,
        next.levels = front ++ [{ last with sstables := tables }]
        ∧ tables.length = min 1 last.sstables.length
        ∧ ∀ key readMs,
            nowMs ≤ readMs
            → lookupIn key readMs tables.reverse = lookupIn key readMs last.iter := by
  have found : strategy.levels[front.length]? = some last := by simp [split]
  rcases compactLevel_split done with ⟨rfl, unchanged⟩
    | ⟨front', other, back, rest, sst, split', count, -, squashed, rfl⟩
    | ⟨front', source, target, back, source', target', split', count, inner, -, rfl⟩
  · have empty := (unchanged last found).2
    exact ⟨[], by simp [split, ← empty], by simp [empty], by simp [Level.iter, empty]⟩
  · obtain ⟨rfl, same⟩ := List.append_inj (split'.symm.trans split) count
    obtain ⟨rfl, rfl⟩ := List.cons.inj same
    obtain ⟨valid, some, rfl, rfl⟩ := Level.squash_eq written squashed
    have validIter : ∀ table ∈ other.iter, table.Valid :=
      fun table member => valid table (List.mem_reverse.mp member)
    have records := valid_flatMap_records validIter
    refine ⟨_, rfl, ?_, fun key readMs reached => ?_⟩
    · have positive := List.length_pos_iff.mpr some
      simp [Level.bare]
      omega
    · have validMerged : ∀ table ∈ [mergedTable strategy.settings
          { level := .some other.levelNum, timestamp } other.isTerminal nowMs
          (other.iter.flatMap SSTable.records)], table.Valid := by
        simpa using valid_mergedTable _ _ _ _ records
      have stands := mergedEntry_standsFor other.isTerminal nowMs
        (earliest Record.key (other.iter.flatMap SSTable.records) key)
      rw [← version_mergedTable strategy.settings
        { level := .some other.levelNum, timestamp } _ _ records
        (fun _ => safeDrop_of_distinct (distinct valid) nowMs), ← versionIn_eq_earliest,
        ← Option.or_none (o := SSTable.version _ _), ← versionIn_nil key,
        ← versionIn_cons] at stands
      calc lookupIn key readMs [_]
          = .ok (readAt (versionIn _ key) readMs) := lookupTables_filter validMerged key readMs
        _ = .ok (readAt (versionIn _ key) readMs) := congrArg Except.ok (stands.read reached)
        _ = lookupIn key readMs other.iter :=
          (lookupTables_filter validIter key readMs).symm
  · obtain ⟨rfl, same⟩ := List.append_inj (split'.symm.trans split) count
    obtain ⟨rfl, -⟩ := List.cons.inj same
    rw [terminal] at inner
    cases inner

/-- A full compaction of levels without keys above the last one squashes that one. -/
theorem compactAll_last {front : List Level} {last : Level}
    (split : strategy.levels = front ++ [last]) (terminal : last.isTerminal = true)
    (inner : ∀ level ∈ front, level.isTerminal = false ∧ level.Settled)
    (written : ∀ table ∈ last.sstables, table.Written)
    (distinct
      : (∀ table ∈ last.sstables, table.Valid)
        → ((last.iter.flatMap SSTable.records).map Record.key).Nodup)
    {clock : Nat → UInt64} {stamp : Nat → Nat}
    (done : strategy.compactAll clock stamp = .ok next)
    : ∃ tables,
        next.levels = front ++ [{ last with sstables := tables }]
        ∧ tables.length = min 1 last.sstables.length
        ∧ ∀ key readMs,
            clock front.length ≤ readMs
            → lookupIn key readMs tables.reverse = lookupIn key readMs last.iter := by
  unfold Leveled.compactAll at done
  have count : strategy.levels.length = front.length + 1 := by simp [split]
  rw [count, List.range_succ, List.foldlM_append] at done
  obtain ⟨middle, above, below⟩ := bind_eq_ok.mp done
  obtain rfl : middle = strategy := by
    refine foldlM_induction
      (motive := fun rest state => (∀ i ∈ rest, i < front.length) ∧ state = strategy) ?_
      ⟨fun i => List.mem_range.mp, rfl⟩ above |>.2
    rintro i rest state after ⟨inside, rfl⟩ compacted
    have before : i < front.length := inside i (by simp)
    have found : state.levels[i]? = some front[i] := by
      rw [split, List.getElem?_append_left before, List.getElem?_eq_getElem before]
    obtain ⟨nonterminal, settled⟩ := inner front[i] (List.getElem_mem before)
    exact ⟨fun j later => inside j (List.mem_cons_of_mem _ later),
      compactLevel_settled found nonterminal settled compacted⟩
  rw [List.foldlM_cons] at below
  obtain ⟨after, squashed, below⟩ := bind_eq_ok.mp below
  obtain rfl := Except.ok.inj below
  exact compactLevel_last split terminal written distinct squashed

/-- The table of an empty memtable changes no key range. -/
theorem keyRange_append_empty (level : Level) (settings : BlockSettings) (path : TablePath)
    : (level.append (SSTable.fromMemtable settings path Memtable.new)).keyRange
      = level.keyRange := by
  have none : (SSTable.fromMemtable settings path Memtable.new).min = none
      ∧ (SSTable.fromMemtable settings path Memtable.new).max = none :=
    ⟨rfl, rfl⟩
  simp [Level.keyRange, Level.append, none]

theorem lookupIn_empty (settings : BlockSettings) (path : TablePath) (key : String)
    (nowMs : UInt64) (tables : List SSTable)
    : lookupIn key nowMs (SSTable.fromMemtable settings path Memtable.new :: tables)
      = lookupIn key nowMs tables := by
  have valid := SSTable.valid_fromMemtable settings path storableTable_new
  have absent : (SSTable.fromMemtable settings path Memtable.new).version key = none := by
    rw [SSTable.version_fromMemtable _ _ storableTable_new, Memtable.entry_new]
  rw [← List.singleton_append, lookupIn_append (by simpa using valid), versionIn_cons,
    versionIn_nil, absent, Option.or_none]

/-- One level with a table in it is squashed to one table. -/
theorem compactAll_one {level : Level} (split : strategy.levels = [level])
    (some : level.sstables ≠ []) {clock : Nat → UInt64} {stamp : Nat → Nat}
    (done : strategy.compactAll clock stamp = .ok next)
    : next.iterAll.length = 1 := by
  have squashed : strategy.compactLevel 0 (clock 0) (stamp 0) = .ok next := by
    rw [compactAll_eq, split] at done
    obtain ⟨after, squashed, rest⟩ := bind_eq_ok.mp done
    rwa [Except.ok.inj rest] at squashed
  rcases compactLevel_split squashed with ⟨rfl, unchanged⟩
    | ⟨front, other, back, rest, sst, split', count, -, ran, rfl⟩
    | ⟨front, source, target, back, source', target', split', count, -, -, rfl⟩
  · exact absurd (unchanged level (by simp [split])).2 some
  · obtain rfl := List.length_eq_zero_iff.mp count
    rw [split, List.nil_append] at split'
    obtain ⟨rfl, rfl⟩ := List.cons.inj split'
    obtain ⟨rfl, -⟩ := Level.squash_bare ran
    simp [iterAll, Level.iter, Level.append, Level.bare]
  · obtain rfl := List.length_eq_zero_iff.mp count
    rw [split, List.nil_append] at split'
    cases (List.cons.inj split').2

/-- One more table of an empty memtable, and a full compaction: with one level the table is
squashed away, and with more it stays. Nothing reads differently.
-/
theorem compactAll_again {one middle two : Leveled} (made : one.Made)
    (written : ∀ table ∈ one.iterAll, table.Written)
    (settled : ∀ level ∈ one.levels, level.Settled)
    (single : one.levels.length = 1 → one.iterAll.length = 1)
    {settings : BlockSettings} {path : TablePath}
    (added : one.addSstable (SSTable.fromMemtable settings path Memtable.new) = .ok middle)
    {clock : Nat → UInt64} {stamp : Nat → Nat}
    (done : middle.compactAll clock stamp = .ok two)
    : two.iterAll.length = one.iterAll.length + (if one.levels.length = 1 then 0 else 1)
      ∧ ∀ key readMs,
          (∀ i, clock i ≤ readMs)
          → lookupIn key readMs two.iterAll = lookupIn key readMs one.iterAll := by
  have some : one.levels ≠ [] := by
    intro none
    simp [Leveled.addSstable, none] at added
  obtain ⟨front, last, split, terminal, inner⟩ := made.exists_last some
  have held : ∀ table ∈ last.sstables, table.Written := fun table inside =>
    written table (mem_iterAll.mpr ⟨last, by simp [split], inside⟩)
  have few : last.sstables.length ≤ 1 := by
    simpa [Level.Settled, terminal] using settled last (by simp [split])
  have distinct : (∀ table ∈ last.sstables, table.Valid)
      → ((last.iter.flatMap SSTable.records).map Record.key).Nodup := by
    intro valid
    cases shape : last.sstables with
    | nil => simp [Level.iter, shape]
    | cons table rest =>
        obtain rfl : rest = [] := by simpa [shape] using few
        have sorted := (valid table (by simp [shape])).sorted
        simpa [Level.iter, shape, List.Nodup, List.pairwise_map]
          using sorted.imp (fun before => before.ne)
  generalize flushed : SSTable.fromMemtable settings path Memtable.new = sst at added
  cases front with
  | nil =>
      have levels : middle.levels = [] ++ [last.append sst] := by
        rw [List.nil_append] at split
        simp only [Leveled.addSstable, split, Except.ok.injEq] at added
        rw [← added, List.nil_append]
      obtain ⟨tables, after, count, reads⟩ := compactAll_last levels terminal (by simp)
        (by
          intro table member
          rcases List.mem_append.mp member with old | new
          · exact held table old
          · rw [List.mem_singleton.mp new, ← flushed]
            exact .inl (SSTable.valid_fromMemtable settings path storableTable_new))
        (by
          intro valid
          have empty : sst.records = [] := by
            rw [← flushed, SSTable.records_fromMemtable settings path storableTable_new]
            rfl
          simpa [Level.iter, Level.append, empty]
            using distinct (fun table old => valid table (List.mem_append_left _ old)))
        done
      have one_ : one.iterAll.length = 1 := single (by simp [split])
      refine ⟨?_, fun key readMs reached => ?_⟩
      · simp [iterAll, after, Level.iter, count, Level.append, split] at one_ ⊢
        omega
      · have same := reads key readMs (reached _)
        simp only [Level.iter, Level.append, List.reverse_append, List.reverse_singleton,
          List.singleton_append, ← flushed, lookupIn_empty] at same
        simpa [iterAll, after, split, Level.iter] using same
  | cons l0 front =>
      have levels : middle.levels = (l0.append sst :: front) ++ [last] := by
        simp only [Leveled.addSstable, split, List.cons_append, Except.ok.injEq] at added
        rw [← added]
        rfl
      obtain ⟨tables, after, count, reads⟩ := compactAll_last levels terminal
        (by
          intro level member
          rcases List.mem_cons.mp member with rfl | later
          · have nonterminal := inner l0 (by simp)
            have empty : l0.keyRange = none := by
              simpa [Level.Settled, nonterminal] using settled l0 (by simp [split])
            refine ⟨nonterminal, ?_⟩
            rw [Level.Settled, if_neg (by simpa [Level.append] using nonterminal), ← flushed,
              keyRange_append_empty, empty]
          · exact ⟨inner level (by simp [later]), settled level (by simp [split, later])⟩)
        held distinct done
      refine ⟨?_, fun key readMs reached => ?_⟩
      · simp [iterAll, after, Level.iter, count, Level.append, split]
        omega
      · have behind : lookupIn key readMs
              ((l0 :: front).flatMap Level.iter ++ tables.reverse)
            = lookupIn key readMs ((l0 :: front).flatMap Level.iter ++ last.iter) :=
          lookupIn_behind _ (reads key readMs (reached _))
        rw [← lookupIn_empty settings path, flushed] at behind
        simpa [iterAll, after, split, Level.iter, Level.append] using behind

end Leveled

-----------------------------------------------------------------------------------------
-- Compacting twice
-----------------------------------------------------------------------------------------

namespace StorageStrategy

/-- Every table is merged into one: size-tiered storage, or a single level. -/
def isFlat : StorageStrategy → Bool
  | .leveled strategy => strategy.levels.length = 1
  | .sizeTiered _ => true

/-- What a full compaction leaves, if there was a table to compact. -/
def Compacted : StorageStrategy → Prop
  | .leveled strategy =>
      (∀ level ∈ strategy.levels, level.Settled)
      ∧ (strategy.levels.length = 1 → strategy.iterAll.length = 1)
  | .sizeTiered strategy => ∃ sst, strategy.sstables = [[sst]]

variable {strategy next : StorageStrategy} {clock : Nat → UInt64} {stamp : Nat → Nat}

theorem addSstable_isFlat {sst : SSTable} (added : strategy.addSstable sst = .ok next)
    : next.isFlat = strategy.isFlat ∧ next.iterAll ≠ [] := by
  cases strategy with
  | leveled inner =>
      obtain ⟨other, grown, done⟩ := bind_eq_ok.mp added
      obtain rfl := Except.ok.inj done
      have levels : other.levels.length = inner.levels.length := by
        simpa using congrArg List.length (Leveled.addSstable_bare grown).1
      refine ⟨by simp [isFlat, levels], List.ne_nil_of_mem (a := sst) ?_⟩
      unfold Leveled.addSstable at grown
      split at grown
      next l0 rest shape =>
        obtain rfl := Except.ok.inj grown
        simp [StorageStrategy.iterAll, Leveled.iterAll, Level.iter, Level.append]
      next => cases grown
  | sizeTiered inner =>
      obtain rfl := Except.ok.inj added
      refine ⟨rfl, fun empty => ?_⟩
      have member := (SizeTiered.flatten_addSstable inner sst).mem_iff.mpr
        (List.mem_append_right _ (List.mem_singleton_self sst))
      rw [← List.mem_reverse] at member
      exact List.ne_nil_of_mem member empty

theorem compactAll_isFlat (done : strategy.compactAll clock stamp = .ok next)
    : next.isFlat = strategy.isFlat := by
  cases strategy with
  | leveled inner =>
      obtain ⟨other, compacted, done⟩ := bind_eq_ok.mp done
      obtain rfl := Except.ok.inj done
      have levels : other.levels.length = inner.levels.length := by
        simpa using congrArg List.length (Leveled.compactAll_shrinks compacted).bare
      simp [isFlat, levels]
  | sizeTiered inner =>
      obtain ⟨other, compacted, done⟩ := bind_eq_ok.mp done
      obtain rfl := Except.ok.inj done
      rfl

theorem Written.compactAll_compacted (written : strategy.Written)
    (some : strategy.iterAll ≠ []) (done : strategy.compactAll clock stamp = .ok next)
    : next.Compacted := by
  cases strategy with
  | leveled inner =>
      obtain ⟨other, compacted, done⟩ := bind_eq_ok.mp done
      obtain rfl := Except.ok.inj done
      refine ⟨Leveled.compactAll_settles compacted, fun single => ?_⟩
      have levels : inner.levels.length = 1 := by
        rw [← single]
        simpa using congrArg List.length (Leveled.compactAll_shrinks compacted).bare.symm
      obtain ⟨level, split⟩ := List.length_eq_one_iff.mp levels
      refine Leveled.compactAll_one split (fun empty => some ?_) compacted
      simp [StorageStrategy.iterAll, Leveled.iterAll, split, Level.iter, empty]
  | sizeTiered inner =>
      obtain ⟨other, compacted, done⟩ := bind_eq_ok.mp done
      obtain rfl := Except.ok.inj done
      obtain ⟨-, sst, single, -⟩ := SizeTiered.compactAll_reads
        (fun table inside => written.tables table (List.mem_reverse.mpr inside)) compacted
      exact ⟨sst, single⟩

/-- Compacting once more, with one more table of an empty memtable. -/
theorem Written.compactAll_again {one middle two : StorageStrategy} (written : one.Written)
    (compacted : one.Compacted) {settings : BlockSettings} {path : TablePath}
    (added : one.addSstable (SSTable.fromMemtable settings path Memtable.new) = .ok middle)
    (done : middle.compactAll clock stamp = .ok two)
    : two.segmentCount = one.segmentCount + (if one.isFlat then 0 else 1)
      ∧ ∀ key readMs,
          (∀ i, clock i ≤ readMs)
          → lookupIn key readMs two.iterAll = lookupIn key readMs one.iterAll := by
  cases one with
  | leveled inner =>
      obtain ⟨other, grown, same⟩ := bind_eq_ok.mp added
      obtain rfl := Except.ok.inj same
      obtain ⟨last, merged, same⟩ := bind_eq_ok.mp done
      obtain rfl := Except.ok.inj same
      have again := Leveled.compactAll_again (written.made inner rfl) written.tables
        compacted.1 compacted.2 grown merged
      simpa [segmentCount, isFlat, StorageStrategy.iterAll] using again
  | sizeTiered inner =>
      obtain rfl := Except.ok.inj added
      obtain ⟨last, merged, same⟩ := bind_eq_ok.mp done
      obtain rfl := Except.ok.inj same
      obtain ⟨sst, single⟩ := compacted
      have grown := written.addSstable
        (written_fromMemtable settings path LsmEngine.addressable_new) added
      obtain ⟨reads, new, result, -⟩ := SizeTiered.compactAll_reads
        (fun table inside => grown.tables table (List.mem_reverse.mpr inside)) merged
      refine ⟨by simp [segmentCount, isFlat, StorageStrategy.iterAll, SizeTiered.iterAll,
        single, result], fun key readMs reached => (reads key readMs (reached 0)).trans ?_⟩
      obtain ⟨front, before, after⟩ := SizeTiered.addSstable_split inner
        (SSTable.fromMemtable settings path Memtable.new)
      change lookupIn key readMs (SizeTiered.iterAll _)
        = lookupIn key readMs (SizeTiered.iterAll inner)
      rw [SizeTiered.iterAll, SizeTiered.iterAll, after, before, List.reverse_append,
        List.reverse_append, List.reverse_cons, List.append_assoc, List.singleton_append]
      exact lookupIn_behind _ (Leveled.lookupIn_empty _ _ _ _ _)

end StorageStrategy

namespace LsmEngine

def segmentCount (engine : LsmEngine) : Nat :=
  engine.strategy.segmentCount

/-- A compaction empties the memtables and compacts all tables. -/
theorem compact_inv {engine next : LsmEngine} {clock : Nat → UInt64} {stamp : Nat → Nat}
    (done : engine.compact clock stamp = .ok next)
    : ∃ flushed sst strategy,
        engine.finishFlush (stamp 0) = .ok flushed
        ∧ flushed.flushTable flushed.active (stamp 1) = .ok sst
        ∧ flushed.strategy.addSstable sst = .ok strategy
        ∧ strategy.compactAll clock (fun i => stamp (i + 2)) = .ok next.strategy
        ∧ next.active = Memtable.new
        ∧ next.immutable = none := by
  obtain ⟨flushed, finished, done⟩ := bind_eq_ok.mp done
  obtain ⟨installed, installs, done⟩ := bind_eq_ok.mp done
  obtain ⟨compacted, merged, done⟩ := bind_eq_ok.mp done
  obtain rfl := Except.ok.inj done
  obtain ⟨sst, written, installs⟩ := bind_eq_ok.mp installs
  obtain ⟨strategy, added, installs⟩ := bind_eq_ok.mp installs
  obtain rfl := Except.ok.inj installs
  exact ⟨flushed, sst, strategy, finished, written, added, merged, rfl, rfl⟩

theorem finishFlush_isFlat {engine next : LsmEngine} {timestamp : Nat}
    (done : engine.finishFlush timestamp = .ok next)
    : next.strategy.isFlat = engine.strategy.isFlat := by
  unfold LsmEngine.finishFlush at done
  split at done
  · obtain ⟨sst, -, done⟩ := bind_eq_ok.mp done
    obtain ⟨strategy, added, done⟩ := bind_eq_ok.mp done
    obtain rfl := Except.ok.inj done
    exact (StorageStrategy.addSstable_isFlat added).1
  · obtain rfl := Except.ok.inj done
    rfl

/-- With empty memtables a get reads the tables. -/
theorem get_of_empty {engine : LsmEngine} (active : engine.active = Memtable.new)
    (immutable : engine.immutable = none) (key : String) (clock : Nat → UInt64)
    : engine.get key clock
      = (lookupIn key (clock 1) engine.strategy.iterAll).map
          (fun found => found.map (fun value => (key, value))) := by
  unfold LsmEngine.get LsmEngine.find Lsm.lookup
  rw [active, immutable, Memtable.entry_new]
  rfl

/-- The second engine has as many tables as the first, and gets every key alike once the
readings of `clock` have passed.
-/
def StoresAlike (clock : Nat → UInt64) (first second : LsmEngine) : Prop :=
  second.segmentCount = first.segmentCount
  ∧ ∀ key getClock,
      (∀ i j, clock i ≤ getClock j) → second.get key getClock = first.get key getClock

/-- Compacting a second time changes nothing exactly if the strategy merges all tables into
one. Otherwise the empty table of the second flush stays behind, and nothing else changes.
-/
theorem compact_idempotent_iff {start engine one two : LsmEngine} (sane : start.Written)
    {writes : Writes} {since : UInt64}
    (reached : Runs (fun _ event => event.call.addressable) start engine writes since)
    {clock later : Nat → UInt64} {stamp restamp : Nat → Nat}
    (first : engine.compact clock stamp = .ok one)
    (second : one.compact later restamp = .ok two)
    : (StoresAlike later one two ↔ engine.strategy.isFlat = true)
      ∧ two.segmentCount = one.segmentCount + (if engine.strategy.isFlat then 0 else 1)
      ∧ ∀ key getClock,
          (∀ i j, later i ≤ getClock j) → two.get key getClock = one.get key getClock := by
  have written := written_of_runs sane (fun _ _ => id) reached
  have writtenOne := written.compact first
  obtain ⟨flushed, sst, strategy, finished, flushes, added, merged, active, immutable⟩ :=
    compact_inv first
  obtain ⟨again, empty, grown, same, flushesAgain, addedAgain, mergedAgain, activeTwo,
    immutableTwo⟩ := compact_inv second
  have flat : one.strategy.isFlat = engine.strategy.isFlat := by
    rw [StorageStrategy.compactAll_isFlat merged,
      (StorageStrategy.addSstable_isFlat added).1, finishFlush_isFlat finished]
  have compacted : one.strategy.Compacted := by
    obtain ⟨-, rfl⟩ := flushTable_eq_ok.mp flushes
    have before := written.finishFlush finished
    have grown := before.strategy.addSstable (written_fromMemtable _ _ before.active) added
    exact grown.compactAll_compacted (StorageStrategy.addSstable_isFlat added).2 merged
  obtain rfl : again = one := by
    rw [LsmEngine.finishFlush, immutable] at same
    exact (Except.ok.inj same).symm
  obtain ⟨-, rfl⟩ := flushTable_eq_ok.mp flushesAgain
  rw [active] at addedAgain
  obtain ⟨count, reads⟩ := writtenOne.strategy.compactAll_again compacted addedAgain
    mergedAgain
  rw [flat] at count
  have gets : ∀ key getClock, (∀ i j, later i ≤ getClock j)
      → two.get key getClock = again.get key getClock := by
    intro key getClock reached
    rw [get_of_empty activeTwo immutableTwo, get_of_empty active immutable,
      reads key (getClock 1) (fun i => reached i 1)]
  have total : two.segmentCount
      = again.segmentCount + (if engine.strategy.isFlat then 0 else 1) := count
  refine ⟨⟨fun alike => ?_, fun flat => ⟨by simp [total, flat], gets⟩⟩, total, gets⟩
  by_contra deep
  have more := alike.1
  rw [total, if_neg deep] at more
  omega

/-- An engine over so many levels. -/
def leveledEngine (numLevels : Nat) : LsmEngine :=
  LsmEngine.new 100 (.leveled (Leveled.new numLevels 4 1000 smallBlocks)) smallBlocks

/-- One write, compacted twice. -/
def writtenCompactedTwice (numLevels : Nat) : Option (LsmEngine × LsmEngine × LsmEngine) := do
  let (engine, _) ← run (fun _ event => event.call.addressable)
    (script [(.set "k" "v", 10, 0)]) (leveledEngine numLevels) Writes.none
  let one ← (engine.compact (fun _ => 20) (fun i => i + 1)).toOption
  let two ← (one.compact (fun _ => 30) (fun i => i + 10)).toOption
  return (engine, one, two)

theorem ran_writtenCompactedTwice {numLevels : Nat} {engine one two : LsmEngine}
    (ran : writtenCompactedTwice numLevels = some (engine, one, two))
    : (∃ writes since,
        Runs (fun _ event => event.call.addressable) (leveledEngine numLevels) engine writes
          since)
      ∧ engine.compact (fun _ => 20) (fun i => i + 1) = .ok one
      ∧ one.compact (fun _ => 30) (fun i => i + 10) = .ok two := by
  have timely : TimelyFrom 0 (script [(.set "k" "v", 10, 0)]) := timelyFrom_script (by decide)
  simp only [writtenCompactedTwice, Option.bind_eq_bind, Option.bind_eq_some_iff,
    toOption_eq_some] at ran
  obtain ⟨⟨engine, writes⟩, ran, one, first, two, second, same⟩ := ran
  obtain ⟨rfl, rfl, rfl⟩ := Option.some.inj same
  exact ⟨⟨writes, _, Runs.start.run timely ran⟩, first, second⟩

/-- Witness: a single level. -/
theorem compact_idempotent_iff_single_level
    : ∃ engine one two,
        writtenCompactedTwice 1 = some (engine, one, two)
        ∧ StoresAlike (fun _ => 30) one two
        ∧ two.get "k" (fun _ => 40) = .ok (some ("k", "v")) := by
  have computed : (writtenCompactedTwice 1).any
      (fun states =>
        states.1.strategy.isFlat
        && (states.2.2.get "k" (fun _ => 40)).toOption = some (some ("k", "v"))) = true := by
    decide +kernel
  simp only [Option.any_eq_true, Bool.and_eq_true, toOption_eq_some, decide_eq_true_eq]
    at computed
  obtain ⟨⟨engine, one, two⟩, ran, flat, found⟩ := computed
  obtain ⟨⟨writes, since, reached⟩, first, second⟩ := ran_writtenCompactedTwice ran
  have alike := compact_idempotent_iff (written_new (.leveled _ _ _ _) _ _) reached first
    second
  exact ⟨engine, one, two, ran, alike.1.mpr flat, found⟩

/-- Counterexample: with two levels the second compaction leaves one more table. -/
theorem compact_adds_empty_table
    : ∃ engine one two writes since,
        Runs (fun _ event => event.call.addressable) (leveledEngine 2) engine writes since
        ∧ engine.compact (fun _ => 20) (fun i => i + 1) = .ok one
        ∧ one.compact (fun _ => 30) (fun i => i + 10) = .ok two
        ∧ one.segmentCount = 1
        ∧ two.segmentCount = 2
        ∧ ¬ StoresAlike (fun _ => 30) one two := by
  have computed : (writtenCompactedTwice 2).any
      (fun states => states.2.1.segmentCount = 1 && states.2.2.segmentCount = 2) = true := by
    decide +kernel
  simp only [Option.any_eq_true, Bool.and_eq_true, decide_eq_true_eq] at computed
  obtain ⟨⟨engine, one, two⟩, ran, once, twice⟩ := computed
  obtain ⟨⟨writes, since, reached⟩, first, second⟩ := ran_writtenCompactedTwice ran
  refine ⟨engine, one, two, writes, since, reached, first, second, once, twice,
    fun alike => ?_⟩
  have count := alike.1
  rw [once, twice] at count
  cases count

end LsmEngine

end Rustikv.Lsm

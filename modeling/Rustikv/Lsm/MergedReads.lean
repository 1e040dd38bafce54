import Rustikv.Lsm.FewerLevels
import Rustikv.Lsm.TieredCrash

/-! What lookups read after one compaction of any strategy, whatever led to it. The tables a
merge leaves alone may be unreadable; if one that it reads is, it fails.
-/

namespace Rustikv.Lsm

open Library

-----------------------------------------------------------------------------------------
-- Lookups in tables that may be unreadable
-----------------------------------------------------------------------------------------

/-- What every table is, since it was written from a memtable: valid, or unreadable because
of a record over the limits.
-/
def SSTable.Written (table : SSTable) : Prop :=
  table.Valid ∨ table.Unreadable

/-- A lookup in tables that are listed newest first. -/
def lookupIn (key : String) (nowMs : UInt64) (tables : List SSTable)
    : Except IoError (Option String) :=
  lookupTables key nowMs (tables.filter (fun sst => sst.bloom.mightContain key))

/-- The same tables in front shadow the same part of what follows. -/
theorem lookupIn_behind {key : String} {nowMs : UInt64} (front : List SSTable)
    {tables others : List SSTable}
    (same : lookupIn key nowMs tables = lookupIn key nowMs others)
    : lookupIn key nowMs (front ++ tables) = lookupIn key nowMs (front ++ others) := by
  induction front with
  | nil => exact same
  | cons table rest ih =>
      unfold lookupIn at ih ⊢
      rw [List.cons_append, List.cons_append, List.filter_cons, List.filter_cons]
      split
      · rw [lookupTables, lookupTables, ih]
      · exact ih

/-- Valid tables answer with their first version of the key, if they have one. -/
theorem lookupIn_append {key : String} {nowMs : UInt64} {front : List SSTable}
    (valid : ∀ table ∈ front, table.Valid) (tables : List SSTable)
    : lookupIn key nowMs (front ++ tables)
      = match versionIn front key with
        | some entry => .ok (entry.read nowMs)
        | none => lookupIn key nowMs tables := by
  induction front with
  | nil => rfl
  | cons table rest ih =>
      have later := ih (fun other member => valid other (List.mem_cons_of_mem _ member))
      have search := (valid table (by simp)).get key nowMs
      unfold lookupIn at later ⊢
      rw [List.cons_append, versionIn_cons]
      by_cases maybe : table.bloom.mightContain key = true
      · rw [List.filter_cons_of_pos (by simpa using maybe), lookupTables, search]
        cases found : table.version key with
        | none => simpa using later
        | some entry => rfl
      · have absent : table.version key = none := by
          rw [SSTable.version_eq_none]
          rintro record member rfl
          exact maybe ((valid table (by simp)).mightContain member)
        rw [List.filter_cons_of_neg (by simpa using maybe), later, absent, Option.none_or]

/-- A merge that succeeds has read valid tables only. -/
theorem valid_of_mergeTables {dropDead : Bool} {nowMs : UInt64} {tables : List SSTable}
    {memtable merged : Memtable}
    (done : mergeTables dropDead nowMs tables memtable = .ok merged)
    (written : ∀ table ∈ tables, table.Written)
    : ∀ table ∈ tables, table.Valid :=
  fun table member =>
    (written table member).resolve_right (readable_of_mergeTables done member)

-----------------------------------------------------------------------------------------
-- Merging a level into the next
-----------------------------------------------------------------------------------------

namespace Leveled

/-- Only a merge of readable tables changes the levels. -/
theorem mergeLevels_readable {settings : BlockSettings} {files : List TablePath}
    {source target source' target' : Level} {nowMs : UInt64} {timestamp : Nat}
    (written : ∀ table ∈ source.sstables, table.Written)
    (done : mergeLevels settings files source target nowMs timestamp = .ok (source', target'))
    : (source' = source ∧ target' = target) ∨ ∀ table ∈ source.sstables, table.Valid := by
  unfold mergeLevels at done
  cases range : source.keyRange with
  | none =>
      simp only [range, Except.ok.injEq, Prod.mk.injEq] at done
      exact .inl ⟨done.1.symm, done.2.symm⟩
  | some bounds =>
      simp only [range] at done
      obtain ⟨memtable, merged, -⟩ := bind_eq_ok.mp done
      have valid := valid_of_mergeTables merged
        (fun table member => written table (List.mem_reverse.mp member))
      exact .inr (fun table member => valid table (List.mem_reverse.mpr member))

/-- The tables of two levels read alike before and after one is merged into the other, with
the tables of deeper levels behind them.
-/
theorem lookupIn_merge (settings : BlockSettings) (path : TablePath) {source target : Level}
    (validSource : ∀ table ∈ source.sstables, table.Valid)
    (validTarget : ∀ table ∈ target.sstables, table.Valid)
    (apart : target.sstables.Pairwise SSTable.Apart) (inner : target.isTerminal = false)
    {start end_ : String} (range : source.keyRange = some (start, end_))
    {deeper : List SSTable} (validDeeper : ∀ table ∈ deeper, table.Valid) (key : String)
    {mergeMs nowMs : UInt64} (reached : mergeMs ≤ nowMs)
    : lookupIn key nowMs
        ((target.untouched start end_
          ++ [mergedTable settings path target.isTerminal mergeMs
            (source.mergeInput target start end_)]).reverse
          ++ deeper)
      = lookupIn key nowMs (source.iter ++ (target.iter ++ deeper)) := by
  have validMerged : (mergedTable settings path target.isTerminal mergeMs
      (source.mergeInput target start end_)).Valid :=
    valid_mergedTable _ _ _ _ (valid_mergeInput start end_ validSource validTarget)
  have validAfter : ∀ table ∈ (target.untouched start end_
      ++ [mergedTable settings path target.isTerminal mergeMs
        (source.mergeInput target start end_)]).reverse ++ deeper, table.Valid := by
    intro table member
    simp only [List.mem_append, List.mem_reverse, List.mem_singleton] at member
    rcases member with (left | rfl) | deep
    · exact validTarget table (List.mem_of_mem_filter left)
    · exact validMerged
    · exact validDeeper table deep
  have validBefore : ∀ table ∈ source.iter ++ (target.iter ++ deeper), table.Valid := by
    intro table member
    simp only [List.mem_append, Level.iter, List.mem_reverse] at member
    rcases member with inSource | inTarget | deep
    · exact validSource table inSource
    · exact validTarget table inTarget
    · exact validDeeper table deep
  have stands := merge_standsFor settings path mergeMs validSource validTarget apart range
    (fun terminal => by simp [inner] at terminal) key
    (fun terminal => by simp [inner] at terminal : target.isTerminal = true
      → versionIn deeper key = none)
  rw [← versionIn_append, ← versionIn_append, ← versionIn_append] at stands
  calc lookupIn key nowMs _
      = .ok (readAt (versionIn _ key) nowMs) := lookupTables_filter validAfter key nowMs
    _ = .ok (readAt (versionIn _ key) nowMs) := congrArg Except.ok (stands.read reached)
    _ = lookupIn key nowMs _ := (lookupTables_filter validBefore key nowMs).symm

/-- Where a level above the last is merged into, every key reads as before, from the time of
the merge on.
-/
theorem merge_preserves_reads {strategy next : Leveled} (layered : strategy.Layered)
    (written : ∀ l0 ∈ strategy.levels.head?, ∀ table ∈ l0.sstables, table.Written)
    {i : Nat} (inner : i + 2 < strategy.levels.length) {mergeMs : UInt64} {timestamp : Nat}
    (done : strategy.compactLevels i (i + 1) mergeMs timestamp = .ok next)
    (key : String) {nowMs : UInt64} (reached : mergeMs ≤ nowMs)
    : next.lookup key nowMs = strategy.lookup key nowMs := by
  obtain ⟨front, rest, split, rfl⟩ :=
    exists_split (List.getElem?_eq_getElem (by omega : i < strategy.levels.length))
  generalize strategy.levels[front.length] = source at split
  obtain ⟨target, back, rfl⟩ : ∃ target back, rest = target :: back := by
    refine List.exists_cons_of_ne_nil (fun empty => ?_)
    simp [split, empty] at inner
  obtain ⟨source', target', merged, rfl⟩ := compactLevels_next split done
  have below : ∀ level ∈ target :: back, level ∈ strategy.levels.tail := by
    intro level member
    cases front <;> simp_all
  have inSource : ∀ table ∈ source.sstables, table.Written := by
    cases front with
    | nil => exact written source (by simp [split])
    | cons first more =>
        exact fun table member => .inl (layered.valid source (by simp [split]) table member)
  rcases mergeLevels_readable inSource merged with ⟨rfl, rfl⟩ | validSource
  · rw [← split]
  · have validTarget := layered.valid target (below target (by simp))
    have apart := layered.apart target (below target (by simp))
    have inside : target.isTerminal = false := by
      have last := layered.terminal (front ++ [source]) target back (by simp [split])
      refine Bool.eq_false_iff.mpr (fun terminal => ?_)
      simp [split, last.mp terminal] at inner
    rcases mergeLevels_cases validSource validTarget merged with
      ⟨-, rfl, rfl⟩ | ⟨start, end_, range, -, rfl, rfl⟩
    · rw [← split]
    · have distinct := layered.nodup_level (List.mem_of_mem_tail (below target (by simp)))
      have kept : target.sstables.filter
            (fun sst =>
              !((target.overlappingFiles start end_).map SSTable.path).contains sst.path)
          = target.untouched start end_ :=
        filter_paths_eq distinct (fun sst => sst.overlaps start end_)
      have validBack : ∀ table ∈ back.flatMap Level.iter, table.Valid := by
        intro table member
        obtain ⟨level, among, held⟩ := List.mem_flatMap.mp member
        exact layered.valid level (below level (List.mem_cons_of_mem _ among)) table
          (List.mem_reverse.mp held)
      have before : strategy.iterAll
          = front.flatMap Level.iter
            ++ (source.iter ++ (target.iter ++ back.flatMap Level.iter)) := by
        simp [iterAll, split]
      change lookupIn key nowMs (iterAll _) = lookupIn key nowMs strategy.iterAll
      rw [before, iterAll, kept, List.flatMap_append]
      exact lookupIn_behind _
        (lookupIn_merge _ _ validSource validTarget apart inside range validBack key reached)

/-- A value that is moved to the last level, and then deleted. -/
def movedThenDeleted : List Step :=
  [
    .flush smallBlocks (oneEntry "k" "v") 1,
    .compactIfNeeded 0 2,
    .compactIfNeeded 0 3,
    .flush smallBlocks (Memtable.new.remove "k") 4
  ]

/-- Witness: the tombstone is merged into level 1 and still hides the value in level 2. -/
theorem merge_preserves_reads_tombstone
    : ∃ strategy next,
        Reachable "db" 3 strategy
        ∧ strategy.compactLevels 0 1 0 5 = .ok next
        ∧ next.lookup "k" 10 = strategy.lookup "k" 10
        ∧ next.lookup "k" 10 = .ok none
        ∧ next.levels.map (fun level => level.sstables.length) = [0, 1, 1] := by
  have computed : (performAll movedThenDeleted
      (Leveled.new 3 1 1 smallBlocks)).toOption.any
      (fun strategy =>
        (strategy.compactLevels 0 1 0 5).toOption.any
          (fun next =>
            (next.lookup "k" 10).toOption = some none
            && next.levels.map (fun level => level.sstables.length) = [0, 1, 1]))
      = true := by
    decide +kernel
  simp only [Option.any_eq_true, toOption_eq_some, Bool.and_eq_true, decide_eq_true_eq]
    at computed
  obtain ⟨strategy, ran, next, done, absent, shape⟩ := computed
  have storable : ∀ step ∈ movedThenDeleted, step.Flushes StorableTable := by
    simp only [movedThenDeleted, List.mem_cons, List.not_mem_nil, or_false,
      forall_eq_or_imp, forall_eq, Step.Flushes, true_and]
    exact ⟨storableTable_new.insert (by decide) _, storableTable_new.remove (by decide)⟩
  have reached : Reachable "db" 3 strategy :=
    (Reachable.new 1 1 smallBlocks).performAll storable ran
  have tidy := reached.tidy
  refine ⟨strategy, next, reached, done, ?_, absent, shape⟩
  exact merge_preserves_reads tidy.layered
    (fun l0 first => tidy.tables l0 (List.mem_of_mem_head? first))
    (by rw [tidy.count]; decide) done "k" (by decide)

end Leveled

-----------------------------------------------------------------------------------------
-- Merging a bucket
-----------------------------------------------------------------------------------------

/-- What a merge that keeps tombstones leaves of an entry. -/
def survivor (nowMs : UInt64) (entry : MemtableEntry) : MemtableEntry :=
  if (entry.read nowMs).isNone then { value := none, expiryMs := none } else entry

theorem read_survivor {mergeMs nowMs : UInt64} (reached : mergeMs ≤ nowMs)
    (entry : MemtableEntry)
    : (survivor mergeMs entry).read nowMs = entry.read nowMs := by
  unfold survivor
  split
  next dead =>
    rw [read_tombstone, MemtableEntry.read_mono reached (Option.isNone_iff_eq_none.mp dead)]
  next => rfl

/-- A merge that keeps tombstones keeps of each key the first version it reads. -/
theorem version_mergedTable_survivor (settings : BlockSettings) (path : TablePath)
    (mergeMs : UInt64) {tables : List SSTable} (valid : ∀ table ∈ tables, table.Valid)
    (key : String)
    : (mergedTable settings path false mergeMs (tables.flatMap SSTable.records)).version key
      = (versionIn tables key).map (survivor mergeMs) := by
  rw [version_mergedTable _ _ _ _ (valid_flatMap_records valid) (by simp),
    versionIn_eq_earliest]
  cases earliest Record.key (tables.flatMap SSTable.records) key with
  | none => rfl
  | some record =>
      rw [Option.bind_some, Option.map_some, Option.map_some, mergedEntry, survivor, isDead_eq]
      split <;> rfl

namespace SizeTiered

/-- The merge of a bucket has put in its place one table that holds of each key the version
of the most recently added table, and no lookup reads otherwise than before.
-/
def MergesNewest (strategy next : SizeTiered) (mergeMs : UInt64) : Prop :=
  ∃ front bucket back sst,
    strategy.sstables.findIdx? strategy.isFull = some front.length
    ∧ strategy.sstables = front ++ bucket :: back
    ∧ next.sstables = front ++ [sst] :: back
    ∧ (∀ key, sst.version key = (versionIn bucket.reverse key).map (survivor mergeMs))
    ∧ ∀ key nowMs, mergeMs ≤ nowMs → next.lookup key nowMs = strategy.lookup key nowMs

/-- In the bucket that is merged, the oldest and the newest table with a key hold the same
version of it, or dead ones.
-/
def BucketAgrees (strategy : SizeTiered) (mergeMs : UInt64) : Prop :=
  ∀ i ∈ strategy.sstables.findIdx? strategy.isFull,
    ∀ key,
      (versionIn (strategy.sstables.getD i []) key).map (survivor mergeMs)
      = (versionIn (strategy.sstables.getD i []).reverse key).map (survivor mergeMs)

variable {strategy next : SizeTiered} {mergeMs : UInt64} {timestamp : Nat}

/-- A bucket whose merge succeeds can be read. -/
theorem readable_of_compactIfNeeded
    (written : ∀ table ∈ strategy.sstables.flatten, table.Written) {ran : Bool}
    (done : strategy.compactIfNeeded mergeMs timestamp = .ok (ran, next)) (i : Nat)
    (full : strategy.sstables.findIdx? strategy.isFull = some i)
    : ∀ table ∈ strategy.sstables.getD i [], table.Valid := by
  unfold SizeTiered.compactIfNeeded at done
  simp only at done
  split at done
  next j found =>
    obtain rfl : j = i := Option.some.inj (found.symm.trans full)
    obtain ⟨memtable, merged, -⟩ := bind_eq_ok.mp done
    refine valid_of_mergeTables merged (fun table member => written table ?_)
    obtain ⟨inside, -⟩ := List.findIdx?_eq_some_iff_getElem.mp full
    rw [List.getD_eq_getElem?_getD, List.getElem?_eq_getElem inside, Option.getD_some]
      at member
    exact List.mem_flatten.mpr ⟨_, List.getElem_mem inside, member⟩
  next absent => cases absent.symm.trans full

/-- A bucket that is replaced by its newest versions reads alike, whatever the tables around
it are.
-/
theorem lookup_replaced {front back : List (List SSTable)} {bucket : List SSTable}
    {sst : SSTable} (before : strategy.sstables = front ++ bucket :: back)
    (after : next.sstables = front ++ [sst] :: back)
    (valid : ∀ table ∈ bucket, table.Valid) (validNew : sst.Valid) {key : String}
    (newest : sst.version key = (versionIn bucket.reverse key).map (survivor mergeMs))
    {nowMs : UInt64} (reached : mergeMs ≤ nowMs)
    : next.lookup key nowMs = strategy.lookup key nowMs := by
  have order : strategy.iterAll
      = back.flatten.reverse ++ (bucket.reverse ++ front.flatten.reverse) := by
    simp [iterAll, before]
  have nextOrder : next.iterAll = back.flatten.reverse ++ ([sst] ++ front.flatten.reverse) := by
    simp [iterAll, after]
  change lookupIn key nowMs next.iterAll = lookupIn key nowMs strategy.iterAll
  rw [order, nextOrder]
  refine lookupIn_behind _ ?_
  rw [lookupIn_append (fun table member => valid table (List.mem_reverse.mp member)),
    lookupIn_append (by simpa using validNew), versionIn_cons, versionIn_nil, Option.or_none,
    newest]
  cases versionIn bucket.reverse key with
  | none => rfl
  | some entry => exact congrArg Except.ok (read_survivor reached entry)

/-- A merge of a bucket keeps the newest versions exactly if the oldest ones are the same up
to dead versions.
-/
theorem partial_merge_keeps_newest_iff
    (written : ∀ table ∈ strategy.sstables.flatten, table.Written)
    (done : strategy.compactIfNeeded mergeMs timestamp = .ok (true, next))
    : strategy.MergesNewest next mergeMs ↔ strategy.BucketAgrees mergeMs := by
  have readable := readable_of_compactIfNeeded written done
  rcases compactIfNeeded_cases readable done with
    ⟨-, idle, -⟩ | ⟨front, bucket, back, split, full, -, -, rfl⟩
  · cases idle
  · have chosen : strategy.sstables.getD front.length [] = bucket := by simp [split]
    have valid : ∀ table ∈ bucket, table.Valid := chosen ▸ readable _ full
    have oldest := version_mergedTable_survivor strategy.settings
      { level := none, timestamp } mergeMs valid
    constructor
    · rintro ⟨front', bucket', back', sst, full', split', after, newest, -⟩ i found key
      obtain rfl : front.length = i := Option.some.inj (full.symm.trans found)
      have count : front.length = front'.length := Option.some.inj (full.symm.trans full')
      obtain ⟨rfl, rest⟩ := List.append_inj (split.symm.trans split') count
      obtain ⟨rfl, rfl⟩ := List.cons.inj rest
      have new := List.append_cancel_left after
      obtain rfl := List.singleton_injective (List.cons.inj new).1
      rw [chosen, ← oldest, newest]
    · intro agrees
      have newest : ∀ key, (mergedTable strategy.settings { level := none, timestamp } false
          mergeMs (bucket.flatMap SSTable.records)).version key
          = (versionIn bucket.reverse key).map (survivor mergeMs) := by
        intro key
        have same := agrees front.length full key
        rw [chosen] at same
        rw [oldest, same]
      exact ⟨front, bucket, back, _, full, split, rfl, newest,
        fun key nowMs reached => lookup_replaced split rfl valid
          (valid_mergedTable _ _ _ _ (valid_flatMap_records valid)) (newest key) reached⟩

/-- Two tables of one size, which share a bucket. -/
def twoTables (first second : Memtable) : SizeTiered :=
  [flushed 1 first, flushed 2 second].foldl addSstable (SizeTiered.new 2 4 smallBlocks)

theorem written_twoTables {first second : Memtable} (storable : StorableTable first)
    (storableSecond : StorableTable second)
    : ∀ table ∈ (twoTables first second).sstables.flatten, table.Written := by
  intro table member
  rcases List.mem_append.mp ((flatten_addSstable _ _).mem_iff.mp member) with old | new
  · rcases List.mem_append.mp ((flatten_addSstable _ _).mem_iff.mp old) with none | first
    · simp [SizeTiered.new] at none
    · rw [List.mem_singleton.mp first]
      exact .inl (SSTable.valid_fromMemtable _ _ storable)
  · rw [List.mem_singleton.mp new]
    exact .inl (SSTable.valid_fromMemtable _ _ storableSecond)

/-- Witness: two tables of a bucket without a common key. -/
theorem partial_merge_keeps_newest_apart
    : ∃ next,
        (twoTables (Leveled.oneEntry "k" "v") (Leveled.oneEntry "l" "w")).compactIfNeeded 0 3
          = .ok (true, next)
        ∧ ((twoTables (Leveled.oneEntry "k" "v") (Leveled.oneEntry "l" "w")).MergesNewest
            next 0
          ↔ (twoTables (Leveled.oneEntry "k" "v") (Leveled.oneEntry "l" "w")).BucketAgrees
            0)
        ∧ next.lookup "k" 10 = .ok (some "v") := by
  have computed : ((twoTables (Leveled.oneEntry "k" "v")
      (Leveled.oneEntry "l" "w")).compactIfNeeded 0 3).toOption.any
      (fun result => result.1 && (result.2.lookup "k" 10).toOption = some (some "v"))
      = true := by
    decide +kernel
  simp only [Option.any_eq_true, toOption_eq_some, Bool.and_eq_true, decide_eq_true_eq]
    at computed
  obtain ⟨⟨ran, next⟩, done, rfl, found⟩ := computed
  exact ⟨next, done, partial_merge_keeps_newest_iff
    (written_twoTables (storableTable_new.insert (by decide) _)
      (storableTable_new.insert (by decide) _)) done, found⟩

/-- Counterexample: the merge of a bucket brings an overwritten value back. -/
theorem partial_merge_restores_overwritten_value
    : ∃ next,
        (twoTables (Leveled.oneEntry "k" "u") (Leveled.oneEntry "k" "v")).compactIfNeeded 0 3
          = .ok (true, next)
        ∧ (twoTables (Leveled.oneEntry "k" "u") (Leveled.oneEntry "k" "v")).lookup "k" 10
          = .ok (some "v")
        ∧ next.lookup "k" 10 = .ok (some "u")
        ∧ next.sstables.flatten.map (fun sst => sst.version "k")
          = [some { value := some "u", expiryMs := none }] := by
  have computed : ((twoTables (Leveled.oneEntry "k" "u")
      (Leveled.oneEntry "k" "v")).compactIfNeeded 0 3).toOption.any
      (fun result =>
        result.1
        && ((twoTables (Leveled.oneEntry "k" "u") (Leveled.oneEntry "k" "v")).lookup "k"
            10).toOption
          = some (some "v")
        && (result.2.lookup "k" 10).toOption = some (some "u")
        && result.2.sstables.flatten.map (fun sst => sst.version "k")
          = [some { value := some "u", expiryMs := none }])
      = true := by
    decide +kernel
  simp only [Option.any_eq_true, toOption_eq_some, Bool.and_eq_true, decide_eq_true_eq]
    at computed
  obtain ⟨⟨ran, next⟩, done, ⟨⟨rfl, before⟩, after⟩, versions⟩ := computed
  exact ⟨next, done, before, after, versions⟩

-----------------------------------------------------------------------------------------
-- Merging everything
-----------------------------------------------------------------------------------------

/-- A table without tombstones and expired values is what a full compaction leaves. -/
theorem alive_of_compactAll {records : List Record}
    (valid : ∀ record ∈ records, Record.codec.Valid record) (settings : BlockSettings)
    (path : TablePath) {record : Record}
    (member
      : record ∈ (SSTable.fromMemtable settings path
          (records.foldl (mergeRecord false mergeMs) Memtable.new).dropTombstones).records)
    : isDead record mergeMs = false := by
  have storable := (storableTable_merge false mergeMs valid
    storableTable_new).dropTombstones
  rw [SSTable.records_fromMemtable _ _ storable] at member
  obtain ⟨key, entry, kept, rfl⟩ := mem_memtableRecords.mp member
  rw [isDead_eq, entry_sealed_tableRecord (storable key entry kept)]
  rw [entry_merge_dropTombstones, Option.bind_eq_some_iff] at kept
  obtain ⟨first, -, alive⟩ := kept
  unfold mergedEntry at alive
  split at alive
  next => cases alive
  next live =>
    obtain rfl := Option.some.inj alive
    rwa [Bool.not_eq_true, isDead_eq] at live

/-- A full compaction that succeeds leaves one table, in which all records are alive, and
every key reads as before from then on.
-/
theorem compactAll_reads (written : ∀ table ∈ strategy.sstables.flatten, table.Written)
    {compactMs : UInt64} (done : strategy.compactAll compactMs timestamp = .ok next)
    : (∀ key nowMs, compactMs ≤ nowMs → next.lookup key nowMs = strategy.lookup key nowMs)
      ∧ ∃ sst,
          next.sstables = [[sst]]
          ∧ sst.Valid
          ∧ ∀ record ∈ sst.records, isDead record compactMs = false := by
  have valid : ∀ table ∈ strategy.iterAll, table.Valid := by
    unfold SizeTiered.compactAll at done
    obtain ⟨memtable, merged, -⟩ := bind_eq_ok.mp done
    exact valid_of_mergeTables merged
      (fun table member => written table (List.mem_reverse.mp member))
  have records := valid_flatMap_records valid
  have storable := (storableTable_merge false compactMs records
    storableTable_new).dropTombstones
  rw [compactAll_eq valid] at done
  obtain rfl := Except.ok.inj done
  have validNew := SSTable.valid_fromMemtable strategy.settings
    { level := none, timestamp } storable
  refine ⟨fun key nowMs reached => ?_, _, rfl, validNew,
    fun record member => alive_of_compactAll records _ _ member⟩
  have stands : StandsFor compactMs _ (strategy.version key) :=
    versionIn_eq_earliest strategy.iterAll key
      ▸ mergedEntry_standsFor true compactMs
        (earliest Record.key (strategy.iterAll.flatMap SSTable.records) key)
  rw [lookup_eq valid, lookup_eq (by simpa [iterAll] using validNew), version_single,
    SSTable.version_fromMemtable _ _ storable, entry_merge_dropTombstones,
    stands.read reached]

/-- A full compaction succeeds if every table can be read. When it does, every key reads as
before, from the time of the compaction on, and one table is left in which all records are
alive.
-/
theorem full_compaction_preserves_reads
    (written : ∀ table ∈ strategy.sstables.flatten, table.Written) (compactMs : UInt64)
    (timestamp : Nat)
    : ((∀ table ∈ strategy.iterAll, ¬ table.Unreadable)
        → ∃ next, strategy.compactAll compactMs timestamp = .ok next)
      ∧ ∀ next,
          strategy.compactAll compactMs timestamp = .ok next
          → (∀ key nowMs,
              compactMs ≤ nowMs → next.lookup key nowMs = strategy.lookup key nowMs)
            ∧ ∃ sst,
                next.sstables = [[sst]]
                ∧ sst.iter = sst.records.map .ok
                ∧ ∀ record ∈ sst.records, isDead record compactMs = false := by
  have visited : ∀ table ∈ strategy.iterAll, table.Written :=
    fun table member => written table (List.mem_reverse.mp member)
  constructor
  · intro readable
    have valid : ∀ table ∈ strategy.iterAll, table.Valid :=
      fun table member => (visited table member).resolve_right (readable table member)
    exact ⟨_, compactAll_eq valid compactMs timestamp⟩
  · intro next done
    obtain ⟨reads, sst, single, valid, alive⟩ := compactAll_reads written done
    exact ⟨reads, sst, single, valid.iter, alive⟩

/-- Witness: a deleted value, in two tables. -/
theorem full_compaction_preserves_reads_deleted
    : ∃ next,
        (twoTables (Leveled.oneEntry "k" "v") (Memtable.new.remove "k")).compactAll 0 3
          = .ok next
        ∧ next.lookup "k" 10 = .ok none
        ∧ next.lookup "k" 10
          = (twoTables (Leveled.oneEntry "k" "v") (Memtable.new.remove "k")).lookup "k" 10
        ∧ ∃ sst,
            next.sstables = [[sst]]
            ∧ sst.iter = sst.records.map .ok
            ∧ ∀ record ∈ sst.records, isDead record 0 = false := by
  have computed : ((twoTables (Leveled.oneEntry "k" "v")
      (Memtable.new.remove "k")).compactAll 0 3).toOption.any
      (fun next => (next.lookup "k" 10).toOption = some none)
      = true := by
    decide +kernel
  simp only [Option.any_eq_true, toOption_eq_some, decide_eq_true_eq] at computed
  obtain ⟨next, done, absent⟩ := computed
  obtain ⟨reads, alive⟩ := (full_compaction_preserves_reads
    (written_twoTables (storableTable_new.insert (by decide) _)
      (storableTable_new.remove (by decide))) 0 3).2 next done
  exact ⟨next, done, absent, reads "k" 10 (by decide), alive⟩

end SizeTiered

end Rustikv.Lsm

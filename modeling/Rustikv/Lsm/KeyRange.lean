import Mathlib.Data.List.Induction
import Rustikv.Lsm.Written

/-! The key range of a table: its smallest and its largest key, however the table was made.
A table that a range leaves out has no key in the range.
-/

namespace Rustikv.Lsm

open Library

-----------------------------------------------------------------------------------------
-- The loops over the tables
-----------------------------------------------------------------------------------------

/-- The loop of both `iter_files_for_range`, which goes on where a table has no range or one
to either side.
-/
def filesForRange (tables : List SSTable) (start end_ : String) : List SSTable :=
  tables.foldl
    (fun files sst =>
      match sst.min, sst.max with
      | some (min, _), some (max, _) =>
          if max < start || end_ < min then files else files ++ [sst]
      | _, _ => files)
    []

def Leveled.iterFilesForRange (strategy : Leveled) (start end_ : String) : List SSTable :=
  filesForRange strategy.iterAll start end_

def SizeTiered.iterFilesForRange (strategy : SizeTiered) (start end_ : String)
    : List SSTable :=
  filesForRange strategy.iterAll start end_

/-- The loop keeps the tables that the other form of the test keeps. -/
theorem filesForRange_eq (tables : List SSTable) (start end_ : String)
    : filesForRange tables start end_
      = tables.filter (fun sst => sst.overlaps start end_) := by
  induction tables using List.reverseRecOn with
  | nil => rfl
  | append_singleton front sst ih =>
      rw [filesForRange, List.foldl_append, ← filesForRange, ih, List.filter_append,
        List.foldl_cons, List.foldl_nil]
      unfold SSTable.overlaps
      cases low : sst.min with
      | none => simp [low]
      | some min =>
          cases high : sst.max with
          | none => simp [low, high]
          | some max =>
              by_cases above : start ≤ max.1 <;> by_cases below : min.1 ≤ end_ <;>
                simp [low, high, above, below, not_lt.mpr, lt_of_not_ge]

theorem StorageStrategy.iterFilesForRange_leveled (strategy : Leveled) (start end_ : String)
    : (StorageStrategy.leveled strategy).iterFilesForRange start end_
      = strategy.iterFilesForRange start end_ :=
  (filesForRange_eq strategy.iterAll start end_).symm

theorem StorageStrategy.iterFilesForRange_sizeTiered (strategy : SizeTiered)
    (start end_ : String)
    : (StorageStrategy.sizeTiered strategy).iterFilesForRange start end_
      = strategy.iterFilesForRange start end_ :=
  (filesForRange_eq strategy.iterAll start end_).symm

-----------------------------------------------------------------------------------------
-- What a file yields
-----------------------------------------------------------------------------------------

/-- A reader yields written records only, and stops at one over the limits. -/
theorem blockRecords_sublist {records : List Record}
    (each : ∀ record ∈ records, Record.codec.Valid record ∨ Record.Oversized record)
    (fuel : Nat)
    : ((blockRecords fuel (Record.codec.encodeAll records)).filterMap Except.toOption).Sublist
        records := by
  induction records generalizing fuel with
  | nil => cases fuel <;> simp [blockRecords]
  | cons first rest ih =>
      cases fuel with
      | zero => simp [blockRecords]
      | succ fuel =>
          rcases each first (by simp) with valid | refused
          · have later := ih (fun other member => each other (List.mem_cons_of_mem _ member))
              fuel
            rw [FrameCodec.encodeAll_cons, blockRecords_append valid]
            exact later.cons_cons first
          · have read := Record.readNext_oversized refused.1 refused.2
              (Record.codec.encodeAll rest)
            have written : first.toBeBytes ≠ [] := Record.codec.encode_ne_nil first
            rw [FrameCodec.encodeAll_cons, show Record.codec.encode first
              = first.toBeBytes from rfl]
            simp only [blockRecords, List.isEmpty_iff, List.append_eq_nil_iff, written,
              false_and, if_false, read]
            exact List.nil_sublist _

theorem iterBlocks_sublist (settings : BlockSettings) {groups : List (List Record)}
    (each : ∀ record ∈ groups.flatten, Record.codec.Valid record ∨ Record.Oversized record)
    : ((iterBlocks (groups.map (blockOf settings))).filterMap Except.toOption).Sublist
        groups.flatten := by
  induction groups with
  | nil => exact .slnil
  | cons group rest ih =>
      rw [List.flatten_cons] at each
      have here := blockRecords_sublist
        (fun record member => each record (List.mem_append_left _ member))
        (blockOf settings group).data.length
      have behind := ih (fun record member => each record (List.mem_append_right _ member))
      rw [List.map_cons, iterBlocks, List.flatten_cons]
      split
      · rw [List.filterMap_append]
        exact here.append behind
      · exact here.trans (List.sublist_append_left group rest.flatten)

theorem eq_map_ok_of_mapM {ε α : Type} {items : List (Except ε α)} {values : List α}
    (done : items.mapM id = .ok values)
    : items = values.map .ok := by
  induction items generalizing values with
  | nil =>
      obtain rfl := Except.ok.inj done
      rfl
  | cons item rest ih =>
      rw [List.mapM_cons] at done
      obtain ⟨value, here, done⟩ := bind_eq_ok.mp done
      obtain ⟨others, later, done⟩ := bind_eq_ok.mp done
      obtain rfl := Except.ok.inj done
      rw [ih later, List.map_cons, ← here]
      rfl

/-- A rebuilt index comes from what a pass over the file yields, without an error. Witness:
induction over the blocks, of which some may be empty.
-/
theorem SSTable.scanBlocks_ok {offset : Nat} {blocks : List Block}
    {sparseIndex : List (String × Nat)} {keys : List String}
    (done : SSTable.scanBlocks offset blocks = .ok (sparseIndex, keys))
    : ∃ records : List Record,
        iterBlocks blocks = records.map .ok
        ∧ keys = records.map Record.key
        ∧ sparseIndex.head?.map Prod.fst = keys.head? := by
  induction blocks generalizing offset sparseIndex keys with
  | nil =>
      obtain ⟨rfl, rfl⟩ := Prod.mk.inj (Except.ok.inj done)
      exact ⟨[], rfl, rfl, rfl⟩
  | cons block rest ih =>
      obtain ⟨records, read, done⟩ := bind_eq_ok.mp done
      obtain ⟨⟨laterIndex, laterKeys⟩, behind, done⟩ := bind_eq_ok.mp done
      obtain ⟨rfl, rfl⟩ := Prod.mk.inj (Except.ok.inj done)
      obtain ⟨others, iterated, rfl, first⟩ := ih behind
      have items := eq_map_ok_of_mapM read
      refine ⟨records ++ others, ?_, ?_, ?_⟩
      · rw [iterBlocks, items, if_pos (all_isOk_map_ok records), iterated, List.map_append]
      · rw [List.map_append]
      · cases records with
        | nil => exact first
        | cons record more => rfl

-----------------------------------------------------------------------------------------
-- The range of a table
-----------------------------------------------------------------------------------------

/-- A table whose file has these keys in order, and a range from the first to the last. -/
structure SSTable.Spans (table : SSTable) (keys : List String) : Prop where
  sorted : keys.Pairwise (· < ·)
  min : table.min.map Prod.fst = keys.head?
  max : table.max.map Prod.fst = keys.getLast?
  held : ∀ record ∈ table.records, record.key ∈ keys

/-- The tables that `from_memtable` writes, those that `parse` and `rebuild_index` make of
such a file or of its first blocks, and those they make of any file of ascending records.
-/
inductive SSTable.Produced : SSTable → List String → Prop
  | written (settings : BlockSettings) (path : TablePath) {memtable : Memtable}
      (addressable : Addressable memtable)
    : Produced (.fromMemtable settings path memtable) memtable.entries.keys
  | reloaded (settings : BlockSettings) (path parsed : TablePath) {memtable : Memtable}
      (addressable : Addressable memtable) {count : Nat} {table : SSTable}
      (done
        : SSTable.rebuildIndex parsed
            ((SSTable.fromMemtable settings path memtable).blocks.take count)
          = .ok table)
    : Produced table (table.records.map Record.key)
  | rebuilt {path : TablePath} {blocks : List Block} {table : SSTable}
      (done : SSTable.rebuildIndex path blocks = .ok table)
      (ascending : (table.records.map Record.key).Pairwise (· < ·))
    : Produced table (table.records.map Record.key)

namespace SSTable

variable {table : SSTable} {keys : List String}

theorem map_key_memtableRecords (memtable : Memtable)
    : (memtableRecords memtable).map Record.key = memtable.entries.keys := by
  rw [memtableRecords, List.map_map, ← Std.TreeMap.map_fst_toList_eq_keys]
  rfl

theorem head?_indexOf (settings : BlockSettings) {groups : List (List Record)}
    (filled : ∀ group ∈ groups, group ≠ [])
    : (indexOf settings 0 groups).head?.map Prod.fst
      = (groups.flatten.map Record.key).head? := by
  cases groups with
  | nil => rfl
  | cons group rest =>
      obtain ⟨first, more, rfl⟩ := List.exists_cons_of_ne_nil (filled group (by simp))
      rfl

theorem spans_fromMemtable (settings : BlockSettings) (path : TablePath)
    {memtable : Memtable} (addressable : Addressable memtable)
    : (SSTable.fromMemtable settings path memtable).Spans memtable.entries.keys := by
  obtain ⟨groups, same, filled, built⟩ := SSTable.fromMemtable_eq settings path memtable
  have names : groups.flatten.map Record.key = memtable.entries.keys := by
    rw [same, map_key_memtableRecords]
  rw [built, ← names]
  constructor
  · rw [names]
    exact memtable.entries.sorted_keys
  · exact head?_indexOf settings filled
  · simp only [ofGroups, Option.map_map, Function.comp_def, Option.map_id']
  · intro record member
    refine List.mem_map_of_mem ?_
    exact (iterBlocks_sublist settings
      (fun other inside => valid_or_oversized_memtable addressable (same ▸ inside))).subset
        member

theorem spans_rebuildIndex {path : TablePath} {blocks : List Block}
    (done : SSTable.rebuildIndex path blocks = .ok table)
    (ascending : (table.records.map Record.key).Pairwise (· < ·))
    : table.Spans (table.records.map Record.key) := by
  obtain ⟨⟨sparseIndex, keys⟩, scanned, done⟩ := bind_eq_ok.mp done
  obtain rfl := Except.ok.inj done
  obtain ⟨records, iterated, rfl, first⟩ := scanBlocks_ok scanned
  have held : (iterBlocks blocks).filterMap Except.toOption = records := by
    rw [iterated, List.filterMap_map]
    simp [Function.comp_def, Except.toOption]
  constructor
  · exact ascending
  · simp only [SSTable.records, SSTable.iter, held]
    exact first
  · simp only [SSTable.records, SSTable.iter, held, Option.map_map, Function.comp_def,
      Option.map_id']
  · exact fun record member => List.mem_map_of_mem member

theorem blocks_of_rebuildIndex {path : TablePath} {blocks : List Block}
    (done : SSTable.rebuildIndex path blocks = .ok table)
    : table.blocks = blocks := by
  obtain ⟨scanned, -, done⟩ := bind_eq_ok.mp done
  obtain rfl := Except.ok.inj done
  rfl

/-- The first blocks of a memtable's file yield ascending records. -/
theorem ascending_of_take (settings : BlockSettings) (path : TablePath) {memtable : Memtable}
    (addressable : Addressable memtable) {count : Nat}
    (same
      : table.blocks = (SSTable.fromMemtable settings path memtable).blocks.take count)
    : (table.records.map Record.key).Pairwise (· < ·) := by
  obtain ⟨groups, flat, -, built⟩ := SSTable.fromMemtable_eq settings path memtable
  have front : (groups.take count).flatten.Sublist (memtableRecords memtable) := by
    have parts : (groups.take count).flatten ++ (groups.drop count).flatten
        = groups.flatten := by
      rw [← List.flatten_append, List.take_append_drop]
    rw [← flat, ← parts]
    exact List.sublist_append_left _ _
  have blocks : table.blocks = (groups.take count).map (blockOf settings) := by
    rw [same, built, ofGroups, List.map_take]
  have held : table.records.Sublist (groups.take count).flatten := by
    rw [SSTable.records, SSTable.iter, blocks]
    exact iterBlocks_sublist settings
      (fun record inside => valid_or_oversized_memtable addressable (front.subset inside))
  rw [List.pairwise_map]
  exact (sorted_memtableRecords memtable).sublist (held.trans front)

theorem Produced.spans (produced : Produced table keys) : table.Spans keys := by
  cases produced with
  | written settings path addressable => exact spans_fromMemtable settings path addressable
  | reloaded settings path parsed addressable done =>
      exact spans_rebuildIndex done
        (ascending_of_take settings path addressable (blocks_of_rebuildIndex done))
  | rebuilt done ascending => exact spans_rebuildIndex done ascending

theorem Spans.sorted_le (spans : table.Spans keys) : keys.Pairwise (· ≤ ·) :=
  spans.sorted.imp le_of_lt

theorem Spans.min?_eq (spans : table.Spans keys) : table.min.map Prod.fst = keys.min? := by
  rw [spans.min]
  exact (List.min?_eq_head? (spans.sorted_le.imp min_eq_left)).symm

theorem Spans.max?_eq (spans : table.Spans keys) : table.max.map Prod.fst = keys.max? := by
  rw [spans.max]
  cases last : keys.getLast? with
  | none =>
      rw [List.getLast?_eq_none_iff] at last
      rw [last, List.max?_nil]
  | some key =>
      obtain ⟨front, rfl⟩ := List.getLast?_eq_some_iff.mp last
      refine (List.max?_eq_some_iff.mpr ⟨by simp, ?_⟩).symm
      intro other member
      rcases List.mem_append.mp member with early | here
      · exact (List.pairwise_append.mp spans.sorted_le).2.2 other early key (by simp)
      · exact (List.mem_singleton.mp here).le

/-- A table without a range in common with `[start, end_]` has no key in there. -/
theorem Spans.not_overlaps (spans : table.Spans keys) {start end_ : String}
    (apart : table.overlaps start end_ = false)
    : ∀ key ∈ keys, ¬ (start ≤ key ∧ key ≤ end_) := by
  rintro key member ⟨low, high⟩
  obtain ⟨least, leastEq⟩ := Option.ne_none_iff_exists'.mp
    (fun none => List.ne_nil_of_mem member (List.min?_eq_none_iff.mp none))
  obtain ⟨greatest, greatestEq⟩ := Option.ne_none_iff_exists'.mp
    (fun none => List.ne_nil_of_mem member (List.max?_eq_none_iff.mp none))
  have lower : least ≤ key := (List.min?_eq_some_iff.mp leastEq).2 key member
  have upper : key ≤ greatest := (List.max?_eq_some_iff.mp greatestEq).2 key member
  obtain ⟨min, minEq, rfl⟩ := Option.map_eq_some_iff.mp (spans.min?_eq.trans leastEq)
  obtain ⟨max, maxEq, rfl⟩ := Option.map_eq_some_iff.mp (spans.max?_eq.trans greatestEq)
  simp only [overlaps, minEq, maxEq, Bool.and_eq_false_iff, decide_eq_false_iff_not]
    at apart
  rcases apart with above | below
  · exact above (low.trans upper)
  · exact below (lower.trans high)

theorem Spans.min_eq_none (spans : table.Spans keys) : table.min = none ↔ keys = [] := by
  rw [← List.head?_eq_none_iff, ← spans.min, Option.map_eq_none_iff]

theorem Spans.max_eq_none (spans : table.Spans keys) : table.max = none ↔ keys = [] := by
  rw [← List.getLast?_eq_none_iff, ← spans.max, Option.map_eq_none_iff]

/-- The range of a table goes from its smallest key to its largest one, and neither test of a
range against it leaves out a table with a key in the range.
-/
theorem Produced.prunes (produced : Produced table keys)
    : table.min.map Prod.fst = keys.min?
      ∧ table.max.map Prod.fst = keys.max?
      ∧ (table.min = none ↔ keys = [])
      ∧ (table.max = none ↔ keys = [])
      ∧ (∀ record ∈ table.records, record.key ∈ keys)
      ∧ ∀ start end_ : String,
          (∀ level : Level,
            table ∈ level.sstables
            → table ∉ level.overlappingFiles start end_
            → ∀ key ∈ keys, ¬ (start ≤ key ∧ key ≤ end_))
          ∧ (∀ strategy : Leveled,
            table ∈ strategy.iterAll
            → table ∉ strategy.iterFilesForRange start end_
            → ∀ key ∈ keys, ¬ (start ≤ key ∧ key ≤ end_))
          ∧ ∀ strategy : SizeTiered,
            table ∈ strategy.iterAll
            → table ∉ strategy.iterFilesForRange start end_
            → ∀ key ∈ keys, ¬ (start ≤ key ∧ key ≤ end_) := by
  have spans := produced.spans
  have left_out : ∀ {tables : List SSTable} {start end_ : String},
      table ∈ tables
      → table ∉ tables.filter (fun sst => sst.overlaps start end_)
      → ∀ key ∈ keys, ¬ (start ≤ key ∧ key ≤ end_) := by
    intro tables start end_ member pruned
    refine spans.not_overlaps (Bool.eq_false_of_not_eq_true fun meets => ?_)
    exact pruned (List.mem_filter.mpr ⟨member, meets⟩)
  refine ⟨spans.min?_eq, spans.max?_eq, spans.min_eq_none, spans.max_eq_none, spans.held, ?_⟩
  intro start end_
  refine ⟨fun level => left_out, fun strategy member pruned => ?_,
    fun strategy member pruned => ?_⟩
  · refine left_out member ?_
    rwa [← filesForRange_eq]
  · refine left_out member ?_
    rwa [← filesForRange_eq]

def twoKeys : Memtable :=
  (Memtable.new.insert "b" "1" none).insert "a" "2" (some 5)

/-- Witness: a table of two keys, and one that was made of its file. -/
theorem Produced.prunes_two
    : (SSTable.fromMemtable smallBlocks { level := none, timestamp := 1 } twoKeys).min.map
          Prod.fst
        = twoKeys.entries.keys.min?
      ∧ ∃ table,
          SSTable.rebuildIndex { level := none, timestamp := 1 }
            ((SSTable.fromMemtable smallBlocks { level := none, timestamp := 1 }
              twoKeys).blocks.take 1)
          = .ok table
          ∧ table.max.map Prod.fst = (table.records.map Record.key).max? := by
  have addressable : Addressable twoKeys :=
    (LsmEngine.addressable_new.insert (by decide) (by decide) none).insert (by decide)
      (by decide) (some 5)
  have written : SSTable.Produced
      (.fromMemtable smallBlocks { level := none, timestamp := 1 } twoKeys) _ :=
    .written smallBlocks _ addressable
  refine ⟨written.prunes.1, ?_⟩
  cases done : SSTable.rebuildIndex { level := none, timestamp := 1 }
      ((SSTable.fromMemtable smallBlocks { level := none, timestamp := 1 }
        twoKeys).blocks.take 1) with
  | error error =>
      have read : (SSTable.rebuildIndex { level := none, timestamp := 1 }
          ((SSTable.fromMemtable smallBlocks { level := none, timestamp := 1 }
            twoKeys).blocks.take 1)).isOk = true := by
        decide +kernel
      rw [done] at read
      cases read
  | ok table =>
      have reloaded : table.Produced _ := .reloaded smallBlocks _ _ addressable done
      exact ⟨table, rfl, reloaded.prunes.2.1⟩

end SSTable

end Rustikv.Lsm

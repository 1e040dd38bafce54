import Rustikv.Lsm.Table

/-! How a table file is laid out, and what its readers find in it. A table is determined by
the records of its blocks, whether it was just written or rebuilt from its file.
-/

namespace Rustikv.Lsm

open Library

-----------------------------------------------------------------------------------------
-- The table of a list of blocks
-----------------------------------------------------------------------------------------

def blockOf (settings : BlockSettings) (records : List Record) : Block :=
  let data := Record.codec.encodeAll records
  { data, storedSize := settings.storedSize data }

/-- Each block's first key with the block's offset, when the first starts at `offset`. -/
def indexOf (settings : BlockSettings) : Nat → List (List Record) → List (String × Nat)
  | _, [] => []
  | offset, group :: rest =>
      (group.head?.map (fun record => (record.key, offset))).toList
        ++ indexOf settings (offset + (blockOf settings group).size) rest

def sizeOf (settings : BlockSettings) (groups : List (List Record)) : Nat :=
  (groups.map (fun group => (blockOf settings group).size)).sum

def SSTable.ofGroups (settings : BlockSettings) (path : TablePath)
    (groups : List (List Record))
    : SSTable :=
  let keys := groups.flatten.map Record.key
  let sparseIndex := indexOf settings 0 groups
  {
    path
    blocks := groups.map (blockOf settings)
    sparseIndex
    bloom := keys.foldl BloomFilter.insert (newBloom keys.length)
    min := sparseIndex.head?
    max := keys.getLast?.map (fun key => (key, offsetIn sparseIndex key))
  }

/-- Records that a file can hold as the blocks `groups`: readable ones in key order, no
block empty.
-/
structure Grouped (groups : List (List Record)) : Prop where
  filled : ∀ group ∈ groups, group ≠ []
  valid : ∀ record ∈ groups.flatten, Record.codec.Valid record
  sorted : groups.flatten.Pairwise (fun left right => left.key < right.key)

theorem Grouped.tail {group : List Record} {rest : List (List Record)}
    (grouped : Grouped (group :: rest))
    : Grouped rest where
  filled other member := grouped.filled other (List.mem_cons_of_mem _ member)
  valid record member := grouped.valid record (by simp [List.mem_flatten.mp member])
  sorted := by
    have sorted := grouped.sorted
    rw [List.flatten_cons, List.pairwise_append] at sorted
    exact sorted.2.1

theorem indexOf_append (settings : BlockSettings) (offset : Nat)
    (front back : List (List Record))
    : indexOf settings offset (front ++ back)
      = indexOf settings offset front
        ++ indexOf settings (offset + sizeOf settings front) back := by
  induction front generalizing offset with
  | nil => simp [indexOf, sizeOf]
  | cons group rest ih => simp [indexOf, sizeOf, ih, Nat.add_assoc]

-----------------------------------------------------------------------------------------
-- Writing
-----------------------------------------------------------------------------------------

/-- A writer that has taken `records`: `groups` are the blocks in the file, `pending` the
records of the open block.
-/
structure TableWriter.Lays (settings : BlockSettings) (bloom : BloomFilter)
    (writer : TableWriter) (records : List Record) (groups : List (List Record))
    (pending : List Record)
    : Prop where
  taken : groups.flatten ++ pending = records
  filled : ∀ group ∈ groups, group ≠ []
  blocks : writer.blocks = groups.map (blockOf settings)
  sparseIndex : writer.sparseIndex = indexOf settings 0 groups
  fileOffset : writer.fileOffset = sizeOf settings groups
  buffer : writer.blockWriter.buffer = Record.codec.encodeAll pending
  firstKey : writer.firstKeyInBlock = pending.head?.map Record.key
  lastKey : writer.lastKey = (records.map Record.key).getLast?
  bloom : writer.bloom = (records.map Record.key).foldl BloomFilter.insert bloom
  settings : writer.blockWriter.settings = settings

@[simp]
theorem key_sealed_tableRecord (key : String) (entry : MemtableEntry)
    : (tableRecord key entry).sealed.key = key := rfl

theorem encodeAll_isEmpty (records : List Record)
    : (Record.codec.encodeAll records).isEmpty = records.isEmpty := by
  cases records with
  | nil => rfl
  | cons record rest =>
      simp [Record.codec, Record.toBeBytes_ne_nil]

theorem BlockWriter.flush_of_pending {settings : BlockSettings} {writer : BlockWriter}
    {pending : List Record} (same : writer.settings = settings)
    (buffer : writer.buffer = Record.codec.encodeAll pending)
    : writer.flush
      = if pending.isEmpty then (none, writer)
        else (some (blockOf settings pending), { settings, buffer := [] }) := by
  subst same
  unfold BlockWriter.flush
  rw [buffer, encodeAll_isEmpty]
  split <;> simp [blockOf]

/-- A record joins the open block, unless that grows over the target: then it opens the next
one.
-/
def fillBlock (targetBlockSize : Nat) (filled : List (List Record) × List Record)
    (record : Record)
    : List (List Record) × List Record :=
  if targetBlockSize
      < record.toBeBytes.length + (Record.codec.encodeAll filled.2).length
      ∧ filled.2 ≠ [] then
    (filled.1 ++ [filled.2], [record])
  else
    (filled.1, filled.2 ++ [record])

/-- The records of each block, when these are written one after the other. -/
def blockGroups (targetBlockSize : Nat) (records : List Record) : List (List Record) :=
  let filled := records.foldl (fillBlock targetBlockSize) ([], [])
  filled.1 ++ if filled.2.isEmpty then [] else [filled.2]

/-- Adding an entry either extends the open block or closes it and starts the next. -/
theorem TableWriter.Lays.addEntry {settings : BlockSettings} {bloom : BloomFilter}
    {writer : TableWriter} {records : List Record} {groups : List (List Record)}
    {pending : List Record} (lays : writer.Lays settings bloom records groups pending)
    (key : String) (entry : MemtableEntry)
    : (writer.addEntry (key, entry)).Lays settings bloom
        (records ++ [(tableRecord key entry).sealed])
        (fillBlock settings.targetBlockSize (groups, pending)
          (tableRecord key entry).sealed).1
        (fillBlock settings.targetBlockSize (groups, pending)
          (tableRecord key entry).sealed).2 := by
  have flush := BlockWriter.flush_of_pending lays.settings lays.buffer
  have encoded : (tableRecord key entry).toBeBytes
      = Record.codec.encodeAll [(tableRecord key entry).sealed] := by
    simp [Record.codec]
  unfold fillBlock
  rw [Record.toBeBytes_sealed, ← lays.buffer]
  by_cases full : settings.targetBlockSize
      < (tableRecord key entry).toBeBytes.length + writer.blockWriter.buffer.length
      ∧ pending ≠ []
  · rw [if_pos full]
    obtain ⟨first, more, rfl⟩ := List.exists_cons_of_ne_nil full.2
    simp only [List.isEmpty_cons, Bool.false_eq_true, if_false] at flush
    have added : writer.blockWriter.addRecord (tableRecord key entry)
        = (some (blockOf settings (first :: more)),
          { settings, buffer := (tableRecord key entry).toBeBytes }) := by
      simp [BlockWriter.addRecord, lays.settings, full.1, flush]
    exact {
      taken := by simp [← lays.taken]
      filled := by
        intro group member
        rcases List.mem_append.mp member with early | late
        · exact lays.filled group early
        · simp [List.mem_singleton.mp late]
      blocks := by simp [TableWriter.addEntry, added, lays.blocks]
      sparseIndex := by
        simp [TableWriter.addEntry, added, lays.sparseIndex, indexOf_append, indexOf,
          lays.fileOffset, lays.firstKey]
      fileOffset := by simp [TableWriter.addEntry, added, lays.fileOffset, sizeOf]
      buffer := by simp [TableWriter.addEntry, added, encoded]
      firstKey := by simp [TableWriter.addEntry, added]
      lastKey := by simp [TableWriter.addEntry, added]
      bloom := by simp [TableWriter.addEntry, added, lays.bloom]
      settings := by simp [TableWriter.addEntry, added]
    }
  · rw [if_neg full]
    have added : writer.blockWriter.addRecord (tableRecord key entry)
        = (none,
          {
            settings
            buffer := writer.blockWriter.buffer ++ (tableRecord key entry).toBeBytes
          }) := by
      by_cases large : settings.targetBlockSize
          < (tableRecord key entry).toBeBytes.length + writer.blockWriter.buffer.length
      · have empty : pending = [] := by
          by_contra some
          exact full ⟨large, some⟩
        simp only [empty, List.isEmpty_nil, if_true] at flush
        simp [BlockWriter.addRecord, lays.settings, large, flush]
      · simp [BlockWriter.addRecord, lays.settings, large]
    exact {
      taken := by simp [← lays.taken]
      filled := lays.filled
      blocks := by simp [TableWriter.addEntry, added, lays.blocks]
      sparseIndex := by simp [TableWriter.addEntry, added, lays.sparseIndex]
      fileOffset := by simp [TableWriter.addEntry, added, lays.fileOffset]
      buffer := by simp [TableWriter.addEntry, added, encoded, lays.buffer]
      firstKey := by cases pending <;> simp [TableWriter.addEntry, added, lays.firstKey]
      lastKey := by simp [TableWriter.addEntry, added]
      bloom := by simp [TableWriter.addEntry, added, lays.bloom]
      settings := by simp [TableWriter.addEntry, added]
    }

/-- Witness: induction over the entries. -/
theorem TableWriter.Lays.foldl {settings : BlockSettings} {bloom : BloomFilter}
    {writer : TableWriter} {records : List Record} {groups : List (List Record)}
    {pending : List Record} (lays : writer.Lays settings bloom records groups pending)
    (items : List (String × MemtableEntry))
    : (items.foldl TableWriter.addEntry writer).Lays settings bloom
        (records ++ items.map (fun item => (tableRecord item.1 item.2).sealed))
        ((items.map (fun item => (tableRecord item.1 item.2).sealed)).foldl
          (fillBlock settings.targetBlockSize) (groups, pending)).1
        ((items.map (fun item => (tableRecord item.1 item.2).sealed)).foldl
          (fillBlock settings.targetBlockSize) (groups, pending)).2 := by
  induction items generalizing writer records groups pending with
  | nil => simpa using lays
  | cons item rest ih => simpa using ih (lays.addEntry item.1 item.2)

theorem TableWriter.lays_new (settings : BlockSettings) (keyCount : Nat)
    : (TableWriter.new settings keyCount).Lays settings (newBloom keyCount) [] [] [] := by
  constructor <;> simp [TableWriter.new, BlockWriter.new, indexOf, sizeOf]

/-- The groups of a finished writer are those in the file and the open one. -/
theorem TableWriter.Lays.finish {settings : BlockSettings} {writer : TableWriter}
    {records : List Record} {groups : List (List Record)} {pending : List Record}
    (lays : writer.Lays settings (newBloom records.length) records groups pending)
    (path : TablePath)
    : (groups ++ if pending.isEmpty then [] else [pending]).flatten = records
      ∧ (∀ group ∈ groups ++ if pending.isEmpty then [] else [pending], group ≠ [])
      ∧ writer.finish path
        = SSTable.ofGroups settings path
          (groups ++ if pending.isEmpty then [] else [pending]) := by
  have flush := BlockWriter.flush_of_pending lays.settings lays.buffer
  cases pending with
  | nil =>
      have same : groups.flatten = records := by simpa using lays.taken
      simp only [List.isEmpty_nil, if_true, List.append_nil] at flush ⊢
      refine ⟨same, lays.filled, ?_⟩
      simp [TableWriter.finish, SSTable.ofGroups, flush, same, lays.blocks,
        lays.sparseIndex, lays.bloom, lays.lastKey]
  | cons first more =>
      have same : (groups ++ [first :: more]).flatten = records := by
        simpa using lays.taken
      simp only [List.isEmpty_cons, Bool.false_eq_true, if_false] at flush ⊢
      refine ⟨same, ?_, ?_⟩
      · intro group member
        rcases List.mem_append.mp member with early | late
        · exact lays.filled group early
        · simp [List.mem_singleton.mp late]
      · have index : writer.sparseIndex
              ++ (writer.firstKeyInBlock.map (fun key => (key, writer.fileOffset))).toList
            = indexOf settings 0 (groups ++ [first :: more]) := by
          simp [lays.sparseIndex, lays.firstKey, lays.fileOffset, indexOf_append, indexOf]
        simp only [TableWriter.finish, SSTable.ofGroups, flush, same, index, lays.blocks,
          lays.bloom, lays.lastKey, List.length_map, List.map_append, List.map_cons,
          List.map_nil]

/-- The records a memtable is flushed as. -/
def memtableRecords (memtable : Memtable) : List Record :=
  memtable.entries.toList.map (fun item => (tableRecord item.1 item.2).sealed)

/-- A flushed memtable is the table of its records, in the blocks that they fill. -/
theorem SSTable.fromMemtable_blockGroups (settings : BlockSettings) (path : TablePath)
    (memtable : Memtable)
    : (blockGroups settings.targetBlockSize (memtableRecords memtable)).flatten
        = memtableRecords memtable
      ∧ (∀ group ∈ blockGroups settings.targetBlockSize (memtableRecords memtable),
          group ≠ [])
      ∧ SSTable.fromMemtable settings path memtable
        = SSTable.ofGroups settings path
          (blockGroups settings.targetBlockSize (memtableRecords memtable)) := by
  have lays :=
    (TableWriter.lays_new settings memtable.entries.toList.length).foldl
      memtable.entries.toList
  have size : memtable.entries.toList.length = (memtableRecords memtable).length := by
    simp [memtableRecords]
  rw [List.nil_append, size] at lays
  simp only [SSTable.fromMemtable, size]
  exact lays.finish path

theorem SSTable.fromMemtable_eq (settings : BlockSettings) (path : TablePath)
    (memtable : Memtable)
    : ∃ groups,
        groups.flatten = memtableRecords memtable
        ∧ (∀ group ∈ groups, group ≠ [])
        ∧ SSTable.fromMemtable settings path memtable
          = SSTable.ofGroups settings path groups :=
  ⟨_, SSTable.fromMemtable_blockGroups settings path memtable⟩

-----------------------------------------------------------------------------------------
-- Reading
-----------------------------------------------------------------------------------------

/-- A reader of a block goes from a whole record to what follows it. -/
theorem blockRecords_append {record : Record} (valid : Record.codec.Valid record)
    (fuel : Nat) (rest : Bytes)
    : blockRecords (fuel + 1) (Record.codec.encode record ++ rest)
      = .ok record :: blockRecords fuel rest := by
  have nonempty := Record.codec.encode_ne_nil record
  have read : Record.readNext (Record.codec.encode record ++ rest) = .ok (record, rest) :=
    Record.codec.decode_encode record valid rest
  simp [blockRecords, nonempty, read]

/-- Reading a block body yields its records. Witness: induction over the records. -/
theorem blockRecords_encodeAll {records : List Record}
    (valid : ∀ record ∈ records, Record.codec.Valid record) {fuel : Nat}
    (enough : (Record.codec.encodeAll records).length ≤ fuel)
    : blockRecords fuel (Record.codec.encodeAll records) = records.map .ok := by
  induction records generalizing fuel with
  | nil => cases fuel <;> simp [blockRecords]
  | cons record rest ih =>
      have positive : 0 < (Record.codec.encode record).length :=
        List.length_pos_iff.mpr (Record.codec.encode_ne_nil record)
      simp only [FrameCodec.encodeAll_cons, List.length_append] at enough
      cases fuel with
      | zero => omega
      | succ fuel =>
          have tail := ih (fun other member => valid other (List.mem_cons_of_mem _ member))
            (by omega : (Record.codec.encodeAll rest).length ≤ fuel)
          rw [FrameCodec.encodeAll_cons, blockRecords_append (valid record (by simp)), tail,
            List.map_cons]

theorem all_isOk_map_ok {α ε : Type} (items : List α)
    : (items.map (Except.ok : α → Except ε α)).all Except.isOk = true := by
  simp [Except.isOk, Except.toBool]

theorem iterBlocks_groups (settings : BlockSettings) {groups : List (List Record)}
    (valid : ∀ record ∈ groups.flatten, Record.codec.Valid record)
    : iterBlocks (groups.map (blockOf settings)) = groups.flatten.map .ok := by
  induction groups with
  | nil => rfl
  | cons group rest ih =>
      have front : ∀ record ∈ group, Record.codec.Valid record :=
        fun record member => valid record (by simp [member])
      have back := ih (fun record member => valid record (by
        rw [List.flatten_cons]
        exact List.mem_append_right _ member))
      simp only [List.map_cons, iterBlocks, blockOf, blockRecords_encodeAll front le_rfl,
        all_isOk_map_ok, if_true, List.flatten_cons, List.map_append, back]

theorem mapM_ok {α ε : Type} (items : List α)
    : (items.map (Except.ok (ε := ε))).mapM id = .ok items := by
  induction items with
  | nil => rfl
  | cons item rest ih => simp [List.mapM_cons, ih, pure, Except.pure]

theorem SSTable.scanBlocks_groups (settings : BlockSettings) {groups : List (List Record)}
    (valid : ∀ record ∈ groups.flatten, Record.codec.Valid record) (offset : Nat)
    : SSTable.scanBlocks offset (groups.map (blockOf settings))
      = .ok (indexOf settings offset groups, groups.flatten.map Record.key) := by
  induction groups generalizing offset with
  | nil => rfl
  | cons group rest ih =>
      have front : ∀ record ∈ group, Record.codec.Valid record :=
        fun record member => valid record (by simp [member])
      have back := ih (fun record member => valid record (by
        rw [List.flatten_cons]
        exact List.mem_append_right _ member)) (offset + (blockOf settings group).size)
      have read : (blockRecords (blockOf settings group).data.length
          (blockOf settings group).data).mapM id = .ok group := by
        rw [blockOf, blockRecords_encodeAll front le_rfl, mapM_ok]
      simp only [List.map_cons, SSTable.scanBlocks, read, ok_bind, back, indexOf,
        List.flatten_cons, List.map_append]
      rfl

/-- Rebuilding the index of a file of such blocks gives the table of those blocks. -/
theorem SSTable.rebuildIndex_groups (settings : BlockSettings) (path : TablePath)
    {groups : List (List Record)}
    (valid : ∀ record ∈ groups.flatten, Record.codec.Valid record)
    : SSTable.rebuildIndex path (groups.map (blockOf settings))
      = .ok (SSTable.ofGroups settings path groups) := by
  simp only [SSTable.rebuildIndex, SSTable.scanBlocks_groups settings valid, ok_bind]
  rfl

theorem seek_sizeOf (settings : BlockSettings) (groups : List (List Record)) (count : Nat)
    : seek (sizeOf settings (groups.take count)) (groups.map (blockOf settings))
      = (groups.drop count).map (blockOf settings) := by
  induction groups generalizing count with
  | nil => simp [sizeOf, seek]
  | cons group rest ih =>
      cases count with
      | zero => simp [sizeOf, seek]
      | succ count =>
          have positive : ∃ more, (blockOf settings group).size = more + 1 :=
            ⟨8 + (blockOf settings group).storedSize, by
              simp [Block.size, blockHeaderLen]; omega⟩
          obtain ⟨more, size⟩ := positive
          have total : sizeOf settings ((group :: rest).take (count + 1))
              = sizeOf settings (rest.take count) + more + 1 := by
            simp [sizeOf, size]
            omega
          rw [total, List.map_cons, seek, size, List.drop_succ_cons, ← ih]
          congr 1
          omega

theorem Grouped.head_lt {group : List Record} {rest : List (List Record)}
    (grouped : Grouped (group :: rest)) {earlier later : Record} (front : earlier ∈ group)
    (back : later ∈ rest.flatten)
    : earlier.key < later.key := by
  have sorted := grouped.sorted
  rw [List.flatten_cons, List.pairwise_append] at sorted
  exact sorted.2.2 earlier front later back

/-- The sparse index leads to a block before which every key is smaller. Witness: induction
over the blocks, where a block is skipped when a later one starts at or below the key.
-/
theorem lastBlock_indexOf (settings : BlockSettings) {groups : List (List Record)}
    (grouped : Grouped groups) (offset : Nat) (key : String)
    : match ((indexOf settings offset groups).takeWhile (fun item => item.1 ≤ key)).getLast?
      with
      | none => True
      | some item =>
          ∃ count,
            item.2 = offset + sizeOf settings (groups.take count)
            ∧ (∀ record ∈ (groups.take count).flatten, record.key < key)
            ∧ ∃ record ∈ groups.flatten, record.key ≤ key := by
  induction groups generalizing offset with
  | nil => simp [indexOf]
  | cons group rest ih =>
      obtain ⟨first, more, rfl⟩ :=
        List.exists_cons_of_ne_nil (grouped.filled group (by simp))
      have tail := ih grouped.tail (offset + (blockOf settings (first :: more)).size)
      by_cases reaches : first.key ≤ key
      · cases last : ((indexOf settings (offset + (blockOf settings (first :: more)).size)
            rest).takeWhile (fun item => item.1 ≤ key)).getLast? with
        | none =>
            rw [List.getLast?_eq_none_iff] at last
            simp only [indexOf, List.head?_cons, Option.map_some, Option.toList_some,
              List.cons_append, List.nil_append, List.takeWhile_cons, reaches, decide_true,
              if_true, last]
            exact ⟨0, by simp [sizeOf], by simp, first, by simp, reaches⟩
        | some item =>
            simp only [last] at tail
            obtain ⟨count, position, smaller, later, member, bound⟩ := tail
            simp only [indexOf, List.head?_cons, Option.map_some, Option.toList_some,
              List.cons_append, List.nil_append, List.takeWhile_cons, reaches, decide_true,
              if_true, List.getLast?_cons, last, Option.getD_some]
            refine ⟨count + 1, ?_, ?_, first, by simp, reaches⟩
            · rw [position]
              simp [sizeOf]
              omega
            · intro record inside
              rw [List.take_succ_cons, List.flatten_cons] at inside
              rcases List.mem_append.mp inside with front | back
              · exact lt_of_lt_of_le (grouped.head_lt front member) bound
              · exact smaller record back
      · simp [indexOf, reaches]

theorem offsetIn_indexOf (settings : BlockSettings) {groups : List (List Record)}
    (grouped : Grouped groups) (key : String)
    : ∃ count,
        offsetIn (indexOf settings 0 groups) key = sizeOf settings (groups.take count)
        ∧ ∀ record ∈ (groups.take count).flatten, record.key < key := by
  have leads := lastBlock_indexOf settings grouped 0 key
  unfold offsetIn
  split at leads
  next absent => exact ⟨0, by simp [absent, sizeOf], by simp⟩
  next item found =>
    obtain ⟨count, position, smaller, -⟩ := leads
    exact ⟨count, by simp [found, position], smaller⟩

-----------------------------------------------------------------------------------------
-- What a table holds
-----------------------------------------------------------------------------------------

/-- Scanning sorted records for a key finds its record. Witness: induction over the
records; past the key none can follow.
-/
theorem scanFor_sorted (key : String) (nowMs : UInt64) {records : List Record}
    (sorted : records.Pairwise (fun left right => left.key < right.key))
    : scanFor key nowMs (records.map .ok)
      = .ok ((earliest Record.key records key).map
          (fun record => record.entry.read nowMs)) := by
  induction records with
  | nil => rfl
  | cons record rest ih =>
      obtain ⟨above, tail⟩ := List.pairwise_cons.mp sorted
      rw [List.map_cons, scanFor, earliest_cons]
      split
      next order =>
        have after := compare_gt_iff_gt.mp order
        have absent : earliest Record.key rest key = none := by
          rw [earliest_none]
          intro other member
          exact (lt_trans after (above other member)).ne'
        simp [after.ne', absent]
      next order =>
        have same := compare_eq_iff_eq.mp order
        simp [same]
      next order =>
        have before := compare_lt_iff_lt.mp order
        rw [ih tail, if_neg before.ne]

theorem earliest_of_lt {front back : List Record} {key : String}
    (smaller : ∀ record ∈ front, record.key < key)
    : earliest Record.key (front ++ back) key = earliest Record.key back key := by
  have absent : earliest Record.key front key = none := by
    rw [earliest_none]
    exact fun record member => (smaller record member).ne
  simp [earliest_append, absent]

/-- A table that was written from, or whose index was rebuilt from, blocks of readable
records in key order.
-/
def SSTable.Valid (table : SSTable) : Prop :=
  ∃ settings groups, Grouped groups ∧ table = SSTable.ofGroups settings table.path groups

namespace SSTable

variable {table : SSTable}

/-- The records of a valid table are those of its blocks. -/
theorem Valid.grouping (valid : table.Valid)
    : ∃ settings groups,
        Grouped groups
        ∧ table.iter = groups.flatten.map .ok
        ∧ table.records = groups.flatten
        ∧ table = SSTable.ofGroups settings table.path groups := by
  obtain ⟨settings, groups, grouped, same⟩ := valid
  have read : table.iter = groups.flatten.map .ok := by
    rw [same]
    exact iterBlocks_groups settings grouped.valid
  refine ⟨settings, groups, grouped, read, ?_, same⟩
  simp [records, read, List.filterMap_map, Function.comp_def, Except.toOption]

/-- A pass over a valid table meets no error. -/
theorem Valid.iter (valid : table.Valid) : table.iter = table.records.map .ok := by
  obtain ⟨_, groups, -, read, held, -⟩ := valid.grouping
  rw [held, read]

theorem Valid.sorted (valid : table.Valid)
    : table.records.Pairwise (fun left right => left.key < right.key) := by
  obtain ⟨_, groups, grouped, -, held, -⟩ := valid.grouping
  rw [held]
  exact grouped.sorted

theorem Valid.readable (valid : table.Valid) {record : Record}
    (member : record ∈ table.records)
    : Record.codec.Valid record := by
  obtain ⟨_, groups, grouped, -, held, -⟩ := valid.grouping
  rw [held] at member
  exact grouped.valid record member

/-- The Bloom filter has no false negatives. -/
theorem Valid.mightContain (valid : table.Valid) {record : Record}
    (member : record ∈ table.records)
    : table.bloom.mightContain record.key = true := by
  obtain ⟨settings, groups, grouped, -, held, same⟩ := valid.grouping
  rw [held] at member
  rw [same]
  refine BloomFilter.mightContain_of_mem (List.mem_map_of_mem member) ?_
  simp [newBloom, BloomFilter.new]

/-- A point lookup reads the table's version of the key. -/
theorem Valid.get (valid : table.Valid) (key : String) (nowMs : UInt64)
    : table.get key nowMs
      = .ok ((table.version key).map (fun entry => entry.read nowMs)) := by
  obtain ⟨settings, groups, grouped, -, held, same⟩ := valid.grouping
  cases maybe : table.bloom.mightContain key with
  | false =>
      have absent : earliest Record.key table.records key = none := by
        rw [earliest_none]
        rintro record member rfl
        rw [valid.mightContain member] at maybe
        cases maybe
      simp [SSTable.get, maybe, version, absent]
  | true =>
      obtain ⟨count, position, smaller⟩ := offsetIn_indexOf settings grouped key
      have sought : seek (offsetIn table.sparseIndex key) table.blocks
          = (groups.drop count).map (blockOf settings) := by
        rw [same]
        simp only [ofGroups]
        rw [position, seek_sizeOf]
      have parts : groups.flatten
          = (groups.take count).flatten ++ (groups.drop count).flatten := by
        rw [← List.flatten_append, List.take_append_drop]
      have rest : ∀ record ∈ (groups.drop count).flatten, Record.codec.Valid record :=
        fun record member => grouped.valid record (by
          rw [parts]
          exact List.mem_append_right _ member)
      have sorted : (groups.drop count).flatten.Pairwise
          (fun left right => left.key < right.key) := by
        have sorted := grouped.sorted
        rw [parts, List.pairwise_append] at sorted
        exact sorted.2.1
      simp only [SSTable.get, maybe, Bool.not_true, Bool.false_eq_true, if_false, sought,
        iterBlocks_groups settings rest, scanFor_sorted key nowMs sorted, version, held,
        parts, earliest_of_lt smaller, Option.map_map]
      rfl

/-- The smallest key is the first one. -/
theorem Valid.min (valid : table.Valid)
    : table.min.map Prod.fst = table.records.head?.map Record.key := by
  obtain ⟨settings, groups, grouped, -, held, same⟩ := valid.grouping
  rw [held, same]
  cases groups with
  | nil => rfl
  | cons group rest =>
      obtain ⟨first, more, rfl⟩ :=
        List.exists_cons_of_ne_nil (grouped.filled group (by simp))
      simp [ofGroups, indexOf]

theorem Valid.max (valid : table.Valid)
    : table.max.map Prod.fst = table.records.getLast?.map Record.key := by
  obtain ⟨settings, groups, grouped, -, held, same⟩ := valid.grouping
  rw [held, same]
  simp only [ofGroups, Option.map_map, Function.comp_def, List.getLast?_map]

end SSTable

-----------------------------------------------------------------------------------------
-- Flushed memtables
-----------------------------------------------------------------------------------------

/-- An entry a table can give back: its sizes are within the limits of the format, and a
tombstone has no expiry.
-/
structure Storable (key : String) (entry : MemtableEntry) : Prop where
  fits : Record.Fits key (entry.value.getD "")
  plain : entry.value = none → entry.expiryMs = none

def StorableTable (memtable : Memtable) : Prop :=
  ∀ key entry, memtable.entry key = some entry → Storable key entry

theorem entry_sealed_tableRecord {key : String} {entry : MemtableEntry}
    (storable : Storable key entry)
    : (tableRecord key entry).sealed.entry = entry := by
  obtain ⟨value, expiryMs⟩ := entry
  rw [tableRecord, Record.entry_sealed_make]
  cases value with
  | none => simp [show expiryMs = none from storable.plain rfl]
  | some value => simp

theorem valid_sealed_tableRecord {key : String} {entry : MemtableEntry}
    (storable : Storable key entry)
    : Record.codec.Valid (tableRecord key entry).sealed :=
  ⟨(Record.wellFormed_make storable.fits _ _).sealed, rfl⟩

theorem storable_entry {record : Record} (valid : Record.codec.Valid record)
    : Storable record.key record.entry := by
  have key := valid.1.keyLimit
  have value := valid.1.valueLimit
  unfold Record.entry
  split
  · exact ⟨⟨key, by simp [maxValueSize]⟩, by simp⟩
  · exact ⟨⟨key, value⟩, by simp⟩

theorem storableTable_new : StorableTable Memtable.new := by
  intro key entry found
  simp at found

theorem StorableTable.insert {memtable : Memtable} (storable : StorableTable memtable)
    {key value : String} (fits : Record.Fits key value) (expiryMs : Option UInt64)
    : StorableTable (memtable.insert key value expiryMs) := by
  intro other entry found
  rw [Memtable.entry_insert] at found
  split at found
  next same =>
    subst same
    obtain rfl := Option.some.inj found
    exact ⟨fits, by simp⟩
  next => exact storable other entry found

theorem StorableTable.remove {memtable : Memtable} (storable : StorableTable memtable)
    {key : String} (fits : key.utf8ByteSize ≤ maxKeySize)
    : StorableTable (memtable.remove key) := by
  intro other entry found
  rw [Memtable.entry_remove] at found
  split at found
  next same =>
    subst same
    obtain rfl := Option.some.inj found
    exact ⟨⟨fits, by simp [maxValueSize]⟩, by simp⟩
  next => exact storable other entry found

theorem StorableTable.dropTombstones {memtable : Memtable}
    (storable : StorableTable memtable)
    : StorableTable memtable.dropTombstones := by
  intro key entry found
  rw [Memtable.entry_dropTombstones, Option.filter_eq_some_iff] at found
  exact storable key entry found.1

theorem mem_memtableRecords {memtable : Memtable} {record : Record}
    : record ∈ memtableRecords memtable
      ↔ ∃ key entry,
          memtable.entry key = some entry ∧ (tableRecord key entry).sealed = record := by
  simp [memtableRecords, Memtable.entry]

theorem earliest_memtableRecords (memtable : Memtable) (key : String)
    : earliest Record.key (memtableRecords memtable) key
      = (memtable.entry key).map (fun entry => (tableRecord key entry).sealed) := by
  have found : earliest
      (fun item : String × MemtableEntry => (tableRecord item.1 item.2).sealed.key)
      memtable.entries.toList key
      = memtable.entries[key]?.map (fun entry => (key, entry)) :=
    memtable.entries.earliest_toList key
  rw [memtableRecords, earliest_map, found, Option.map_map]
  rfl

theorem sorted_memtableRecords (memtable : Memtable)
    : (memtableRecords memtable).Pairwise (fun left right => left.key < right.key) := by
  rw [memtableRecords, List.pairwise_map]
  exact memtable.entries.sorted_toList

theorem StorableTable.grouped {memtable : Memtable} (storable : StorableTable memtable)
    {groups : List (List Record)} (same : groups.flatten = memtableRecords memtable)
    (filled : ∀ group ∈ groups, group ≠ [])
    : Grouped groups where
  filled := filled
  valid record member := by
    rw [same] at member
    obtain ⟨key, entry, found, rfl⟩ := mem_memtableRecords.mp member
    exact valid_sealed_tableRecord (storable key entry found)
  sorted := by
    rw [same]
    exact sorted_memtableRecords memtable

namespace SSTable

theorem records_ofGroups (settings : BlockSettings) (path : TablePath)
    {groups : List (List Record)} (grouped : Grouped groups)
    : (ofGroups settings path groups).records = groups.flatten := by
  have read : (ofGroups settings path groups).iter = groups.flatten.map .ok :=
    iterBlocks_groups settings grouped.valid
  simp [records, read, List.filterMap_map, Function.comp_def, Except.toOption]

@[simp]
theorem path_fromMemtable (settings : BlockSettings) (path : TablePath)
    (memtable : Memtable)
    : (fromMemtable settings path memtable).path = path := rfl

theorem valid_fromMemtable (settings : BlockSettings) (path : TablePath)
    {memtable : Memtable} (storable : StorableTable memtable)
    : (fromMemtable settings path memtable).Valid := by
  obtain ⟨groups, same, filled, built⟩ := fromMemtable_eq settings path memtable
  exact ⟨settings, groups, storable.grouped same filled, built⟩

theorem records_fromMemtable (settings : BlockSettings) (path : TablePath)
    {memtable : Memtable} (storable : StorableTable memtable)
    : (fromMemtable settings path memtable).records = memtableRecords memtable := by
  obtain ⟨groups, same, filled, built⟩ := fromMemtable_eq settings path memtable
  rw [built, records_ofGroups settings path (storable.grouped same filled), same]

/-- A flushed memtable says about each key what the memtable said. -/
theorem version_fromMemtable (settings : BlockSettings) (path : TablePath)
    {memtable : Memtable} (storable : StorableTable memtable) (key : String)
    : (fromMemtable settings path memtable).version key = memtable.entry key := by
  rw [version, records_fromMemtable settings path storable, earliest_memtableRecords]
  cases found : memtable.entry key with
  | none => rfl
  | some entry => simp [entry_sealed_tableRecord (storable key entry found)]

/-- An interrupted flush leaves a file whose rebuilt table says about a key what the
memtable said, or nothing.
-/
theorem rebuildIndex_take (settings : BlockSettings) (path : TablePath)
    {memtable : Memtable} (storable : StorableTable memtable) (count : Nat)
    : ∃ table,
        rebuildIndex path ((fromMemtable settings path memtable).blocks.take count)
          = .ok table
        ∧ table.Valid
        ∧ table.path = path
        ∧ table.blocks = (fromMemtable settings path memtable).blocks.take count
        ∧ ∀ key entry,
            table.version key = some entry → memtable.entry key = some entry := by
  obtain ⟨groups, same, filled, built⟩ := fromMemtable_eq settings path memtable
  have grouped := storable.grouped same filled
  have parts : groups.flatten
      = (groups.take count).flatten ++ (groups.drop count).flatten := by
    rw [← List.flatten_append, List.take_append_drop]
  have front : Grouped (groups.take count) := {
    filled := fun group member => filled group (List.mem_of_mem_take member)
    valid := fun record member => grouped.valid record (by
      rw [parts]
      exact List.mem_append_left _ member)
    sorted := by
      have sorted := grouped.sorted
      rw [parts, List.pairwise_append] at sorted
      exact sorted.1
  }
  have blocks : (fromMemtable settings path memtable).blocks.take count
      = (groups.take count).map (blockOf settings) := by
    rw [built]
    simp [ofGroups, List.map_take]
  refine ⟨ofGroups settings path (groups.take count), ?_, ⟨settings, _, front, rfl⟩, rfl, ?_,
    ?_⟩
  · rw [blocks, rebuildIndex_groups settings path front.valid]
  · rw [blocks]
    rfl
  · intro key entry found
    rw [version, records_ofGroups settings path front, Option.map_eq_some_iff] at found
    obtain ⟨record, found, rfl⟩ := found
    have whole : earliest Record.key (memtableRecords memtable) key = some record := by
      rw [← same, parts, earliest_append, found]
      rfl
    rw [earliest_memtableRecords, Option.map_eq_some_iff] at whole
    obtain ⟨entry, held, rfl⟩ := whole
    rw [entry_sealed_tableRecord (storable key entry held), held]

end SSTable

end Rustikv.Lsm

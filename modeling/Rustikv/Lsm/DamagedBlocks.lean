import Rustikv.Format.Damage
import Rustikv.Lsm.RebuiltIndex
import Rustikv.Lsm.Unreadable

/-! A pass over a table with a changed byte in a block. The iterator takes a record that its
block cuts off for the end of the block, and sizes are read before any checksum.
-/

namespace Rustikv.Lsm

open Library

/-- A block body that is read without an error: complete records, and then the end or a
record that is cut off.
-/
inductive Unnoticed : Bytes → Prop
  | cutOff {bytes : Bytes} (lost : Record.CutOff bytes) : Unnoticed bytes
  | intact {bytes : Bytes} (record : Record.Intact bytes)
      (rest
        : Unnoticed (bytes.drop
            (Record.headerLenAt bytes + Record.keySizeAt bytes + Record.valueSizeAt bytes)))
      : Unnoticed bytes

/-- A pass that reports an error, or yields these records and no others. -/
def Faithful (records : List Record) (items : List (Except IoError Record)) : Prop :=
  (∃ error, .error error ∈ items) ∨ items = records.map .ok

/-- The table with a byte of its file changed. -/
def StoredTable.damage (table : StoredTable) (offset : Nat) (byte : UInt8) : StoredTable :=
  { table with file := table.file.set offset byte }

-----------------------------------------------------------------------------------------
-- Reading a changed body
-----------------------------------------------------------------------------------------

theorem unnoticed_of_readNext {bytes rest : Bytes} {record : Record}
    (read : Record.readNext bytes = .ok (record, rest))
    : Unnoticed bytes ↔ Unnoticed rest := by
  obtain ⟨-, -, same, -⟩ := Record.readNext_ok read
  constructor
  · intro unnoticed
    cases unnoticed with
    | cutOff lost =>
        obtain ⟨error, failed, -⟩ := (Record.cutOff_iff bytes).mp lost
        rw [read] at failed
        cases failed
    | intact record later => rwa [same]
  · intro later
    rw [same] at read later
    exact .intact ((Record.intact_iff bytes).mpr ⟨record, read⟩) later

/-- An error that a body gives is noticed, unless it says that the body ends. -/
theorem unnoticed_of_error {bytes : Bytes} {error : IoError}
    (failed : Record.readNext bytes = .error error)
    : Unnoticed bytes ↔ error.kind = .unexpectedEof := by
  constructor
  · intro unnoticed
    cases unnoticed with
    | cutOff lost =>
        obtain ⟨other, again, ended⟩ := (Record.cutOff_iff bytes).mp lost
        rw [failed] at again
        obtain rfl := Except.error.inj again
        exact ended
    | intact record later =>
        obtain ⟨found, read⟩ := (Record.intact_iff bytes).mp record
        rw [failed] at read
        cases read
  · intro ended
    exact .cutOff ((Record.cutOff_iff bytes).mpr ⟨error, failed, ended⟩)

theorem blockRecords_unnoticed {fuel : Nat} {bytes : Bytes} (enough : bytes.length ≤ fuel)
    : (∀ error, .error error ∉ blockRecords fuel bytes) ↔ Unnoticed bytes := by
  induction fuel generalizing bytes with
  | zero =>
      obtain rfl := List.length_eq_zero_iff.mp (Nat.le_zero.mp enough)
      exact iff_of_true (by simp [blockRecords]) (.cutOff (by decide))
  | succ fuel ih =>
      rw [blockRecords]
      split
      · rename_i empty
        obtain rfl := List.isEmpty_iff.mp empty
        exact iff_of_true (by simp) (.cutOff (by decide))
      · cases read : Record.readNext bytes with
        | ok found =>
            obtain ⟨record, rest⟩ := found
            have shorter : rest.length ≤ fuel := by
              have bytes := congrArg List.length (Record.readNext_encoded read)
              have some := List.length_pos_iff.mpr record.toBeBytes_ne_nil
              rw [List.length_append] at bytes
              omega
            rw [unnoticed_of_readNext read, ← ih shorter]
            simp
        | error error =>
            rw [unnoticed_of_error read]
            by_cases ended : error.kind = .unexpectedEof <;> simp [ended]

/-- Complete records hide nothing that is behind them. -/
theorem unnoticed_append {records : List Record}
    (valid : ∀ record ∈ records, Record.codec.Valid record) (bytes : Bytes)
    : Unnoticed (Record.codec.encodeAll records ++ bytes) ↔ Unnoticed bytes := by
  induction records with
  | nil => rfl
  | cons record rest ih =>
      have read := Record.codec.decode_encode record (valid record (by simp))
        (Record.codec.encodeAll rest ++ bytes)
      rw [FrameCodec.encodeAll_cons, List.append_assoc, unnoticed_of_readNext read]
      exact ih (fun other member => valid other (List.mem_cons_of_mem _ member))

/-- A changed byte that is not one of the sizes and leaves the announced expiry is noticed. -/
theorem noticed_outside_sizes {before after : List Record} {record : Record}
    (valid : ∀ other ∈ before, Record.codec.Valid other)
    (validHere : Record.codec.Valid record) {position : Nat} {byte : UInt8}
    (inside : position < record.toBeBytes.length) (differs : record.toBeBytes[position] ≠ byte)
    (place
      : position < crcLen
        ∨ crcLen + sizeFieldLen * 2 < position
        ∨ position = crcLen + sizeFieldLen * 2
          ∧ byte &&& flagHasExpiry = record.toBeBytes[position] &&& flagHasExpiry)
    : ¬ Unnoticed ((Record.codec.encodeAll (before ++ record :: after)).set
        ((Record.codec.encodeAll before).length + position) byte) := by
  have read := Record.readNext_set validHere.1 inside differs place
    (Record.codec.encodeAll after)
  have bytes : (Record.codec.encodeAll (before ++ record :: after)).set
        ((Record.codec.encodeAll before).length + position) byte
      = Record.codec.encodeAll before
        ++ (record.toBeBytes.set position byte ++ Record.codec.encodeAll after) := by
    rw [FrameCodec.encodeAll_append, FrameCodec.encodeAll_cons,
      List.set_append_right _ _ (Nat.le_add_right _ _), Nat.add_sub_cancel_left]
    exact congrArg _ (List.set_append_left _ _ inside)
  rw [bytes, unnoticed_append valid, unnoticed_of_error read]
  decide

/-- Records that were read without an error are those that the bytes begin with. -/
theorem exists_tail_of_blockRecords {fuel : Nat} {bytes : Bytes} {records : List Record}
    (read : blockRecords fuel bytes = records.map .ok)
    : ∃ tail, bytes = Record.codec.encodeAll records ++ tail := by
  induction records generalizing fuel bytes with
  | nil => exact ⟨bytes, rfl⟩
  | cons record rest ih =>
      cases fuel with
      | zero => cases read
      | succ fuel =>
          rw [blockRecords] at read
          split at read
          · cases read
          · cases first : Record.readNext bytes with
            | error error =>
                rw [first] at read
                dsimp only at read
                split at read <;> cases read
            | ok found =>
                obtain ⟨other, behind⟩ := found
                rw [first, List.map_cons] at read
                obtain ⟨same, later⟩ := List.cons.inj read
                obtain rfl := Except.ok.inj same
                obtain ⟨tail, rfl⟩ := ih later
                refine ⟨tail, ?_⟩
                rw [Record.readNext_encoded first, FrameCodec.encodeAll_cons,
                  List.append_assoc]
                rfl

/-- Blocks without an error are read one after the other. -/
theorem iterBlocks_intact {blocks : List Block}
    (intact
      : ∀ block ∈ blocks, ∀ error,
        .error error ∉ blockRecords block.data.length block.data)
    : iterBlocks blocks
      = blocks.flatMap (fun block => blockRecords block.data.length block.data) := by
  induction blocks with
  | nil => rfl
  | cons block rest ih =>
      have first : (blockRecords block.data.length block.data).all Except.isOk = true := by
        rw [List.all_eq_true]
        intro item member
        cases item with
        | ok record => rfl
        | error error => exact absurd member (intact block (by simp) error)
      have later := ih (fun other member => intact other (List.mem_cons_of_mem _ member))
      simp only [iterBlocks, first, if_true, later, List.flatMap_cons]

-----------------------------------------------------------------------------------------
-- The blocks of a changed file
-----------------------------------------------------------------------------------------

section Change

variable {targetBlockSize : Nat} {front back : List (List Record)} {group : List Record}

/-- The blocks of a plain table, one of them with a changed byte. -/
def changedBlocks (targetBlockSize : Nat) (front : List (List Record)) (group : List Record)
    (back : List (List Record)) (position : Nat) (byte : UInt8)
    : List Block :=
  blocksOf targetBlockSize false front
    ++ {
        blockOf (.ofCompression targetBlockSize false) group with
        data := (Record.codec.encodeAll group).set position byte
      }
    :: blocksOf targetBlockSize false back

theorem length_blockFiles (targetBlockSize : Nat) (groups : List (List Record))
    : ((blocksOf targetBlockSize false groups).flatMap (blockFile false)).length
      = sizeOf (.ofCompression targetBlockSize false) groups := by
  induction groups with
  | nil => rfl
  | cons group rest ih =>
      rw [blocksOf, List.map_cons, List.flatMap_cons, List.length_append, length_blockFile,
        ← blocksOf, ih, sizeOf, sizeOf, List.map_cons, List.sum_cons]

theorem blockFile_plain (block : Block)
    : blockFile false block
      = (flushedHeader false block.data block.data).toBytes ++ block.data := rfl

/-- A changed byte of a body leaves the headers of the blocks as they are. -/
theorem set_blockFiles (targetBlockSize : Nat) (front back : List (List Record))
    {position : Nat} (inside : position < (Record.codec.encodeAll group).length) (byte : UInt8)
    : ((blocksOf targetBlockSize false (front ++ group :: back)).flatMap
          (blockFile false)).set
        (sizeOf (.ofCompression targetBlockSize false) front + blockHeaderLen + position) byte
      = (changedBlocks targetBlockSize front group back position byte).flatMap
          (blockFile false) := by
  have start := length_blockFiles targetBlockSize front
  have header : (flushedHeader false (Record.codec.encodeAll group)
      (Record.codec.encodeAll group)).toBytes.length = blockHeaderLen :=
    BlockHeader.length_toBytes _
  have same : flushedHeader false ((Record.codec.encodeAll group).set position byte)
        ((Record.codec.encodeAll group).set position byte)
      = flushedHeader false (Record.codec.encodeAll group) (Record.codec.encodeAll group) := by
    simp only [flushedHeader, List.length_set]
  rw [blocksOf, List.map_append, ← blocksOf, List.map_cons, ← blocksOf, List.flatMap_append,
    List.flatMap_cons, changedBlocks, List.flatMap_append, List.flatMap_cons,
    List.set_append_right _ _ (by omega), start, blockFile_plain, blockFile_plain]
  congr 1
  dsimp only [blockOf]
  rw [same, List.append_assoc, List.append_assoc, List.set_append_right _ _ (by omega), header,
    List.set_append_left _ _ (by omega)]
  congr 3
  omega

/-- Records that fit the limits are written so that they are read back, all others so that
they are refused.
-/
theorem valid_iff_fits {targetBlockSize : Nat} {memtable : Memtable}
    {groups : List (List Record)} (same : groups.flatten = memtableRecords memtable)
    (fits : ∀ group ∈ groups, StoredTable.FitsHeader targetBlockSize false group)
    {record : Record} (member : record ∈ groups.flatten)
    : (Record.Fits record.key record.value → Record.codec.Valid record)
      ∧ (¬ Record.Fits record.key record.value → Record.Oversized record) := by
  obtain ⟨group, inGroups, inGroup⟩ := List.mem_flatten.mp member
  have small : (Record.codec.encodeAll group).length < 2 ^ 32 := fits group inGroups
  have inside : (Record.codec.encode record).length
      ≤ (Record.codec.encodeAll group).length := by
    obtain ⟨before, after, rfl⟩ := List.append_of_mem inGroup
    simp only [FrameCodec.encodeAll_append, FrameCodec.encodeAll_cons, List.length_append]
    omega
  have texts : record.key.utf8ByteSize + record.value.utf8ByteSize
      ≤ (Record.codec.encode record).length := by
    change _ ≤ record.toBeBytes.length
    simp only [Record.toBeBytes, RecordHeader.payload, List.length_append, length_asBytes]
    omega
  rw [same] at member
  obtain ⟨key, entry, -, rfl⟩ := mem_memtableRecords.mp member
  refine ⟨fun within => ⟨(Record.wellFormed_make within _ _).sealed, rfl⟩, fun exceeds => ?_⟩
  have keyBound : key.utf8ByteSize < uintBound := by
    change key.utf8ByteSize + (entry.value.getD "").utf8ByteSize ≤ _ at texts
    simp only [uintBound]
    omega
  have valueBound : (entry.value.getD "").utf8ByteSize < uintBound := by
    change key.utf8ByteSize + (entry.value.getD "").utf8ByteSize ≤ _ at texts
    simp only [uintBound]
    omega
  rcases valid_or_oversized keyBound valueBound with valid | oversized
  · exact absurd ⟨valid.1.keyLimit, valid.1.valueLimit⟩ exceeds
  · exact oversized

/-- The changed file is still read block by block. -/
theorem iter_damage (path : TablePath)
    (fits
      : ∀ block ∈ front ++ group :: back, StoredTable.FitsHeader targetBlockSize false block)
    {position : Nat} (inside : position < (Record.codec.encodeAll group).length) (byte : UInt8)
    : ((StoredTable.ofGroups targetBlockSize false path (front ++ group :: back)).damage
          (sizeOf (.ofCompression targetBlockSize false) front + blockHeaderLen + position)
          byte).iter
      = some (iterBlocks
          (changedBlocks targetBlockSize front group back position byte)) := by
  have count := length_le_blockFiles targetBlockSize false (front ++ group :: back)
  have file := set_blockFiles targetBlockSize front back inside byte
  unfold StoredTable.iter StoredTable.damage StoredTable.ofGroups
  dsimp only
  rw [file]
  refine readItems_stored ?_ ?_
  · intro block member stored kept
    obtain rfl := Option.some.inj kept
    simp only [changedBlocks, List.mem_append, List.mem_cons, blocksOf, List.mem_map] at member
    rcases member with ⟨other, found, rfl⟩ | rfl | ⟨other, found, rfl⟩
    · exact fits other (by simp [found])
    · rw [List.length_set]
      exact fits group (by simp)
    · exact fits other (by simp [found])
  · rw [← file, List.length_set]
    simp only [changedBlocks, blocksOf, List.length_append, List.length_cons,
      List.length_map] at count ⊢
    omega

/-- The blocks beside the changed one give no error exactly when their records fit. -/
theorem blockRecords_group_iff {records : List Record}
    (each
      : ∀ record ∈ records,
        (Record.Fits record.key record.value → Record.codec.Valid record)
        ∧ (¬ Record.Fits record.key record.value → Record.Oversized record))
    : (∀ error,
        .error error ∉ blockRecords (Record.codec.encodeAll records).length
          (Record.codec.encodeAll records))
      ↔ ∀ record ∈ records, Record.Fits record.key record.value := by
  constructor
  · intro intact record member
    by_contra exceeds
    have refused : ∀ other ∈ records, Record.codec.Valid other ∨ Record.Oversized other := by
      intro other inside
      by_cases within : Record.Fits other.key other.value
      · exact .inl ((each other inside).1 within)
      · exact .inr ((each other inside).2 within)
    obtain ⟨error, held⟩ := error_mem_blockRecords refused member
      ((each record member).2 exceeds) le_rfl
    exact intact error held
  · intro within error held
    rw [blockRecords_encodeAll (fun record member => (each record member).1
      (within record member)) le_rfl] at held
    simp at held

theorem flatMap_blocksOf {groups : List (List Record)}
    (valid : ∀ group ∈ groups, ∀ record ∈ group, Record.codec.Valid record)
    : (blocksOf targetBlockSize false groups).flatMap
        (fun block => blockRecords block.data.length block.data)
      = groups.flatten.map .ok := by
  induction groups with
  | nil => rfl
  | cons group rest ih =>
      have later := ih (fun other member => valid other (List.mem_cons_of_mem _ member))
      rw [blocksOf, List.map_cons, ← blocksOf, List.flatMap_cons, later, List.flatten_cons,
        List.map_append]
      exact congrArg (· ++ _) (blockRecords_encodeAll (valid group (by simp)) le_rfl)

theorem blockOf_mem_changedBlocks {other : List Record} (member : other ∈ front ++ back)
    (position : Nat) (byte : UInt8)
    : blockOf (.ofCompression targetBlockSize false) other
      ∈ changedBlocks targetBlockSize front group back position byte := by
  rcases List.mem_append.mp member with before | behind
  · exact List.mem_append_left _ (List.mem_map_of_mem before)
  · exact List.mem_append_right _ (List.mem_cons_of_mem _ (List.mem_map_of_mem behind))

/-- Where neither the changed block nor another one gives an error, a pass yields the records
of the other blocks around those of the changed one.
-/
theorem iterBlocks_changedBlocks
    (valid : ∀ other ∈ front ++ back, ∀ record ∈ other, Record.codec.Valid record)
    {position : Nat} {byte : UInt8}
    (unnoticed : Unnoticed ((Record.codec.encodeAll group).set position byte))
    : iterBlocks (changedBlocks targetBlockSize front group back position byte)
      = front.flatten.map .ok
        ++ (blockRecords ((Record.codec.encodeAll group).set position byte).length
              ((Record.codec.encodeAll group).set position byte)
            ++ back.flatten.map .ok) := by
  have intact (other : List Record) (member : other ∈ front ++ back) (error : IoError)
      : .error error ∉ blockRecords (Record.codec.encodeAll other).length
          (Record.codec.encodeAll other) := by
    rw [blockRecords_encodeAll (valid other member) le_rfl]
    simp
  rw [iterBlocks_intact, changedBlocks, List.flatMap_append, List.flatMap_cons,
    flatMap_blocksOf (fun other member => valid other (List.mem_append_left _ member)),
    flatMap_blocksOf (fun other member => valid other (List.mem_append_right _ member))]
  intro block member
  rcases List.mem_append.mp member with before | behind
  · obtain ⟨other, found, rfl⟩ := List.mem_map.mp before
    exact intact other (List.mem_append_left _ found)
  · rcases List.mem_cons.mp behind with rfl | behind
    · exact (blockRecords_unnoticed le_rfl).mpr unnoticed
    · obtain ⟨other, found, rfl⟩ := List.mem_map.mp behind
      exact intact other (List.mem_append_right _ found)

/-- Without an error, a pass yields other records than before the change. Witness: the changed
body would have to begin with the bytes of all its records.
-/
theorem not_faithful_changedBlocks
    (valid : ∀ other ∈ front ++ back, ∀ record ∈ other, Record.codec.Valid record)
    {position : Nat} (inside : position < (Record.codec.encodeAll group).length) {byte : UInt8}
    (differs : (Record.codec.encodeAll group)[position]? ≠ some byte)
    (unnoticed : Unnoticed ((Record.codec.encodeAll group).set position byte))
    : ¬ Faithful (front ++ group :: back).flatten
        (iterBlocks (changedBlocks targetBlockSize front group back position byte)) := by
  intro faithful
  rw [Faithful, iterBlocks_changedBlocks valid unnoticed] at faithful
  rcases faithful with ⟨error, held⟩ | same
  · simp only [List.mem_append, List.mem_map, reduceCtorEq, and_false, exists_false,
      false_or, or_false] at held
    exact (blockRecords_unnoticed le_rfl).mpr unnoticed error held
  · rw [List.flatten_append, List.flatten_cons, List.map_append, List.map_append,
      List.append_right_inj, List.append_left_inj] at same
    obtain ⟨tail, bytes⟩ := exists_tail_of_blockRecords same
    have length := congrArg List.length bytes
    rw [List.length_set, List.length_append] at length
    obtain rfl : tail = [] := List.length_eq_zero_iff.mp (by omega)
    rw [List.append_nil] at bytes
    refine differs ?_
    rw [← bytes]
    exact List.getElem?_set_self inside

theorem faithful_changedBlocks_iff
    (each
      : ∀ record ∈ (front ++ group :: back).flatten,
        (Record.Fits record.key record.value → Record.codec.Valid record)
        ∧ (¬ Record.Fits record.key record.value → Record.Oversized record))
    {position : Nat} (inside : position < (Record.codec.encodeAll group).length) {byte : UInt8}
    (differs : (Record.codec.encodeAll group)[position]? ≠ some byte)
    : Faithful (front ++ group :: back).flatten
        (iterBlocks (changedBlocks targetBlockSize front group back position byte))
      ↔ (∃ record ∈ (front ++ back).flatten, ¬ Record.Fits record.key record.value)
        ∨ ¬ Unnoticed ((Record.codec.encodeAll group).set position byte) := by
  have eachBeside (other : List Record) (member : other ∈ front ++ back) (record : Record)
      (held : record ∈ other)
      : (Record.Fits record.key record.value → Record.codec.Valid record)
        ∧ (¬ Record.Fits record.key record.value → Record.Oversized record) := by
    have among : other ∈ front ++ group :: back := by
      rcases List.mem_append.mp member with before | behind
      · exact List.mem_append_left _ before
      · exact List.mem_append_right _ (List.mem_cons_of_mem _ behind)
    exact each record (List.mem_flatten.mpr ⟨other, among, held⟩)
  constructor
  · intro faithful
    by_contra unnoticed
    rw [not_or, not_not] at unnoticed
    obtain ⟨all, unnoticed⟩ := unnoticed
    refine not_faithful_changedBlocks ?_ inside differs unnoticed faithful
    intro other member record held
    refine (eachBeside other member record held).1 ?_
    by_contra exceeds
    exact all ⟨record, List.mem_flatten.mpr ⟨other, member, held⟩, exceeds⟩
  · rintro (⟨record, member, exceeds⟩ | noticed)
    · obtain ⟨other, inBlocks, inOther⟩ := List.mem_flatten.mp member
      have fails := (blockRecords_group_iff (eachBeside other inBlocks)).not.mpr
        (fun within => exceeds (within record inOther))
      rw [not_forall] at fails
      obtain ⟨error, inItems⟩ := fails
      exact .inl (error_mem_iterBlocks (blockOf_mem_changedBlocks inBlocks position byte)
        (not_not.mp inItems))
    · have fails := (blockRecords_unnoticed le_rfl).not.mpr noticed
      rw [not_forall] at fails
      obtain ⟨error, inItems⟩ := fails
      exact .inl (error_mem_iterBlocks (List.mem_append_right _ List.mem_cons_self)
        (not_not.mp inItems))

/-- A pass over a plain table with a changed byte in a block body reports an error or yields
the original records exactly when a record of another block is over the limits, or the changed
body is not made of complete records up to one that is cut off.
-/
theorem StoredTable.iter_damaged_iff {path : TablePath} {memtable : Memtable}
    {table : StoredTable}
    (flushed : StoredTable.fromMemtable targetBlockSize false path memtable = some table)
    (groups
      : blockGroups targetBlockSize (memtableRecords memtable) = front ++ group :: back)
    (fits : ∀ block ∈ front ++ group :: back, FitsHeader targetBlockSize false block)
    {position : Nat} (inside : position < (Record.codec.encodeAll group).length) {byte : UInt8}
    (differs : (Record.codec.encodeAll group)[position]? ≠ some byte)
    : ∃ items,
        (table.damage
            (sizeOf (.ofCompression targetBlockSize false) front + blockHeaderLen + position)
            byte).iter
          = some items
        ∧ (Faithful (memtableRecords memtable) items
          ↔ (∃ record ∈ (front ++ back).flatten, ¬ Record.Fits record.key record.value)
            ∨ ¬ Unnoticed ((Record.codec.encodeAll group).set position byte)) := by
  have same : (front ++ group :: back).flatten = memtableRecords memtable := by
    rw [← groups]
    exact (SSTable.fromMemtable_blockGroups (.ofCompression targetBlockSize false) path
      memtable).1
  rw [fromMemtable_blockGroups, groups] at flushed
  obtain rfl := Option.some.inj flushed
  refine ⟨_, iter_damage path fits inside byte, ?_⟩
  rw [← same]
  exact faithful_changedBlocks_iff (fun record member => valid_iff_fits same fits member)
    inside differs

end Change

/-- One key with a value of one byte. -/
def oneEntry : Memtable :=
  Memtable.new.insert "a" "1" none

/-- Witness: a byte of the checksum is changed. -/
theorem StoredTable.iter_damaged_iff_checksum
    : ∃ table items,
        StoredTable.fromMemtable 4096 false { level := none, timestamp := 0 } oneEntry
          = some table
        ∧ (table.damage 9 0).iter = some items
        ∧ (Faithful (memtableRecords oneEntry) items
          ↔ (∃ record ∈ ([] ++ [] : List (List Record)).flatten,
              ¬ Record.Fits record.key record.value)
            ∨ ¬ Unnoticed ((Record.codec.encodeAll (memtableRecords oneEntry)).set 0 0)) := by
  have groups : blockGroups 4096 (memtableRecords oneEntry)
      = [] ++ memtableRecords oneEntry :: [] := by
    decide +kernel
  have inside : 0 < (Record.codec.encodeAll (memtableRecords oneEntry)).length := by
    decide +kernel
  have differs : (Record.codec.encodeAll (memtableRecords oneEntry))[0]? ≠ some 0 := by
    decide +kernel
  have fits : ∀ block ∈ [] ++ memtableRecords oneEntry :: [], FitsHeader 4096 false block := by
    decide +kernel
  have built := fromMemtable_blockGroups 4096 false { level := none, timestamp := 0 } oneEntry
  obtain ⟨items, read, faithful⟩ := iter_damaged_iff built groups fits inside differs
  exact ⟨_, items, built, read, faithful⟩

/-- With the size of its value changed from one to two, the only record of a table is gone, and
no error says so.
-/
theorem StoredTable.changed_size_unnoticed
    : ∃ table,
        StoredTable.fromMemtable 4096 false { level := none, timestamp := 0 } oneEntry
          = some table
        ∧ table.file[28]? = some 1
        ∧ (table.damage 28 2).iter = some []
        ∧ ¬ Faithful (memtableRecords oneEntry) [] := by
  have built := fromMemtable_blockGroups 4096 false { level := none, timestamp := 0 } oneEntry
  refine ⟨_, built, by decide +kernel, ?_, ?_⟩
  · have none : ((StoredTable.damage (ofGroups 4096 false { level := none, timestamp := 0 }
        (blockGroups 4096 (memtableRecords oneEntry))) 28 2).iter.map List.isEmpty)
        = some true := by
      decide +kernel
    obtain ⟨items, read, empty⟩ := Option.map_eq_some_iff.mp none
    rw [read, List.isEmpty_iff.mp empty]
  · rintro (⟨error, held⟩ | same)
    · cases held
    · have some : (memtableRecords oneEntry).length = 1 := by
        decide +kernel
      have lengths := congrArg List.length same
      rw [List.length_map, some] at lengths
      cases lengths


end Rustikv.Lsm

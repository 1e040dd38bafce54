import Rustikv.Format.Lz77
import Rustikv.Lsm.TableLayout

/-! The bytes of a table file. Each block is stored behind a header, as it is or compressed,
and the readers find the blocks that were written.
-/

namespace Rustikv.Lsm

open Library

-----------------------------------------------------------------------------------------
-- Blocks in a file
-----------------------------------------------------------------------------------------

structure BlockHeader where
  uncompressedSize : UInt32
  storedSize : UInt32
  compressionFlag : UInt8
  deriving DecidableEq, Repr

namespace BlockHeader

def toBytes (header : BlockHeader) : Bytes :=
  u32Bytes header.uncompressedSize ++ u32Bytes header.storedSize ++ [header.compressionFlag]

def fromBytes (bytes : Bytes) : BlockHeader :=
  {
    uncompressedSize := u32OfBytes (bytes.take 4)
    storedSize := u32OfBytes ((bytes.drop 4).take 4)
    compressionFlag := (bytes.drop 8).headD 0
  }

@[simp]
theorem length_toBytes (header : BlockHeader) : header.toBytes.length = blockHeaderLen := by
  simp [toBytes, blockHeaderLen]

@[simp]
theorem fromBytes_toBytes (header : BlockHeader) : fromBytes header.toBytes = header := by
  simp [fromBytes, toBytes]

end BlockHeader

/-- The body of a block as it is stored; nothing where the encoder panics. -/
def storedBytes (compressionEnabled : Bool) (buffer : Bytes) : Option Bytes :=
  if compressionEnabled then Lz77.encode buffer else some buffer

/-- The bytes `BlockWriter::flush` returns for its buffer. -/
def blockBytes (compressionEnabled : Bool) (buffer : Bytes) : Option Bytes := do
  let stored ← storedBytes compressionEnabled buffer
  let header : BlockHeader :=
    {
      uncompressedSize := UInt32.ofNat buffer.length
      storedSize := UInt32.ofNat stored.length
      compressionFlag := if compressionEnabled then 1 else 0
    }
  return header.toBytes ++ stored

/-- The block behind a header and the rest of the file; nothing where the decoder panics. -/
def readBlock (file : Bytes) (header : BlockHeader)
    : Option (Except IoError (Bytes × Bytes)) :=
  if header.compressionFlag = 0 then
    some (readExact header.storedSize.toNat file)
  else if header.compressionFlag = 1 then
    match readExact header.storedSize.toNat file with
    | .error error => some (.error error)
    | .ok (stored, rest) => (Lz77.decode stored).map (fun data => .ok (data, rest))
  else
    some (.error
      {
        kind := .invalidData
        message := "Invalid compression flag found " ++ toString header.compressionFlag
      })

/-- What `SSTableIter` yields from an offset on; nothing where it panics. It is done at the
end of the file and after an error.
-/
def readItems : Nat → Bytes → Option (List (Except IoError Record))
  | 0, _ => some []
  | fuel + 1, file =>
      match readExact blockHeaderLen file with
      | .error _ => some []
      | .ok (headerBytes, rest) => do
          match ← readBlock rest (.fromBytes headerBytes) with
          | .error error => return [.error error]
          | .ok (data, rest) =>
              let items := blockRecords data.length data
              if items.all Except.isOk then
                let more ← readItems fuel rest
                return items ++ more
              else
                return items

-----------------------------------------------------------------------------------------
-- Tables with their files
-----------------------------------------------------------------------------------------

/-- The settings under which blocks take the bytes that are stored for them. -/
def BlockSettings.ofCompression (targetBlockSize : Nat) (compressionEnabled : Bool)
    : BlockSettings :=
  {
    targetBlockSize
    storedSize := fun data =>
      ((storedBytes compressionEnabled data).map List.length).getD 0
  }

/-- A table and the bytes of its file. -/
structure StoredTable where
  table : SSTable
  file : Bytes

namespace StoredTable

def fromMemtable (targetBlockSize : Nat) (compressionEnabled : Bool) (path : TablePath)
    (memtable : Memtable)
    : Option StoredTable := do
  let table := SSTable.fromMemtable (.ofCompression targetBlockSize compressionEnabled) path
    memtable
  let blocks ← table.blocks.mapM (fun block => blockBytes compressionEnabled block.data)
  return { table, file := blocks.flatten }

def iter (table : StoredTable) : Option (List (Except IoError Record)) :=
  readItems (table.file.length + 1) table.file

def get (table : StoredTable) (key : String) (nowMs : UInt64)
    : Option (Except IoError (Option (Option String))) :=
  if !table.table.bloom.mightContain key then
    some (.ok none)
  else
    let offset := offsetIn table.table.sparseIndex key
    (readItems (table.file.length + 1) (table.file.drop offset)).map (scanFor key nowMs)

end StoredTable

-----------------------------------------------------------------------------------------
-- Reading the blocks that were written
-----------------------------------------------------------------------------------------

/-- Buffers below this size have stored sizes that fit the header. -/
def bufferLimit : Nat := 2 ^ 31

/-- A body that is stored at all is read back from the stored bytes. -/
theorem storedBytes_spec (compressionEnabled : Bool) (buffer : Bytes)
    : ∃ stored,
        storedBytes compressionEnabled buffer = some stored
        ∧ stored.length ≤ 2 * buffer.length
        ∧ (if compressionEnabled then Lz77.decode stored else some stored) = some buffer := by
  cases compressionEnabled with
  | false => exact ⟨buffer, rfl, by omega, rfl⟩
  | true =>
      obtain ⟨stored, encoded, bound, decoded⟩ := Lz77.encode_spec buffer
      exact ⟨stored, encoded, bound, decoded⟩

/-- The header in front of a stored body; sizes from 2^32 on do not fit it. -/
def flushedHeader (compressionEnabled : Bool) (buffer stored : Bytes) : BlockHeader :=
  {
    uncompressedSize := UInt32.ofNat buffer.length
    storedSize := UInt32.ofNat stored.length
    compressionFlag := if compressionEnabled then 1 else 0
  }

theorem blockBytes_eq {compressionEnabled : Bool} {buffer stored : Bytes}
    (kept : storedBytes compressionEnabled buffer = some stored)
    : blockBytes compressionEnabled buffer
      = some ((flushedHeader compressionEnabled buffer stored).toBytes ++ stored) := by
  rw [blockBytes, kept]
  rfl

/-- Compressed data are literals and bounded matches, at most twice as long as the data, so
that a buffer below 2^31 bytes is stored with its size in the header.
-/
theorem encode_expansion (data : Bytes)
    : ∃ output,
        Lz77.encode data = some output
        ∧ output.length ≤ 2 * data.length
        ∧ (∃ tokens : List Lz77.Token,
            output = tokens.flatMap Lz77.Token.bytes
            ∧ ∀ found,
                .copy found ∈ tokens
                → 3 ≤ found.len
                  ∧ found.len ≤ 258
                  ∧ 1 ≤ found.offset
                  ∧ found.offset ≤ 32768)
        ∧ (data.length < bufferLimit
          → blockBytes true data = some ((flushedHeader true data output).toBytes ++ output)
            ∧ (flushedHeader true data output).storedSize.toNat = output.length) := by
  obtain ⟨output, encoded, tokens⟩ := Lz77.encode_tokens data
  have bound : output.length ≤ 2 * data.length := tokens.length_le
  obtain ⟨parts, same, bounded, -⟩ := tokens.exists_tokens
  refine ⟨output, encoded, bound, ⟨parts, same, fun found member => bounded _ member⟩, ?_⟩
  intro small
  refine ⟨blockBytes_eq encoded, UInt32.toNat_ofNat_of_lt' ?_⟩
  have fits : output.length < 2 ^ 32 := by
    simp only [bufferLimit] at small
    omega
  exact fits

/-- A block whose stored size fits the header is read back, whatever follows it. -/
theorem readBlock_flushed {compressionEnabled : Bool} {buffer stored : Bytes}
    (fits : stored.length < 2 ^ 32)
    (back
      : (if compressionEnabled then Lz77.decode stored else some stored) = some buffer)
    (rest : Bytes)
    : readBlock (stored ++ rest) (flushedHeader compressionEnabled buffer stored)
      = some (.ok (buffer, rest)) := by
  have size : stored.length = (UInt32.ofNat stored.length).toNat :=
    (UInt32.toNat_ofNat_of_lt' fits).symm
  have read := readExact_append size rest
  cases compressionEnabled with
  | false =>
      obtain rfl := Option.some.inj back
      simp only [flushedHeader, readBlock, Bool.false_eq_true, if_false, if_true, read]
  | true =>
      have decoded : Lz77.decode stored = some buffer := back
      have compressed : ¬ (1 : UInt8) = 0 := by
        decide
      simp only [flushedHeader, readBlock, if_true, if_neg compressed, read, decoded,
        Option.map_some]

/-- The bytes of a block that was written. -/
def blockFile (compressionEnabled : Bool) (block : Block) : Bytes :=
  (blockBytes compressionEnabled block.data).getD []

theorem blockFile_eq (compressionEnabled : Bool) (block : Block)
    : ∃ stored,
        storedBytes compressionEnabled block.data = some stored
        ∧ (if compressionEnabled then Lz77.decode stored else some stored) = some block.data
        ∧ blockFile compressionEnabled block
          = (flushedHeader compressionEnabled block.data stored).toBytes ++ stored := by
  obtain ⟨stored, kept, -, back⟩ := storedBytes_spec compressionEnabled block.data
  exact ⟨stored, kept, back, by rw [blockFile, blockBytes_eq kept]; rfl⟩

theorem readItems_nil (fuel : Nat) : readItems fuel [] = some [] := by
  cases fuel <;> rfl

/-- Reading a file of blocks whose stored sizes fit their headers yields what the blocks hold.
Witness: induction over the blocks.
-/
theorem readItems_stored {compressionEnabled : Bool} {blocks : List Block}
    (fits
      : ∀ block ∈ blocks, ∀ stored,
        storedBytes compressionEnabled block.data = some stored → stored.length < 2 ^ 32)
    {fuel : Nat} (enough : blocks.length ≤ fuel)
    : readItems fuel (blocks.flatMap (blockFile compressionEnabled))
      = some (iterBlocks blocks) := by
  induction blocks generalizing fuel with
  | nil => exact readItems_nil fuel
  | cons block rest ih =>
      cases fuel with
      | zero => simp at enough
      | succ fuel =>
          obtain ⟨stored, kept, back, bytes⟩ := blockFile_eq compressionEnabled block
          have read := readBlock_flushed (fits block (by simp) stored kept) back
          have later := ih (fun other member => fits other (List.mem_cons_of_mem _ member))
            (Nat.le_of_succ_le_succ enough)
          have file : (block :: rest).flatMap (blockFile compressionEnabled)
              = (flushedHeader compressionEnabled block.data stored).toBytes
                ++ (stored ++ rest.flatMap (blockFile compressionEnabled)) := by
            rw [List.flatMap_cons, bytes, List.append_assoc]
          rw [file, readItems, readExact_append (BlockHeader.length_toBytes _)]
          simp only [BlockHeader.fromBytes_toBytes, read, Option.bind_eq_bind,
            Option.bind_some, iterBlocks, later]
          split <;> rfl

theorem readItems_blocks {compressionEnabled : Bool} {blocks : List Block}
    (small : ∀ block ∈ blocks, block.data.length < bufferLimit) {fuel : Nat}
    (enough : blocks.length ≤ fuel)
    : readItems fuel (blocks.flatMap (blockFile compressionEnabled))
      = some (iterBlocks blocks) := by
  refine readItems_stored (fun block member stored kept => ?_) enough
  obtain ⟨other, again, bound, -⟩ := storedBytes_spec compressionEnabled block.data
  rw [kept] at again
  obtain rfl := Option.some.inj again
  have limit := small block member
  simp only [bufferLimit] at limit
  omega

section Layout

variable (targetBlockSize : Nat) (compressionEnabled : Bool)

/-- The blocks of these groups of records, as the writer makes them. -/
def blocksOf (groups : List (List Record)) : List Block :=
  groups.map (blockOf (.ofCompression targetBlockSize compressionEnabled))

/-- A block takes in the file what the writer counts for it. -/
theorem length_blockFile (group : List Record)
    : (blockFile compressionEnabled
        (blockOf (.ofCompression targetBlockSize compressionEnabled) group)).length
      = (blockOf (.ofCompression targetBlockSize compressionEnabled) group).size := by
  obtain ⟨stored, kept, -, file⟩ := blockFile_eq compressionEnabled
    (blockOf (.ofCompression targetBlockSize compressionEnabled) group)
  have size : storedBytes compressionEnabled (Record.codec.encodeAll group) = some stored :=
    kept
  rw [file, List.length_append, BlockHeader.length_toBytes]
  simp [blockOf, Block.size, BlockSettings.ofCompression, size]

/-- The file from the offset of a block on holds the blocks from that one on. -/
theorem drop_blockFiles (groups : List (List Record)) (count : Nat)
    : ((blocksOf targetBlockSize compressionEnabled groups).flatMap
          (blockFile compressionEnabled)).drop
        (sizeOf (.ofCompression targetBlockSize compressionEnabled) (groups.take count))
      = (blocksOf targetBlockSize compressionEnabled (groups.drop count)).flatMap
          (blockFile compressionEnabled) := by
  induction groups generalizing count with
  | nil => simp [sizeOf, blocksOf]
  | cons group rest ih =>
      cases count with
      | zero => simp [sizeOf]
      | succ count =>
          have first := length_blockFile targetBlockSize compressionEnabled group
          have later := ih count
          simp only [blocksOf, List.map_cons, List.flatMap_cons, List.take_succ_cons, sizeOf,
            List.sum_cons, List.drop_succ_cons] at later ⊢
          rw [← first, ← List.drop_drop, List.drop_left, later]

/-- A file has more bytes than blocks. -/
theorem length_le_blockFiles (groups : List (List Record))
    : groups.length
      ≤ ((blocksOf targetBlockSize compressionEnabled groups).flatMap
          (blockFile compressionEnabled)).length := by
  induction groups with
  | nil => simp
  | cons group rest ih =>
      have first := length_blockFile targetBlockSize compressionEnabled group
      simp only [blocksOf, List.map_cons, List.flatMap_cons, List.length_append,
        List.length_cons] at ih ⊢
      rw [first]
      simp only [Block.size, blockHeaderLen]
      omega

end Layout

-----------------------------------------------------------------------------------------
-- A memtable in a file
-----------------------------------------------------------------------------------------

/-- What a record in a table says, an expiry of a tombstone included. -/
def tableEntry (record : Record) : MemtableEntry :=
  {
    value := if record.header.isTombstone then none else some record.value
    expiryMs := record.header.expiryMs
  }

/-- The bytes of a memtable's records. -/
def serializedSize (memtable : Memtable) : Nat :=
  (Record.codec.encodeAll (memtableRecords memtable)).length

/-- Keys and values within the limits of the format. -/
def FitsTable (memtable : Memtable) : Prop :=
  ∀ key entry, memtable.entry key = some entry → Record.Fits key (entry.value.getD "")

theorem tableEntry_tableRecord (key : String) (entry : MemtableEntry)
    : tableEntry (tableRecord key entry).sealed = entry := by
  obtain ⟨value, expiryMs⟩ := entry
  have flag := Record.isTombstone_flagsOf value.isNone expiryMs
  cases value <;>
    simp_all [tableEntry, RecordHeader.isTombstone, Record.sealed, tableRecord, Record.make]

/-- A reader sees of a record what it would see of the entry. -/
theorem read_tableRecord (key : String) (entry : MemtableEntry) (nowMs : UInt64)
    : (tableRecord key entry).sealed.entry.read nowMs = entry.read nowMs := by
  obtain ⟨value, expiryMs⟩ := entry
  rw [tableRecord, Record.entry_sealed_make]
  cases value with
  | none => simp [MemtableEntry.read]
  | some value => simp

theorem FitsTable.grouped {memtable : Memtable} (fits : FitsTable memtable)
    {groups : List (List Record)} (same : groups.flatten = memtableRecords memtable)
    (filled : ∀ group ∈ groups, group ≠ [])
    : Grouped groups where
  filled := filled
  valid record member := by
    rw [same] at member
    obtain ⟨key, entry, found, rfl⟩ := mem_memtableRecords.mp member
    exact ⟨(Record.wellFormed_make (fits key entry found) _ _).sealed, rfl⟩
  sorted := by
    rw [same]
    exact sorted_memtableRecords memtable

theorem length_encodeAll_le {groups : List (List Record)} {group : List Record}
    (member : group ∈ groups)
    : (Record.codec.encodeAll group).length
      ≤ (Record.codec.encodeAll groups.flatten).length := by
  obtain ⟨front, back, rfl⟩ := List.append_of_mem member
  simp only [List.flatten_append, List.flatten_cons, FrameCodec.encodeAll_append,
    List.length_append]
  omega

theorem mapM_some {α β : Type} {write : α → Option β} {written : α → β} {items : List α}
    (each : ∀ item ∈ items, write item = some (written item))
    : items.mapM write = some (items.map written) := by
  induction items with
  | nil => rfl
  | cons item rest ih =>
      have later := ih (fun other member => each other (List.mem_cons_of_mem _ member))
      rw [List.mapM_cons, each item (by simp), later]
      rfl

namespace StoredTable

/-- A table of groups of records with its file. -/
def ofGroups (targetBlockSize : Nat) (compressionEnabled : Bool) (path : TablePath)
    (groups : List (List Record))
    : StoredTable :=
  {
    table := .ofGroups (.ofCompression targetBlockSize compressionEnabled) path groups
    file :=
      (blocksOf targetBlockSize compressionEnabled groups).flatMap
        (blockFile compressionEnabled)
  }

/-- A memtable is written as the blocks its records fill. -/
theorem fromMemtable_blockGroups (targetBlockSize : Nat) (compressionEnabled : Bool)
    (path : TablePath) (memtable : Memtable)
    : fromMemtable targetBlockSize compressionEnabled path memtable
      = some (ofGroups targetBlockSize compressionEnabled path
          (blockGroups targetBlockSize (memtableRecords memtable))) := by
  obtain ⟨-, -, built⟩ := SSTable.fromMemtable_blockGroups
    (.ofCompression targetBlockSize compressionEnabled) path memtable
  have written : (blocksOf targetBlockSize compressionEnabled
        (blockGroups targetBlockSize (memtableRecords memtable))).mapM
      (fun block => blockBytes compressionEnabled block.data)
      = some ((blocksOf targetBlockSize compressionEnabled
          (blockGroups targetBlockSize (memtableRecords memtable))).map
            (blockFile compressionEnabled)) := by
    refine mapM_some (fun block _ => ?_)
    obtain ⟨stored, kept, -, -⟩ := storedBytes_spec compressionEnabled block.data
    rw [blockFile, blockBytes_eq kept]
    rfl
  have blocks : (SSTable.fromMemtable (.ofCompression targetBlockSize compressionEnabled)
      path memtable).blocks
      = blocksOf targetBlockSize compressionEnabled
        (blockGroups targetBlockSize (memtableRecords memtable)) := by
    rw [built]
    rfl
  rw [fromMemtable, blocks, written, built]
  rfl

theorem fromMemtable_eq (targetBlockSize : Nat) (compressionEnabled : Bool)
    (path : TablePath) {memtable : Memtable} (size : serializedSize memtable < bufferLimit)
    : ∃ groups,
        groups.flatten = memtableRecords memtable
        ∧ (∀ group ∈ groups, group ≠ [])
        ∧ (∀ group ∈ groups, (Record.codec.encodeAll group).length < bufferLimit)
        ∧ fromMemtable targetBlockSize compressionEnabled path memtable
          = some (ofGroups targetBlockSize compressionEnabled path groups) := by
  obtain ⟨same, filled, -⟩ := SSTable.fromMemtable_blockGroups
    (.ofCompression targetBlockSize compressionEnabled) path memtable
  refine ⟨_, same, filled, fun group member => ?_,
    fromMemtable_blockGroups targetBlockSize compressionEnabled path memtable⟩
  refine lt_of_le_of_lt (length_encodeAll_le member) ?_
  rw [same]
  exact size

section Readers

variable {targetBlockSize : Nat} {compressionEnabled : Bool} {path : TablePath}
  {groups : List (List Record)}

theorem iter_ofGroups
    (small : ∀ group ∈ groups, (Record.codec.encodeAll group).length < bufferLimit)
    : (ofGroups targetBlockSize compressionEnabled path groups).iter
      = some (ofGroups targetBlockSize compressionEnabled path groups).table.iter := by
  have count := length_le_blockFiles targetBlockSize compressionEnabled groups
  refine readItems_blocks ?_ ?_
  · intro block member
    obtain ⟨group, found, rfl⟩ := List.mem_map.mp member
    exact small group found
  · simp only [ofGroups, blocksOf, List.length_map] at count ⊢
    omega

/-- A point lookup in the file is one in its blocks. -/
theorem get_ofGroups (grouped : Grouped groups)
    (small : ∀ group ∈ groups, (Record.codec.encodeAll group).length < bufferLimit)
    (key : String) (nowMs : UInt64)
    : (ofGroups targetBlockSize compressionEnabled path groups).get key nowMs
      = some ((ofGroups targetBlockSize compressionEnabled path groups).table.get key nowMs)
    := by
  obtain ⟨count, position, -⟩ := offsetIn_indexOf
    (.ofCompression targetBlockSize compressionEnabled) grouped key
  have total := length_le_blockFiles targetBlockSize compressionEnabled groups
  have read : readItems
        ((ofGroups targetBlockSize compressionEnabled path groups).file.length + 1)
        ((blocksOf targetBlockSize compressionEnabled (groups.drop count)).flatMap
          (blockFile compressionEnabled))
      = some (iterBlocks (blocksOf targetBlockSize compressionEnabled (groups.drop count)))
      := by
    refine readItems_blocks ?_ ?_
    · intro block member
      obtain ⟨group, found, rfl⟩ := List.mem_map.mp member
      exact small group (List.mem_of_mem_drop found)
    · simp only [ofGroups, blocksOf, List.length_map, List.length_drop] at total ⊢
      omega
  unfold StoredTable.get SSTable.get
  split
  · rfl
  · change (readItems _ (((blocksOf targetBlockSize compressionEnabled groups).flatMap
        (blockFile compressionEnabled)).drop
          (offsetIn (indexOf (.ofCompression targetBlockSize compressionEnabled) 0 groups)
            key))).map _
      = some (scanFor key nowMs (iterBlocks (seek
          (offsetIn (indexOf (.ofCompression targetBlockSize compressionEnabled) 0 groups)
            key)
          (groups.map (blockOf (.ofCompression targetBlockSize compressionEnabled))))))
    rw [position, drop_blockFiles targetBlockSize compressionEnabled, read,
      seek_sizeOf]
    rfl

end Readers

end StoredTable

/-- A memtable flushed to a file is read back: its entries in key order, and for each key
what the memtable says.
-/
theorem flushed_memtable_read_back (targetBlockSize : Nat) (compressionEnabled : Bool)
    (path : TablePath) (memtable : Memtable) (fits : FitsTable memtable)
    (size : serializedSize memtable < 2 ^ 31)
    : ∃ table,
        StoredTable.fromMemtable targetBlockSize compressionEnabled path memtable
          = some table
        ∧ (∃ records : List Record,
            table.iter = some (records.map .ok)
            ∧ records.map (fun record => (record.key, tableEntry record))
              = memtable.entries.toList
            ∧ records.Pairwise (fun left right => left.key < right.key))
        ∧ ∀ key nowMs,
            table.get key nowMs
            = some (.ok ((memtable.entry key).map (fun entry => entry.read nowMs))) := by
  obtain ⟨groups, same, filled, small, built⟩ := StoredTable.fromMemtable_eq targetBlockSize
    compressionEnabled path size
  have grouped := fits.grouped same filled
  let settings := BlockSettings.ofCompression targetBlockSize compressionEnabled
  have valid : (SSTable.ofGroups settings path groups).Valid := ⟨settings, groups, grouped, rfl⟩
  refine ⟨_, built, ⟨groups.flatten, ?_, ?_, grouped.sorted⟩, ?_⟩
  · rw [StoredTable.iter_ofGroups small]
    exact congrArg some (iterBlocks_groups settings grouped.valid)
  · rw [same, memtableRecords, List.map_map]
    conv_rhs => rw [← List.map_id memtable.entries.toList]
    refine List.map_congr_left (fun item _ => ?_)
    exact Prod.ext rfl (tableEntry_tableRecord item.1 item.2)
  · intro key nowMs
    rw [StoredTable.get_ofGroups grouped small]
    change some ((SSTable.ofGroups settings path groups).get key nowMs) = _
    rw [valid.get, SSTable.version, SSTable.records_ofGroups settings path grouped, same,
      earliest_memtableRecords]
    cases memtable.entry key with
    | none => rfl
    | some entry => simp [read_tableRecord]

/-- A value and a deletion. -/
def twoEntries : Memtable :=
  (Memtable.new.insert "a" "1" none).remove "b"

theorem fits_twoEntries : FitsTable twoEntries := by
  have storable : StorableTable twoEntries :=
    (storableTable_new.insert (by decide) none).remove (by decide)
  exact fun key entry found => (storable key entry found).fits

/-- Witness: compressed blocks of one record each. -/
theorem flushed_memtable_read_back_two
    : ∃ table,
        StoredTable.fromMemtable 8 true { level := none, timestamp := 0 } twoEntries
          = some table
        ∧ table.get "a" 5 = some (.ok (some (some "1")))
        ∧ table.get "b" 5 = some (.ok (some none))
        ∧ table.get "c" 5 = some (.ok none) := by
  have size : serializedSize twoEntries < 2 ^ 31 := by
    decide +kernel
  obtain ⟨table, built, -, get⟩ := flushed_memtable_read_back 8 true
    { level := none, timestamp := 0 } twoEntries fits_twoEntries size
  refine ⟨table, built, ?_, ?_, ?_⟩
  · simpa [twoEntries, MemtableEntry.read] using get "a" 5
  · simpa [twoEntries, MemtableEntry.read] using get "b" 5
  · simpa [twoEntries, MemtableEntry.read] using get "c" 5

end Rustikv.Lsm

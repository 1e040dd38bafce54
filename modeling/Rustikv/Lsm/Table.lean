import Rustikv.Format.Wal
import Rustikv.Lsm.Bloom

/-! SSTables: sorted records in blocks, with a sparse index and a Bloom filter. -/

namespace Rustikv.Lsm

open Library

def bloomBitsPerKey : Nat := 10
def bloomHashCount : Nat := 7
def blockHeaderLen : Nat := 9

-----------------------------------------------------------------------------------------
-- Blocks
-----------------------------------------------------------------------------------------

/-- `block_size_bytes` and `block_compression_enabled`. A block body is stored as it is or
LZ77-compressed; only its stored length is visible outside the block, so the second field
gives that length for each body.
-/
structure BlockSettings where
  targetBlockSize : Nat
  storedSize : Bytes → Nat

/-- Uncompressed blocks of 64 bytes. -/
def smallBlocks : BlockSettings :=
  { targetBlockSize := 64, storedSize := List.length }

/-- A block of a table file: its body before compression and the length it is stored in. -/
structure Block where
  data : Bytes
  storedSize : Nat
  deriving DecidableEq, Repr

def Block.size (block : Block) : Nat :=
  blockHeaderLen + block.storedSize

structure BlockWriter where
  settings : BlockSettings
  buffer : Bytes

namespace BlockWriter

def new (settings : BlockSettings) : BlockWriter :=
  { settings, buffer := [] }

def flush (writer : BlockWriter) : Option Block × BlockWriter :=
  if writer.buffer.isEmpty then
    (none, writer)
  else
    (some { data := writer.buffer, storedSize := writer.settings.storedSize writer.buffer },
      { writer with buffer := [] })

/-- The returned block, if any, is the one that was full before this record. -/
def addRecord (writer : BlockWriter) (record : Record) : Option Block × BlockWriter :=
  let data := record.toBeBytes
  let (flushed, writer) :=
    if writer.settings.targetBlockSize < data.length + writer.buffer.length then
      writer.flush
    else
      (none, writer)
  (flushed, { writer with buffer := writer.buffer ++ data })

end BlockWriter

-----------------------------------------------------------------------------------------
-- Tables
-----------------------------------------------------------------------------------------

/-- A table's file name: `{name}_L{level}_{timestamp}.sst` or `{name}_{timestamp}.sst`. -/
structure TablePath where
  level : Option Nat
  timestamp : Nat
  deriving DecidableEq, Repr

/-- A table together with the contents of its file, which is written once, before the
table exists, and never changed.
-/
structure SSTable where
  path : TablePath
  blocks : List Block
  sparseIndex : List (String × Nat)
  bloom : BloomFilter
  min : Option (String × Nat)
  max : Option (String × Nat)
  deriving DecidableEq, Repr

/-- The record a memtable entry is flushed as. -/
def tableRecord (key : String) (entry : MemtableEntry) : Record :=
  Record.make key (entry.value.getD "")
    (Record.flagsOf entry.value.isNone entry.expiryMs) entry.expiryMs

/-- The offset of the last block whose first key is at most `key`, else the file's start. -/
def offsetIn (sparseIndex : List (String × Nat)) (key : String) : Nat :=
  ((sparseIndex.takeWhile (fun item => item.1 ≤ key)).getLast?.map Prod.snd).getD 0

def newBloom (keyCount : Nat) : BloomFilter :=
  BloomFilter.new (max ((keyCount * bloomBitsPerKey + 7) / 8) 1) bloomHashCount

/-- The local variables of `SSTable::from_memtable`, with the blocks in the file so far. -/
structure TableWriter where
  blocks : List Block
  sparseIndex : List (String × Nat)
  bloom : BloomFilter
  lastKey : Option String
  blockWriter : BlockWriter
  fileOffset : Nat
  firstKeyInBlock : Option String

namespace TableWriter

def new (settings : BlockSettings) (keyCount : Nat) : TableWriter :=
  {
    blocks := []
    sparseIndex := []
    bloom := newBloom keyCount
    lastKey := none
    blockWriter := BlockWriter.new settings
    fileOffset := 0
    firstKeyInBlock := none
  }

def addEntry (writer : TableWriter) (item : String × MemtableEntry) : TableWriter :=
  let (key, entry) := item
  let firstKey := writer.firstKeyInBlock.getD key
  let (flushed, blockWriter) := writer.blockWriter.addRecord (tableRecord key entry)
  let writer :=
    { writer with bloom := writer.bloom.insert key, lastKey := some key, blockWriter }
  match flushed with
  | some block =>
      {
        writer with
        blocks := writer.blocks ++ [block]
        sparseIndex := writer.sparseIndex ++ [(firstKey, writer.fileOffset)]
        fileOffset := writer.fileOffset + block.size
        firstKeyInBlock := some key
      }
  | none => { writer with firstKeyInBlock := some firstKey }

def finish (writer : TableWriter) (path : TablePath) : SSTable :=
  let (blocks, sparseIndex) :=
    match writer.blockWriter.flush.1 with
    | some block =>
        (writer.blocks ++ [block],
          writer.sparseIndex
            ++ (writer.firstKeyInBlock.map (fun key => (key, writer.fileOffset))).toList)
    | none => (writer.blocks, writer.sparseIndex)
  {
    path
    blocks
    sparseIndex
    bloom := writer.bloom
    min := sparseIndex.head?
    max := writer.lastKey.map (fun key => (key, offsetIn sparseIndex key))
  }

end TableWriter

/-- The records of one block. The loop leaves a block where the bytes end early, and any
other error is passed on.
-/
def blockRecords : Nat → Bytes → List (Except IoError Record)
  | 0, _ => []
  | fuel + 1, bytes =>
      if bytes.isEmpty then
        []
      else
        match Record.readNext bytes with
        | .ok (record, rest) => .ok record :: blockRecords fuel rest
        | .error error =>
            if error.kind == .unexpectedEof then [] else [.error error]

/-- What `SSTableIter` yields from a block boundary on; it is done after an error. -/
def iterBlocks : List Block → List (Except IoError Record)
  | [] => []
  | block :: rest =>
      let items := blockRecords block.data.length block.data
      if items.all Except.isOk then items ++ iterBlocks rest else items

/-- The blocks from a byte offset on. The offsets sought are block boundaries. -/
def seek : Nat → List Block → List Block
  | 0, blocks => blocks
  | _ + 1, [] => []
  | offset + 1, block :: rest => seek (offset + 1 - block.size) rest

/-- The scan loop of `SSTable::get`. -/
def scanFor (key : String) (nowMs : UInt64)
    : List (Except IoError Record) → Except IoError (Option (Option String))
  | [] => .ok none
  | .error error :: _ => .error error
  | .ok record :: rest =>
      match compare record.key key with
      | .gt => .ok none
      | .eq => .ok (some (record.entry.read nowMs))
      | .lt => scanFor key nowMs rest

namespace SSTable

def fromMemtable (settings : BlockSettings) (path : TablePath) (memtable : Memtable)
    : SSTable :=
  let entries := memtable.entries.toList
  (entries.foldl TableWriter.addEntry (TableWriter.new settings entries.length)).finish path

def iter (table : SSTable) : List (Except IoError Record) :=
  iterBlocks table.blocks

def get (table : SSTable) (key : String) (nowMs : UInt64)
    : Except IoError (Option (Option String)) :=
  if !table.bloom.mightContain key then
    .ok none
  else
    scanFor key nowMs (iterBlocks (seek (offsetIn table.sparseIndex key) table.blocks))

def sizeOnDisk (table : SSTable) : Nat :=
  (table.blocks.map Block.size).sum

/-- The sparse index and the keys `rebuild_index` reads from a file, from an offset on. -/
def scanBlocks : Nat → List Block → Except IoError (List (String × Nat) × List String)
  | _, [] => .ok ([], [])
  | offset, block :: rest => do
      let records ← (blockRecords block.data.length block.data).mapM id
      let (sparseIndex, keys) ← scanBlocks (offset + block.size) rest
      let first := records.head?.map (fun record => (record.key, offset))
      return (first.toList ++ sparseIndex, records.map Record.key ++ keys)

/-- `SSTable::parse` of the file's name followed by `rebuild_index`. -/
def rebuildIndex (path : TablePath) (blocks : List Block) : Except IoError SSTable := do
  let (sparseIndex, keys) ← scanBlocks 0 blocks
  return {
    path
    blocks
    sparseIndex
    bloom := keys.foldl BloomFilter.insert (newBloom keys.length)
    min := sparseIndex.head?
    max := keys.getLast?.map (fun key => (key, offsetIn sparseIndex key))
  }

/-- The records the table's file holds. -/
def records (table : SSTable) : List Record :=
  table.iter.filterMap Except.toOption

/-- What the table says about a key. -/
def version (table : SSTable) (key : String) : Option MemtableEntry :=
  (earliest Record.key table.records key).map Record.entry

end SSTable

end Rustikv.Lsm

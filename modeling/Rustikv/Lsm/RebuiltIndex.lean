import Rustikv.Lsm.StoredTable

/-! Rebuilding the index of a table from the bytes of its file. It finds again what the writer
kept, as long as the stored size of every block fits the block's header.
-/

namespace Rustikv.Lsm

open Library

/-- The fields of a table that `rebuild_index` computes. -/
structure TableIndex where
  sparseIndex : List (String × Nat)
  bloom : BloomFilter
  min : Option (String × Nat)
  max : Option (String × Nat)
  deriving DecidableEq, Repr

def SSTable.index (table : SSTable) : TableIndex :=
  {
    sparseIndex := table.sparseIndex
    bloom := table.bloom
    min := table.min
    max := table.max
  }

namespace StoredTable

/-- The loop of `rebuild_index` over the blocks of a file, from an offset on: the sparse index
and the keys. Nothing is returned where a decoder panics.
-/
def scanFile : Nat → Nat → Bytes → Option (Except IoError (List (String × Nat) × List String))
  | 0, _, _ => some (.ok ([], []))
  | fuel + 1, offset, file =>
      match readExact blockHeaderLen file with
      | .error _ => some (.ok ([], []))
      | .ok (headerBytes, rest) => do
          let header := BlockHeader.fromBytes headerBytes
          match ← readBlock rest header with
          | .error error => return .error error
          | .ok (data, rest) =>
              match (blockRecords data.length data).mapM id with
              | .error error => return .error error
              | .ok records =>
                  let first := records.head?.map (fun record => (record.key, offset))
                  let later ← scanFile fuel
                    (offset + blockHeaderLen + header.storedSize.toNat) rest
                  return later.map (fun (sparseIndex, keys) =>
                    (first.toList ++ sparseIndex, records.map Record.key ++ keys))

/-- Every block takes a byte, so the number of bytes is enough fuel. -/
def rebuildIndex (file : Bytes) : Option (Except IoError TableIndex) := do
  let scanned ← scanFile (file.length + 1) 0 file
  return scanned.map (fun (sparseIndex, keys) => {
    sparseIndex
    bloom := keys.foldl BloomFilter.insert (newBloom keys.length)
    min := sparseIndex.head?
    max := keys.getLast?.map (fun key => (key, offsetIn sparseIndex key))
  })

/-- What one turn of the loop does with a block that is read. -/
theorem scanFile_block {headerBytes rest left data : Bytes} {records : List Record}
    (size : headerBytes.length = blockHeaderLen)
    (read : readBlock rest (.fromBytes headerBytes) = some (.ok (data, left)))
    (held : (blockRecords data.length data).mapM id = .ok records) (fuel offset : Nat)
    : scanFile (fuel + 1) offset (headerBytes ++ rest)
      = (scanFile fuel
          (offset + blockHeaderLen + (BlockHeader.fromBytes headerBytes).storedSize.toNat)
          left).map
            (fun later => later.map (fun found =>
              ((records.head?.map (fun record => (record.key, offset))).toList ++ found.1,
                records.map Record.key ++ found.2))) := by
  rw [scanFile, readExact_append size]
  simp only [read, held, Option.bind_eq_bind, Option.bind_some, Option.pure_def]
  cases scanFile fuel
    (offset + blockHeaderLen + (BlockHeader.fromBytes headerBytes).storedSize.toNat) left <;>
    rfl

/-- The loop ends at once, or it reads a block and goes on behind it. -/
theorem scanFile_cases {fuel offset : Nat} {file : Bytes} {sparseIndex : List (String × Nat)}
    {keys : List String}
    (scanned : scanFile fuel offset file = some (.ok (sparseIndex, keys)))
    : (sparseIndex = [] ∧ keys = [])
      ∨ ∃ fewer headerBytes rest data left records laterIndex laterKeys,
          fuel = fewer + 1
          ∧ file = headerBytes ++ rest
          ∧ headerBytes.length = blockHeaderLen
          ∧ readBlock rest (.fromBytes headerBytes) = some (.ok (data, left))
          ∧ (blockRecords data.length data).mapM id = .ok records
          ∧ scanFile fewer
              (offset + blockHeaderLen + (BlockHeader.fromBytes headerBytes).storedSize.toNat)
              left
            = some (.ok (laterIndex, laterKeys))
          ∧ sparseIndex
            = (records.head?.map (fun record => (record.key, offset))).toList ++ laterIndex
          ∧ keys = records.map Record.key ++ laterKeys := by
  cases fuel with
  | zero =>
      obtain ⟨rfl, rfl⟩ := Prod.mk.inj (Except.ok.inj (Option.some.inj scanned))
      exact .inl ⟨rfl, rfl⟩
  | succ fewer =>
      rw [scanFile] at scanned
      cases head : readExact blockHeaderLen file with
      | error error =>
          rw [head] at scanned
          obtain ⟨rfl, rfl⟩ := Prod.mk.inj (Except.ok.inj (Option.some.inj scanned))
          exact .inl ⟨rfl, rfl⟩
      | ok parts =>
          obtain ⟨headerBytes, rest⟩ := parts
          obtain ⟨enough, front, back⟩ := readExact_eq_ok.mp head
          simp only [head] at scanned
          obtain ⟨block, read, scanned⟩ := Option.bind_eq_some_iff.mp scanned
          cases block with
          | error error => cases scanned
          | ok found =>
              obtain ⟨data, left⟩ := found
              dsimp only at scanned
              cases held : (blockRecords data.length data).mapM id with
              | error error =>
                  rw [held] at scanned
                  cases scanned
              | ok records =>
                  rw [held] at scanned
                  obtain ⟨later, tail, scanned⟩ := Option.bind_eq_some_iff.mp scanned
                  cases later with
                  | error error => cases scanned
                  | ok found =>
                      obtain ⟨same, keysSame⟩ :=
                        Prod.mk.inj (Except.ok.inj (Option.some.inj scanned))
                      refine .inr ⟨fewer, headerBytes, rest, data, left, records, found.1,
                        found.2, rfl, ?_, ?_, read, held, tail, same.symm, keysSame.symm⟩
                      · rw [front, back, List.take_append_drop]
                      · rw [front, List.length_take]
                        omega

/-- The offsets in the sparse index are those of blocks that are read. -/
theorem offset_le_scanFile {fuel offset : Nat} {file : Bytes}
    {sparseIndex : List (String × Nat)} {keys : List String}
    (scanned : scanFile fuel offset file = some (.ok (sparseIndex, keys)))
    : ∀ item ∈ sparseIndex, offset ≤ item.2 := by
  induction fuel generalizing offset file sparseIndex keys with
  | zero =>
      obtain ⟨rfl, -⟩ := Prod.mk.inj (Except.ok.inj (Option.some.inj scanned))
      simp
  | succ fuel ih =>
      rcases scanFile_cases scanned with ⟨rfl, -⟩ | ⟨fewer, _, _, _, _, records, _, _, count, -,
        -, -, -, later, rfl, -⟩
      · simp
      · obtain rfl := Nat.succ.inj count
        intro item member
        rcases List.mem_append.mp member with here | behind
        · cases first : records.head? with
          | none => simp [first] at here
          | some record =>
              rw [first, Option.map_some, Option.toList_some, List.mem_singleton] at here
              rw [here]
        · have further := ih later item behind
          omega

end StoredTable

-----------------------------------------------------------------------------------------
-- Blocks that are cut short
-----------------------------------------------------------------------------------------

/-- A body that ends early holds fewer records. Witness: induction on the records. -/
theorem length_blockRecords_take {records : List Record}
    (valid : ∀ record ∈ records, Record.codec.Valid record) {fuel cut : Nat}
    (short : cut < (Record.codec.encodeAll records).length) {found : List Record}
    (read
      : (blockRecords fuel ((Record.codec.encodeAll records).take cut)).mapM id = .ok found)
    : found.length < records.length := by
  induction records generalizing fuel cut found with
  | nil => simp at short
  | cons record rest ih =>
      cases fuel with
      | zero =>
          obtain rfl := Except.ok.inj read
          simp
      | succ fuel =>
          rw [FrameCodec.encodeAll_cons] at short read
          by_cases whole : (Record.codec.encode record).length ≤ cut
          · rw [List.take_append, List.take_of_length_le whole,
              blockRecords_append (valid record (by simp)), List.mapM_cons] at read
            obtain ⟨first, -, read⟩ := bind_eq_ok.mp read
            obtain ⟨later, tail, same⟩ := bind_eq_ok.mp read
            obtain rfl := Except.ok.inj same
            have fewer := ih (fun other member => valid other (List.mem_cons_of_mem _ member))
              (by rw [List.length_append] at short; omega) tail
            rw [List.length_cons, List.length_cons]
            omega
          · have torn : (Record.codec.encode record ++ Record.codec.encodeAll rest).take cut
                = (Record.codec.encode record).take cut :=
              List.take_append_of_le_length (by omega)
            obtain ⟨error, failed, ended⟩ := Record.readNext_torn (valid record (by simp))
              (List.take_append_drop cut (Record.codec.encode record))
              (by simp; omega)
            rw [torn, blockRecords, failed] at read
            simp only [ended, beq_self_eq_true, if_true, ite_self] at read
            have none : found = [] := (Except.ok.inj read).symm
            simp [none]

/-- Where the stored size does not fit the header, a shorter body is read, if any. -/
theorem readBlock_cut {compressionEnabled : Bool} {buffer stored : Bytes}
    (kept : storedBytes compressionEnabled buffer = some stored)
    (large : 2 ^ 32 ≤ stored.length) {rest data left : Bytes}
    (read
      : readBlock (stored ++ rest) (flushedHeader compressionEnabled buffer stored)
        = some (.ok (data, left)))
    : left = stored.drop (stored.length % 2 ^ 32) ++ rest
      ∧ ∃ cut < buffer.length, data = buffer.take cut := by
  have short : stored.length % 2 ^ 32 < stored.length :=
    (Nat.mod_lt _ (by decide)).trans_le large
  have split : readExact (stored.length % 2 ^ 32) (stored ++ rest)
      = .ok (stored.take (stored.length % 2 ^ 32),
        stored.drop (stored.length % 2 ^ 32) ++ rest) := by
    rw [readExact_eq_ok, List.take_append_of_le_length short.le,
      List.drop_append_of_le_length short.le, List.length_append]
    exact ⟨by omega, rfl, rfl⟩
  have size : (UInt32.ofNat stored.length).toNat = stored.length % 2 ^ 32 :=
    UInt32.toNat_ofNat'
  cases compressionEnabled with
  | false =>
      obtain rfl := Option.some.inj kept
      simp only [flushedHeader, readBlock, Bool.false_eq_true, if_false, if_true, size, split,
        Option.some.injEq, Except.ok.injEq, Prod.mk.injEq] at read
      exact ⟨read.2.symm, _, short, read.1.symm⟩
  | true =>
      have compressed : ¬ (1 : UInt8) = 0 := by
        decide
      simp only [flushedHeader, readBlock, if_true, if_neg compressed, size, split] at read
      obtain ⟨decoded, decodes, same⟩ := Option.map_eq_some_iff.mp read
      obtain ⟨rfl, rfl⟩ := Prod.mk.inj (Except.ok.inj same)
      refine ⟨rfl, ?_⟩
      obtain ⟨output, encoded, tokens⟩ := Lz77.encode_tokens buffer
      obtain rfl := Option.some.inj (encoded.symm.trans kept)
      have cut : (output.take (output.length % 2 ^ 32)).length = output.length % 2 ^ 32 := by
        rw [List.length_take]
        omega
      exact tokens.decodeLoop_take short (cut.ge) decodes

-----------------------------------------------------------------------------------------
-- Scanning the file of a table
-----------------------------------------------------------------------------------------

namespace StoredTable

section Layout

variable (targetBlockSize : Nat) (compressionEnabled : Bool)

/-- The bytes of a file with these blocks. -/
def fileOf (groups : List (List Record)) : Bytes :=
  (blocksOf targetBlockSize compressionEnabled groups).flatMap (blockFile compressionEnabled)

/-- The size a block's body is stored in fits its header. -/
def FitsHeader (group : List Record) : Prop :=
  (blockOf (.ofCompression targetBlockSize compressionEnabled) group).storedSize < 2 ^ 32

/-- The first block of a file: its header, its stored body and the blocks that follow. -/
theorem fileOf_cons (group : List Record) (rest : List (List Record))
    : ∃ stored,
        storedBytes compressionEnabled (Record.codec.encodeAll group) = some stored
        ∧ (if compressionEnabled then Lz77.decode stored else some stored)
          = some (Record.codec.encodeAll group)
        ∧ (blockOf (.ofCompression targetBlockSize compressionEnabled) group).storedSize
          = stored.length
        ∧ fileOf targetBlockSize compressionEnabled (group :: rest)
          = (flushedHeader compressionEnabled (Record.codec.encodeAll group) stored).toBytes
            ++ (stored ++ fileOf targetBlockSize compressionEnabled rest) := by
  obtain ⟨stored, kept, back, file⟩ := blockFile_eq compressionEnabled
    (blockOf (.ofCompression targetBlockSize compressionEnabled) group)
  have body : storedBytes compressionEnabled (Record.codec.encodeAll group) = some stored :=
    kept
  refine ⟨stored, kept, back, ?_, ?_⟩
  · simp [blockOf, BlockSettings.ofCompression, body]
  · unfold fileOf blocksOf
    rw [List.map_cons, List.flatMap_cons, file, List.append_assoc]
    rfl

instance (group : List Record)
    : Decidable (FitsHeader targetBlockSize compressionEnabled group) :=
  inferInstanceAs (Decidable (_ < _))

variable {targetBlockSize compressionEnabled}

/-- Blocks that fit their headers are all found, at their offsets. Witness: induction over the
blocks.
-/
theorem scanFile_groups {groups : List (List Record)}
    (valid : ∀ record ∈ groups.flatten, Record.codec.Valid record)
    (fits : ∀ group ∈ groups, FitsHeader targetBlockSize compressionEnabled group)
    {fuel : Nat} (enough : groups.length ≤ fuel) (offset : Nat)
    : scanFile fuel offset (fileOf targetBlockSize compressionEnabled groups)
      = some (.ok (indexOf (.ofCompression targetBlockSize compressionEnabled) offset groups,
          groups.flatten.map Record.key)) := by
  induction groups generalizing fuel offset with
  | nil => cases fuel <;> rfl
  | cons group rest ih =>
      obtain ⟨fuel, rfl⟩ : ∃ fewer, fuel = fewer + 1 :=
        ⟨fuel - 1, by rw [List.length_cons] at enough; omega⟩
      obtain ⟨stored, -, back, size, file⟩ :=
        fileOf_cons targetBlockSize compressionEnabled group rest
      have small : stored.length < 2 ^ 32 := size ▸ fits group (by simp)
      have validGroup : ∀ record ∈ group, Record.codec.Valid record :=
        fun record member => valid record (by simp [member])
      have later := ih (fun record member => valid record (by
          rw [List.flatten_cons]
          exact List.mem_append_right _ member))
        (fun other member => fits other (List.mem_cons_of_mem _ member))
        (by rw [List.length_cons] at enough; omega : rest.length ≤ fuel)
        (offset + (blockOf (.ofCompression targetBlockSize compressionEnabled) group).size)
      have position : offset + blockHeaderLen
            + (flushedHeader compressionEnabled (Record.codec.encodeAll group)
              stored).storedSize.toNat
          = offset
            + (blockOf (.ofCompression targetBlockSize compressionEnabled) group).size := by
        rw [flushedHeader, UInt32.toNat_ofNat_of_lt' small, Block.size, size, Nat.add_assoc]
      rw [file, scanFile_block (BlockHeader.length_toBytes _)
        (by rw [BlockHeader.fromBytes_toBytes]; exact readBlock_flushed small back _)
        (by rw [blockRecords_encodeAll validGroup le_rfl, mapM_ok]),
        BlockHeader.fromBytes_toBytes, position, later, indexOf, List.flatten_cons,
        List.map_append]
      rfl

theorem indexOf_cons (settings : BlockSettings) (offset : Nat) {group : List Record}
    (filled : group ≠ []) (rest : List (List Record))
    : ∃ key,
        indexOf settings offset (group :: rest)
        = (key, offset) :: indexOf settings (offset + (blockOf settings group).size) rest := by
  obtain ⟨first, more, rfl⟩ := List.exists_cons_of_ne_nil filled
  exact ⟨first.key, rfl⟩

theorem offset_le_indexOf (settings : BlockSettings) (groups : List (List Record))
    (offset : Nat)
    : ∀ item ∈ indexOf settings offset groups, offset ≤ item.2 := by
  induction groups generalizing offset with
  | nil => simp [indexOf]
  | cons group rest ih =>
      intro item member
      rcases List.mem_append.mp member with here | behind
      · cases first : group.head? with
        | none => simp [first] at here
        | some record =>
            rw [first, Option.map_some, Option.toList_some, List.mem_singleton] at here
            rw [here]
      · have further := ih _ item behind
        omega

/-- A block that is read ends as far behind its header as that says. -/
theorem readBlock_left {header : BlockHeader} {rest data left : Bytes}
    (read : readBlock rest header = some (.ok (data, left)))
    : header.storedSize.toNat ≤ rest.length ∧ left = rest.drop header.storedSize.toNat := by
  unfold readBlock at read
  split at read
  · obtain ⟨enough, -, same⟩ := readExact_eq_ok.mp (Option.some.inj read)
    exact ⟨enough, same⟩
  · split at read
    · cases taken : readExact header.storedSize.toNat rest with
      | error error =>
          rw [taken] at read
          cases read
      | ok parts =>
          obtain ⟨stored, behind⟩ := parts
          obtain ⟨enough, -, same⟩ := readExact_eq_ok.mp taken
          rw [taken] at read
          obtain ⟨decoded, -, here⟩ := Option.map_eq_some_iff.mp read
          obtain ⟨-, rfl⟩ := Prod.mk.inj (Except.ok.inj here)
          exact ⟨enough, same⟩
    · cases read

section Cut

variable {groups rest : List (List Record)} {group : List Record} {fuel offset : Nat}
  {between : Bytes} {keys : List String}

/-- Between two blocks that are found, no record is read, and the scan does not pass the
second one.
-/
theorem scanFile_between (filled : ∀ group ∈ groups, group ≠ []) (inside : between ≠ [])
    (scanned
      : scanFile (fuel + 1) offset
          (between ++ fileOf targetBlockSize compressionEnabled groups)
        = some (.ok
            (indexOf (.ofCompression targetBlockSize compressionEnabled)
              (offset + between.length) groups, keys)))
    : (groups = [] ∧ keys = [])
      ∨ ∃ later nextOffset,
          scanFile fuel nextOffset
              (later ++ fileOf targetBlockSize compressionEnabled groups)
            = some (.ok
                (indexOf (.ofCompression targetBlockSize compressionEnabled)
                  (nextOffset + later.length) groups, keys)) := by
  have positive : 0 < between.length := List.length_pos_iff.mpr inside
  rcases scanFile_cases scanned with ⟨none, rfl⟩ | ⟨fewer, headerBytes, behind, data, left,
    records, laterIndex, laterKeys, count, file, size, read, -, later, index, rfl⟩
  · cases groups with
    | nil => exact .inl ⟨rfl, rfl⟩
    | cons group rest =>
        obtain ⟨key, shape⟩ := indexOf_cons (.ofCompression targetBlockSize compressionEnabled)
          (offset + between.length) (filled group (by simp)) rest
        rw [shape] at none
        cases none
  · obtain rfl := Nat.succ.inj count
    have blank : records = [] := by
      cases records with
      | nil => rfl
      | cons record more =>
          have found : (record.key, offset)
              ∈ indexOf (.ofCompression targetBlockSize compressionEnabled)
                (offset + between.length) groups := by
            rw [index]
            simp
          have further := offset_le_indexOf _ _ _ _ found
          dsimp only at further
          omega
    subst blank
    rw [List.head?_nil, Option.map_none, Option.toList_none, List.nil_append] at index
    obtain ⟨enough, rfl⟩ := readBlock_left read
    have taken : headerBytes.length + (BlockHeader.fromBytes headerBytes).storedSize.toNat
        ≤ between.length := by
      cases groups with
      | nil =>
          have total := congrArg List.length file
          simp only [fileOf, blocksOf, List.map_nil, List.flatMap_nil, List.append_nil,
            List.length_append] at total
          omega
      | cons group rest =>
          obtain ⟨key, shape⟩ := indexOf_cons
            (.ofCompression targetBlockSize compressionEnabled) (offset + between.length)
            (filled group (by simp)) rest
          have reached := offset_le_scanFile later (key, offset + between.length)
            (by rw [← index, shape]; simp)
          dsimp only at reached
          omega
    have left : behind.drop (BlockHeader.fromBytes headerBytes).storedSize.toNat
        = between.drop
            (headerBytes.length + (BlockHeader.fromBytes headerBytes).storedSize.toNat)
          ++ fileOf targetBlockSize compressionEnabled groups := by
      rw [← List.drop_append_of_le_length taken, file, ← List.drop_drop, List.drop_left]
    rw [left] at later
    refine .inr ⟨_, _, later.trans ?_⟩
    rw [← index, List.length_drop]
    congr 4
    omega

/-- Where a block is found, all of its records are read, and the scan goes on behind it. If
the block does not fit its header, it is not read to the end.
-/
theorem scanFile_first (filled : group ≠ [])
    (valid : ∀ record ∈ group, Record.codec.Valid record)
    (scanned
      : scanFile (fuel + 1) offset
          (fileOf targetBlockSize compressionEnabled (group :: rest))
        = some (.ok
            (indexOf (.ofCompression targetBlockSize compressionEnabled) offset
              (group :: rest), keys)))
    : ∃ (records : List Record) (laterKeys : List String) (later : Bytes) (nextOffset : Nat),
        keys = records.map Record.key ++ laterKeys
        ∧ scanFile fuel nextOffset (later ++ fileOf targetBlockSize compressionEnabled rest)
          = some (.ok
              (indexOf (.ofCompression targetBlockSize compressionEnabled)
                (nextOffset + later.length) rest, laterKeys))
        ∧ (FitsHeader targetBlockSize compressionEnabled group
          → later = [] ∧ records.length = group.length)
        ∧ (¬ FitsHeader targetBlockSize compressionEnabled group
          → records.length < group.length) := by
  obtain ⟨stored, kept, back, stores, shape⟩ :=
    fileOf_cons targetBlockSize compressionEnabled group rest
  obtain ⟨key, listed⟩ := indexOf_cons (.ofCompression targetBlockSize compressionEnabled)
    offset filled rest
  rw [listed] at scanned
  rcases scanFile_cases scanned with ⟨none, -⟩ | ⟨fewer, headerBytes, behind, data, left,
    records, laterIndex, laterKeys, count, file, size, read, held, later, index, rfl⟩
  · cases none
  · obtain rfl := Nat.succ.inj count
    obtain ⟨rfl, rfl⟩ := List.append_inj (shape.symm.trans file)
      ((BlockHeader.length_toBytes _).trans size.symm)
    rw [BlockHeader.fromBytes_toBytes] at read later
    have next : laterIndex = indexOf (.ofCompression targetBlockSize compressionEnabled)
        (offset + (blockOf (.ofCompression targetBlockSize compressionEnabled) group).size)
        rest := by
      cases records with
      | nil =>
          have reached := offset_le_scanFile later (key, offset)
            (by rw [← List.nil_append laterIndex]; exact index ▸ by simp)
          simp only [blockHeaderLen] at reached
          omega
      | cons record more => exact (List.cons.inj index).2.symm
    rw [Block.size, stores] at next
    have stored32 : (flushedHeader compressionEnabled (Record.codec.encodeAll group)
        stored).storedSize.toNat = stored.length % 2 ^ 32 := UInt32.toNat_ofNat'
    rw [stored32] at later
    by_cases small : stored.length < 2 ^ 32
    · have whole := readBlock_flushed small back
        (fileOf targetBlockSize compressionEnabled rest)
      rw [whole] at read
      obtain ⟨rfl, rfl⟩ := Prod.mk.inj (Except.ok.inj (Option.some.inj read))
      rw [blockRecords_encodeAll valid le_rfl, mapM_ok] at held
      obtain rfl := Except.ok.inj held
      refine ⟨_, laterKeys, [], _, rfl, later.trans ?_, fun _ => ⟨rfl, rfl⟩,
        fun large => absurd (stores.trans_lt small) large⟩
      rw [next, Nat.mod_eq_of_lt small, List.length_nil, Nat.add_zero, Nat.add_assoc]
    · obtain ⟨rfl, cut, short, rfl⟩ := readBlock_cut kept (not_lt.mp small) read
      refine ⟨records, laterKeys, stored.drop (stored.length % 2 ^ 32), _, rfl,
        later.trans ?_, fun fits => absurd (stores.symm.trans_lt fits) small,
        fun _ => length_blockRecords_take valid short held⟩
      have order : stored.length % 2 ^ 32 ≤ stored.length := Nat.mod_le _ _
      rw [next, List.length_drop]
      congr 4
      omega

end Cut

/-- If the scan of a file finds the blocks that were written, behind bytes that hold none, it
finds no more keys than they have, and fewer if a block does not fit its header.
-/
theorem length_keys_le {groups : List (List Record)}
    (filled : ∀ group ∈ groups, group ≠ [])
    (valid : ∀ record ∈ groups.flatten, Record.codec.Valid record) {fuel offset : Nat}
    {between : Bytes} {keys : List String}
    (scanned
      : scanFile fuel offset (between ++ fileOf targetBlockSize compressionEnabled groups)
        = some (.ok
            (indexOf (.ofCompression targetBlockSize compressionEnabled)
              (offset + between.length) groups, keys)))
    : keys.length ≤ groups.flatten.length
      ∧ (between = []
        → (∃ group ∈ groups, ¬ FitsHeader targetBlockSize compressionEnabled group)
        → keys.length < groups.flatten.length) := by
  induction fuel generalizing groups offset between keys with
  | zero =>
      obtain ⟨none, rfl⟩ := Prod.mk.inj (Except.ok.inj (Option.some.inj scanned))
      cases groups with
      | nil => exact ⟨le_rfl, fun _ large => by simp at large⟩
      | cons group rest =>
          obtain ⟨key, listed⟩ := indexOf_cons
            (.ofCompression targetBlockSize compressionEnabled) (offset + between.length)
            (filled group (by simp)) rest
          rw [listed] at none
          cases none
  | succ fuel ih =>
      by_cases inside : between = []
      · subst inside
        rw [List.nil_append, List.length_nil, Nat.add_zero] at scanned
        cases groups with
        | nil =>
            rcases scanFile_cases scanned with ⟨-, rfl⟩ | ⟨_, headerBytes, _, _, _, _, _, _, -,
              file, size, -⟩
            · exact ⟨le_rfl, fun _ large => by simp at large⟩
            · have total := congrArg List.length file
              simp only [fileOf, blocksOf, List.map_nil, List.flatMap_nil, List.length_nil,
                List.length_append, size, blockHeaderLen] at total
              omega
        | cons group rest =>
            have validGroup : ∀ record ∈ group, Record.codec.Valid record :=
              fun record member => valid record (by simp [member])
            obtain ⟨records, laterKeys, later, nextOffset, rfl, scannedLater, whole, short⟩ :=
              scanFile_first (filled group (by simp)) validGroup scanned
            obtain ⟨bound, strict⟩ := ih
              (fun other member => filled other (List.mem_cons_of_mem _ member))
              (fun record member => valid record (by
                rw [List.flatten_cons]
                exact List.mem_append_right _ member))
              scannedLater
            simp only [List.length_append, List.length_map, List.flatten_cons]
            by_cases fits : FitsHeader targetBlockSize compressionEnabled group
            · obtain ⟨rfl, count⟩ := whole fits
              refine ⟨by omega, ?_⟩
              rintro - ⟨other, member, large⟩
              have inRest : other ∈ rest := (List.mem_cons.mp member).resolve_left (by
                rintro rfl
                exact large fits)
              have fewer := strict rfl ⟨other, inRest, large⟩
              omega
            · have fewer := short fits
              exact ⟨by omega, fun _ _ => by omega⟩
      · rcases scanFile_between filled inside scanned with ⟨rfl, rfl⟩
          | ⟨later, nextOffset, scannedLater⟩
        · exact ⟨le_rfl, fun empty _ => absurd empty inside⟩
        · exact ⟨(ih filled valid scannedLater).1, fun empty _ => absurd empty inside⟩

end Layout

/-- Filters for different numbers of keys differ in size. -/
theorem newBloom_lt {fewer more : Nat} (less : fewer < more)
    : (newBloom fewer).bits.length < (newBloom more).bits.length := by
  simp only [newBloom, BloomFilter.new, List.length_replicate, bloomBitsPerKey]
  omega

theorem length_bits_foldl_insert (keys : List String) (filter : BloomFilter)
    : (keys.foldl BloomFilter.insert filter).bits.length = filter.bits.length := by
  induction keys generalizing filter with
  | nil => rfl
  | cons key rest ih => rw [List.foldl_cons, ih, BloomFilter.length_bits_insert]

/-- The index of a table of blocks is rebuilt from its file exactly if every block fits its
header.
-/
theorem rebuildIndex_ofGroups_iff (targetBlockSize : Nat) (compressionEnabled : Bool)
    (path : TablePath) {groups : List (List Record)}
    (filled : ∀ group ∈ groups, group ≠ [])
    (valid : ∀ record ∈ groups.flatten, Record.codec.Valid record)
    : rebuildIndex (ofGroups targetBlockSize compressionEnabled path groups).file
        = some (.ok (ofGroups targetBlockSize compressionEnabled path groups).table.index)
      ↔ ∀ group ∈ groups, FitsHeader targetBlockSize compressionEnabled group := by
  constructor
  · intro rebuilt
    by_contra large
    simp only [not_forall] at large
    obtain ⟨group, member, large⟩ := large
    obtain ⟨scanned, scan, same⟩ := Option.bind_eq_some_iff.mp rebuilt
    cases scanned with
    | error error => cases same
    | ok found =>
        obtain ⟨sparseIndex, keys⟩ := found
        have equal := Except.ok.inj (Option.some.inj same)
        have index : sparseIndex
            = indexOf (.ofCompression targetBlockSize compressionEnabled) 0 groups :=
          congrArg TableIndex.sparseIndex equal
        have bloom := congrArg (fun index => index.bloom.bits.length) equal
        have behindNothing : scanFile _ 0
              (([] : Bytes) ++ fileOf targetBlockSize compressionEnabled groups)
            = some (.ok
                (indexOf (.ofCompression targetBlockSize compressionEnabled)
                  (0 + ([] : Bytes).length) groups, keys)) :=
          index ▸ scan
        have fewer := (length_keys_le filled valid behindNothing).2 rfl
          ⟨group, member, large⟩
        have sizes := newBloom_lt fewer
        simp only [SSTable.index, ofGroups, SSTable.ofGroups, length_bits_foldl_insert,
          List.length_map] at bloom
        omega
  · intro fits
    have count := length_le_blockFiles targetBlockSize compressionEnabled groups
    have scanned := scanFile_groups valid fits
      (by simp only [ofGroups]; omega
        : groups.length
          ≤ (ofGroups targetBlockSize compressionEnabled path groups).file.length + 1) 0
    exact Option.bind_eq_some_iff.mpr ⟨_, scanned, rfl⟩

end StoredTable

/-- The index of a flushed memtable is rebuilt from its file exactly if the blocks its records
fill are stored in sizes that fit their headers.
-/
theorem rebuilt_index_iff (targetBlockSize : Nat) (compressionEnabled : Bool)
    (path : TablePath) (memtable : Memtable) (fits : FitsTable memtable)
    : (∃ table,
        StoredTable.fromMemtable targetBlockSize compressionEnabled path memtable = some table
        ∧ StoredTable.rebuildIndex table.file = some (.ok table.table.index))
      ↔ ∀ group ∈ blockGroups targetBlockSize (memtableRecords memtable),
          StoredTable.FitsHeader targetBlockSize compressionEnabled group := by
  obtain ⟨same, filled, -⟩ := SSTable.fromMemtable_blockGroups
    (.ofCompression targetBlockSize compressionEnabled) path memtable
  refine Iff.trans ?_ (StoredTable.rebuildIndex_ofGroups_iff targetBlockSize
    compressionEnabled path filled (fits.grouped same filled).valid)
  rw [StoredTable.fromMemtable_blockGroups]
  constructor
  · rintro ⟨table, built, rebuilt⟩
    obtain rfl := Option.some.inj built
    exact rebuilt
  · exact fun rebuilt => ⟨_, rfl, rebuilt⟩

/-- Witness: compressed blocks of one record each. -/
theorem rebuilt_index_two
    : ∃ table,
        StoredTable.fromMemtable 8 true { level := none, timestamp := 0 } twoEntries
          = some table
        ∧ StoredTable.rebuildIndex table.file = some (.ok table.table.index) := by
  have fits : ∀ group ∈ blockGroups 8 (memtableRecords twoEntries),
      StoredTable.FitsHeader 8 true group := by
    decide +kernel
  exact (rebuilt_index_iff 8 true { level := none, timestamp := 0 } twoEntries
    fits_twoEntries).mpr fits

-----------------------------------------------------------------------------------------
-- A block of four gigabytes
-----------------------------------------------------------------------------------------

theorem length_encodeAll_ge {records : List Record} {size : Nat}
    (each : ∀ record ∈ records, size ≤ (Record.codec.encode record).length)
    : records.length * size ≤ (Record.codec.encodeAll records).length := by
  induction records with
  | nil => simp
  | cons record rest ih =>
      have first := each record (by simp)
      have later := ih (fun other member => each other (List.mem_cons_of_mem _ member))
      rw [FrameCodec.encodeAll_cons, List.length_append, List.length_cons, Nat.add_mul]
      omega

/-- Records within the target share one block. -/
theorem blockGroups_whole {targetBlockSize : Nat} {records : List Record}
    (nonempty : records ≠ [])
    (within : (Record.codec.encodeAll records).length ≤ targetBlockSize)
    : blockGroups targetBlockSize records = [records] := by
  have joined : ∀ (rest pending : List Record),
      (Record.codec.encodeAll (pending ++ rest)).length ≤ targetBlockSize
      → rest.foldl (fillBlock targetBlockSize) ([], pending) = ([], pending ++ rest) := by
    intro rest
    induction rest with
    | nil => simp
    | cons record rest ih =>
        intro pending room
        have next : fillBlock targetBlockSize ([], pending) record
            = ([], pending ++ [record]) := by
          refine if_neg (fun full => ?_)
          rw [FrameCodec.encodeAll_append, FrameCodec.encodeAll_cons, List.length_append,
            List.length_append] at room
          have large := full.1
          simp only [Record.codec] at room large
          omega
        rw [List.foldl_cons, next, ih _ (by simpa using room)]
        simp
  rw [blockGroups, joined records [] (by simpa using within)]
  simp [nonempty]

/-- A memtable of four gigabytes in one uncompressed block has no index that is rebuilt. -/
theorem not_rebuilt_of_large {memtable : Memtable} (fits : FitsTable memtable)
    (large : 2 ^ 32 ≤ serializedSize memtable) (path : TablePath)
    : ¬ ∃ table,
        StoredTable.fromMemtable (serializedSize memtable) false path memtable = some table
        ∧ StoredTable.rebuildIndex table.file = some (.ok table.table.index) := by
  obtain ⟨same, filled, -⟩ := SSTable.fromMemtable_blockGroups
    (.ofCompression (serializedSize memtable) false) path memtable
  have nonempty : memtableRecords memtable ≠ [] := by
    intro none
    simp [serializedSize, none] at large
  have shared := blockGroups_whole nonempty (le_refl (serializedSize memtable))
  rintro ⟨table, built, rebuilt⟩
  rw [StoredTable.fromMemtable_blockGroups] at built
  obtain rfl := Option.some.inj built
  have each := (StoredTable.rebuildIndex_ofGroups_iff _ _ _ filled
    (fits.grouped same filled).valid).mp rebuilt
  have stored : serializedSize memtable < 2 ^ 32 :=
    each (memtableRecords memtable) (shared ▸ List.mem_singleton_self _)
  omega

/-- The value under keys of all lengths below a bound. -/
def filledMemtable (value : String) (count : Nat) : Memtable :=
  (List.range count).foldl
    (fun memtable i => memtable.insert (String.ofList (List.replicate i 'a')) value none)
    Memtable.new

theorem entry_filledMemtable (value : String) (count : Nat) (key : String)
    : (filledMemtable value count).entry key
      = if key.utf8ByteSize < count
            ∧ key = String.ofList (List.replicate key.utf8ByteSize 'a') then
          some { value := some value, expiryMs := none }
        else
          none := by
  induction count with
  | zero => simp [filledMemtable]
  | succ count ih =>
      have last : filledMemtable value (count + 1)
          = (filledMemtable value count).insert (String.ofList (List.replicate count 'a'))
            value none := by
        simp [filledMemtable, List.range_succ]
      rw [last, Memtable.entry_insert, ih]
      by_cases same : String.ofList (List.replicate count 'a') = key
      · subst same
        rw [if_pos rfl, utf8ByteSize_replicate, if_pos ⟨Nat.lt_succ_self count, rfl⟩]
      · rw [if_neg same]
        refine if_congr ?_ rfl rfl
        constructor
        · exact fun ⟨less, shape⟩ => ⟨by omega, shape⟩
        · intro ⟨less, shape⟩
          refine ⟨?_, shape⟩
          rcases Nat.lt_succ_iff_lt_or_eq.mp less with fewer | equal
          · exact fewer
          · exact absurd (equal ▸ shape).symm same

theorem fits_filledMemtable {value : String} (limit : value.utf8ByteSize ≤ maxValueSize)
    {count : Nat} (few : count ≤ maxKeySize)
    : FitsTable (filledMemtable value count) := by
  intro key entry found
  rw [entry_filledMemtable] at found
  split at found
  · rename_i held
    obtain rfl := Option.some.inj found
    exact ⟨by omega, limit⟩
  · cases found

/-- There is a record for every key, and each holds the value. -/
theorem serializedSize_filledMemtable {value : String}
    (limit : value.utf8ByteSize ≤ maxValueSize) {count : Nat} (few : count ≤ maxKeySize)
    : count * value.utf8ByteSize ≤ serializedSize (filledMemtable value count) := by
  have fits := fits_filledMemtable limit few
  have each : ∀ record ∈ memtableRecords (filledMemtable value count),
      value.utf8ByteSize ≤ (Record.codec.encode record).length := by
    intro record member
    obtain ⟨key, entry, found, rfl⟩ := mem_memtableRecords.mp member
    have keyFits := fits key entry found
    rw [entry_filledMemtable] at found
    split at found
    · obtain rfl := Option.some.inj found
      have formed : (Record.make key value (Record.flagsOf false none) none).WellFormed :=
        Record.wellFormed_make keyFits false none
      have size := formed.valueSize
      have length := Record.length_toBeBytes formed
      change value.utf8ByteSize
        ≤ (Record.make key value (Record.flagsOf false none) none).toBeBytes.length
      rw [length, Record.sizeOnDisk, size]
      exact Nat.le_add_left _ _
    · cases found
  have many : count ≤ (memtableRecords (filledMemtable value count)).length := by
    have distinct : ((List.range count).map
        (fun i => String.ofList (List.replicate i 'a'))).Nodup := by
      refine (List.nodup_map_iff_inj_on (List.nodup_range)).mpr ?_
      intro i _ j _ same
      have sizes := congrArg String.utf8ByteSize same
      rwa [utf8ByteSize_replicate, utf8ByteSize_replicate] at sizes
    have held : ((List.range count).map (fun i => String.ofList (List.replicate i 'a')))
        ⊆ (memtableRecords (filledMemtable value count)).map Record.key := by
      intro key member
      obtain ⟨i, small, rfl⟩ := List.mem_map.mp member
      refine List.mem_map.mpr ⟨_, mem_memtableRecords.mpr
        ⟨String.ofList (List.replicate i 'a'), { value := some value, expiryMs := none }, ?_,
          rfl⟩, rfl⟩
      rw [entry_filledMemtable, utf8ByteSize_replicate]
      exact if_pos ⟨List.mem_range.mp small, rfl⟩
    simpa using distinct.length_le_of_subset held
  calc count * value.utf8ByteSize
      ≤ (memtableRecords (filledMemtable value count)).length * value.utf8ByteSize :=
        Nat.mul_le_mul_right _ many
    _ ≤ serializedSize (filledMemtable value count) := length_encodeAll_ge each

/-- 820 values of the largest size. -/
def largeMemtable : Memtable :=
  filledMemtable (String.ofList (List.replicate maxValueSize 'a')) 820

/-- Counterexample: all records share a block, and its size does not fit the header. -/
theorem rebuilt_index_differs_large
    : ¬ ∃ table,
        StoredTable.fromMemtable (serializedSize largeMemtable) false
            { level := none, timestamp := 0 } largeMemtable
          = some table
        ∧ StoredTable.rebuildIndex table.file = some (.ok table.table.index) := by
  have valueSize := utf8ByteSize_replicate maxValueSize
  have size := serializedSize_filledMemtable valueSize.le (by decide : 820 ≤ maxKeySize)
  rw [valueSize] at size
  exact not_rebuilt_of_large (fits_filledMemtable valueSize.le (by decide))
    (le_trans (by decide) size) { level := none, timestamp := 0 }

end Rustikv.Lsm

import Rustikv.Lsm.Directory

/-! Tables with a record over the size limits. The engine writes them, and every reader
refuses them: a merge that meets one fails, and so does loading the directory.
-/

namespace Rustikv.Lsm

open Library

/-- Some block of the table's file cannot be read to its end. -/
def SSTable.Unreadable (table : SSTable) : Prop :=
  ∃ block ∈ table.blocks, ∃ error, .error error ∈ blockRecords block.data.length block.data

/-- The texts are shorter than a machine integer can count. -/
def Addressable (memtable : Memtable) : Prop :=
  ∀ key entry,
    memtable.entry key = some entry
    → key.utf8ByteSize < uintBound ∧ (entry.value.getD "").utf8ByteSize < uintBound

-----------------------------------------------------------------------------------------
-- Reading fails
-----------------------------------------------------------------------------------------

theorem mapM_error {ε α : Type} {items : List (Except ε α)} {error : ε}
    (member : .error error ∈ items)
    : ∃ other, items.mapM id = .error other := by
  induction items with
  | nil => cases member
  | cons item rest ih =>
      cases item with
      | error other => exact ⟨other, rfl⟩
      | ok value =>
          rcases List.mem_cons.mp member with here | later
          · cases here
          · obtain ⟨other, failed⟩ := ih later
            exact ⟨other, by simp [List.mapM_cons, failed]⟩

/-- What is mapped without an error is mapped without one item by item. -/
theorem mapM_eq_ok_of_mem {ε α β : Type} {run : α → Except ε β} {items : List α}
    {results : List β} (done : items.mapM run = .ok results) {item : α}
    (member : item ∈ items)
    : ∃ result, run item = .ok result := by
  induction items generalizing results with
  | nil => cases member
  | cons first rest ih =>
      rw [List.mapM_cons] at done
      obtain ⟨result, ran, done⟩ := bind_eq_ok.mp done
      obtain ⟨others, later, -⟩ := bind_eq_ok.mp done
      rcases List.mem_cons.mp member with rfl | inRest
      · exact ⟨result, ran⟩
      · exact ih later inRest

/-- Every result is that of some item. -/
theorem exists_of_mem_mapM {ε α β : Type} {run : α → Except ε β} {items : List α}
    {results : List β} (done : items.mapM run = .ok results) {result : β}
    (member : result ∈ results)
    : ∃ item ∈ items, run item = .ok result := by
  induction items generalizing results with
  | nil =>
      obtain rfl := Except.ok.inj done
      cases member
  | cons first rest ih =>
      rw [List.mapM_cons] at done
      obtain ⟨one, ran, done⟩ := bind_eq_ok.mp done
      obtain ⟨others, later, same⟩ := bind_eq_ok.mp done
      obtain rfl := Except.ok.inj same
      rcases List.mem_cons.mp member with rfl | inRest
      · exact ⟨first, by simp, ran⟩
      · obtain ⟨item, inside, found⟩ := ih later inRest
        exact ⟨item, List.mem_cons_of_mem _ inside, found⟩

theorem error_mem_iterBlocks {blocks : List Block} {block : Block} (member : block ∈ blocks)
    {error : IoError} (held : .error error ∈ blockRecords block.data.length block.data)
    : ∃ other, .error other ∈ iterBlocks blocks := by
  induction blocks with
  | nil => cases member
  | cons first rest ih =>
      simp only [iterBlocks]
      split
      next intact =>
        rcases List.mem_cons.mp member with rfl | later
        · have ok := List.all_eq_true.mp intact _ held
          cases ok
        · obtain ⟨other, inside⟩ := ih later
          exact ⟨other, List.mem_append_right _ inside⟩
      next broken =>
        obtain ⟨item, inside, failed⟩ : ∃ item, item ∈ blockRecords first.data.length
            first.data ∧ ¬ Except.isOk item = true := by
          simpa [List.all_eq_true] using broken
        cases item with
        | error other => exact ⟨other, inside⟩
        | ok value => exact absurd rfl failed

theorem SSTable.Unreadable.iter {table : SSTable} (unreadable : table.Unreadable)
    : ∃ error, table.iter.mapM id = .error error := by
  obtain ⟨block, member, error, held⟩ := unreadable
  obtain ⟨other, inside⟩ := error_mem_iterBlocks member held
  exact mapM_error inside

theorem SSTable.scanBlocks_error {blocks : List Block} {block : Block}
    (member : block ∈ blocks) {error : IoError}
    (held : .error error ∈ blockRecords block.data.length block.data) (offset : Nat)
    : ∃ other, SSTable.scanBlocks offset blocks = .error other := by
  induction blocks generalizing offset with
  | nil => cases member
  | cons first rest ih =>
      unfold SSTable.scanBlocks
      rcases List.mem_cons.mp member with rfl | later
      · obtain ⟨other, failed⟩ := mapM_error held
        exact ⟨other, by rw [failed]; rfl⟩
      · cases read : (blockRecords first.data.length first.data).mapM id with
        | error other => exact ⟨other, rfl⟩
        | ok records =>
            obtain ⟨other, failed⟩ := ih later (offset + first.size)
            exact ⟨other, by rw [ok_bind, failed]; rfl⟩

theorem SSTable.Unreadable.rebuildIndex {table : SSTable} (unreadable : table.Unreadable)
    (path : TablePath)
    : ∃ error, SSTable.rebuildIndex path table.blocks = .error error := by
  obtain ⟨block, member, error, held⟩ := unreadable
  obtain ⟨other, failed⟩ := SSTable.scanBlocks_error member held 0
  exact ⟨other, by rw [SSTable.rebuildIndex, failed]; rfl⟩

/-- A merge that succeeds has read all of its tables. -/
theorem readable_of_mergeTables {dropDead : Bool} {nowMs : UInt64} {tables : List SSTable}
    {memtable merged : Memtable}
    (done : mergeTables dropDead nowMs tables memtable = .ok merged) {table : SSTable}
    (member : table ∈ tables)
    : ¬ table.Unreadable := by
  induction tables generalizing memtable with
  | nil => cases member
  | cons first rest ih =>
      unfold mergeTables at done
      rw [List.foldlM_cons] at done
      obtain ⟨middle, read, later⟩ := bind_eq_ok.mp done
      rcases List.mem_cons.mp member with rfl | inRest
      · intro unreadable
        obtain ⟨error, failed⟩ := unreadable.iter
        rw [failed] at read
        cases read
      · exact ih later inRest

-----------------------------------------------------------------------------------------
-- A flushed table is valid or cannot be read
-----------------------------------------------------------------------------------------

/-- A record with a size over its limit that is written as its header says. -/
def Record.Oversized (record : Record) : Prop :=
  (record.header.flags &&& flagHasExpiry != 0) = record.header.expiryMs.isSome
  ∧ (maxKeySize < record.header.keySize.toNat ∨ maxValueSize < record.header.valueSize.toNat)

theorem error_mem_blockRecords {records : List Record}
    (each : ∀ record ∈ records, Record.codec.Valid record ∨ Record.Oversized record)
    {record : Record} (member : record ∈ records) (oversized : Record.Oversized record)
    {fuel : Nat} (enough : (Record.codec.encodeAll records).length ≤ fuel)
    : ∃ error, .error error ∈ blockRecords fuel (Record.codec.encodeAll records) := by
  induction records generalizing fuel with
  | nil => cases member
  | cons first rest ih =>
      have nonempty := Record.codec.encode_ne_nil first
      have positive : 0 < (Record.codec.encode first).length :=
        List.length_pos_iff.mpr nonempty
      simp only [FrameCodec.encodeAll_cons, List.length_append] at enough
      cases fuel with
      | zero => omega
      | succ fuel =>
          rcases each first (by simp) with valid | refused
          · rcases List.mem_cons.mp member with rfl | later
            · have decoded := Record.codec.decode_encode record valid []
              have read := Record.readNext_oversized oversized.1 oversized.2 []
              rw [show Record.codec.decode = Record.readNext from rfl,
                show Record.codec.encode = Record.toBeBytes from rfl, read] at decoded
              cases decoded
            · obtain ⟨error, inside⟩ := ih
                (fun other inRest => each other (List.mem_cons_of_mem _ inRest)) later
                (by omega : (Record.codec.encodeAll rest).length ≤ fuel)
              have read : Record.readNext
                  (Record.codec.encode first ++ Record.codec.encodeAll rest)
                  = .ok (first, Record.codec.encodeAll rest) :=
                Record.codec.decode_encode first valid _
              exact ⟨error, by simp [blockRecords, nonempty, read, inside]⟩
          · have read := Record.readNext_oversized refused.1 refused.2
              (Record.codec.encodeAll rest)
            have written : first.toBeBytes ≠ [] := nonempty
            refine ⟨{
              kind := .invalidInput
              message := "key or value exceeds maximum allowed size"
            }, ?_⟩
            rw [FrameCodec.encodeAll_cons, show Record.codec.encode first
              = first.toBeBytes from rfl]
            simp [blockRecords, read, written]

theorem valid_or_oversized {key : String} {entry : MemtableEntry}
    (keyBound : key.utf8ByteSize < uintBound)
    (valueBound : (entry.value.getD "").utf8ByteSize < uintBound)
    : Record.codec.Valid (tableRecord key entry).sealed
      ∨ Record.Oversized (tableRecord key entry).sealed := by
  by_cases fits : Record.Fits key (entry.value.getD "")
  · exact .inl ⟨(Record.wellFormed_make fits _ _).sealed, rfl⟩
  · refine .inr ⟨Record.hasExpiry_flagsOf _ _, ?_⟩
    have keySize : (tableRecord key entry).sealed.header.keySize.toNat
        = key.utf8ByteSize := by
      simp only [tableRecord, Record.sealed, Record.make, UInt64.toNat_ofNat']
      exact Nat.mod_eq_of_lt keyBound
    have valueSize : (tableRecord key entry).sealed.header.valueSize.toNat
        = (entry.value.getD "").utf8ByteSize := by
      simp only [tableRecord, Record.sealed, Record.make, UInt64.toNat_ofNat']
      exact Nat.mod_eq_of_lt valueBound
    rw [keySize, valueSize]
    rcases not_and_or.mp fits with long | long
    · exact .inl (not_le.mp long)
    · exact .inr (not_le.mp long)

theorem valid_or_oversized_memtable {memtable : Memtable}
    (addressable : Addressable memtable) {record : Record}
    (member : record ∈ memtableRecords memtable)
    : Record.codec.Valid record ∨ Record.Oversized record := by
  obtain ⟨key, entry, found, rfl⟩ := mem_memtableRecords.mp member
  obtain ⟨keyBound, valueBound⟩ := addressable key entry found
  exact valid_or_oversized keyBound valueBound

/-- The table of any memtable is valid, unless it cannot be read. -/
theorem SSTable.valid_or_unreadable (settings : BlockSettings) (path : TablePath)
    {memtable : Memtable} (addressable : Addressable memtable)
    : (SSTable.fromMemtable settings path memtable).Valid
      ∨ (SSTable.fromMemtable settings path memtable).Unreadable := by
  obtain ⟨groups, same, filled, built⟩ := SSTable.fromMemtable_eq settings path memtable
  have each : ∀ record ∈ groups.flatten,
      Record.codec.Valid record ∨ Record.Oversized record := by
    intro record member
    rw [same] at member
    exact valid_or_oversized_memtable addressable member
  rw [built]
  by_cases all : ∀ record ∈ groups.flatten, Record.codec.Valid record
  · refine .inl ⟨settings, groups, ⟨filled, all, ?_⟩, rfl⟩
    rw [same]
    exact sorted_memtableRecords memtable
  · simp only [not_forall] at all
    obtain ⟨record, member, invalid⟩ := all
    obtain ⟨group, inGroups, inGroup⟩ := List.mem_flatten.mp member
    obtain ⟨error, held⟩ := error_mem_blockRecords
      (fun other inside => each other (List.mem_flatten.mpr ⟨group, inGroups, inside⟩))
      inGroup ((each record member).resolve_left invalid) le_rfl
    exact .inr ⟨blockOf settings group, List.mem_map_of_mem inGroups, error, held⟩

end Rustikv.Lsm

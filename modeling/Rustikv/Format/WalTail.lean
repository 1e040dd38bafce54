import Rustikv.Format.Wal

/-! A log whose last append was cut short. It is opened without cutting the rest of that
append off, so later writes stand behind bytes of an incomplete record.
-/

namespace Rustikv

open Library

namespace Wal

/-- The arguments of `Wal::append`. Strings in memory are shorter than the size fields count.
-/
structure Write where
  key : String
  value : String
  tombstone : Bool
  expiryMs : Option UInt64
  keyLen : key.utf8ByteSize < 2 ^ 64
  valueLen : value.utf8ByteSize < 2 ^ 64

namespace Write

def record (write : Write) : Record :=
  Wal.record write.key write.value write.tombstone write.expiryMs

def bytes (write : Write) : Bytes :=
  write.record.toBeBytes

def apply (memtable : Memtable) (write : Write) : Memtable :=
  if write.tombstone then
    memtable.remove write.key
  else
    memtable.insert write.key write.value write.expiryMs

/-- The limits every reader enforces. -/
def Fits (write : Write) : Prop :=
  Record.Fits write.key write.value

instance (write : Write) : Decidable write.Fits :=
  inferInstanceAs (Decidable (Record.Fits _ _))

end Write

/-- `Record::append` seeks to the end of the file, whatever is there. -/
def append (file : Bytes) (write : Write) : Bytes :=
  file ++ write.bytes

/-- The complete records of a log. -/
def written (writes : List Write) : Bytes :=
  writes.flatMap Write.bytes

/-- The memtable that the writes make one after the other. -/
def applied (writes : List Write) : Memtable :=
  writes.foldl Write.apply .new

/-- Opening a log and replaying it, more writes, and a later replay. -/
def reopenAndAppend (file : Bytes) (writes : List Write) : Except IoError Memtable := do
  let _ ← replay file
  replay (writes.foldl append file)

theorem foldl_append (file : Bytes) (writes : List Write)
    : writes.foldl append file = file ++ written writes := by
  induction writes generalizing file with
  | nil => simp [written]
  | cons first rest ih => simp [ih, append, written]

theorem written_append (front back : List Write)
    : written (front ++ back) = written front ++ written back :=
  List.flatMap_append

-----------------------------------------------------------------------------------------
-- Complete records
-----------------------------------------------------------------------------------------

theorem Write.Fits.valid {write : Write} (fits : write.Fits)
    : Record.codec.Valid write.record.sealed :=
  ⟨(Record.wellFormed_make fits write.tombstone write.expiryMs).sealed,
    Record.sealed_sealed _⟩

theorem replayRecord_sealed (memtable : Memtable) (offset : Nat) (write : Write)
    : replayRecord memtable offset write.record.sealed = write.apply memtable := by
  have flag := Record.isTombstone_flagsOf write.tombstone write.expiryMs
  unfold replayRecord Write.apply RecordHeader.isTombstone
  change (if (Record.flagsOf write.tombstone write.expiryMs &&& flagTombstone != 0) = true
    then _ else _) = _
  rw [flag]
  rfl

theorem written_eq_encodeAll (writes : List Write)
    : written writes
      = Record.codec.encodeAll (writes.map (fun write => write.record.sealed)) := by
  induction writes with
  | nil => rfl
  | cons first rest ih =>
      rw [List.map_cons, FrameCodec.encodeAll_cons, ← ih]
      rfl

theorem foldl_locate (memtable : Memtable) (offset : Nat) (writes : List Write)
    : (Record.codec.locate offset (writes.map (fun write => write.record.sealed))).foldl
        (fun state located => replayRecord state located.1 located.2) memtable
      = writes.foldl Write.apply memtable := by
  induction writes generalizing memtable offset with
  | nil => rfl
  | cons first rest ih =>
      rw [List.map_cons, FrameCodec.locate, List.foldl_cons, ih, replayRecord_sealed]
      rfl

/-- Replaying complete records within the limits, and then what follows them. -/
theorem replay_written_append {writes : List Write}
    (fits : ∀ write ∈ writes, write.Fits) (back : Bytes)
    : ∃ fuel offset,
        back.length ≤ fuel
        ∧ replay (written writes ++ back)
          = scanFrom Record.readNext endsReplay replayRecord fuel offset back
              (applied writes) := by
  have valid : ∀ record ∈ writes.map (fun write => write.record.sealed),
      Record.codec.Valid record := by
    intro record member
    obtain ⟨write, found, rfl⟩ := List.mem_map.mp member
    exact (fits write found).valid
  obtain ⟨fuel, enough, scanned⟩ := Record.codec.scanFrom_append endsReplay replayRecord
    valid 0 back (le_refl _) Memtable.new
  rw [foldl_locate] at scanned
  rw [replay, written_eq_encodeAll]
  exact ⟨fuel, _, enough, scanned⟩

theorem replay_written {writes : List Write} (fits : ∀ write ∈ writes, write.Fits)
    : replay (written writes) = .ok (applied writes) := by
  obtain ⟨fuel, offset, -, scanned⟩ := replay_written_append fits []
  rw [List.append_nil] at scanned
  rw [scanned]
  cases fuel <;> simp [scanFrom]

-----------------------------------------------------------------------------------------
-- A log that is cut off
-----------------------------------------------------------------------------------------

/-- The offset at which the record of a write ends. -/
def recordEnd (writes : List Write) (index : Nat) : Nat :=
  (written (writes.take (index + 1))).length

/-- A log cut down to its first bytes restores exactly the writes whose records end within
them, one after the other. Witness: a reader takes any beginning of a record, wherever it is
cut, for the end of the log.
-/
theorem replay_complete_prefix (writes : List Write) (fits : ∀ write ∈ writes, write.Fits)
    (size : Nat)
    : ∃ whole,
        replay ((writes.foldl append []).take size) = .ok (applied (writes.take whole))
        ∧ ∀ index < writes.length, index < whole ↔ recordEnd writes index ≤ size := by
  let records := writes.map (fun write => write.record.sealed)
  have valid : ∀ record ∈ records, Record.codec.Valid record := by
    intro record member
    obtain ⟨write, found, rfl⟩ := List.mem_map.mp member
    exact (fits write found).valid
  have halts : ∀ record ∈ records, ∀ torn missing,
      torn ++ missing = Record.codec.encode record
      → missing ≠ []
      → ∃ error, Record.codec.decode torn = .error error ∧ endsReplay error = true := by
    intro record member torn missing parts lost
    obtain ⟨error, failed, ended⟩ := Record.readNext_torn (valid record member) parts lost
    exact ⟨error, failed, by rw [endsReplay, ended]; rfl⟩
  obtain ⟨whole, scanned, inside⟩ := Record.codec.scanFrom_take endsReplay replayRecord valid
    halts size _ 0 (le_refl _) Memtable.new
  refine ⟨whole, ?_, ?_⟩
  · rw [← List.map_take, foldl_locate] at scanned
    rw [foldl_append, List.nil_append, written_eq_encodeAll]
    exact scanned
  · intro index bound
    rw [inside index (by rwa [List.length_map]), ← List.map_take, ← written_eq_encodeAll,
      recordEnd]

/-- A write that survives, or is cut short, in the runs below. -/
def setKey : Write :=
  {
    key := "k"
    value := "v"
    tombstone := false
    expiryMs := none
    keyLen := by decide
    valueLen := by decide
  }

theorem fits_setKey : setKey.Fits := by
  decide

/-- Witness: the second of two writes is cut short. -/
theorem replay_complete_prefix_torn
    : ∃ whole,
        replay (([setKey, setKey].foldl append []).take 40)
          = .ok (applied ([setKey, setKey].take whole))
        ∧ ∀ index < 2, index < whole ↔ recordEnd [setKey, setKey] index ≤ 40 :=
  replay_complete_prefix [setKey, setKey] (by simp [fits_setKey]) 40

-----------------------------------------------------------------------------------------
-- Records beyond the limits
-----------------------------------------------------------------------------------------

/-- A complete record beyond the limits makes the whole log unreadable, whatever is before
and behind it.
-/
theorem replay_append_oversized {records : List Record}
    (valid : ∀ record ∈ records, Record.codec.Valid record) {record : Record}
    (flag : (record.header.flags &&& flagHasExpiry != 0) = record.header.expiryMs.isSome)
    (oversized
      : maxKeySize < record.header.keySize.toNat
        ∨ maxValueSize < record.header.valueSize.toNat)
    (tail : Bytes)
    : ∃ error,
        replay (Record.codec.encodeAll records ++ (record.toBeBytes ++ tail))
        = .error error := by
  have refused := Record.readNext_oversized flag oversized tail
  have nonempty : record.toBeBytes ++ tail ≠ [] := by simp [record.toBeBytes_ne_nil]
  exact ⟨_, Record.codec.scanFrom_unread endsReplay replayRecord valid 0 nonempty refused rfl
    (le_refl _) Memtable.new⟩

/-- A record made of a key or value beyond the limits says so in its header. -/
theorem Write.oversized {write : Write} (exceeds : ¬ write.Fits)
    : maxKeySize < write.record.header.keySize.toNat
      ∨ maxValueSize < write.record.header.valueSize.toNat := by
  have key : write.record.header.keySize.toNat = write.key.utf8ByteSize :=
    UInt64.toNat_ofNat_of_lt' write.keyLen
  have value : write.record.header.valueSize.toNat = write.value.utf8ByteSize :=
    UInt64.toNat_ofNat_of_lt' write.valueLen
  rw [key, value]
  by_contra within
  simp only [not_or, not_lt] at within
  exact exceeds within

/-- One write beyond the limits makes the whole log unreadable. Witness: the first such
write.
-/
theorem replay_oversized {writes : List Write} (large : ¬ ∀ write ∈ writes, write.Fits)
    (back : Bytes)
    : ∃ error, replay (written writes ++ back) = .error error := by
  obtain ⟨front, write, rest, rfl, fits, exceeds⟩
      : ∃ front write rest,
          writes = front ++ write :: rest
          ∧ (∀ before ∈ front, before.Fits)
          ∧ ¬ write.Fits := by
    induction writes with
    | nil => simp at large
    | cons first rest ih =>
        by_cases small : first.Fits
        · have later : ¬ ∀ write ∈ rest, write.Fits :=
            fun all => large (List.forall_mem_cons.mpr ⟨small, all⟩)
          obtain ⟨front, write, more, rfl, fits, exceeds⟩ := ih later
          exact ⟨first :: front, write, more, rfl, List.forall_mem_cons.mpr ⟨small, fits⟩,
            exceeds⟩
        · exact ⟨[], first, rest, rfl, by simp, small⟩
  have valid : ∀ record ∈ front.map (fun write => write.record.sealed),
      Record.codec.Valid record := by
    intro record member
    obtain ⟨before, found, rfl⟩ := List.mem_map.mp member
    exact (fits before found).valid
  have bytes : written (front ++ write :: rest) ++ back
      = Record.codec.encodeAll (front.map (fun write => write.record.sealed))
        ++ (write.record.toBeBytes ++ (written rest ++ back)) := by
    rw [← written_eq_encodeAll]
    simp [written, Write.bytes]
  rw [bytes]
  exact replay_append_oversized valid
    (Record.hasExpiry_flagsOf write.tombstone write.expiryMs) (Write.oversized exceeds) _

-----------------------------------------------------------------------------------------
-- A write that a torn tail hides
-----------------------------------------------------------------------------------------

/-- The bytes a reader takes for one record. -/
def lenAt (bytes : Bytes) : Nat :=
  Record.headerLenAt bytes + Record.keySizeAt bytes + Record.valueSizeAt bytes

theorem lenAt_append {front : Bytes} (long : recordHeaderLen ≤ front.length) (back : Bytes)
    : lenAt (front ++ back) = lenAt front := by
  have key : crcLen + sizeFieldLen ≤ front.length := by
    simp only [recordHeaderLen, crcLen, sizeFieldLen, flagsLen] at long ⊢
    omega
  rw [lenAt, Record.headerLenAt_append long, Record.keySizeAt_append key,
    Record.valueSizeAt_append ((Nat.le_add_right _ _).trans long)]
  rfl

/-- The parts of a record, in the order in which they are written. -/
theorem Write.bytes_layout (write : Write) (rest : Bytes)
    : write.bytes ++ rest
      = u32Bytes write.record.checksum
        ++ (u64Bytes (UInt64.ofNat write.key.utf8ByteSize)
        ++ (u64Bytes (UInt64.ofNat write.value.utf8ByteSize)
        ++ (Record.flagsOf write.tombstone write.expiryMs
        :: ((write.expiryMs.map u64Bytes).getD []
        ++ (asBytes write.key ++ (asBytes write.value ++ rest)))))) := by
  simp [bytes, Record.toBeBytes, RecordHeader.payload, record, Wal.record, Record.make]

theorem Write.keySizeAt (write : Write) (rest : Bytes)
    : Record.keySizeAt (write.bytes ++ rest) = write.key.utf8ByteSize := by
  rw [write.bytes_layout, Record.keySizeAt, List.drop_left' (by simp [crcLen]),
    List.take_left' (by simp [sizeFieldLen]), u64OfBytes_u64Bytes]
  exact UInt64.toNat_ofNat_of_lt' write.keyLen

theorem Write.valueSizeAt (write : Write) (rest : Bytes)
    : Record.valueSizeAt (write.bytes ++ rest) = write.value.utf8ByteSize := by
  rw [write.bytes_layout, Record.valueSizeAt, ← List.drop_drop,
    List.drop_left' (by simp [crcLen]), List.drop_left' (by simp [sizeFieldLen]),
    List.take_left' (by simp [sizeFieldLen]), u64OfBytes_u64Bytes]
  exact UInt64.toNat_ofNat_of_lt' write.valueLen

theorem Write.headerLenAt (write : Write) (rest : Bytes)
    : Record.headerLenAt (write.bytes ++ rest)
      = recordHeaderLen + if write.expiryMs.isSome then ttlLen else 0 := by
  have flag := Record.hasExpiry_flagsOf write.tombstone write.expiryMs
  have position : crcLen + sizeFieldLen * 2 = crcLen + (sizeFieldLen + sizeFieldLen) := rfl
  rw [write.bytes_layout, Record.headerLenAt, position, ← List.drop_drop,
    ← List.drop_drop, List.drop_left' (by simp [crcLen]),
    List.drop_left' (by simp [sizeFieldLen]), List.drop_left' (by simp [sizeFieldLen]),
    List.headD_cons, flag]

theorem Write.length_bytes (write : Write)
    : write.bytes.length
      = (recordHeaderLen + if write.expiryMs.isSome then ttlLen else 0)
        + write.key.utf8ByteSize + write.value.utf8ByteSize := by
  have layout := congrArg List.length (write.bytes_layout [])
  rw [List.append_nil] at layout
  rw [layout]
  cases write.expiryMs <;>
    simp [length_asBytes, recordHeaderLen, crcLen, sizeFieldLen, flagsLen, ttlLen] <;>
    omega

/-- A record is as long as its header says. -/
theorem Write.lenAt_bytes (write : Write) : lenAt write.bytes = write.bytes.length := by
  have header := write.headerLenAt []
  have key := write.keySizeAt []
  have value := write.valueSizeAt []
  rw [List.append_nil] at header key value
  rw [lenAt, header, key, value, write.length_bytes]

/-- The first record a reader returns from behind a torn one reaches past its bytes. -/
theorem consumed_past_torn {next : Write} {torn missing tail rest : Bytes} {record : Record}
    (cut : next.bytes = torn ++ missing) (strict : missing ≠ [])
    (read : Record.readNext (torn ++ tail) = .ok (record, rest))
    : ∃ skipped, 0 < skipped ∧ rest = tail.drop skipped := by
  obtain ⟨-, -, same, -, -⟩ := Record.readNext_ok read
  change rest = (torn ++ tail).drop (lenAt (torn ++ tail)) at same
  have past : torn.length < lenAt (torn ++ tail) := by
    by_cases long : recordHeaderLen ≤ torn.length
    · have size := next.lenAt_bytes
      have some := List.length_pos_iff.mpr strict
      rw [cut, lenAt_append long, List.length_append] at size
      rw [lenAt_append long]
      omega
    · have header : recordHeaderLen ≤ lenAt (torn ++ tail) := by
        unfold lenAt Record.headerLenAt
        omega
      omega
  refine ⟨lenAt (torn ++ tail) - torn.length, by omega, ?_⟩
  rw [same, List.drop_append, List.drop_eq_nil_of_le past.le, List.nil_append]

/-- A log too short for a record of the key says nothing about it. Witness: induction on the
fuel.
-/
theorem scan_short {fuel offset : Nat} {bytes : Bytes} {memtable final : Memtable}
    {key : String} (short : bytes.length < recordHeaderLen + key.utf8ByteSize)
    (scanned : scanFrom Record.readNext endsReplay replayRecord fuel offset bytes memtable
      = .ok final)
    : final.entry key = memtable.entry key := by
  induction fuel generalizing offset bytes memtable with
  | zero =>
      obtain rfl := Except.ok.inj scanned
      rfl
  | succ fuel ih =>
      rw [scanFrom] at scanned
      split at scanned
      · obtain rfl := Except.ok.inj scanned
        rfl
      · cases read : Record.readNext bytes with
        | error error =>
            rw [read] at scanned
            dsimp only at scanned
            split at scanned
            · obtain rfl := Except.ok.inj scanned
              rfl
            · cases scanned
        | ok found =>
            obtain ⟨record, rest⟩ := found
            rw [read] at scanned
            obtain ⟨enough, text, same, -, -⟩ := Record.readNext_ok read
            have shorter : rest.length ≤ bytes.length := by
              rw [same, List.length_drop]
              omega
            have size := congrArg List.length text
            rw [length_asBytes, List.length_take, List.length_drop] at size
            have header : recordHeaderLen ≤ Record.headerLenAt bytes := Nat.le_add_right _ _
            have other : record.key ≠ key := by
              rintro rfl
              omega
            rw [ih (lt_of_le_of_lt shorter short) scanned, entry_replayRecord, if_neg other]

/-- The key of a probing write: 33 or 32 bytes. -/
def probeKey (long : Bool) : String :=
  String.ofList (List.replicate (if long then 33 else 32) 'a')

theorem size_probeKey (long : Bool)
    : (probeKey long).utf8ByteSize = if long then 33 else 32 :=
  utf8ByteSize_replicate _

/-- A write of an empty value or a deletion. -/
def probe (long tombstone : Bool) : Write :=
  {
    key := probeKey long
    value := ""
    tombstone
    expiryMs := none
    keyLen := by
      rw [size_probeKey]
      cases long <;> decide
    valueLen := by decide
  }

theorem fits_probe (long tombstone : Bool) : (probe long tombstone).Fits := by
  refine ⟨?_, (by decide : "".utf8ByteSize ≤ maxValueSize)⟩
  change (probeKey long).utf8ByteSize ≤ maxKeySize
  rw [size_probeKey]
  cases long <;> decide

/-- What follows the checksum of a probing write. -/
def probeTail (long tombstone : Bool) : Bytes :=
  u64Bytes (if long then 33 else 32) ++ u64Bytes 0 ++ [if tombstone then flagTombstone else 0]
    ++ List.replicate (if long then 33 else 32) 97

theorem asBytes_probeKey (long : Bool)
    : asBytes (probeKey long) = List.replicate (if long then 33 else 32) 97 :=
  asBytes_replicate _

theorem bytes_probe (long tombstone : Bool)
    : (probe long tombstone).bytes
      = u32Bytes (probe long tombstone).record.checksum ++ probeTail long tombstone := by
  have layout := (probe long tombstone).bytes_layout []
  rw [List.append_nil] at layout
  rw [layout]
  congr 1
  change u64Bytes (UInt64.ofNat (probeKey long).utf8ByteSize)
      ++ (u64Bytes 0 ++ (Record.flagsOf tombstone none
        :: ([] ++ (asBytes (probeKey long) ++ (asBytes "" ++ [])))))
    = probeTail long tombstone
  rw [asBytes_probeKey, size_probeKey]
  cases long <;> cases tombstone <;> rfl

/-- Shifted by less than the size field, the flags of a probing write stand where the reader
expects its key.
-/
theorem probeTail_shifted
    : ∀ long tombstone : Bool, ∀ shift < 12,
        (((probeTail long tombstone).drop (16 - shift)).headD 0 &&& flagHasExpiry != 0)
          = false
        ∧ (0 < shift
          → ((probeTail long tombstone).drop (17 - shift)).take (if long then 33 else 32)
            ≠ List.replicate (if long then 33 else 32) 97) := by
  decide +kernel

/-- Behind a torn record, a reader does not find the probing write. -/
theorem probe_not_read {next : Write} {torn missing rest : Bytes} {record : Record}
    {long tombstone : Bool} (cut : next.bytes = torn ++ missing) (some : torn ≠ [])
    (differs : next.key.utf8ByteSize ≠ if long then 33 else 32)
    (read : Record.readNext (torn ++ (probe long tombstone).bytes) = .ok (record, rest))
    : record.key ≠ probeKey long := by
  intro same
  obtain ⟨enough, text, -, -, -⟩ := Record.readNext_ok read
  rw [same, asBytes_probeKey] at text
  have size := congrArg List.length text
  rw [List.length_replicate, List.length_take, List.length_drop] at size
  have keySize : Record.keySizeAt (torn ++ (probe long tombstone).bytes)
      = if long then 33 else 32 := by
    omega
  by_cases whole : crcLen + sizeFieldLen ≤ torn.length
  · have own := next.keySizeAt []
    rw [List.append_nil, cut, Record.keySizeAt_append whole] at own
    rw [Record.keySizeAt_append whole, own] at keySize
    exact differs keySize
  · simp only [crcLen, sizeFieldLen, not_le] at whole
    obtain ⟨unset, misplaced⟩ := probeTail_shifted long tombstone torn.length whole
    let front := torn ++ u32Bytes (probe long tombstone).record.checksum
    have length : front.length = torn.length + 4 := by
      simp [front]
    have bytes : torn ++ (probe long tombstone).bytes = front ++ probeTail long tombstone := by
      rw [bytes_probe, ← List.append_assoc]
    have behind (count : Nat) (past : torn.length + 4 ≤ count)
        : (front ++ probeTail long tombstone).drop count
          = (probeTail long tombstone).drop (count - torn.length - 4) := by
      rw [List.drop_append, List.drop_eq_nil_of_le (by omega), List.nil_append, length]
      congr 1
    have header : Record.headerLenAt (torn ++ (probe long tombstone).bytes) = 21 := by
      have shift : 20 - torn.length - 4 = 16 - torn.length := by
        omega
      rw [bytes, Record.headerLenAt, show crcLen + sizeFieldLen * 2 = 20 from rfl,
        behind 20 (by omega), shift, unset]
      rfl
    rw [keySize, header, bytes, behind 21 (by omega)] at text
    have shift : 21 - torn.length - 4 = 17 - torn.length := by
      omega
    rw [shift] at text
    exact misplaced (List.length_pos_iff.mpr some) text.symm

/-- Behind a torn record, replaying says nothing new about the probing write's key. -/
theorem scan_torn {next : Write} {torn missing : Bytes} {long tombstone : Bool}
    {fuel offset : Nat} {memtable final : Memtable}
    (cut : next.bytes = torn ++ missing) (some : torn ≠ []) (strict : missing ≠ [])
    (differs : next.key.utf8ByteSize ≠ if long then 33 else 32)
    (scanned : scanFrom Record.readNext endsReplay replayRecord fuel offset
      (torn ++ (probe long tombstone).bytes) memtable = .ok final)
    : final.entry (probeKey long) = memtable.entry (probeKey long) := by
  cases fuel with
  | zero =>
      obtain rfl := Except.ok.inj scanned
      rfl
  | succ fuel =>
      rw [scanFrom, if_neg (by simp [some])] at scanned
      cases read : Record.readNext (torn ++ (probe long tombstone).bytes) with
      | error error =>
          rw [read] at scanned
          dsimp only at scanned
          split at scanned
          · obtain rfl := Except.ok.inj scanned
            rfl
          · cases scanned
      | ok found =>
          obtain ⟨record, rest⟩ := found
          rw [read] at scanned
          obtain ⟨skipped, past, rfl⟩ := consumed_past_torn cut strict read
          have other := probe_not_read cut some differs read
          have short : ((probe long tombstone).bytes.drop skipped).length
              < recordHeaderLen + (probeKey long).utf8ByteSize := by
            have size : (probe long tombstone).bytes.length
                = recordHeaderLen + (probeKey long).utf8ByteSize :=
              (probe long tombstone).length_bytes
            rw [List.length_drop, size]
            simp only [recordHeaderLen, crcLen, sizeFieldLen, flagsLen]
            omega
          rw [scan_short short scanned, entry_replayRecord, if_neg other]

/-- A value other than the one a key has, or its deletion. -/
theorem exists_probe_differs (memtable : Memtable) (long : Bool)
    : ∃ tombstone,
        ((probe long tombstone).apply memtable).entry (probeKey long)
        ≠ memtable.entry (probeKey long) := by
  by_cases deleted : memtable.entry (probeKey long) = some { value := none, expiryMs := none }
  · refine ⟨false, ?_⟩
    rw [deleted]
    simp [Write.apply, probe]
  · refine ⟨true, ?_⟩
    have entry : ((probe long true).apply memtable).entry (probeKey long)
        = some { value := none, expiryMs := none } := by
      simp [Write.apply, probe]
    rw [entry]
    exact Ne.symm deleted

/-- A log in which an append was cut short is restored, whatever is appended to it later
within the limits, exactly when nothing of that append was written and the complete records
are within the limits too.
-/
theorem replay_after_append_iff (old : List Write) (next : Write) (torn : Bytes)
    (cut : torn <+: next.bytes) (strict : torn ≠ next.bytes)
    : (∀ later : List Write,
        (∀ write ∈ later, write.Fits)
        → reopenAndAppend (written old ++ torn) later = .ok (applied (old ++ later)))
      ↔ torn = [] ∧ ∀ write ∈ old, write.Fits := by
  obtain ⟨missing, cut⟩ := cut
  have rest : missing ≠ [] := by
    rintro rfl
    rw [List.append_nil] at cut
    exact strict cut
  constructor
  · intro faithful
    have fits : ∀ write ∈ old, write.Fits := by
      by_contra large
      obtain ⟨error, failed⟩ := replay_oversized large torn
      have none := faithful [] (by simp)
      rw [reopenAndAppend, failed] at none
      cases none
    refine ⟨?_, fits⟩
    by_contra some
    let long : Bool := decide (next.key.utf8ByteSize = 32)
    have differs : next.key.utf8ByteSize ≠ if long then 33 else 32 := by
      by_cases short : next.key.utf8ByteSize = 32 <;> simp [long, short]
    obtain ⟨tombstone, changed⟩ := exists_probe_differs (applied old) long
    have whole := faithful [probe long tombstone] (by simp [fits_probe])
    unfold reopenAndAppend at whole
    obtain ⟨first, -, later⟩ := bind_eq_ok.mp whole
    rw [foldl_append, List.append_assoc] at later
    obtain ⟨fuel, offset, -, scanned⟩ := replay_written_append fits
      (torn ++ written [probe long tombstone])
    rw [scanned] at later
    have bytes : written [probe long tombstone] = (probe long tombstone).bytes := by
      simp [written]
    rw [bytes] at later
    have same := scan_torn cut.symm some rest differs later
    rw [applied, List.foldl_append] at same
    exact changed same
  · rintro ⟨rfl, fits⟩ later within
    have all : ∀ write ∈ old ++ later, write.Fits :=
      List.forall_mem_append.mpr ⟨fits, within⟩
    rw [List.append_nil, reopenAndAppend, replay_written fits, ok_bind, foldl_append,
      ← written_append, replay_written all]

/-- Witness: nothing of the second write reached the log, and a third is replayed. -/
theorem replay_after_append_intact
    : reopenAndAppend (written [setKey] ++ []) [setKey] = .ok (applied [setKey, setKey]) := by
  have strict : [] ≠ setKey.bytes := (Record.toBeBytes_ne_nil _).symm
  refine (replay_after_append_iff [setKey] setKey [] List.nil_prefix strict).mpr ⟨rfl, ?_⟩
    [setKey] ?_
  · simp [fits_setKey]
  · simp [fits_setKey]

/-- Cut short by a byte, a write hides the next one; cut down to a byte, it makes the log
unreadable.
-/
theorem torn_tail_hides_append
    : setKey.bytes.take 22 <+: setKey.bytes
      ∧ setKey.bytes.take 22 ≠ setKey.bytes
      ∧ (∃ memtable,
          reopenAndAppend (written [] ++ setKey.bytes.take 22) [setKey] = .ok memtable
          ∧ memtable.entry "k" = none
          ∧ (applied [setKey]).entry "k" ≠ none)
      ∧ ∃ error,
          reopenAndAppend (written [] ++ setKey.bytes.take 1) [setKey] = .error error := by
  refine ⟨List.take_prefix _ _, by decide +kernel, ?_, ?_⟩
  · have lost : (reopenAndAppend (written [] ++ setKey.bytes.take 22) [setKey]).toOption.any
        (fun memtable => memtable.entry "k" = none) := by
      decide +kernel
    obtain ⟨memtable, replayed, hidden⟩ := (Option.any_eq_true _ _).mp lost
    refine ⟨memtable, toOption_eq_some.mp replayed, by simpa using hidden, ?_⟩
    decide +kernel
  · have failed : (reopenAndAppend (written [] ++ setKey.bytes.take 1)
        [setKey]).toOption.isNone := by
      decide +kernel
    cases outcome : reopenAndAppend (written [] ++ setKey.bytes.take 1) [setKey] with
    | error error => exact ⟨error, rfl⟩
    | ok memtable =>
        rw [outcome] at failed
        cases failed

end Wal

end Rustikv

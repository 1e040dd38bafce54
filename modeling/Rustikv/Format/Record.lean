import Rustikv.Format.Crc
import Rustikv.Library.FramedLog

/-! The on-disk record format shared by segments, the write-ahead log and SSTable blocks. -/

namespace Rustikv

open Library

def crcLen : Nat := 4
def sizeFieldLen : Nat := 8
def flagsLen : Nat := 1
def recordHeaderLen : Nat := crcLen + sizeFieldLen * 2 + flagsLen
def ttlLen : Nat := 8
def maxKeySize : Nat := 1048576
def maxValueSize : Nat := 1048576 * 5

def flagTombstone : UInt8 := (1 : UInt8) <<< 0
def flagHasExpiry : UInt8 := (1 : UInt8) <<< 1

structure RecordHeader where
  crc32 : UInt32
  keySize : UInt64
  valueSize : UInt64
  flags : UInt8
  expiryMs : Option UInt64
  deriving DecidableEq, Repr

structure Record where
  header : RecordHeader
  key : String
  value : String
  deriving DecidableEq, Repr

def RecordHeader.isTombstone (header : RecordHeader) : Bool :=
  header.flags &&& flagTombstone != 0

/-- The bytes the checksum covers: everything behind the CRC field. -/
def RecordHeader.payload (header : RecordHeader) (key value : Bytes) : Bytes :=
  u64Bytes header.keySize ++ u64Bytes header.valueSize ++ [header.flags]
    ++ (header.expiryMs.map u64Bytes).getD [] ++ key ++ value

namespace Record

def sizeOnDisk (record : Record) : Nat :=
  recordHeaderLen + (if record.header.expiryMs.isSome then ttlLen else 0)
    + record.header.keySize.toNat + record.header.valueSize.toNat

def checksum (record : Record) : UInt32 :=
  crc32 (record.header.payload (asBytes record.key) (asBytes record.value))

/-- The encoding computes a fresh checksum; the `crc32` field of the value is not used. -/
def toBeBytes (record : Record) : Bytes :=
  u32Bytes record.checksum
    ++ record.header.payload (asBytes record.key) (asBytes record.value)

def readHeader (bytes : Bytes) : Except IoError (RecordHeader × Bytes) := do
  let (crcBytes, bytes) ← readExact crcLen bytes
  let (keyBytes, bytes) ← readExact sizeFieldLen bytes
  let (valueBytes, bytes) ← readExact sizeFieldLen bytes
  let (flagBytes, bytes) ← readExact flagsLen bytes
  let flags := flagBytes.headD 0
  let (expiryMs, bytes) ←
    if flags &&& flagHasExpiry != 0 then
      (readExact ttlLen bytes).map (fun read => (some (u64OfBytes read.1), read.2))
    else
      .ok (none, bytes)
  return (
    {
      crc32 := u32OfBytes crcBytes
      keySize := u64OfBytes keyBytes
      valueSize := u64OfBytes valueBytes
      flags
      expiryMs
    },
    bytes)

/-- The size check, its message and the order of the checks are those of the source. -/
def readNext (bytes : Bytes) : Except IoError (Record × Bytes) := do
  let (header, bytes) ← readHeader bytes
  if maxKeySize < header.keySize.toNat ∨ maxValueSize < header.valueSize.toNat then
    .error
      { kind := .invalidInput, message := "key or value exceeds maximum allowed size" }
  else
    let (keyBytes, bytes) ← readExact header.keySize.toNat bytes
    let (valueBytes, bytes) ← readExact header.valueSize.toNat bytes
    if crc32 (header.payload keyBytes valueBytes) ≠ header.crc32 then
      .error { kind := .invalidData, message := "CRC mismatch" }
    else
      let key ← fromUtf8 keyBytes
      let value ← fromUtf8 valueBytes
      return ({ header, key, value }, bytes)

/-- `Record { header: RecordHeader { crc32: 0, key_size: key.len() .. }, .. }`, the literal
every writer builds.
-/
def make (key value : String) (flags : UInt8) (expiryMs : Option UInt64) : Record :=
  {
    header := {
      crc32 := 0
      keySize := UInt64.ofNat key.utf8ByteSize
      valueSize := UInt64.ofNat value.utf8ByteSize
      flags
      expiryMs
    }
    key
    value
  }

/-- The flag byte of a record: `FLAG_TOMBSTONE` and `FLAG_HAS_EXPIRY` as they apply. -/
def flagsOf (tombstone : Bool) (expiryMs : Option UInt64) : UInt8 :=
  (if tombstone then flagTombstone else 0)
    ||| (if expiryMs.isSome then flagHasExpiry else 0)

/-- The record as a reader gets it back: with its checksum filled in. -/
def sealed (record : Record) : Record :=
  { record with header := { record.header with crc32 := record.checksum } }

-----------------------------------------------------------------------------------------
-- Reading back what was written
-----------------------------------------------------------------------------------------

/-- The sizes and the expiry flag describe the record's own key, value and expiry, within
the limits every reader enforces.
-/
structure WellFormed (record : Record) : Prop where
  keySize : record.header.keySize.toNat = record.key.utf8ByteSize
  valueSize : record.header.valueSize.toNat = record.value.utf8ByteSize
  keyLimit : record.key.utf8ByteSize ≤ maxKeySize
  valueLimit : record.value.utf8ByteSize ≤ maxValueSize
  expiryFlag : (record.header.flags &&& flagHasExpiry != 0) = record.header.expiryMs.isSome

@[simp]
theorem toBeBytes_sealed (record : Record) : record.sealed.toBeBytes = record.toBeBytes := rfl

@[simp]
theorem sealed_sealed (record : Record) : record.sealed.sealed = record.sealed := rfl

theorem toBeBytes_ne_nil (record : Record) : record.toBeBytes ≠ [] := by
  intro empty
  have size := congrArg List.length empty
  simp [toBeBytes] at size

/-- A header is read back from its encoding, whatever follows it. -/
theorem readHeader_append (header : RecordHeader) (tail : Bytes)
    (flag : (header.flags &&& flagHasExpiry != 0) = header.expiryMs.isSome)
    : readHeader
        (u32Bytes header.crc32 ++ (u64Bytes header.keySize ++ (u64Bytes header.valueSize
          ++ ([header.flags] ++ ((header.expiryMs.map u64Bytes).getD [] ++ tail)))))
      = .ok (header, tail) := by
  obtain ⟨crc, keySize, valueSize, flags, expiry⟩ := header
  cases expiry with
  | none =>
      have unset : flags &&& flagHasExpiry = 0 := by simpa using flag
      simp [readHeader, crcLen, sizeFieldLen, flagsLen, unset]
  | some ms =>
      have set : flags &&& flagHasExpiry ≠ 0 := by simpa using flag
      simp [readHeader, crcLen, sizeFieldLen, flagsLen, ttlLen, set, Except.map,
        Functor.map]

/-- The header of an encoded record is read back, and the key and the value are next. -/
theorem readHeader_toBeBytes {record : Record}
    (flag : (record.header.flags &&& flagHasExpiry != 0) = record.header.expiryMs.isSome)
    (rest : Bytes)
    : readHeader (record.toBeBytes ++ rest)
      = .ok (record.sealed.header, asBytes record.key ++ (asBytes record.value ++ rest)) := by
  have header := readHeader_append record.sealed.header
    (asBytes record.key ++ (asBytes record.value ++ rest)) flag
  rw [← header]
  congr 1
  simp [toBeBytes, RecordHeader.payload, sealed]

/-- A well-formed record is read back from its encoding and leaves what follows unread. -/
theorem readNext_toBeBytes {record : Record} (formed : record.WellFormed) (rest : Bytes)
    : readNext (record.toBeBytes ++ rest) = .ok (record.sealed, rest) := by
  have header := readHeader_toBeBytes formed.expiryFlag rest
  have keyLength : (asBytes record.key).length = record.sealed.header.keySize.toNat := by
    rw [length_asBytes]
    exact formed.keySize.symm
  have valueLength
      : (asBytes record.value).length = record.sealed.header.valueSize.toNat := by
    rw [length_asBytes]
    exact formed.valueSize.symm
  have limits : ¬ (maxKeySize < record.sealed.header.keySize.toNat
      ∨ maxValueSize < record.sealed.header.valueSize.toNat) := by
    rw [← keyLength, ← valueLength, length_asBytes, length_asBytes]
    have key := formed.keyLimit
    have value := formed.valueLimit
    omega
  have intact : crc32 (record.sealed.header.payload (asBytes record.key)
      (asBytes record.value)) = record.sealed.header.crc32 := rfl
  simp only [readNext, header, bind, Except.bind, if_neg limits,
    readExact_append keyLength, readExact_append valueLength, intact, ne_eq,
    not_true_eq_false, if_false, fromUtf8_asBytes]
  rfl

/-- A record with a size over its limit is refused by every reader. -/
theorem readNext_oversized {record : Record}
    (flag : (record.header.flags &&& flagHasExpiry != 0) = record.header.expiryMs.isSome)
    (oversized
      : maxKeySize < record.header.keySize.toNat
        ∨ maxValueSize < record.header.valueSize.toNat)
    (rest : Bytes)
    : readNext (record.toBeBytes ++ rest)
      = .error
          { kind := .invalidInput, message := "key or value exceeds maximum allowed size" }
    := by
  have exceeds : maxKeySize < record.sealed.header.keySize.toNat
      ∨ maxValueSize < record.sealed.header.valueSize.toNat := oversized
  simp only [readNext, readHeader_toBeBytes flag rest, bind, Except.bind, if_pos exceeds]

-----------------------------------------------------------------------------------------
-- Where a reader finds the parts of a record
-----------------------------------------------------------------------------------------

def keySizeAt (bytes : Bytes) : Nat :=
  (u64OfBytes ((bytes.drop crcLen).take sizeFieldLen)).toNat

def valueSizeAt (bytes : Bytes) : Nat :=
  (u64OfBytes ((bytes.drop (crcLen + sizeFieldLen)).take sizeFieldLen)).toNat

/-- The length of the header, with the expiry if the flags announce one. -/
def headerLenAt (bytes : Bytes) : Nat :=
  recordHeaderLen
    + if (bytes.drop (crcLen + sizeFieldLen * 2)).headD 0 &&& flagHasExpiry != 0 then ttlLen
      else 0

/-- The parts are found in the bytes of the header, whatever is behind them. -/
theorem keySizeAt_append {front : Bytes} (long : crcLen + sizeFieldLen ≤ front.length)
    (back : Bytes)
    : keySizeAt (front ++ back) = keySizeAt front := by
  simp only [crcLen, sizeFieldLen] at long
  unfold keySizeAt crcLen sizeFieldLen
  rw [List.drop_append_of_le_length (by omega), List.take_append_of_le_length]
  rw [List.length_drop]
  omega

theorem valueSizeAt_append {front : Bytes} (long : crcLen + sizeFieldLen * 2 ≤ front.length)
    (back : Bytes)
    : valueSizeAt (front ++ back) = valueSizeAt front := by
  simp only [crcLen, sizeFieldLen] at long
  unfold valueSizeAt crcLen sizeFieldLen
  rw [List.drop_append_of_le_length (by omega), List.take_append_of_le_length]
  rw [List.length_drop]
  omega

theorem headerLenAt_append {front : Bytes} (long : recordHeaderLen ≤ front.length)
    (back : Bytes)
    : headerLenAt (front ++ back) = headerLenAt front := by
  simp only [recordHeaderLen, crcLen, sizeFieldLen, flagsLen] at long
  unfold headerLenAt crcLen sizeFieldLen
  rw [List.drop_append_of_le_length (by omega)]
  cases flags : front.drop (4 + 8 * 2) with
  | nil =>
      have empty := congrArg List.length flags
      rw [List.length_drop, List.length_nil] at empty
      omega
  | cons flag rest => rfl

theorem readHeader_ok {bytes rest : Bytes} {header : RecordHeader}
    (read : readHeader bytes = .ok (header, rest))
    : header.keySize.toNat = keySizeAt bytes
      ∧ header.valueSize.toNat = valueSizeAt bytes
      ∧ headerLenAt bytes ≤ bytes.length
      ∧ rest = bytes.drop (headerLenAt bytes) := by
  unfold readHeader at read
  obtain ⟨⟨crcBytes, afterCrc⟩, crc, read⟩ := bind_eq_ok.mp read
  obtain ⟨⟨keyBytes, afterKey⟩, key, read⟩ := bind_eq_ok.mp read
  obtain ⟨⟨valueBytes, afterValue⟩, value, read⟩ := bind_eq_ok.mp read
  obtain ⟨⟨flagBytes, afterFlags⟩, flags, read⟩ := bind_eq_ok.mp read
  obtain ⟨crcEnough, rfl, rfl⟩ := readExact_eq_ok.mp crc
  obtain ⟨keyEnough, rfl, rfl⟩ := readExact_eq_ok.mp key
  obtain ⟨valueEnough, rfl, rfl⟩ := readExact_eq_ok.mp value
  obtain ⟨flagsEnough, rfl, rfl⟩ := readExact_eq_ok.mp flags
  simp only [List.drop_drop, List.length_drop] at keyEnough valueEnough flagsEnough read
  have flag : ((bytes.drop (crcLen + sizeFieldLen + sizeFieldLen)).take flagsLen).headD 0
      = (bytes.drop (crcLen + sizeFieldLen * 2)).headD 0 := by
    rw [show crcLen + sizeFieldLen + sizeFieldLen = crcLen + sizeFieldLen * 2 from rfl]
    cases bytes.drop (crcLen + sizeFieldLen * 2) <;> rfl
  rw [flag] at read
  have length : recordHeaderLen ≤ bytes.length := by
    simp only [recordHeaderLen, crcLen, sizeFieldLen, flagsLen] at flagsEnough ⊢
    omega
  unfold headerLenAt
  split at read
  · rename_i expiry
    obtain ⟨⟨expiryMs, afterExpiry⟩, ttl, read⟩ := bind_eq_ok.mp read
    cases found : readExact ttlLen (bytes.drop
      (crcLen + sizeFieldLen + sizeFieldLen + flagsLen)) with
    | error error =>
        rw [found] at ttl
        cases ttl
    | ok both =>
        obtain ⟨front, back⟩ := both
        rw [found] at ttl
        obtain ⟨-, rfl⟩ := Prod.mk.inj (Except.ok.inj ttl)
        obtain ⟨ttlEnough, -, rfl⟩ := readExact_eq_ok.mp found
        obtain ⟨rfl, rfl⟩ := Prod.mk.inj (Except.ok.inj read)
        rw [if_pos expiry, List.drop_drop]
        rw [List.length_drop] at ttlEnough
        refine ⟨rfl, rfl, ?_, rfl⟩
        simp only [recordHeaderLen, crcLen, sizeFieldLen, flagsLen] at ttlEnough length ⊢
        omega
  · rename_i expiry
    obtain ⟨rfl, rfl⟩ := Prod.mk.inj (Except.ok.inj read)
    rw [if_neg expiry]
    exact ⟨rfl, rfl, length, rfl⟩

/-- What a reader returns lies at the head of the bytes. -/
theorem readNext_ok {bytes rest : Bytes} {record : Record}
    (read : readNext bytes = .ok (record, rest))
    : headerLenAt bytes + keySizeAt bytes + valueSizeAt bytes ≤ bytes.length
      ∧ asBytes record.key = (bytes.drop (headerLenAt bytes)).take (keySizeAt bytes)
      ∧ rest = bytes.drop (headerLenAt bytes + keySizeAt bytes + valueSizeAt bytes)
      ∧ keySizeAt bytes ≤ maxKeySize
      ∧ valueSizeAt bytes ≤ maxValueSize
      ∧ asBytes record.value
        = (bytes.drop (headerLenAt bytes + keySizeAt bytes)).take (valueSizeAt bytes) := by
  unfold readNext at read
  obtain ⟨⟨header, afterHeader⟩, head, read⟩ := bind_eq_ok.mp read
  obtain ⟨keySize, valueSize, enough, rfl⟩ := readHeader_ok head
  dsimp only at read
  rw [keySize, valueSize] at read
  split at read
  · cases read
  · rename_i limits
    obtain ⟨⟨keyBytes, afterKey⟩, key, read⟩ := bind_eq_ok.mp read
    obtain ⟨⟨valueBytes, afterValue⟩, value, read⟩ := bind_eq_ok.mp read
    obtain ⟨keyEnough, rfl, rfl⟩ := readExact_eq_ok.mp key
    obtain ⟨valueEnough, rfl, rfl⟩ := readExact_eq_ok.mp value
    dsimp only at read
    split at read
    · cases read
    · obtain ⟨text, decoded, read⟩ := bind_eq_ok.mp read
      obtain ⟨content, stored, read⟩ := bind_eq_ok.mp read
      obtain ⟨rfl, rfl⟩ := Prod.mk.inj (Except.ok.inj read)
      simp only [List.length_drop] at keyEnough valueEnough
      simp only [List.drop_drop] at stored ⊢
      exact ⟨by omega, asBytes_of_fromUtf8 decoded, trivial, by omega, by omega,
        asBytes_of_fromUtf8 stored⟩

theorem steady_readHeader : Steady readHeader := by
  refine (steady_readExact crcLen).bind fun crcBytes => ?_
  refine (steady_readExact sizeFieldLen).bind fun keyBytes => ?_
  refine (steady_readExact sizeFieldLen).bind fun valueBytes => ?_
  refine (steady_readExact flagsLen).bind fun flagBytes => ?_
  dsimp only
  refine .split ?_ ?_
  · exact ((steady_readExact ttlLen).map (some ∘ u64OfBytes)).bind fun expiryMs _ _ => rfl
  · exact (Steady.done none).bind fun expiryMs _ _ => rfl

/-- Behind the header a reader goes by its sizes, and what it checks has been read. -/
theorem steady_readNext : Steady readNext := by
  refine steady_readHeader.bind fun header => ?_
  refine Steady.split (.fail _) ?_
  refine (steady_readExact header.keySize.toNat).bind fun keyBytes => ?_
  refine (steady_readExact header.valueSize.toNat).bind fun valueBytes => ?_
  refine Steady.split (.fail _) ?_
  exact .check fun key => .check fun value => .done _

/-- A record that was read is read from longer bytes too. -/
theorem readNext_more {bytes rest : Bytes} {record : Record}
    (read : readNext bytes = .ok (record, rest)) (more : Bytes)
    : readNext (bytes ++ more) = .ok (record, rest ++ more) :=
  steady_readNext.ok read more

theorem length_toBeBytes {record : Record} (formed : record.WellFormed)
    : record.toBeBytes.length = record.sizeOnDisk := by
  have keyLength := formed.keySize
  have valueLength := formed.valueSize
  cases expiry : record.header.expiryMs <;>
    simp [toBeBytes, RecordHeader.payload, sizeOnDisk, expiry, length_asBytes,
      recordHeaderLen, crcLen, sizeFieldLen, flagsLen, ttlLen, keyLength, valueLength] <;>
    omega

theorem WellFormed.sealed {record : Record} (formed : record.WellFormed)
    : record.sealed.WellFormed :=
  ⟨formed.keySize, formed.valueSize, formed.keyLimit, formed.valueLimit, formed.expiryFlag⟩

/-- The key and the value respect the size limits of the format. -/
def Fits (key value : String) : Prop :=
  key.utf8ByteSize ≤ maxKeySize ∧ value.utf8ByteSize ≤ maxValueSize

instance (key value : String) : Decidable (Fits key value) :=
  inferInstanceAs (Decidable (_ ∧ _))

theorem hasExpiry_flagsOf (tombstone : Bool) (expiryMs : Option UInt64)
    : (flagsOf tombstone expiryMs &&& flagHasExpiry != 0) = expiryMs.isSome := by
  cases tombstone <;> cases expiryMs <;> simp only [flagsOf, Option.isSome] <;> decide

theorem isTombstone_flagsOf (tombstone : Bool) (expiryMs : Option UInt64)
    : (flagsOf tombstone expiryMs &&& flagTombstone != 0) = tombstone := by
  cases tombstone <;> cases expiryMs <;> simp only [flagsOf, Option.isSome] <;> decide

/-- Every writer's record literal is well formed when its key and value fit. -/
theorem wellFormed_make {key value : String} (fits : Fits key value) (tombstone : Bool)
    (expiryMs : Option UInt64)
    : (make key value (flagsOf tombstone expiryMs) expiryMs).WellFormed where
  keySize := by
    have bound := fits.1
    simp only [maxKeySize] at bound
    simp only [make, UInt64.toNat_ofNat']
    omega
  valueSize := by
    have bound := fits.2
    simp only [maxValueSize] at bound
    simp only [make, UInt64.toNat_ofNat']
    omega
  keyLimit := fits.1
  valueLimit := fits.2
  expiryFlag := hasExpiry_flagsOf tombstone expiryMs

/-- Sealed well-formed records as the frames of a log file. -/
def codec : FrameCodec Record IoError where
  encode := toBeBytes
  decode := readNext
  Valid record := record.WellFormed ∧ record.sealed = record
  decode_encode record valid rest := by
    rw [readNext_toBeBytes valid.1, valid.2]
  encode_ne_nil := toBeBytes_ne_nil

/-- A record that ends early is not read, and the error says that the input ended. -/
theorem readNext_torn {record : Record} (valid : codec.Valid record) {torn missing : Bytes}
    (parts : torn ++ missing = record.toBeBytes) (lost : missing ≠ [])
    : ∃ error, readNext torn = .error error ∧ error.kind = .unexpectedEof :=
  Steady.torn codec steady_readNext valid parts lost

-----------------------------------------------------------------------------------------
-- A record in a stream
-----------------------------------------------------------------------------------------

/-- A well-formed record in front of any bytes is read back, with the checksum of its bytes,
and the reader takes as many bytes as the record says it needs.
-/
theorem readNext_stream {record : Record} (formed : record.WellFormed) (rest : Bytes)
    : ∃ read,
        readNext (record.toBeBytes ++ rest) = .ok (read, rest)
        ∧ read.key = record.key
        ∧ read.value = record.value
        ∧ read.header = { record.header with crc32 := record.checksum }
        ∧ record.toBeBytes.length = record.sizeOnDisk := by
  refine ⟨record.sealed, readNext_toBeBytes formed rest, rfl, rfl, rfl, ?_⟩
  exact length_toBeBytes formed

/-- Witness: a tombstone with an expiry, in front of another byte. -/
theorem readNext_stream_tombstone
    : ∃ read,
        readNext ((make "k" "" 3 (some 7)).toBeBytes ++ [9]) = .ok (read, [9])
        ∧ read.key = "k"
        ∧ read.value = ""
        ∧ read.header
          = { (make "k" "" 3 (some 7)).header with
              crc32 := (make "k" "" 3 (some 7)).checksum
            }
        ∧ (make "k" "" 3 (some 7)).toBeBytes.length = (make "k" "" 3 (some 7)).sizeOnDisk :=
  readNext_stream
    ⟨by decide +kernel, by decide +kernel, by decide +kernel, by decide +kernel, by decide⟩ [9]

end Record
end Rustikv

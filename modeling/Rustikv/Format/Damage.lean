import Rustikv.Format.Record

/-! Records with changed bytes: what a reader makes of them, and which changes its checksum
detects.
-/

namespace Rustikv

open Library

namespace Record

-----------------------------------------------------------------------------------------
-- Reading any bytes
-----------------------------------------------------------------------------------------

theorem exists_parts (bytes : Bytes) (count : Nat) (enough : count ≤ bytes.length)
    : ∃ front back, bytes = front ++ back ∧ front.length = count :=
  ⟨bytes.take count, bytes.drop count, (List.take_append_drop _ _).symm,
    List.length_take_of_le enough⟩

theorem readExact_enough {count : Nat} {bytes : Bytes} (enough : count ≤ bytes.length)
    : readExact count bytes = .ok (bytes.take count, bytes.drop count) :=
  if_pos enough

theorem readExact_short {count : Nat} {bytes : Bytes} (short : bytes.length < count)
    : ∃ error, readExact count bytes = .error error ∧ error.kind = .unexpectedEof :=
  ⟨_, if_neg (not_le.mpr short), rfl⟩

theorem fromUtf8_error {bytes : Bytes} {error : IoError}
    (failed : fromUtf8 bytes = .error error)
    : error.kind = .invalidData := by
  unfold fromUtf8 at failed
  split at failed
  · cases failed
  · obtain rfl := Except.error.inj failed
    rfl

/-- Bytes long enough for a header begin with the encoding of one. -/
theorem exists_header {bytes : Bytes} (enough : headerLenAt bytes ≤ bytes.length)
    : ∃ (header : RecordHeader) (tail : Bytes),
        (header.flags &&& flagHasExpiry != 0) = header.expiryMs.isSome
        ∧ bytes = u32Bytes header.crc32 ++ (header.payload [] [] ++ tail) := by
  have long : recordHeaderLen ≤ bytes.length := (Nat.le_add_right _ _).trans enough
  simp only [recordHeaderLen, crcLen, sizeFieldLen, flagsLen] at long
  obtain ⟨crc, afterCrc, rfl, crcLength⟩ := exists_parts bytes 4 (by omega)
  rw [List.length_append] at long
  obtain ⟨key, afterKey, rfl, keyLength⟩ := exists_parts afterCrc 8 (by omega)
  rw [List.length_append] at long
  obtain ⟨value, afterValue, rfl, valueLength⟩ := exists_parts afterKey 8 (by omega)
  rw [List.length_append] at long
  cases afterValue with
  | nil =>
      rw [List.length_nil] at long
      omega
  | cons flags afterFlags =>
      have flagsAt : ((crc ++ (key ++ (value ++ flags :: afterFlags))).drop
          (crcLen + sizeFieldLen * 2)).headD 0 = flags := by
        have position : crcLen + sizeFieldLen * 2 = 4 + (8 + 8) := rfl
        rw [position, ← List.drop_drop, ← List.drop_drop, List.drop_left' crcLength,
          List.drop_left' keyLength, List.drop_left' valueLength, List.headD_cons]
      rw [headerLenAt, flagsAt] at enough
      simp only [List.length_append, List.length_cons, recordHeaderLen, crcLen, sizeFieldLen,
        flagsLen, ttlLen] at enough
      by_cases expiry : (flags &&& flagHasExpiry != 0) = true
      · rw [if_pos expiry] at enough
        obtain ⟨ttl, tail, rfl, ttlLength⟩ := exists_parts afterFlags 8 (by omega)
        refine ⟨⟨u32OfBytes crc, u64OfBytes key, u64OfBytes value, flags,
          some (u64OfBytes ttl)⟩, tail, expiry, ?_⟩
        simp [RecordHeader.payload, u32Bytes_u32OfBytes crcLength,
          u64Bytes_u64OfBytes keyLength, u64Bytes_u64OfBytes valueLength,
          u64Bytes_u64OfBytes ttlLength]
      · refine ⟨⟨u32OfBytes crc, u64OfBytes key, u64OfBytes value, flags, none⟩, afterFlags,
          by simpa using expiry, ?_⟩
        simp [RecordHeader.payload, u32Bytes_u32OfBytes crcLength,
          u64Bytes_u64OfBytes keyLength, u64Bytes_u64OfBytes valueLength]

theorem payload_append (header : RecordHeader) (key value : Bytes)
    : header.payload key value = header.payload [] [] ++ key ++ value := by
  simp [RecordHeader.payload]

/-- The header at the head of some bytes, and where its record ends. -/
theorem readHeader_encoded {header : RecordHeader}
    (flag : (header.flags &&& flagHasExpiry != 0) = header.expiryMs.isSome) (tail : Bytes)
    : readHeader (u32Bytes header.crc32 ++ (header.payload [] [] ++ tail))
      = .ok (header, tail) := by
  rw [← readHeader_append header tail flag]
  simp [RecordHeader.payload]

/-- The header at the head of the bytes, and that its checksum is taken over the bytes behind
the checksum field up to the end of the record.
-/
theorem readHeader_enough {bytes : Bytes} (enough : headerLenAt bytes ≤ bytes.length)
    : ∃ header,
        readHeader bytes = .ok (header, bytes.drop (headerLenAt bytes))
        ∧ header.keySize.toNat = keySizeAt bytes
        ∧ header.valueSize.toNat = valueSizeAt bytes
        ∧ header.crc32 = u32OfBytes (bytes.take crcLen)
        ∧ header.payload ((bytes.drop (headerLenAt bytes)).take (keySizeAt bytes))
            (((bytes.drop (headerLenAt bytes)).drop (keySizeAt bytes)).take
              (valueSizeAt bytes))
          = (bytes.take (headerLenAt bytes + keySizeAt bytes + valueSizeAt bytes)).drop
              crcLen := by
  obtain ⟨header, tail, flag, encoded⟩ := exists_header enough
  have read := readHeader_encoded flag tail
  rw [← encoded] at read
  obtain ⟨keySize, valueSize, -, same⟩ := readHeader_ok read
  have length : headerLenAt bytes = 4 + (header.payload [] []).length := by
    have whole := congrArg List.length encoded
    have part := congrArg List.length same
    simp only [List.length_append, length_u32Bytes, List.length_drop] at whole part
    omega
  have split (count : Nat)
      : ((u32Bytes header.crc32 ++ (header.payload [] [] ++ tail)).take
            (4 + ((header.payload [] []).length + count))).drop 4
          = header.payload [] [] ++ tail.take count := by
    rw [List.take_append, List.take_of_length_le (by rw [length_u32Bytes]; omega),
      List.drop_left' (length_u32Bytes _), length_u32Bytes, Nat.add_sub_cancel_left,
      List.take_append, List.take_of_length_le (by omega), Nat.add_sub_cancel_left]
  have parts := split (keySizeAt bytes + valueSizeAt bytes)
  rw [← encoded] at parts
  refine ⟨header, same ▸ read, keySize, valueSize, ?_, ?_⟩
  · rw [encoded, List.take_left' (by simp [crcLen]), u32OfBytes_u32Bytes]
  · rw [← same, payload_append, List.append_assoc, ← List.take_add, ← parts, length,
      Nat.add_assoc, Nat.add_assoc]
    rfl

/-- A complete record at the head of the bytes: within the limits, with the checksum of its
bytes and with texts.
-/
structure Intact (bytes : Bytes) : Prop where
  enough : headerLenAt bytes + keySizeAt bytes + valueSizeAt bytes ≤ bytes.length
  keyLimit : keySizeAt bytes ≤ maxKeySize
  valueLimit : valueSizeAt bytes ≤ maxValueSize
  checksum
    : crc32 ((bytes.take (headerLenAt bytes + keySizeAt bytes + valueSizeAt bytes)).drop
        crcLen)
      = u32OfBytes (bytes.take crcLen)
  key : ∃ text, asBytes text = (bytes.drop (headerLenAt bytes)).take (keySizeAt bytes)
  value
    : ∃ text,
        asBytes text
        = (bytes.drop (headerLenAt bytes + keySizeAt bytes)).take (valueSizeAt bytes)

/-- With a whole record within the limits, a reader has only its checksum and its texts left
to check.
-/
theorem readNext_enough {bytes : Bytes}
    (enough : headerLenAt bytes + keySizeAt bytes + valueSizeAt bytes ≤ bytes.length)
    (keyLimit : keySizeAt bytes ≤ maxKeySize) (valueLimit : valueSizeAt bytes ≤ maxValueSize)
    : ∃ header,
        readNext bytes
        = if crc32 ((bytes.take (headerLenAt bytes + keySizeAt bytes
              + valueSizeAt bytes)).drop crcLen)
            ≠ u32OfBytes (bytes.take crcLen) then
            .error { kind := .invalidData, message := "CRC mismatch" }
          else do
            let key ← fromUtf8 ((bytes.drop (headerLenAt bytes)).take (keySizeAt bytes))
            let value ← fromUtf8 ((bytes.drop (headerLenAt bytes + keySizeAt bytes)).take
              (valueSizeAt bytes))
            return ({ header, key, value },
              bytes.drop (headerLenAt bytes + keySizeAt bytes + valueSizeAt bytes)) := by
  obtain ⟨header, read, keySize, valueSize, crc, checked⟩ :=
    readHeader_enough (by omega : headerLenAt bytes ≤ bytes.length)
  refine ⟨header, ?_⟩
  rw [readNext, read, ok_bind]
  dsimp only
  rw [keySize, valueSize, if_neg (by omega),
    readExact_enough (by rw [List.length_drop]; omega), ok_bind]
  dsimp only
  rw [readExact_enough (by simp only [List.length_drop]; omega), ok_bind]
  dsimp only
  rw [checked, crc, List.drop_drop, List.drop_drop]

/-- A complete record within the limits whose checksum is not that of its bytes. -/
theorem readNext_mismatch {bytes : Bytes}
    (enough : headerLenAt bytes + keySizeAt bytes + valueSizeAt bytes ≤ bytes.length)
    (keyLimit : keySizeAt bytes ≤ maxKeySize) (valueLimit : valueSizeAt bytes ≤ maxValueSize)
    (mismatch
      : crc32 ((bytes.take (headerLenAt bytes + keySizeAt bytes + valueSizeAt bytes)).drop
          crcLen)
        ≠ u32OfBytes (bytes.take crcLen))
    : readNext bytes = .error { kind := .invalidData, message := "CRC mismatch" } := by
  obtain ⟨header, read⟩ := readNext_enough enough keyLimit valueLimit
  rw [read, if_pos mismatch]

/-- Complete records are just what a reader returns. -/
theorem intact_iff (bytes : Bytes)
    : Intact bytes
      ↔ ∃ record,
          readNext bytes
          = .ok (record,
            bytes.drop (headerLenAt bytes + keySizeAt bytes + valueSizeAt bytes)) := by
  constructor
  · rintro ⟨enough, keyLimit, valueLimit, checksum, ⟨key, keyBytes⟩, ⟨value, valueBytes⟩⟩
    obtain ⟨header, read⟩ := readNext_enough enough keyLimit valueLimit
    refine ⟨{ header, key, value }, ?_⟩
    rw [read, if_neg (not_not.mpr checksum), ← keyBytes, fromUtf8_asBytes, ok_bind,
      ← valueBytes, fromUtf8_asBytes, ok_bind]
    rfl
  · rintro ⟨record, read⟩
    obtain ⟨enough, key, -, keyLimit, valueLimit, value⟩ := readNext_ok read
    refine ⟨enough, keyLimit, valueLimit, ?_, ⟨_, key⟩, ⟨_, value⟩⟩
    by_contra mismatch
    rw [readNext_mismatch enough keyLimit valueLimit mismatch] at read
    cases read

/-- What is read is what its writer encoded. -/
theorem readNext_encoded {bytes rest : Bytes} {record : Record}
    (read : readNext bytes = .ok (record, rest))
    : bytes = record.toBeBytes ++ rest := by
  obtain ⟨enough, -⟩ := readNext_ok read
  obtain ⟨header, tail, flag, rfl⟩ := exists_header (by omega : headerLenAt bytes ≤ _)
  rw [readNext, readHeader_encoded flag tail, ok_bind] at read
  dsimp only at read
  split at read
  · cases read
  · obtain ⟨⟨keyBytes, afterKey⟩, key, read⟩ := bind_eq_ok.mp read
    obtain ⟨⟨valueBytes, afterValue⟩, value, read⟩ := bind_eq_ok.mp read
    obtain ⟨-, rfl, rfl⟩ := readExact_eq_ok.mp key
    obtain ⟨-, rfl, rfl⟩ := readExact_eq_ok.mp value
    dsimp only at read
    split at read
    · cases read
    · rename_i intact
      obtain ⟨text, decoded, read⟩ := bind_eq_ok.mp read
      obtain ⟨content, stored, read⟩ := bind_eq_ok.mp read
      obtain ⟨rfl, rfl⟩ := Prod.mk.inj (Except.ok.inj read)
      have checksum : checksum { header, key := text, value := content } = header.crc32 := by
        rw [Record.checksum, asBytes_of_fromUtf8 decoded, asBytes_of_fromUtf8 stored]
        exact not_not.mp intact
      rw [toBeBytes, checksum, asBytes_of_fromUtf8 decoded, asBytes_of_fromUtf8 stored,
        payload_append header (List.take _ _)]
      simp only [List.append_assoc, List.take_append_drop]

/-- A record that the end of the bytes cuts off, in its header or behind it. -/
def CutOff (bytes : Bytes) : Prop :=
  bytes.length < headerLenAt bytes
  ∨ (keySizeAt bytes ≤ maxKeySize ∧ valueSizeAt bytes ≤ maxValueSize
    ∧ bytes.length < headerLenAt bytes + keySizeAt bytes + valueSizeAt bytes)

instance (bytes : Bytes) : Decidable (CutOff bytes) :=
  inferInstanceAs (Decidable (_ ∨ _))

/-- A header that is cut off would be read from longer bytes. -/
theorem readHeader_short {bytes : Bytes} (short : bytes.length < headerLenAt bytes)
    : ∃ error, readHeader bytes = .error error ∧ error.kind = .unexpectedEof := by
  cases read : readHeader bytes with
  | ok found =>
      obtain ⟨-, -, enough, -⟩ := readHeader_ok read
      exact absurd enough (not_le.mpr short)
  | error error =>
      refine ⟨error, rfl, ?_⟩
      let more : Bytes := List.replicate (recordHeaderLen + ttlLen) 0
      have enough : headerLenAt (bytes ++ more) ≤ (bytes ++ more).length := by
        have size : more.length = recordHeaderLen + ttlLen := List.length_replicate
        rw [List.length_append, size, headerLenAt]
        split <;> omega
      obtain ⟨header, whole, -⟩ := readHeader_enough enough
      rcases steady_readHeader.error read more with ended | stays
      · exact ended
      · rw [stays] at whole
        cases whole

/-- Sizes over the limits are refused once the header has been read. -/
theorem readNext_exceeds {bytes : Bytes} (enough : headerLenAt bytes ≤ bytes.length)
    (exceeds : maxKeySize < keySizeAt bytes ∨ maxValueSize < valueSizeAt bytes)
    : readNext bytes
      = .error {
          kind := .invalidInput
          message := "key or value exceeds maximum allowed size"
        } := by
  obtain ⟨header, read, keySize, valueSize, -⟩ := readHeader_enough enough
  rw [readNext, read, ok_bind]
  dsimp only
  rw [keySize, valueSize, if_pos exceeds]

/-- The end of the bytes is found in the header, in the key or in the value. -/
theorem readNext_cutOff {bytes : Bytes} (lost : CutOff bytes)
    : ∃ error, readNext bytes = .error error ∧ error.kind = .unexpectedEof := by
  by_cases short : bytes.length < headerLenAt bytes
  · obtain ⟨error, failed, ended⟩ := readHeader_short short
    refine ⟨error, ?_, ended⟩
    rw [readNext, failed, error_bind]
  · obtain ⟨keyLimit, valueLimit, lost⟩ := lost.resolve_left short
    rw [not_lt] at short
    obtain ⟨header, read, keySize, valueSize, -⟩ := readHeader_enough short
    have after : (bytes.drop (headerLenAt bytes)).length
        = bytes.length - headerLenAt bytes :=
      List.length_drop
    rw [readNext, read, ok_bind]
    dsimp only
    rw [keySize, valueSize, if_neg (by omega)]
    by_cases key : keySizeAt bytes ≤ (bytes.drop (headerLenAt bytes)).length
    · have rest : ((bytes.drop (headerLenAt bytes)).drop (keySizeAt bytes)).length
          < valueSizeAt bytes := by
        rw [List.length_drop]
        omega
      obtain ⟨error, failed, ended⟩ := readExact_short rest
      refine ⟨error, ?_, ended⟩
      rw [readExact_enough key, ok_bind]
      dsimp only
      rw [failed, error_bind]
    · obtain ⟨error, failed, ended⟩ := readExact_short (not_le.mp key)
      refine ⟨error, ?_, ended⟩
      rw [failed, error_bind]

/-- A whole record is refused for its checksum or for its texts. -/
theorem readNext_error_kind {bytes : Bytes} {error : IoError}
    (enough : headerLenAt bytes + keySizeAt bytes + valueSizeAt bytes ≤ bytes.length)
    (keyLimit : keySizeAt bytes ≤ maxKeySize) (valueLimit : valueSizeAt bytes ≤ maxValueSize)
    (failed : readNext bytes = .error error)
    : error.kind = .invalidData := by
  obtain ⟨header, read⟩ := readNext_enough enough keyLimit valueLimit
  rw [read] at failed
  split at failed
  · obtain rfl := Except.error.inj failed
    rfl
  · cases key : fromUtf8 ((bytes.drop (headerLenAt bytes)).take (keySizeAt bytes)) with
    | error unreadable =>
        rw [key, error_bind] at failed
        obtain rfl := Except.error.inj failed
        exact fromUtf8_error key
    | ok text =>
        rw [key, ok_bind] at failed
        cases value : fromUtf8 ((bytes.drop (headerLenAt bytes + keySizeAt bytes)).take
          (valueSizeAt bytes)) with
        | error unreadable =>
            rw [value, error_bind] at failed
            obtain rfl := Except.error.inj failed
            exact fromUtf8_error value
        | ok content =>
            rw [value] at failed
            cases failed

/-- A reader says that its bytes end exactly where they cut a record off. -/
theorem cutOff_iff (bytes : Bytes)
    : CutOff bytes ↔ ∃ error, readNext bytes = .error error ∧ error.kind = .unexpectedEof := by
  refine ⟨readNext_cutOff, ?_⟩
  rintro ⟨error, failed, ended⟩
  by_contra kept
  simp only [CutOff, not_or, not_and, not_lt] at kept
  obtain ⟨header, body⟩ := kept
  by_cases exceeds : maxKeySize < keySizeAt bytes ∨ maxValueSize < valueSizeAt bytes
  · rw [readNext_exceeds header exceeds] at failed
    obtain rfl := Except.error.inj failed
    cases ended
  · rw [not_or, not_lt, not_lt] at exceeds
    have whole := body exceeds.1 exceeds.2
    rw [readNext_error_kind whole exceeds.1 exceeds.2 failed] at ended
    cases ended

-----------------------------------------------------------------------------------------
-- Changes of an encoded record
-----------------------------------------------------------------------------------------

/-- A reader takes the bytes of a well-formed record, and no others. -/
theorem frame_toBeBytes {record : Record} (formed : record.WellFormed) (rest : Bytes)
    : headerLenAt (record.toBeBytes ++ rest) + keySizeAt (record.toBeBytes ++ rest)
          + valueSizeAt (record.toBeBytes ++ rest)
        = record.toBeBytes.length
      ∧ keySizeAt (record.toBeBytes ++ rest) ≤ maxKeySize
      ∧ valueSizeAt (record.toBeBytes ++ rest) ≤ maxValueSize := by
  obtain ⟨enough, -, same, keyLimit, valueLimit, -⟩ :=
    readNext_ok (readNext_toBeBytes formed rest)
  have length := congrArg List.length same
  rw [List.length_append] at enough
  rw [List.length_drop, List.length_append] at length
  exact ⟨by omega, keyLimit, valueLimit⟩

/-- Bytes framed as a well-formed record, but with another checksum, are a mismatch. -/
theorem readNext_reframed {record : Record} (formed : record.WellFormed) {bytes : Bytes}
    (length : bytes.length = record.toBeBytes.length) (rest : Bytes)
    (header : headerLenAt (bytes ++ rest) = headerLenAt (record.toBeBytes ++ rest))
    (key : keySizeAt (bytes ++ rest) = keySizeAt (record.toBeBytes ++ rest))
    (value : valueSizeAt (bytes ++ rest) = valueSizeAt (record.toBeBytes ++ rest))
    (mismatch : crc32 (bytes.drop crcLen) ≠ u32OfBytes (bytes.take crcLen))
    : readNext (bytes ++ rest)
      = .error { kind := .invalidData, message := "CRC mismatch" } := by
  obtain ⟨frame, keyLimit, valueLimit⟩ := frame_toBeBytes formed rest
  rw [← header, ← key, ← value] at frame
  have long : crcLen ≤ bytes.length := by
    rw [length, toBeBytes, List.length_append, length_u32Bytes]
    exact Nat.le_add_right _ _
  refine readNext_mismatch ?_ (key ▸ keyLimit) (value ▸ valueLimit) ?_
  · rw [frame, List.length_append, length]
    omega
  · rw [frame, ← length, List.take_left, List.take_append_of_le_length long]
    exact mismatch

theorem crc32_toBeBytes (record : Record)
    : crc32 (record.toBeBytes.drop crcLen) = u32OfBytes (record.toBeBytes.take crcLen) := by
  rw [toBeBytes, List.drop_left' (by simp [crcLen]), List.take_left' (by simp [crcLen]),
    u32OfBytes_u32Bytes]
  rfl

/-- The sizes and the flags are behind the checksum field. -/
theorem parts_of_drop {bytes other : Bytes} (same : bytes.drop crcLen = other.drop crcLen)
    : headerLenAt bytes = headerLenAt other
      ∧ keySizeAt bytes = keySizeAt other
      ∧ valueSizeAt bytes = valueSizeAt other := by
  unfold headerLenAt keySizeAt valueSizeAt
  rw [← List.drop_drop, ← List.drop_drop, ← List.drop_drop, ← List.drop_drop, same]
  exact ⟨rfl, rfl, rfl⟩

section Detection

variable {record : Record} {front window changed back : Bytes}

/-- Another checksum field does not fit the bytes behind it. -/
theorem readNext_changed_checksum (formed : record.WellFormed)
    (parts : record.toBeBytes = front ++ window ++ back)
    (lengths : window.length = changed.length) (differ : window ≠ changed)
    (place : front.length + window.length ≤ crcLen) (rest : Bytes)
    : readNext (front ++ changed ++ back ++ rest)
      = .error { kind := .invalidData, message := "CRC mismatch" } := by
  have length : (front ++ changed ++ back).length = record.toBeBytes.length := by
    rw [parts]
    simp only [List.length_append, lengths]
  have behind (middle : Bytes) (size : front.length + middle.length ≤ crcLen)
      : (front ++ middle ++ back).drop crcLen
        = back.drop (crcLen - (front.length + middle.length)) := by
    rw [← List.length_append] at size
    rw [List.drop_append, List.drop_eq_nil_of_le size, List.nil_append, List.length_append]
  have tails : (front ++ changed ++ back).drop crcLen = record.toBeBytes.drop crcLen := by
    rw [parts, behind window place, behind changed (lengths ▸ place), lengths]
  have long : crcLen ≤ record.toBeBytes.length := by
    rw [toBeBytes, List.length_append, length_u32Bytes]
    exact Nat.le_add_right _ _
  have longToo : crcLen ≤ (front ++ changed ++ back).length := length ▸ long
  have same : (front ++ changed ++ back ++ rest).drop crcLen
      = (record.toBeBytes ++ rest).drop crcLen := by
    rw [List.drop_append_of_le_length longToo, List.drop_append_of_le_length long, tails]
  obtain ⟨header, key, value⟩ := parts_of_drop same
  refine readNext_reframed formed length rest header key value ?_
  rw [tails, crc32_toBeBytes]
  intro equal
  have size : (record.toBeBytes.take crcLen).length = 4 := List.length_take_of_le long
  have sizeToo : ((front ++ changed ++ back).take crcLen).length = 4 :=
    List.length_take_of_le longToo
  have fields := congrArg u32Bytes equal
  rw [u32Bytes_u32OfBytes size, u32Bytes_u32OfBytes sizeToo] at fields
  have whole : front ++ window ++ back = front ++ changed ++ back := by
    rw [← parts, ← List.take_append_drop crcLen record.toBeBytes, fields, ← tails,
      List.take_append_drop]
  rw [List.append_left_inj, List.append_right_inj] at whole
  exact differ whole

/-- The checksum field does not fit other bytes behind the sizes, when they announce an expiry
as before.
-/
theorem readNext_changed_contents (formed : record.WellFormed)
    (parts : record.toBeBytes = front ++ window ++ back)
    (lengths : window.length = changed.length) (short : window.length ≤ 4)
    (differ : window ≠ changed) (place : crcLen + sizeFieldLen * 2 ≤ front.length)
    (rest : Bytes)
    (header
      : headerLenAt (front ++ changed ++ back ++ rest)
        = headerLenAt (record.toBeBytes ++ rest))
    : readNext (front ++ changed ++ back ++ rest)
      = .error { kind := .invalidData, message := "CRC mismatch" } := by
  have length : (front ++ changed ++ back).length = record.toBeBytes.length := by
    rw [parts]
    simp only [List.length_append, lengths]
  have keyPlace : crcLen + sizeFieldLen ≤ front.length := by
    simp only [crcLen, sizeFieldLen] at place ⊢
    omega
  have long : crcLen ≤ front.length := (Nat.le_add_right _ _).trans keyPlace
  have intact := crc32_toBeBytes record
  rw [parts] at intact
  refine readNext_reframed formed length rest header ?_ ?_ ?_
  · rw [parts]
    simp only [List.append_assoc, keySizeAt_append keyPlace]
  · rw [parts]
    simp only [List.append_assoc, valueSizeAt_append place]
  · simp only [List.append_assoc, List.drop_append_of_le_length long,
      List.take_append_of_le_length long] at intact ⊢
    rw [← intact]
    have burst := crc32_burst (front.drop crcLen) back lengths short differ
    simpa only [List.append_assoc] using burst.symm

/-- Every change within four consecutive bytes of the checksum field, or of what is behind
the flags, is detected.
-/
theorem readNext_detects (formed : record.WellFormed)
    (parts : record.toBeBytes = front ++ window ++ back)
    (lengths : window.length = changed.length) (short : window.length ≤ 4)
    (differ : window ≠ changed)
    (place
      : front.length + window.length ≤ crcLen
        ∨ crcLen + sizeFieldLen * 2 + flagsLen ≤ front.length)
    (rest : Bytes)
    : ∃ error,
        readNext (front ++ changed ++ back ++ rest) = .error error
        ∧ error.kind = .invalidData := by
  rcases place with field | behind
  · exact ⟨_, readNext_changed_checksum formed parts lengths differ field rest, rfl⟩
  · have header : headerLenAt (front ++ changed ++ back ++ rest)
        = headerLenAt (record.toBeBytes ++ rest) := by
      rw [parts]
      simp only [List.append_assoc, headerLenAt_append behind]
    exact ⟨_, readNext_changed_contents formed parts lengths short differ
      ((Nat.le_add_right _ _).trans behind) rest header, rfl⟩

/-- The flags of the bytes stand behind the sizes. -/
theorem headerLenAt_flags {front : Bytes} (place : front.length = crcLen + sizeFieldLen * 2)
    (flags : UInt8) (back : Bytes)
    : headerLenAt (front ++ flags :: back)
      = recordHeaderLen + if flags &&& flagHasExpiry != 0 then ttlLen else 0 := by
  rw [headerLenAt, List.drop_left' place, List.headD_cons]

/-- A changed byte is detected, unless it is one of the sizes or announces an expiry where
there was none, or none where there was one.
-/
theorem readNext_set (formed : record.WellFormed) {position : Nat} {byte : UInt8}
    (inside : position < record.toBeBytes.length) (differs : record.toBeBytes[position] ≠ byte)
    (place
      : position < crcLen
        ∨ crcLen + sizeFieldLen * 2 < position
        ∨ position = crcLen + sizeFieldLen * 2
          ∧ byte &&& flagHasExpiry = record.toBeBytes[position] &&& flagHasExpiry)
    (rest : Bytes)
    : readNext (record.toBeBytes.set position byte ++ rest)
      = .error { kind := .invalidData, message := "CRC mismatch" } := by
  let front := record.toBeBytes.take position
  let back := record.toBeBytes.drop (position + 1)
  have size : front.length = position := List.length_take_of_le inside.le
  have parts : record.toBeBytes = front ++ [record.toBeBytes[position]] ++ back := by
    simp [front, back]
  have changed : record.toBeBytes.set position byte = front ++ [byte] ++ back := by
    rw [List.set_eq_take_append_cons_drop, if_pos inside]
    simp [front, back]
  have differ : [record.toBeBytes[position]] ≠ [byte] := by simpa using differs
  have lengths : [record.toBeBytes[position]].length = [byte].length := rfl
  rw [changed]
  rcases place with field | behind | ⟨same, expiry⟩
  · refine readNext_changed_checksum formed parts lengths differ ?_ rest
    rw [size]
    exact field
  · refine readNext_changed_contents formed parts lengths (by simp) differ (by omega) rest ?_
    have long : recordHeaderLen ≤ front.length := by
      simp only [recordHeaderLen, crcLen, sizeFieldLen, flagsLen] at behind ⊢
      omega
    rw [parts]
    simp only [List.append_assoc, headerLenAt_append long]
  · refine readNext_changed_contents formed parts lengths (by simp) differ (by omega) rest ?_
    have flags := headerLenAt_flags (size.trans same)
    rw [parts]
    simp only [List.append_assoc, List.cons_append, flags, expiry]

end Detection

/-- The record of a key and a value of one byte each. -/
def smallRecord : Record :=
  make "k" "v" (flagsOf false none) none

theorem wellFormed_smallRecord : smallRecord.WellFormed :=
  wellFormed_make (by decide) false none

/-- Witness: the last byte of a value is changed, and nothing follows the record. -/
theorem readNext_detects_value
    : ∃ error,
        readNext (smallRecord.toBeBytes.take 22 ++ [137] ++ [] ++ []) = .error error
        ∧ error.kind = .invalidData := by
  have parts : smallRecord.toBeBytes = smallRecord.toBeBytes.take 22 ++ [118] ++ [] := by
    decide +kernel
  have place
      : crcLen + sizeFieldLen * 2 + flagsLen ≤ (smallRecord.toBeBytes.take 22).length := by
    decide +kernel
  exact readNext_detects wellFormed_smallRecord parts (by simp) (by simp) (by decide)
    (.inr place) []

end Record
end Rustikv

import Rustikv.Format.Record

/-! Hint files: per-segment lists of keys and record offsets written by compaction. -/

namespace Rustikv

open Library

structure HintEntry where
  keySize : UInt64
  offset : UInt64
  tombstone : Bool
  expiryMs : Option UInt64
  key : String
  deriving DecidableEq, Repr

namespace HintEntry

def toBeBytes (entry : HintEntry) : Bytes :=
  u64Bytes entry.keySize ++ u64Bytes entry.offset
    ++ [Record.flagsOf entry.tombstone entry.expiryMs]
    ++ (entry.expiryMs.map u64Bytes).getD [] ++ asBytes entry.key

/-- One iteration of `Hint::read_file`. -/
def readNext (bytes : Bytes) : Except IoError (HintEntry × Bytes) := do
  let (sizeBytes, bytes) ← readExact sizeFieldLen bytes
  let (offsetBytes, bytes) ← readExact sizeFieldLen bytes
  let (flagBytes, bytes) ← readExact flagsLen bytes
  let flags := flagBytes.headD 0
  let (expiryMs, bytes) ←
    if flags &&& flagHasExpiry != 0 then
      (readExact ttlLen bytes).map (fun read => (some (u64OfBytes read.1), read.2))
    else
      .ok (none, bytes)
  let (keyBytes, bytes) ← readExact (u64OfBytes sizeBytes).toNat bytes
  let key ← fromUtf8 keyBytes
  return (
    {
      keySize := u64OfBytes sizeBytes
      offset := u64OfBytes offsetBytes
      tombstone := flags &&& flagTombstone != 0
      expiryMs
      key
    },
    bytes)

theorem readNext_toBeBytes {entry : HintEntry}
    (size : entry.keySize.toNat = entry.key.utf8ByteSize) (rest : Bytes)
    : readNext (entry.toBeBytes ++ rest) = .ok (entry, rest) := by
  obtain ⟨keySize, offset, tombstone, expiry, key⟩ := entry
  have keyLength : (asBytes key).length = keySize.toNat := size.symm
  have tombstoneFlag := Record.isTombstone_flagsOf tombstone expiry
  have expiryFlag := Record.hasExpiry_flagsOf tombstone expiry
  cases expiry with
  | none =>
      have unset : Record.flagsOf tombstone none &&& flagHasExpiry = 0 := by
        simpa using expiryFlag
      simp [readNext, toBeBytes, sizeFieldLen, flagsLen, unset, tombstoneFlag,
        readExact_append keyLength, pure, Except.pure]
  | some ms =>
      have set : Record.flagsOf tombstone (some ms) &&& flagHasExpiry ≠ 0 := by
        simpa using expiryFlag
      simp [readNext, toBeBytes, sizeFieldLen, flagsLen, ttlLen, set, tombstoneFlag,
        readExact_append keyLength, Except.map, pure, Except.pure]

/-- What is read of an entry does not depend on the bytes behind it. -/
theorem steady_readNext : Steady readNext := by
  refine (steady_readExact sizeFieldLen).bind fun sizeBytes => ?_
  refine (steady_readExact sizeFieldLen).bind fun offsetBytes => ?_
  refine (steady_readExact flagsLen).bind fun flagBytes => ?_
  dsimp only
  refine .split ?_ ?_
  · refine ((steady_readExact ttlLen).map (some ∘ u64OfBytes)).bind fun expiryMs => ?_
    dsimp only
    refine (steady_readExact (u64OfBytes sizeBytes).toNat).bind fun keyBytes => ?_
    dsimp only
    exact .check fun key => .done _
  · refine (Steady.done none).bind fun expiryMs => ?_
    dsimp only
    refine (steady_readExact (u64OfBytes sizeBytes).toNat).bind fun keyBytes => ?_
    dsimp only
    exact .check fun key => .done _

/-- Entries whose size field counts their key bytes, as the frames of a hint file. -/
def codec : FrameCodec HintEntry IoError where
  encode := toBeBytes
  decode := readNext
  Valid entry := entry.keySize.toNat = entry.key.utf8ByteSize
  decode_encode _ valid rest := readNext_toBeBytes valid rest
  encode_ne_nil entry := by
    intro empty
    have size := congrArg List.length empty
    simp [toBeBytes] at size

end HintEntry

/-- `Hint::read_file`; a missing file is an error like any unreadable one. -/
def Hint.readFile (file : Option Bytes) : Except IoError (List HintEntry) :=
  match file with
  | none => .error { kind := .notFound, message := "No such file or directory" }
  | some bytes =>
      scanFrom HintEntry.readNext (fun _ => false)
        (fun entries _ entry => entries ++ [entry]) bytes.length 0 bytes []

/-- A hint file holding whole entries reads back as those entries. -/
theorem Hint.readFile_encodeAll {entries : List HintEntry}
    (valid : ∀ entry ∈ entries, HintEntry.codec.Valid entry)
    : Hint.readFile (some (HintEntry.codec.encodeAll entries)) = .ok entries := by
  have scanned := HintEntry.codec.scanFrom_encodeAll (fun _ => false)
    (fun entries (_ : Nat) (entry : HintEntry) => entries ++ [entry]) valid 0
    (le_refl _) ([] : List HintEntry)
  have collected (located : List (Nat × HintEntry)) (start : List HintEntry)
      : located.foldl (fun entries (item : Nat × HintEntry) => entries ++ [item.2]) start
        = start ++ located.map Prod.snd := by
    induction located generalizing start with
    | nil => simp
    | cons first rest ih => simp [ih]
  rw [collected, HintEntry.codec.map_snd_locate, List.nil_append] at scanned
  exact scanned

-----------------------------------------------------------------------------------------
-- Hint files that are cut off
-----------------------------------------------------------------------------------------

/-- The file `Hint::write_file` leaves: it is truncated, then one write per entry. -/
def Hint.writeFile (entries : List HintEntry) : Bytes :=
  entries.foldl (fun file entry => file ++ entry.toBeBytes) []

theorem Hint.writeFile_eq (entries : List HintEntry)
    : Hint.writeFile entries = HintEntry.codec.encodeAll entries := by
  have written (start : Bytes)
      : entries.foldl (fun file entry => file ++ entry.toBeBytes) start
        = start ++ HintEntry.codec.encodeAll entries := by
    induction entries generalizing start with
    | nil => exact (List.append_nil start).symm
    | cons first rest ih =>
        rw [List.foldl_cons, ih, FrameCodec.encodeAll_cons, List.append_assoc]
        rfl
  exact written []

/-- A file that is cut between two entries reads as the entries before the cut, and one that
is cut inside an entry is refused.
-/
theorem Hint.readFile_take {entries : List HintEntry}
    (valid : ∀ entry ∈ entries, HintEntry.codec.Valid entry) (cut : Nat)
    : (∃ error,
          Hint.readFile (some ((HintEntry.codec.encodeAll entries).take cut))
            = .error error
          ∧ error.kind = .unexpectedEof)
      ∨ ∃ whole,
          Hint.readFile (some ((HintEntry.codec.encodeAll entries).take cut))
          = .ok (entries.take whole) := by
  obtain ⟨whole, torn, same, begun, -⟩ := HintEntry.codec.take_encodeAll entries cut
  have validFront : ∀ entry ∈ entries.take whole, HintEntry.codec.Valid entry :=
    fun entry member => valid entry (List.mem_of_mem_take member)
  rw [same]
  rcases begun with rfl | ⟨entry, member, missing, parts, lost⟩
  · refine .inr ⟨whole, ?_⟩
    rw [List.append_nil]
    exact Hint.readFile_encodeAll validFront
  · by_cases empty : torn = []
    · refine .inr ⟨whole, ?_⟩
      rw [empty, List.append_nil]
      exact Hint.readFile_encodeAll validFront
    · obtain ⟨error, unread, ended⟩ :=
        Steady.torn HintEntry.codec HintEntry.steady_readNext (valid entry member) parts lost
      refine .inl ⟨error, ?_, ended⟩
      exact HintEntry.codec.scanFrom_unread (fun _ => false) _ validFront 0 empty unread rfl
        le_rfl []

/-- A hint file reads back as its entries, and what is left of one as some of the first of
them, if it is read at all.
-/
theorem Hint.readFile_writeFile {entries : List HintEntry}
    (sizes : ∀ entry ∈ entries, entry.keySize.toNat = entry.key.utf8ByteSize)
    : Hint.readFile (some (Hint.writeFile entries)) = .ok entries
      ∧ ∀ cut,
          (∃ error, Hint.readFile (some ((Hint.writeFile entries).take cut)) = .error error)
          ∨ ∃ front,
              Hint.readFile (some ((Hint.writeFile entries).take cut)) = .ok front
              ∧ front <+: entries := by
  rw [Hint.writeFile_eq]
  refine ⟨Hint.readFile_encodeAll sizes, fun cut => ?_⟩
  rcases Hint.readFile_take sizes cut with ⟨error, failed, -⟩ | ⟨whole, read⟩
  · exact .inl ⟨error, failed⟩
  · exact .inr ⟨_, read, List.take_prefix whole entries⟩

/-- Witness: a value with an expiry, then a tombstone of the empty key. -/
theorem Hint.readFile_writeFile_two
    : let entries : List HintEntry := [⟨1, 0, false, some 7, "k"⟩, ⟨0, 31, true, none, ""⟩]
      Hint.readFile (some (Hint.writeFile entries)) = .ok entries
      ∧ ∀ cut,
          (∃ error, Hint.readFile (some ((Hint.writeFile entries).take cut)) = .error error)
          ∨ ∃ front,
              Hint.readFile (some ((Hint.writeFile entries).take cut)) = .ok front
              ∧ front <+: entries :=
  Hint.readFile_writeFile (by decide +kernel)

end Rustikv

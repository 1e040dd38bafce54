import Rustikv.Library.FramedLog

/-! Byte readers and the I/O errors of the storage code. -/

namespace Rustikv

open Library

inductive ErrorKind
  | notFound
  | alreadyExists
  | invalidInput
  | invalidData
  | unexpectedEof
  | other
  deriving DecidableEq, Repr

structure IoError where
  kind : ErrorKind
  message : String
  deriving DecidableEq, Repr

@[simp]
theorem ok_bind {ε α β : Type} (value : α) (next : α → Except ε β)
    : (Except.ok value >>= next) = next value := rfl

@[simp]
theorem error_bind {ε α β : Type} (error : ε) (next : α → Except ε β)
    : (Except.error error >>= next) = Except.error error := rfl

theorem bind_eq_ok {ε α β : Type} {first : Except ε α} {next : α → Except ε β} {result : β}
    : (first >>= next) = .ok result ↔ ∃ value, first = .ok value ∧ next value = .ok result := by
  cases first <;> simp

@[simp]
theorem toOption_eq_some {ε α : Type} {result : Except ε α} {value : α}
    : result.toOption = some value ↔ result = .ok value := by
  cases result <;> simp [Except.toOption]

/-- `read_exact`: split off the next `count` bytes, or fail at the end of the input. -/
def readExact (count : Nat) (bytes : Bytes) : Except IoError (Bytes × Bytes) :=
  if count ≤ bytes.length then
    .ok (bytes.take count, bytes.drop count)
  else
    .error { kind := .unexpectedEof, message := "failed to fill whole buffer" }

@[simp]
theorem readExact_append {count : Nat} {front : Bytes} (size : front.length = count)
    (back : Bytes)
    : readExact count (front ++ back) = .ok (front, back) := by
  subst size
  simp [readExact]

theorem readExact_eq_ok {count : Nat} {bytes front back : Bytes}
    : readExact count bytes = .ok (front, back)
      ↔ count ≤ bytes.length ∧ front = bytes.take count ∧ back = bytes.drop count := by
  unfold readExact
  split
  · rename_i enough
    simp [enough, eq_comm]
  · rename_i short
    simp [short]

/-- More bytes behind its input change a reader only where the input ended: what it returned
it returns again and leaves more, and any other error stays.
-/
def Steady {α : Type} (read : Bytes → Except IoError (α × Bytes)) : Prop :=
  ∀ bytes more,
    match read bytes with
    | .ok (value, rest) => read (bytes ++ more) = .ok (value, rest ++ more)
    | .error error =>
        error.kind = .unexpectedEof ∨ read (bytes ++ more) = .error error

namespace Steady

variable {α β : Type} {read : Bytes → Except IoError (α × Bytes)}

theorem ok (steady : Steady read) {bytes rest : Bytes} {value : α}
    (done : read bytes = .ok (value, rest)) (more : Bytes)
    : read (bytes ++ more) = .ok (value, rest ++ more) := by
  have after := steady bytes more
  rw [done] at after
  exact after

theorem error (steady : Steady read) {bytes : Bytes} {error : IoError}
    (failed : read bytes = .error error) (more : Bytes)
    : error.kind = .unexpectedEof ∨ read (bytes ++ more) = .error error := by
  have after := steady bytes more
  rw [failed] at after
  exact after

theorem done (value : α) : Steady (fun bytes => .ok (value, bytes)) :=
  fun _ _ => rfl

theorem fail (error : IoError) : Steady (fun _ => (.error error : Except _ (α × Bytes))) :=
  fun _ _ => .inr rfl

theorem split {condition : Prop} {decides : Bytes → Decidable condition}
    {other : Bytes → Except IoError (α × Bytes)} (first : Steady read) (second : Steady other)
    : Steady (fun bytes => @ite _ condition (decides bytes) (read bytes) (other bytes))
    := by
  by_cases holds : condition
  · simpa only [if_pos holds] using first
  · simpa only [if_neg holds] using second

/-- A check of what has been read comes before the reading goes on. -/
theorem check {outcome : Except IoError β}
    {next : β → Bytes → Except IoError (α × Bytes)} (later : ∀ value, Steady (next value))
    : Steady (fun bytes => outcome >>= fun value => next value bytes) := by
  cases outcome with
  | ok value => exact later value
  | error error => exact fail error

/-- Reading on from where another reader stopped. -/
theorem bind (steady : Steady read) {next : α × Bytes → Except IoError (β × Bytes)}
    (later : ∀ value, Steady (fun rest => next (value, rest)))
    : Steady (fun bytes => read bytes >>= next) := by
  intro bytes more
  dsimp only
  cases first : read bytes with
  | ok found =>
      obtain ⟨value, rest⟩ := found
      rw [steady.ok first more, ok_bind, ok_bind]
      exact later value rest more
  | error error =>
      rw [error_bind]
      rcases steady.error first more with ended | stays
      · exact .inl ended
      · right
        rw [stays, error_bind]

theorem map (steady : Steady read) (change : α → β)
    : Steady (fun bytes => (read bytes).map (fun found => (change found.1, found.2))) := by
  intro bytes more
  dsimp only
  cases first : read bytes with
  | ok found =>
      obtain ⟨value, rest⟩ := found
      rw [steady.ok first more]
      rfl
  | error error =>
      rcases steady.error first more with ended | stays
      · exact .inl ended
      · right
        rw [stays]
        rfl

/-- A frame that ends early is not read, and the error says that the input ended. -/
theorem torn (codec : FrameCodec α IoError) (steady : Steady codec.decode) {frame : α}
    (valid : codec.Valid frame) {torn missing : Bytes}
    (parts : torn ++ missing = codec.encode frame) (lost : missing ≠ [])
    : ∃ error, codec.decode torn = .error error ∧ error.kind = .unexpectedEof := by
  have decoded := codec.decode_encode frame valid []
  rw [List.append_nil, ← parts] at decoded
  cases read : codec.decode torn with
  | error error =>
      refine ⟨error, rfl, ?_⟩
      rcases steady.error read missing with ended | stays
      · exact ended
      · rw [stays] at decoded
        cases decoded
  | ok found =>
      obtain ⟨value, rest⟩ := found
      rw [steady.ok read missing] at decoded
      have none := congrArg Prod.snd (Except.ok.inj decoded)
      exact absurd (List.append_eq_nil_iff.mp none).2 lost

end Steady

theorem steady_readExact (count : Nat) : Steady (readExact count) := by
  intro bytes more
  unfold readExact
  split
  · rename_i value rest read
    split at read
    · rename_i enough
      obtain ⟨rfl, rfl⟩ := Prod.mk.inj (Except.ok.inj read)
      rw [if_pos (by rw [List.length_append]; omega),
        List.take_append_of_le_length enough, List.drop_append_of_le_length enough]
    · cases read
  · rename_i error read
    split at read
    · cases read
    · obtain rfl := Except.error.inj read
      exact .inl rfl

@[simp]
theorem readExact_one (byte : UInt8) (rest : Bytes)
    : readExact 1 (byte :: rest) = .ok ([byte], rest) := by
  simp [readExact]

def u64Bytes (value : UInt64) : Bytes :=
  toBigEndian 8 value.toNat

def u64OfBytes (bytes : Bytes) : UInt64 :=
  UInt64.ofNat (ofBigEndian bytes)

def u32Bytes (value : UInt32) : Bytes :=
  toBigEndian 4 value.toNat

def u32OfBytes (bytes : Bytes) : UInt32 :=
  UInt32.ofNat (ofBigEndian bytes)

def u16Bytes (value : UInt16) : Bytes :=
  toBigEndian 2 value.toNat

@[simp]
theorem length_u16Bytes (value : UInt16) : (u16Bytes value).length = 2 := by
  simp [u16Bytes]

theorem ofBigEndian_u16Bytes (value : UInt16)
    : ofBigEndian (u16Bytes value) = value.toNat := by
  have small : value.toNat < 256 ^ 2 := value.toNat_lt
  simp [u16Bytes, ofBigEndian_toBigEndian small]

theorem ofBigEndian_u32Bytes (value : UInt32)
    : ofBigEndian (u32Bytes value) = value.toNat := by
  have small : value.toNat < 256 ^ 4 := value.toNat_lt
  simp [u32Bytes, ofBigEndian_toBigEndian small]

@[simp]
theorem length_u64Bytes (value : UInt64) : (u64Bytes value).length = 8 := by
  simp [u64Bytes]

@[simp]
theorem length_u32Bytes (value : UInt32) : (u32Bytes value).length = 4 := by
  simp [u32Bytes]

@[simp]
theorem u64OfBytes_u64Bytes (value : UInt64) : u64OfBytes (u64Bytes value) = value := by
  have small : value.toNat < 256 ^ 8 := value.toNat_lt
  simp [u64OfBytes, u64Bytes, ofBigEndian_toBigEndian small]

@[simp]
theorem u32OfBytes_u32Bytes (value : UInt32) : u32OfBytes (u32Bytes value) = value := by
  have small : value.toNat < 256 ^ 4 := value.toNat_lt
  simp [u32OfBytes, u32Bytes, ofBigEndian_toBigEndian small]

theorem u64Bytes_u64OfBytes {bytes : Bytes} (size : bytes.length = 8)
    : u64Bytes (u64OfBytes bytes) = bytes := by
  have small := ofBigEndian_lt bytes
  rw [size] at small
  have value : (u64OfBytes bytes).toNat = ofBigEndian bytes :=
    UInt64.toNat_ofNat_of_lt' small
  rw [u64Bytes, value, ← size, toBigEndian_ofBigEndian]

theorem u32Bytes_u32OfBytes {bytes : Bytes} (size : bytes.length = 4)
    : u32Bytes (u32OfBytes bytes) = bytes := by
  have small := ofBigEndian_lt bytes
  rw [size] at small
  have value : (u32OfBytes bytes).toNat = ofBigEndian bytes :=
    UInt32.toNat_ofNat_of_lt' small
  rw [u32Bytes, value, ← size, toBigEndian_ofBigEndian]

-----------------------------------------------------------------------------------------
-- UTF-8 text
-----------------------------------------------------------------------------------------

/-- `str::as_bytes`. -/
def asBytes (text : String) : Bytes :=
  text.toByteArray.data.toList

/-- `String::from_utf8`. -/
def fromUtf8 (bytes : Bytes) : Except IoError String :=
  match String.fromUTF8? ⟨bytes.toArray⟩ with
  | some text => .ok text
  | none => .error { kind := .invalidData, message := "invalid utf-8 sequence" }

theorem length_asBytes (text : String) : (asBytes text).length = text.utf8ByteSize := by
  rfl

@[simp]
theorem fromUtf8_asBytes (text : String) : fromUtf8 (asBytes text) = .ok text := by
  have valid : ByteArray.IsValidUTF8 ⟨text.toByteArray.data⟩ := text.isValidUTF8
  simp [fromUtf8, asBytes, String.fromUTF8?, String.fromUTF8, valid]

theorem asBytes_injective : Function.Injective asBytes := by
  intro text other same
  have read := congrArg fromUtf8 same
  rw [fromUtf8_asBytes, fromUtf8_asBytes] at read
  exact Except.ok.inj read

theorem asBytes_of_fromUtf8 {bytes : Bytes} {text : String}
    (decoded : fromUtf8 bytes = .ok text)
    : asBytes text = bytes := by
  unfold fromUtf8 String.fromUTF8? at decoded
  split at decoded
  · rename_i found
    split at found
    · obtain rfl := Option.some.inj found
      obtain rfl := Except.ok.inj decoded
      rfl
    · cases found
  · cases decoded

theorem utf8ByteSize_replicate (count : Nat)
    : (String.ofList (List.replicate count 'a')).utf8ByteSize = count := by
  induction count with
  | zero => rfl
  | succ count ih =>
      rw [List.replicate_succ, String.ofList_cons, String.utf8ByteSize_append, ih]
      exact Nat.add_comm 1 count

theorem asBytes_append (text other : String)
    : asBytes (text ++ other) = asBytes text ++ asBytes other := by
  rw [asBytes, String.toByteArray_append, ByteArray.data_append, Array.toList_append]
  rfl

theorem asBytes_replicate (count : Nat)
    : asBytes (String.ofList (List.replicate count 'a')) = List.replicate count 97 := by
  induction count with
  | zero => rfl
  | succ count ih =>
      rw [List.replicate_succ, String.ofList_cons, asBytes_append, ih]
      rfl

end Rustikv

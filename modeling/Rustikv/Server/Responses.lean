import Rustikv.Server.Bffp

/-! The response half of the BFFP wire protocol: a status and a list of strings, each behind
its length, in one length-prefixed frame.
-/

namespace Rustikv.Server

open Library

def payloadLenSize : Nat := 4

namespace ResponseStatus

def toByte : ResponseStatus → UInt8
  | .ok => 0
  | .notFound => 1
  | .error => 2
  | .noop => 3

def tryFrom (value : UInt8) : Except IoError ResponseStatus :=
  match value with
  | 0 => .ok .ok
  | 1 => .ok .notFound
  | 2 => .ok .error
  | 3 => .ok .noop
  | n =>
      .error { kind := .invalidData, message := "unknown status byte: " ++ toString n }

@[simp]
theorem tryFrom_toByte (status : ResponseStatus) : tryFrom status.toByte = .ok status := by
  cases status <;> rfl

theorem toByte_injective : Function.Injective toByte := by
  intro first second same
  have read := congrArg tryFrom same
  rw [tryFrom_toByte, tryFrom_toByte] at read
  exact Except.ok.inj read

end ResponseStatus

structure DecodedResponse where
  payload : List String
  status : ResponseStatus
  deriving DecidableEq, Repr

/-- What `encode_frame` writes behind the length: the status and the strings. -/
def responsePayload (status : ResponseStatus) (responses : List String) : Bytes :=
  [status.toByte] ++ responses.flatMap valueBytes

/-- The length of the payload is cut to the 32 bits of its field. -/
def encodeFrame (status : ResponseStatus) (responses : List String) : Bytes :=
  let payload := responsePayload status responses
  u32Bytes (UInt32.ofNat payload.length) ++ payload

def readPayload (cur : Bytes) : Except IoError (String × Bytes) := do
  let (sizeBytes, cur) ← readExact payloadLenSize cur
  let (buf, cur) ← readExact (u32OfBytes sizeBytes).toNat cur
  return (← fromUtf8 buf, cur)

/-- The status byte is looked at only behind the strings. -/
def decodeResponseFrame (buffer : Bytes) : Except IoError DecodedResponse := do
  let (lenBytes, cur) ← readExact frameLenSize buffer
  let limit := (u32OfBytes lenBytes).toNat + frameLenSize
  let (opBytes, cur) ← readExact opCodeSize cur
  let payload ← readWhile readPayload buffer.length limit (cur.length + 1) cur
  return { payload, status := ← ResponseStatus.tryFrom (opBytes.headD 0) }

-----------------------------------------------------------------------------------------
-- Round trip
-----------------------------------------------------------------------------------------

theorem readPayload_valueBytes {text : String} (small : text.utf8ByteSize < 2 ^ 32)
    (rest : Bytes)
    : readPayload (valueBytes text ++ rest) = .ok (text, rest) := by
  have count : (UInt32.ofNat text.utf8ByteSize).toNat = text.utf8ByteSize :=
    UInt32.toNat_ofNat_of_lt' small
  have length : (u32Bytes (UInt32.ofNat text.utf8ByteSize)).length = payloadLenSize := by
    simp [payloadLenSize]
  have size : (asBytes text).length = text.utf8ByteSize := length_asBytes text
  simp only [readPayload, valueBytes, List.append_assoc, readExact_append length, ok_bind,
    u32OfBytes_u32Bytes, count, readExact_append size, fromUtf8_asBytes]
  rfl

/-- The strings of a response. -/
def payloadCodec : FrameCodec String IoError where
  encode := valueBytes
  decode := readPayload
  Valid text := text.utf8ByteSize < 2 ^ 32
  decode_encode _ small rest := readPayload_valueBytes small rest
  encode_ne_nil text := by
    intro empty
    have size := congrArg List.length empty
    simp [length_valueBytes, valueLenSize] at size

theorem length_valueBytes_le {responses : List String} {text : String}
    (member : text ∈ responses)
    : (valueBytes text).length ≤ (responses.flatMap valueBytes).length := by
  obtain ⟨front, back, rfl⟩ := List.append_of_mem member
  simp only [List.flatMap_append, List.flatMap_cons, List.length_append]
  omega

/-- A response whose payload fits its length field is read back as it was. -/
theorem decodeResponseFrame_encodeFrame {status : ResponseStatus} {responses : List String}
    (fits : (responsePayload status responses).length < 2 ^ 32)
    : decodeResponseFrame (encodeFrame status responses)
      = .ok { payload := responses, status } := by
  have count : (UInt32.ofNat (responsePayload status responses).length).toNat
      = (responsePayload status responses).length :=
    UInt32.toNat_ofNat_of_lt' fits
  have payload : (responsePayload status responses).length
      = opCodeSize + (responses.flatMap valueBytes).length := by
    rw [responsePayload, List.length_append]
    rfl
  have small : ∀ text ∈ responses, text.utf8ByteSize < 2 ^ 32 := by
    intro text member
    have inside := length_valueBytes_le member
    rw [length_valueBytes] at inside
    omega
  have length : (u32Bytes (UInt32.ofNat (responsePayload status responses).length)).length
      = frameLenSize := by
    simp [frameLenSize]
  have op : ([status.toByte] : Bytes).length = opCodeSize := rfl
  have size : (encodeFrame status responses).length
      = (responsePayload status responses).length + frameLenSize := by
    rw [encodeFrame, List.length_append, length, Nat.add_comm]
  have read : readWhile readPayload (encodeFrame status responses).length
        (encodeFrame status responses).length ((responses.flatMap valueBytes).length + 1)
        (responses.flatMap valueBytes)
      = .ok responses := by
    refine readWhile_encodeAll payloadCodec small ?_ (Nat.le_succ _)
    change (responses.flatMap valueBytes).length ≤ _
    omega
  unfold decodeResponseFrame
  rw [size] at read ⊢
  rw [encodeFrame, readExact_append length, ok_bind]
  dsimp only
  rw [u32OfBytes_u32Bytes, count]
  conv_lhs =>
    enter [1]
    rw [responsePayload, readExact_append op]
  rw [ok_bind]
  dsimp only
  rw [read, ok_bind, List.headD_cons, ResponseStatus.tryFrom_toByte]
  rfl

/-- Witness: the empty string and another one. -/
theorem decodeResponseFrame_encodeFrame_two
    : decodeResponseFrame (encodeFrame .notFound ["", "v"])
      = .ok { payload := ["", "v"], status := .notFound } :=
  decodeResponseFrame_encodeFrame (by decide +kernel)

end Rustikv.Server

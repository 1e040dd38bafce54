import Rustikv.Format.Reader
import Rustikv.Library.FramedLog

/-! The request half of the BFFP wire protocol: twelve commands as length-prefixed frames. -/

namespace Rustikv.Server

open Library

def flagsLen : Nat := 1
def frameLenSize : Nat := 4
def opCodeSize : Nat := 1
def keyLenSize : Nat := 2
def valueLenSize : Nat := 4
def ttlLenSize : Nat := 4

def flagHasTtl : UInt8 := 1

inductive Command
  | invalid (opCode : UInt8)
  | read (key : String)
  | write (key value : String) (ttl : Option UInt32)
  | delete (key : String)
  | compact
  | stats
  | list
  | exists (key : String)
  | ping
  | mget (keys : List String)
  | mset (items : List (String × String × Option UInt32))
  | range (start finish : String)
  | ttl (key : String) (seconds : UInt32)
  deriving DecidableEq, Repr

inductive OpCode
  | read
  | write
  | delete
  | compact
  | stats
  | list
  | exists
  | ping
  | mget
  | mset
  | range
  | ttl
  deriving DecidableEq, Repr

inductive ResponseStatus
  | ok
  | notFound
  | error
  | noop
  deriving DecidableEq, Repr

namespace OpCode

def toByte : OpCode → UInt8
  | .read => 1
  | .write => 2
  | .delete => 3
  | .compact => 4
  | .stats => 5
  | .list => 6
  | .exists => 7
  | .ping => 8
  | .mget => 9
  | .mset => 10
  | .range => 11
  | .ttl => 12

/-- `OpCode::try_from`; the only caller drops the error. -/
def tryFrom (value : UInt8) : Option OpCode :=
  match value with
  | 1 => some .read
  | 2 => some .write
  | 3 => some .delete
  | 4 => some .compact
  | 5 => some .stats
  | 6 => some .list
  | 7 => some .exists
  | 8 => some .ping
  | 9 => some .mget
  | 10 => some .mset
  | 11 => some .range
  | 12 => some .ttl
  | _ => none

@[simp]
theorem tryFrom_toByte (op : OpCode) : tryFrom op.toByte = some op := by
  cases op <;> rfl

end OpCode

-----------------------------------------------------------------------------------------
-- Encoding
-----------------------------------------------------------------------------------------

/-- A string behind its length, which is cut to the 16 bits of the field. -/
def keyBytes (key : String) : Bytes :=
  u16Bytes (UInt16.ofNat key.utf8ByteSize) ++ asBytes key

def valueBytes (value : String) : Bytes :=
  u32Bytes (UInt32.ofNat value.utf8ByteSize) ++ asBytes value

/-- Flags, key, value and, if the flags say so, the TTL: one write. -/
def itemBytes (item : String × String × Option UInt32) : Bytes :=
  let (key, value, ttl) := item
  let flags := if ttl.isSome then flagHasTtl else 0
  [flags] ++ keyBytes key ++ valueBytes value ++ (ttl.map u32Bytes).getD []

/-- A frame: the length its command computes, the op code and the operands. -/
def frame (totalLen : UInt32) (op : OpCode) (operands : Bytes) : Bytes :=
  u32Bytes totalLen ++ [op.toByte] ++ operands

/-- `READ`, `DELETE` and `EXISTS` differ in their op code only. -/
def keyFrame (op : OpCode) (key : String) : Bytes :=
  frame (UInt32.ofNat (opCodeSize + keyLenSize + key.utf8ByteSize)) op (keyBytes key)

/-- `COMPACT`, `STATS`, `LIST` and `PING`. -/
def bareFrame (op : OpCode) : Bytes :=
  frame (UInt32.ofNat opCodeSize) op []

/-- `encode_command`; it panics on `Command::Invalid`. -/
def encodeCommand (command : Command) : Option Bytes :=
  match command with
  | .invalid _ => none
  | .read key => some (keyFrame .read key)
  | .write key value ttl =>
      let ttlBytes := if ttl.isSome then ttlLenSize else 0
      let totalLen := opCodeSize + flagsLen + keyLenSize + valueLenSize + key.utf8ByteSize
        + value.utf8ByteSize + ttlBytes
      some (frame (UInt32.ofNat totalLen) .write (itemBytes (key, value, ttl)))
  | .delete key => some (keyFrame .delete key)
  | .compact => some (bareFrame .compact)
  | .stats => some (bareFrame .stats)
  | .list => some (bareFrame .list)
  | .exists key => some (keyFrame .exists key)
  | .ping => some (bareFrame .ping)
  | .mget keys =>
      let totalLen := keys.foldl (fun total key => total + key.utf8ByteSize)
        (opCodeSize + keyLenSize * keys.length)
      some (frame (UInt32.ofNat totalLen) .mget (keys.flatMap keyBytes))
  | .mset items =>
      let totalLen := items.foldl
        (fun total (key, value, ttl) =>
          let total := total + (key.utf8ByteSize + value.utf8ByteSize)
          if ttl.isSome then total + ttlLenSize else total)
        (opCodeSize + (flagsLen + keyLenSize + valueLenSize) * items.length)
      some (frame (UInt32.ofNat totalLen) .mset (items.flatMap itemBytes))
  | .range start finish =>
      let startLen := UInt16.ofNat start.utf8ByteSize
      let finishLen := UInt16.ofNat finish.utf8ByteSize
      let totalLen := UInt32.ofNat opCodeSize + UInt32.ofNat keyLenSize * 2
        + startLen.toUInt32 + finishLen.toUInt32
      some (frame totalLen .range (keyBytes start ++ keyBytes finish))
  | .ttl key seconds =>
      let totalLen := opCodeSize + keyLenSize + key.utf8ByteSize + ttlLenSize
      some (frame (UInt32.ofNat totalLen) .ttl (keyBytes key ++ u32Bytes seconds))

-----------------------------------------------------------------------------------------
-- Decoding
-----------------------------------------------------------------------------------------

def readString (lenBytes : Nat) (cur : Bytes) : Except IoError (String × Bytes) := do
  let (lenField, cur) ← readExact lenBytes cur
  let (text, cur) ← readExact (ofBigEndian lenField) cur
  return (← fromUtf8 text, cur)

def readKey (cur : Bytes) : Except IoError (String × Bytes) :=
  readString keyLenSize cur

def readValue (cur : Bytes) : Except IoError (String × Bytes) :=
  readString valueLenSize cur

def readTtl (cur : Bytes) : Except IoError (UInt32 × Bytes) :=
  (readExact ttlLenSize cur).map (fun read => (u32OfBytes read.1, read.2))

def readFlags (cur : Bytes) : Except IoError (UInt8 × Bytes) :=
  (readExact flagsLen cur).map (fun read => (read.1.headD 0, read.2))

/-- The operands of `WRITE` and each item of `MSET`. -/
def readItem (cur : Bytes) : Except IoError ((String × String × Option UInt32) × Bytes) := do
  let (flag, cur) ← readFlags cur
  let (key, cur) ← readKey cur
  let (value, cur) ← readValue cur
  if flag &&& flagHasTtl != 0 then
    let (seconds, cur) ← readTtl cur
    return ((key, value, some seconds), cur)
  else
    return ((key, value, none), cur)

/-- `while cur.position() < limit`, in a buffer of `size` bytes. Every iteration reads or
fails, so one more than the bytes left is enough fuel.
-/
def readWhile {α : Type} (read : Bytes → Except IoError (α × Bytes)) (size limit : Nat)
    : Nat → Bytes → Except IoError (List α)
  | 0, _ => .ok []
  | fuel + 1, cur =>
      if size - cur.length < limit then do
        let (item, cur) ← read cur
        let items ← readWhile read size limit fuel cur
        return item :: items
      else
        .ok []

/-- What follows the op code, in a buffer of `size` bytes whose frame ends at `limit`. -/
def decodeOperands (op : OpCode) (size limit : Nat) (cur : Bytes) : Except IoError Command :=
  match op with
  | .read => return .read (← readKey cur).1
  | .write => do
      let ((key, value, ttl), _) ← readItem cur
      return .write key value ttl
  | .delete => return .delete (← readKey cur).1
  | .compact => return .compact
  | .stats => return .stats
  | .list => return .list
  | .exists => return .exists (← readKey cur).1
  | .ping => return .ping
  | .mget => return .mget (← readWhile readKey size limit (cur.length + 1) cur)
  | .mset => return .mset (← readWhile readItem size limit (cur.length + 1) cur)
  | .range => do
      let (start, cur) ← readKey cur
      let (finish, _) ← readKey cur
      return .range start finish
  | .ttl => do
      let (key, cur) ← readKey cur
      let (seconds, _) ← readTtl cur
      return .ttl key seconds

/-- The length prefix bounds the loops only; the buffer decides where reading fails. -/
def decodeInputFrame (buffer : Bytes) : Except IoError Command := do
  let (lenBytes, cur) ← readExact frameLenSize buffer
  let limit := (u32OfBytes lenBytes).toNat + frameLenSize
  let (opBytes, cur) ← readExact opCodeSize cur
  match OpCode.tryFrom (opBytes.headD 0) with
  | some op => decodeOperands op buffer.length limit cur
  | none => return .invalid (opBytes.headD 0)

-----------------------------------------------------------------------------------------
-- Round trip
-----------------------------------------------------------------------------------------

def maxKeyLen : Nat := 65535

theorem length_keyBytes (key : String)
    : (keyBytes key).length = keyLenSize + key.utf8ByteSize := by
  simp [keyBytes, keyLenSize, length_asBytes]

theorem length_valueBytes (value : String)
    : (valueBytes value).length = valueLenSize + value.utf8ByteSize := by
  simp [valueBytes, valueLenSize, length_asBytes]

theorem readKey_keyBytes {key : String} (small : key.utf8ByteSize ≤ maxKeyLen)
    (rest : Bytes)
    : readKey (keyBytes key ++ rest) = .ok (key, rest) := by
  have size : (asBytes key).length
      = ofBigEndian (u16Bytes (UInt16.ofNat key.utf8ByteSize)) := by
    simp only [maxKeyLen] at small
    rw [ofBigEndian_u16Bytes, length_asBytes, UInt16.toNat_ofNat']
    omega
  have length : (u16Bytes (UInt16.ofNat key.utf8ByteSize)).length = keyLenSize := by
    simp [keyLenSize]
  simp only [readKey, readString, keyBytes, List.append_assoc, readExact_append length,
    readExact_append size, ok_bind, fromUtf8_asBytes]
  rfl

theorem readValue_valueBytes {value : String} (small : value.utf8ByteSize < 2 ^ 32)
    (rest : Bytes)
    : readValue (valueBytes value ++ rest) = .ok (value, rest) := by
  have size : (asBytes value).length
      = ofBigEndian (u32Bytes (UInt32.ofNat value.utf8ByteSize)) := by
    rw [ofBigEndian_u32Bytes, length_asBytes, UInt32.toNat_ofNat']
    omega
  have length : (u32Bytes (UInt32.ofNat value.utf8ByteSize)).length = valueLenSize := by
    simp [valueLenSize]
  simp only [readValue, readString, valueBytes, List.append_assoc, readExact_append length,
    readExact_append size, ok_bind, fromUtf8_asBytes]
  rfl

theorem readTtl_u32Bytes (seconds : UInt32) (rest : Bytes)
    : readTtl (u32Bytes seconds ++ rest) = .ok (seconds, rest) := by
  have length : (u32Bytes seconds).length = ttlLenSize := by simp [ttlLenSize]
  simp [readTtl, readExact_append length, Except.map]

theorem readItem_itemBytes {item : String × String × Option UInt32}
    (key : item.1.utf8ByteSize ≤ maxKeyLen) (value : item.2.1.utf8ByteSize < 2 ^ 32)
    (rest : Bytes)
    : readItem (itemBytes item ++ rest) = .ok (item, rest) := by
  obtain ⟨itemKey, itemValue, ttl⟩ := item
  have flags (byte : UInt8) (tail : Bytes)
      : readFlags (byte :: tail) = .ok (byte, tail) := by
    simp [readFlags, flagsLen, Except.map]
  cases ttl with
  | none =>
      simp [readItem, itemBytes, flags, readKey_keyBytes key, readValue_valueBytes value,
        pure, Except.pure]
  | some seconds =>
      simp [readItem, itemBytes, flags, readKey_keyBytes key, readValue_valueBytes value,
        readTtl_u32Bytes, flagHasTtl, pure, Except.pure]

/-- The operands of `MGET`, one frame a key. -/
def keyCodec : FrameCodec String IoError where
  encode := keyBytes
  decode := readKey
  Valid key := key.utf8ByteSize ≤ maxKeyLen
  decode_encode _ small rest := readKey_keyBytes small rest
  encode_ne_nil key := by
    intro empty
    have size := congrArg List.length empty
    simp [length_keyBytes, keyLenSize] at size

/-- The operands of `MSET`. -/
def itemCodec : FrameCodec (String × String × Option UInt32) IoError where
  encode := itemBytes
  decode := readItem
  Valid item := item.1.utf8ByteSize ≤ maxKeyLen ∧ item.2.1.utf8ByteSize < 2 ^ 32
  decode_encode _ small rest := readItem_itemBytes small.1 small.2 rest
  encode_ne_nil item := by simp [itemBytes]

/-- The loop reads the items up to the end of the frame. Witness: induction over them. -/
theorem readWhile_encodeAll {α : Type} (codec : FrameCodec α IoError) {items : List α}
    (valid : ∀ item ∈ items, codec.Valid item) {size fuel : Nat}
    (inside : (codec.encodeAll items).length ≤ size)
    (enough : (codec.encodeAll items).length ≤ fuel)
    : readWhile codec.decode size size fuel (codec.encodeAll items) = .ok items := by
  induction items generalizing fuel with
  | nil => cases fuel <;> simp [readWhile]
  | cons item rest ih =>
      have nonempty : 0 < (codec.encode item).length :=
        List.length_pos_iff.mpr (codec.encode_ne_nil item)
      simp only [FrameCodec.encodeAll_cons, List.length_append] at inside enough
      cases fuel with
      | zero => omega
      | succ fuel =>
          have decoded := codec.decode_encode item (valid item (by simp))
            (codec.encodeAll rest)
          have tail := ih (fun other member => valid other (List.mem_cons_of_mem _ member))
            (by omega : (codec.encodeAll rest).length ≤ size)
            (by omega : (codec.encodeAll rest).length ≤ fuel)
          have before : size - (codec.encode item ++ codec.encodeAll rest).length < size := by
            rw [List.length_append]
            omega
          simp only [FrameCodec.encodeAll_cons, readWhile, if_pos before, decoded, ok_bind,
            tail]
          rfl

theorem decodeInputFrame_frame (totalLen : UInt32) (op : OpCode) (operands : Bytes)
    : decodeInputFrame (frame totalLen op operands)
      = decodeOperands op (frameLenSize + opCodeSize + operands.length)
          (totalLen.toNat + frameLenSize) operands := by
  have length : (u32Bytes totalLen).length = frameLenSize := by simp [frameLenSize]
  have size : (frame totalLen op operands).length
      = frameLenSize + opCodeSize + operands.length := by
    simp [frame, frameLenSize, opCodeSize]
    omega
  rw [← size]
  unfold decodeInputFrame
  rw [show frame totalLen op operands = u32Bytes totalLen ++ ([op.toByte] ++ operands) by
    simp [frame]]
  simp [readExact_append length, opCodeSize]

def Command.keys : Command → List String
  | .read key => [key]
  | .write key _ _ => [key]
  | .delete key => [key]
  | .exists key => [key]
  | .mget keys => keys
  | .mset items => items.map Prod.fst
  | .range start finish => [start, finish]
  | .ttl key _ => [key]
  | _ => []

theorem length_itemBytes (item : String × String × Option UInt32)
    : (itemBytes item).length
      = flagsLen + keyLenSize + valueLenSize + item.1.utf8ByteSize + item.2.1.utf8ByteSize
        + if item.2.2.isSome then ttlLenSize else 0 := by
  obtain ⟨key, value, ttl⟩ := item
  cases ttl <;>
    simp [itemBytes, length_keyBytes, length_valueBytes, flagsLen, ttlLenSize] <;>
    omega

/-- The length `MGET` adds up. Witness: induction over the keys. -/
theorem length_keys (keys : List String) (start : Nat)
    : keys.foldl (fun total key => total + key.utf8ByteSize)
        (start + keyLenSize * keys.length)
      = start + (keys.flatMap keyBytes).length := by
  induction keys generalizing start with
  | nil => rfl
  | cons key rest ih =>
      have next := ih (start + keyLenSize + key.utf8ByteSize)
      have same : start + keyLenSize * (rest.length + 1) + key.utf8ByteSize
          = start + keyLenSize + key.utf8ByteSize + keyLenSize * rest.length := by
        ring
      rw [List.foldl_cons, List.length_cons, same, next, List.flatMap_cons,
        List.length_append, length_keyBytes]
      omega

/-- The length `MSET` adds up. Witness: induction over the items. -/
theorem length_items (items : List (String × String × Option UInt32)) (start : Nat)
    : items.foldl
        (fun total (key, value, ttl) =>
          let total := total + (key.utf8ByteSize + value.utf8ByteSize)
          if ttl.isSome then total + ttlLenSize else total)
        (start + (flagsLen + keyLenSize + valueLenSize) * items.length)
      = start + (items.flatMap itemBytes).length := by
  induction items generalizing start with
  | nil => rfl
  | cons item rest ih =>
      obtain ⟨key, value, ttl⟩ := item
      have size := length_itemBytes (key, value, ttl)
      have next := ih (start + (itemBytes (key, value, ttl)).length)
      have same : (if ttl.isSome then
            start + (flagsLen + keyLenSize + valueLenSize) * (rest.length + 1)
              + (key.utf8ByteSize + value.utf8ByteSize) + ttlLenSize
          else
            start + (flagsLen + keyLenSize + valueLenSize) * (rest.length + 1)
              + (key.utf8ByteSize + value.utf8ByteSize))
          = start + (itemBytes (key, value, ttl)).length
            + (flagsLen + keyLenSize + valueLenSize) * rest.length := by
        rw [size]
        cases ttl <;> simp <;> ring
      rw [List.foldl_cons, List.length_cons]
      dsimp only
      rw [same, next, List.flatMap_cons, List.length_append]
      omega

theorem length_itemBytes_le {items : List (String × String × Option UInt32)}
    {item : String × String × Option UInt32} (member : item ∈ items)
    : (itemBytes item).length ≤ (items.flatMap itemBytes).length := by
  obtain ⟨front, back, rfl⟩ := List.mem_iff_append.mp member
  simp only [List.flatMap_append, List.flatMap_cons, List.length_append]
  omega

/-- Every length the encoder computes is that of the bytes it writes. -/
theorem encodeCommand_frame {command : Command}
    (sendable : ∀ opCode, command ≠ .invalid opCode)
    (keys : ∀ key ∈ command.keys, key.utf8ByteSize ≤ maxKeyLen)
    : ∃ op operands,
        encodeCommand command
          = some (frame (UInt32.ofNat (opCodeSize + operands.length)) op operands)
        ∧ (opCodeSize + operands.length < 2 ^ 32
          → decodeOperands op (frameLenSize + opCodeSize + operands.length)
              (frameLenSize + opCodeSize + operands.length) operands
            = .ok command) := by
  have keyed (op : OpCode) (key : String)
      : keyFrame op key
        = frame (UInt32.ofNat (opCodeSize + (keyBytes key).length)) op (keyBytes key) := by
    rw [keyFrame, length_keyBytes, Nat.add_assoc]
  have readBack {key : String} (small : key.utf8ByteSize ≤ maxKeyLen)
      : readKey (keyBytes key) = .ok (key, []) := by
    simpa using readKey_keyBytes small []
  cases command with
  | invalid opCode => exact absurd rfl (sendable opCode)
  | read key =>
      refine ⟨.read, keyBytes key, congrArg some (keyed .read key), fun _ => ?_⟩
      simp [decodeOperands, readBack (keys key (by simp [Command.keys])), pure, Except.pure]
  | delete key =>
      refine ⟨.delete, keyBytes key, congrArg some (keyed .delete key), fun _ => ?_⟩
      simp [decodeOperands, readBack (keys key (by simp [Command.keys])), pure, Except.pure]
  | «exists» key =>
      refine ⟨.exists, keyBytes key, congrArg some (keyed .exists key), fun _ => ?_⟩
      simp [decodeOperands, readBack (keys key (by simp [Command.keys])), pure, Except.pure]
  | compact => exact ⟨.compact, [], rfl, fun _ => rfl⟩
  | stats => exact ⟨.stats, [], rfl, fun _ => rfl⟩
  | list => exact ⟨.list, [], rfl, fun _ => rfl⟩
  | ping => exact ⟨.ping, [], rfl, fun _ => rfl⟩
  | write key value ttl =>
      have size := length_itemBytes (key, value, ttl)
      dsimp only at size
      refine ⟨.write, itemBytes (key, value, ttl), ?_, fun small => ?_⟩
      · simp only [encodeCommand, size]
        congr 3
        omega
      · have whole := readItem_itemBytes (keys key (by simp [Command.keys]))
          (by dsimp only; omega : (key, value, ttl).2.1.utf8ByteSize < 2 ^ 32) []
        rw [List.append_nil] at whole
        simp [decodeOperands, whole, pure, Except.pure]
  | mget items =>
      refine ⟨.mget, items.flatMap keyBytes, ?_, fun _ => ?_⟩
      · simp only [encodeCommand, length_keys]
      · have read : readWhile readKey
            (frameLenSize + opCodeSize + (items.flatMap keyBytes).length)
            (frameLenSize + opCodeSize + (items.flatMap keyBytes).length)
            ((items.flatMap keyBytes).length + 1) (items.flatMap keyBytes) = .ok items :=
          readWhile_encodeAll keyCodec keys (Nat.le_add_left _ _) (Nat.le_succ _)
        simp only [decodeOperands, read, ok_bind]
        rfl
  | mset items =>
      refine ⟨.mset, items.flatMap itemBytes, ?_, fun small => ?_⟩
      · simp only [encodeCommand, length_items]
      · have valid : ∀ item ∈ items, itemCodec.Valid item := by
          intro item member
          have size := length_itemBytes item
          have inside := length_itemBytes_le member
          exact ⟨keys item.1 (List.mem_map_of_mem member), by omega⟩
        have read : readWhile readItem
            (frameLenSize + opCodeSize + (items.flatMap itemBytes).length)
            (frameLenSize + opCodeSize + (items.flatMap itemBytes).length)
            ((items.flatMap itemBytes).length + 1) (items.flatMap itemBytes) = .ok items :=
          readWhile_encodeAll itemCodec valid (Nat.le_add_left _ _) (Nat.le_succ _)
        simp only [decodeOperands, read, ok_bind]
        rfl
  | range start finish =>
      have startSmall := keys start (by simp [Command.keys])
      have finishSmall := keys finish (by simp [Command.keys])
      refine ⟨.range, keyBytes start ++ keyBytes finish, ?_, fun _ => ?_⟩
      · have total : UInt32.ofNat opCodeSize + UInt32.ofNat keyLenSize * 2
              + (UInt16.ofNat start.utf8ByteSize).toUInt32
              + (UInt16.ofNat finish.utf8ByteSize).toUInt32
            = UInt32.ofNat (opCodeSize + (keyBytes start ++ keyBytes finish).length) := by
          simp only [maxKeyLen] at startSmall finishSmall
          rw [← UInt32.toNat_inj]
          simp [List.length_append, length_keyBytes, keyLenSize, opCodeSize]
          omega
        simp only [encodeCommand, total]
      · simp [decodeOperands, readKey_keyBytes startSmall, readBack finishSmall, pure,
          Except.pure]
  | ttl key seconds =>
      have small := keys key (by simp [Command.keys])
      refine ⟨.ttl, keyBytes key ++ u32Bytes seconds, ?_, fun _ => ?_⟩
      · simp only [encodeCommand, List.length_append, length_keyBytes, length_u32Bytes]
        congr 3
        simp only [ttlLenSize]
        omega
      · have read : readTtl (u32Bytes seconds) = .ok (seconds, []) := by
          simpa using readTtl_u32Bytes seconds []
        simp [decodeOperands, readKey_keyBytes small, read, pure, Except.pure]

/-- Every command but the decode-only sentinel is encoded, and read back from its frame; the
length prefix counts the bytes behind it.
-/
theorem command_roundtrip {command : Command}
    (sendable : ∀ opCode, command ≠ .invalid opCode)
    (keys : ∀ key ∈ command.keys, key.utf8ByteSize ≤ maxKeyLen)
    : ∃ bytes,
        encodeCommand command = some bytes
        ∧ ((bytes.drop frameLenSize).length < 2 ^ 32
          → decodeInputFrame bytes = .ok command
            ∧ (u32OfBytes (bytes.take frameLenSize)).toNat
              = (bytes.drop frameLenSize).length) := by
  obtain ⟨op, operands, encoded, decoded⟩ := encodeCommand_frame sendable keys
  refine ⟨_, encoded, ?_⟩
  have length (total : UInt32) : (u32Bytes total).length = frameLenSize := by
    simp [frameLenSize]
  have parts : frame (UInt32.ofNat (opCodeSize + operands.length)) op operands
      = u32Bytes (UInt32.ofNat (opCodeSize + operands.length))
        ++ ([op.toByte] ++ operands) := by
    simp [frame]
  have payload : ((frame (UInt32.ofNat (opCodeSize + operands.length)) op
      operands).drop frameLenSize).length = opCodeSize + operands.length := by
    rw [parts, List.drop_left' (length _)]
    simp [opCodeSize]
    omega
  rw [payload]
  intro small
  have total : (UInt32.ofNat (opCodeSize + operands.length)).toNat
      = opCodeSize + operands.length := by
    rw [UInt32.toNat_ofNat']
    omega
  constructor
  · rw [decodeInputFrame_frame, total,
      show opCodeSize + operands.length + frameLenSize
        = frameLenSize + opCodeSize + operands.length by omega]
    exact decoded small
  · rw [parts, List.take_left' (length _), u32OfBytes_u32Bytes, total]

/-- Witness: an `MSET` of two items, of which the second expires. -/
theorem command_roundtrip_mset
    : let command := Command.mset [("a", "x", none), ("b", "yz", some 30)]
      ∃ bytes,
        encodeCommand command = some bytes
        ∧ decodeInputFrame bytes = .ok command
        ∧ (u32OfBytes (bytes.take frameLenSize)).toNat
          = (bytes.drop frameLenSize).length := by
  let command := Command.mset [("a", "x", none), ("b", "yz", some 30)]
  obtain ⟨bytes, encoded, back⟩ := command_roundtrip
    (by simp [command] : ∀ opCode, command ≠ .invalid opCode)
    (by simp [command, Command.keys, maxKeyLen]; decide)
  have computed : (encodeCommand command).all
      (fun bytes => decide ((bytes.drop frameLenSize).length < 2 ^ 32)) = true := by
    decide +kernel
  have small : (bytes.drop frameLenSize).length < 2 ^ 32 := by
    simpa [encoded] using computed
  exact ⟨bytes, encoded, back small⟩

end Rustikv.Server

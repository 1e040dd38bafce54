import Rustikv.Server.FrameParser

/-! What the server accepts can be sent on: commands that come out of a stream of bytes are
requests themselves, in no more bytes than they were read from.
-/

namespace Rustikv.Server

open Library

-----------------------------------------------------------------------------------------
-- Operands that are read
-----------------------------------------------------------------------------------------

theorem readString_eq_ok {lenBytes : Nat} {cur rest : Bytes} {text : String}
    (read : readString lenBytes cur = .ok (text, rest))
    : ∃ lenField,
        lenField.length = lenBytes
        ∧ ofBigEndian lenField = text.utf8ByteSize
        ∧ cur = lenField ++ (asBytes text ++ rest) := by
  obtain ⟨⟨lenField, afterLen⟩, length, read⟩ := bind_eq_ok.mp read
  obtain ⟨⟨found, afterText⟩, content, read⟩ := bind_eq_ok.mp read
  obtain ⟨decoded, utf8, read⟩ := bind_eq_ok.mp read
  obtain ⟨rfl, rfl⟩ := Prod.mk.inj (Except.ok.inj read)
  obtain ⟨enough, rfl, rfl⟩ := readExact_eq_ok.mp length
  obtain ⟨inside, rfl, rfl⟩ := readExact_eq_ok.mp content
  have bytes := asBytes_of_fromUtf8 utf8
  refine ⟨cur.take lenBytes, List.length_take_of_le enough, ?_, ?_⟩
  · rw [← length_asBytes, bytes, List.length_take_of_le inside]
  · rw [bytes, List.take_append_drop, List.take_append_drop]

theorem readKey_eq_ok {cur rest : Bytes} {key : String}
    (read : readKey cur = .ok (key, rest))
    : key.utf8ByteSize ≤ maxKeyLen ∧ cur = keyBytes key ++ rest := by
  obtain ⟨lenField, length, value, same⟩ := readString_eq_ok read
  have bound := ofBigEndian_lt lenField
  rw [length, value] at bound
  have small : key.utf8ByteSize < 2 ^ 16 := bound
  have field : u16Bytes (UInt16.ofNat key.utf8ByteSize) = lenField := by
    rw [u16Bytes, UInt16.toNat_ofNat_of_lt' small, ← value]
    have whole := toBigEndian_ofBigEndian lenField
    rwa [length] at whole
  refine ⟨Nat.le_of_lt_succ small, ?_⟩
  rw [keyBytes, field, List.append_assoc]
  exact same

theorem readValue_eq_ok {cur rest : Bytes} {value : String}
    (read : readValue cur = .ok (value, rest))
    : value.utf8ByteSize < 2 ^ 32 ∧ cur = valueBytes value ++ rest := by
  obtain ⟨lenField, length, size, same⟩ := readString_eq_ok read
  have bound := ofBigEndian_lt lenField
  rw [length, size] at bound
  have small : value.utf8ByteSize < 2 ^ 32 := bound
  have field : u32Bytes (UInt32.ofNat value.utf8ByteSize) = lenField := by
    rw [u32Bytes, UInt32.toNat_ofNat_of_lt' small, ← size]
    have whole := toBigEndian_ofBigEndian lenField
    rwa [length] at whole
  refine ⟨small, ?_⟩
  rw [valueBytes, field, List.append_assoc]
  exact same

theorem readTtl_eq_ok {cur rest : Bytes} {seconds : UInt32}
    (read : readTtl cur = .ok (seconds, rest))
    : cur.length = (u32Bytes seconds).length + rest.length := by
  obtain ⟨⟨field, left⟩, found, same⟩ := map_eq_ok.mp read
  obtain ⟨enough, -, rfl⟩ := readExact_eq_ok.mp found
  obtain ⟨-, rfl⟩ := Prod.mk.inj same
  simp only [ttlLenSize] at enough
  rw [length_u32Bytes, List.length_drop, ttlLenSize]
  omega

/-- Of the flags, only the one for a TTL is kept. -/
theorem readItem_eq_ok {cur rest : Bytes} {item : String × String × Option UInt32}
    (read : readItem cur = .ok (item, rest))
    : itemCodec.Valid item ∧ cur.length = (itemBytes item).length + rest.length := by
  obtain ⟨⟨flag, afterFlag⟩, flags, remaining⟩ := bind_eq_ok.mp read
  obtain ⟨⟨key, afterKey⟩, keyRead, remaining⟩ := bind_eq_ok.mp remaining
  obtain ⟨⟨value, afterValue⟩, valueRead, last⟩ := bind_eq_ok.mp remaining
  obtain ⟨⟨field, left⟩, found, same⟩ := map_eq_ok.mp flags
  obtain ⟨enough, -, leftSame⟩ := readExact_eq_ok.mp found
  obtain ⟨-, leftFlag⟩ := Prod.mk.inj same
  change left = afterFlag at leftFlag
  obtain ⟨keySmall, flagSame⟩ := readKey_eq_ok keyRead
  obtain ⟨valueSmall, keySame⟩ := readValue_eq_ok valueRead
  have counted : cur.length = flagsLen + keyLenSize + valueLenSize + key.utf8ByteSize
      + value.utf8ByteSize + afterValue.length := by
    have dropped : (cur.drop flagsLen).length = cur.length - flagsLen := List.length_drop
    rw [← leftSame, leftFlag, flagSame, keySame, List.length_append, List.length_append,
      length_keyBytes, length_valueBytes] at dropped
    omega
  dsimp only at last
  split at last
  · obtain ⟨⟨seconds, afterTtl⟩, ttlRead, done⟩ := bind_eq_ok.mp last
    obtain ⟨rfl, rfl⟩ := Prod.mk.inj (Except.ok.inj done)
    have ttl := readTtl_eq_ok ttlRead
    refine ⟨⟨keySmall, valueSmall⟩, ?_⟩
    rw [length_u32Bytes] at ttl
    rw [length_itemBytes]
    simp only [Option.isSome_some, if_true, ttlLenSize]
    omega
  · obtain ⟨rfl, rfl⟩ := Prod.mk.inj (Except.ok.inj last)
    refine ⟨⟨keySmall, valueSmall⟩, ?_⟩
    rw [length_itemBytes]
    simp only [Option.isSome_none, Bool.false_eq_true, if_false]
    omega

/-- Witness: induction over the loop. -/
theorem readWhile_eq_ok {α : Type} {codec : FrameCodec α IoError}
    (exact
      : ∀ cur item rest,
          codec.decode cur = .ok (item, rest)
          → codec.Valid item ∧ cur.length = (codec.encode item).length + rest.length)
    {size limit fuel : Nat} {cur : Bytes} {items : List α}
    (read : readWhile codec.decode size limit fuel cur = .ok items)
    : (∀ item ∈ items, codec.Valid item) ∧ (codec.encodeAll items).length ≤ cur.length := by
  induction fuel generalizing cur items with
  | zero =>
      obtain rfl := Except.ok.inj read
      simp
  | succ fuel ih =>
      unfold readWhile at read
      split at read
      · obtain ⟨⟨item, rest⟩, first, read⟩ := bind_eq_ok.mp read
        obtain ⟨others, later, read⟩ := bind_eq_ok.mp read
        obtain rfl := Except.ok.inj read
        obtain ⟨valid, length⟩ := exact cur item rest first
        obtain ⟨allValid, total⟩ := ih later
        refine ⟨List.forall_mem_cons.mpr ⟨valid, allValid⟩, ?_⟩
        rw [FrameCodec.encodeAll_cons, List.length_append]
        omega
      · obtain rfl := Except.ok.inj read
        simp

-----------------------------------------------------------------------------------------
-- Commands that are decoded
-----------------------------------------------------------------------------------------

/-- What a request holds behind its op code. -/
def Command.operands : Command → Bytes
  | .read key => keyBytes key
  | .write key value seconds => itemBytes (key, value, seconds)
  | .delete key => keyBytes key
  | .exists key => keyBytes key
  | .mget keys => keys.flatMap keyBytes
  | .mset items => items.flatMap itemBytes
  | .range start finish => keyBytes start ++ keyBytes finish
  | .ttl key seconds => keyBytes key ++ u32Bytes seconds
  | _ => []

theorem length_encodeCommand {command : Command} {bytes : Bytes}
    (encoded : encodeCommand command = some bytes)
    : bytes.length = lenPrefixBytes + (opCodeSize + command.operands.length) := by
  have framed (total : UInt32) (op : OpCode) (operands : Bytes)
      : (frame total op operands).length
        = lenPrefixBytes + (opCodeSize + operands.length) := by
    simp [frame, lenPrefixBytes, opCodeSize]
    omega
  cases command <;> cases encoded <;> exact framed _ _ _

/-- No command is read that could not be sent. -/
theorem decodeOperands_eq_ok {op : OpCode} {size limit : Nat} {cur : Bytes}
    {command : Command} (decoded : decodeOperands op size limit cur = .ok command)
    : (∃ bytes, encodeCommand command = some bytes)
      ∧ (∀ key ∈ command.keys, key.utf8ByteSize ≤ maxKeyLen)
      ∧ command.operands.length ≤ cur.length := by
  have keyed {key : String} {rest : Bytes} (read : readKey cur = .ok (key, rest))
      : (∀ other ∈ [key], other.utf8ByteSize ≤ maxKeyLen)
        ∧ (keyBytes key).length ≤ cur.length := by
    obtain ⟨small, rfl⟩ := readKey_eq_ok read
    rw [List.length_append]
    exact ⟨List.forall_mem_singleton.mpr small, Nat.le_add_right _ _⟩
  cases op with
  | read | delete | «exists» =>
      obtain ⟨⟨key, rest⟩, read, decoded⟩ := bind_eq_ok.mp decoded
      obtain rfl := Except.ok.inj decoded
      exact ⟨⟨_, rfl⟩, keyed read⟩
  | compact | stats | list | ping =>
      obtain rfl := Except.ok.inj decoded
      exact ⟨⟨_, rfl⟩, nofun, Nat.zero_le _⟩
  | write =>
      obtain ⟨⟨⟨key, value, ttl⟩, rest⟩, read, decoded⟩ := bind_eq_ok.mp decoded
      obtain rfl := Except.ok.inj decoded
      obtain ⟨valid, length⟩ := readItem_eq_ok read
      refine ⟨⟨_, rfl⟩, List.forall_mem_singleton.mpr valid.1, ?_⟩
      rw [length]
      exact Nat.le_add_right _ _
  | mget =>
      obtain ⟨keys, read, decoded⟩ := bind_eq_ok.mp decoded
      obtain rfl := Except.ok.inj decoded
      refine ⟨⟨_, rfl⟩, @readWhile_eq_ok _ keyCodec ?_ _ _ _ _ _ read⟩
      intro cur key rest found
      obtain ⟨small, rfl⟩ := readKey_eq_ok found
      exact ⟨small, List.length_append⟩
  | mset =>
      obtain ⟨items, read, decoded⟩ := bind_eq_ok.mp decoded
      obtain rfl := Except.ok.inj decoded
      obtain ⟨valid, length⟩ := @readWhile_eq_ok _ itemCodec
        (fun _ _ _ => readItem_eq_ok) _ _ _ _ _ read
      refine ⟨⟨_, rfl⟩, fun key member => ?_, length⟩
      obtain ⟨item, inside, rfl⟩ := List.mem_map.mp member
      exact (valid item inside).1
  | range =>
      obtain ⟨⟨start, afterStart⟩, startRead, decoded⟩ := bind_eq_ok.mp decoded
      obtain ⟨⟨finish, afterFinish⟩, finishRead, decoded⟩ := bind_eq_ok.mp decoded
      obtain rfl := Except.ok.inj decoded
      obtain ⟨startSmall, rfl⟩ := readKey_eq_ok startRead
      obtain ⟨finishSmall, rfl⟩ := readKey_eq_ok finishRead
      refine ⟨⟨_, rfl⟩, ?_, ?_⟩
      · exact List.forall_mem_cons.mpr ⟨startSmall, List.forall_mem_singleton.mpr finishSmall⟩
      · simp only [Command.operands, List.length_append]
        omega
  | ttl =>
      obtain ⟨⟨key, afterKey⟩, keyRead, decoded⟩ := bind_eq_ok.mp decoded
      obtain ⟨⟨seconds, afterTtl⟩, ttlRead, decoded⟩ := bind_eq_ok.mp decoded
      obtain rfl := Except.ok.inj decoded
      obtain ⟨small, rfl⟩ := readKey_eq_ok keyRead
      have length := readTtl_eq_ok ttlRead
      refine ⟨⟨_, rfl⟩, List.forall_mem_singleton.mpr small, ?_⟩
      simp only [Command.operands, List.length_append]
      omega

/-- The op codes the server knows. -/
def Command.isKnown : Command → Bool
  | .invalid _ => false
  | _ => true

/-- A frame with a known op code is a request, perhaps with bytes behind it. -/
theorem decodeInputFrame_eq_ok {buffer : Bytes} {command : Command}
    (decoded : decodeInputFrame buffer = .ok command) (known : command.isKnown = true)
    : ∃ bytes,
        encodeCommand command = some bytes
        ∧ (∀ key ∈ command.keys, key.utf8ByteSize ≤ maxKeyLen)
        ∧ bytes.length ≤ buffer.length := by
  obtain ⟨⟨lenBytes, afterLen⟩, length, decoded⟩ := bind_eq_ok.mp decoded
  obtain ⟨⟨opBytes, cur⟩, opCode, decoded⟩ := bind_eq_ok.mp decoded
  obtain ⟨enough, -, rfl⟩ := readExact_eq_ok.mp length
  obtain ⟨more, -, rfl⟩ := readExact_eq_ok.mp opCode
  dsimp only at decoded
  split at decoded
  next op named =>
    obtain ⟨⟨bytes, encoded⟩, keys, operands⟩ := decodeOperands_eq_ok decoded
    refine ⟨bytes, encoded, keys, ?_⟩
    rw [List.length_drop, List.length_drop] at operands
    rw [List.length_drop] at more
    rw [length_encodeCommand encoded]
    simp only [frameLenSize, opCodeSize, lenPrefixBytes] at *
    omega
  next =>
    obtain rfl := Except.ok.inj decoded
    cases known

-----------------------------------------------------------------------------------------
-- Streams that are parsed
-----------------------------------------------------------------------------------------

theorem nextRequest_request {bytes rest : Bytes} {command : Command}
    (found : nextRequest bytes = .frame command rest) (known : command.isKnown = true)
    : ∃ request, Request command request ∧ request.length + rest.length ≤ bytes.length := by
  unfold nextRequest at found
  split at found
  · cases found
  · dsimp only at found
    split at found
    · cases found
    · rename_i fits
      split at found
      · cases found
      · rename_i complete
        split at found
        · rename_i decoded
          obtain ⟨rfl, rfl⟩ := NextFrame.frame.inj found
          obtain ⟨request, encoded, keys, shorter⟩ := decodeInputFrame_eq_ok decoded known
          rw [List.length_take_of_le (Nat.le_of_not_lt complete)] at shorter
          refine ⟨request, ⟨encoded, keys, ?_⟩, ?_⟩
          · rw [List.length_drop]
            omega
          · rw [List.length_drop]
            omega
        · cases found

/-- The requests of these commands, one behind the other, are no longer than the bytes the
commands were read from.
-/
def Sendable (bytes : Bytes) (commands : List Command) : Prop :=
  ∃ requests : List (Bytes × Command),
    requests.map Prod.snd = commands.filter Command.isKnown
    ∧ (∀ request ∈ requests, Request request.2 request.1)
    ∧ (requests.map Prod.fst).flatten.length ≤ bytes.length

theorem sendable_parse {bytes : Bytes} {commands : List Command} {left : Bool × Bytes}
    (parsed : requestParser.parse bytes = .ok (commands, left))
    : Sendable bytes commands := by
  refine requestParser.parse_induction (fun bytes => ⟨[], rfl, nofun, Nat.zero_le _⟩) ?_ parsed
  rintro bytes command rest commands found ⟨requests, same, sent, shorter⟩
  cases known : command.isKnown with
  | true =>
      obtain ⟨request, sendable, fewer⟩ := nextRequest_request found known
      refine ⟨(request, command) :: requests, ?_,
        List.forall_mem_cons.mpr ⟨sendable, sent⟩, ?_⟩
      · rw [List.map_cons, List.filter_cons_of_pos known, same]
      · rw [List.map_cons, List.flatten_cons, List.length_append]
        dsimp only
        omega
  | false =>
      have fewer := requestParser.shrinks bytes command rest found
      refine ⟨requests, ?_, sent, by omega⟩
      rw [List.filter_cons_of_neg (by rw [known]; decide), same]

/-- Whatever bytes a connection sends, and however they are cut, the commands the server takes
from them can be sent on: the requests for the known ones are within the limits, they are no
longer, and a server that is sent these, cut in any way, takes the same commands.
-/
theorem accepted_commands_sent_on {chunks : List Bytes} {commands : List Command}
    {action : ConnectionAction} {after : FrameParser}
    (accepted : FrameParser.new.feedUntilClose chunks = .ok (commands, action, after))
    : ∃ requests : List (Bytes × Command),
        requests.map Prod.snd = commands.filter Command.isKnown
        ∧ (∀ request ∈ requests, Request request.2 request.1)
        ∧ (requests.map Prod.fst).flatten.length ≤ chunks.flatten.length
        ∧ ∀ again : List Bytes,
            again.flatten = (requests.map Prod.fst).flatten
            → ∃ last,
                FrameParser.new.feedUntilClose again
                = .ok (commands.filter Command.isKnown, .continue, last) := by
  have fed := FrameParser.feedUntilClose_eq FrameParser.settled_new chunks
  rw [accepted] at fed
  obtain ⟨result, all, agree⟩ := map_eq_ok.mp fed.symm
  have whole := requestParser.feedAll_eq FrameParser.new.buf rfl chunks
  rw [all] at whole
  obtain ⟨drained, parsed, same⟩ := map_eq_ok.mp whole.symm
  have taken : drained.1 = commands := (Prod.mk.inj same).1.trans (Prod.mk.inj agree).1
  obtain ⟨requests, found, sent, shorter⟩ := sendable_parse parsed
  rw [taken] at found
  refine ⟨requests, found, sent, shorter, fun again stream => ?_⟩
  have frames : requestParser.Frames requests :=
    fun request member => (sent request member).next
  have read := requestParser.parse_frames frames []
  have none : requestParser.parse [] = .ok ([], false, []) := rfl
  rw [none, List.append_nil, found] at read
  have once : FrameParser.new.feed again.flatten
      = .ok (commands.filter Command.isKnown, .continue, .new) := by
    rw [FrameParser.feed_eq FrameParser.settled_new, stream]
    simp only [FrameParser.new, List.nil_append, read, Except.map, List.append_nil]
    rfl
  exact FrameParser.feedUntilClose_flatten once

/-- Witness: an unknown op code, and a `READ` with two bytes too many, in three chunks. -/
theorem accepted_commands_sent_on_loose
    : ∃ requests : List (Bytes × Command),
        requests.map Prod.snd = [.read "k"]
        ∧ (requests.map Prod.fst).flatten.length ≤ 15
        ∧ ∀ again : List Bytes,
            again.flatten = (requests.map Prod.fst).flatten
            → ∃ last, FrameParser.new.feedUntilClose again = .ok ([.read "k"], .continue, last) := by
  have accepted : FrameParser.new.feedUntilClose
        [[0, 0, 0, 1, 0x63], [0, 0, 0, 6, 1], [0, 1, 0x6b, 0, 0]]
      = .ok ([.invalid 0x63, .read "k"], .continue, .new) := by
    rfl
  obtain ⟨requests, same, -, shorter, again⟩ := accepted_commands_sent_on accepted
  exact ⟨requests, same, shorter, again⟩

end Rustikv.Server

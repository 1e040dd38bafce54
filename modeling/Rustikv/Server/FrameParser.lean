import Rustikv.Format.Record
import Rustikv.Library.FrameStream
import Rustikv.Server.Bffp

/-! Incremental parsing of request frames. The parser's state only remembers the length
prefix it has already looked at, so its answers are those of parsing the whole stream.
-/

namespace Rustikv.Server

open Library

def maxRequestBytes : Nat := maxKeySize + maxValueSize + 1024
def lenPrefixBytes : Nat := 4

inductive ParseState
  | awaitingLength
  | awaitingBody (len : UInt32)
  deriving DecidableEq, Repr

inductive ConnectionAction
  | «continue»
  | close
  deriving DecidableEq, Repr

structure FrameParser where
  state : ParseState
  buf : Bytes
  deriving DecidableEq, Repr

namespace FrameParser

def new : FrameParser :=
  { state := .awaitingLength, buf := [] }

/-- The loop of `advance`; a frame takes two turns. -/
def advance : Nat → FrameParser → List Command
    → Except IoError (List Command × ConnectionAction × FrameParser)
  | 0, parser, parsed => .ok (parsed, .continue, parser)
  | fuel + 1, parser, parsed =>
      match parser.state with
      | .awaitingLength =>
          if lenPrefixBytes ≤ parser.buf.length then
            let len := u32OfBytes (parser.buf.take lenPrefixBytes)
            if maxRequestBytes < len.toNat then
              .ok (parsed, .close, parser)
            else
              advance fuel { parser with state := .awaitingBody len } parsed
          else
            .ok (parsed, .continue, parser)
      | .awaitingBody len =>
          let total := lenPrefixBytes + len.toNat
          if total ≤ parser.buf.length then do
            let command ← decodeInputFrame (parser.buf.take total)
            advance fuel { state := .awaitingLength, buf := parser.buf.drop total }
              (parsed ++ [command])
          else
            .ok (parsed, .continue, parser)

/-- A decoding error drops the commands parsed before it. -/
def feed (parser : FrameParser) (bytes : Bytes)
    : Except IoError (List Command × ConnectionAction × FrameParser) :=
  let parser := { parser with buf := parser.buf ++ bytes }
  advance (2 * parser.buf.length + 2) parser []

/-- The chunks of a stream, up to the first that closes. -/
def feedUntilClose (parser : FrameParser)
    : List Bytes → Except IoError (List Command × ConnectionAction × FrameParser)
  | [] => .ok ([], .continue, parser)
  | chunk :: chunks => do
      let (commands, action, parser) ← parser.feed chunk
      match action with
      | .close => return (commands, .close, parser)
      | .continue =>
          let (more, action, parser) ← feedUntilClose parser chunks
          return (commands ++ more, action, parser)

end FrameParser

-----------------------------------------------------------------------------------------
-- Requests as frames of a stream
-----------------------------------------------------------------------------------------

/-- What the buffered bytes allow, whatever the parser remembers of them. -/
def nextRequest (buf : Bytes) : NextFrame Command IoError :=
  if buf.length < lenPrefixBytes then
    .more
  else
    let len := (u32OfBytes (buf.take lenPrefixBytes)).toNat
    if maxRequestBytes < len then
      .stop
    else if buf.length < lenPrefixBytes + len then
      .more
    else
      match decodeInputFrame (buf.take (lenPrefixBytes + len)) with
      | .ok command => .frame command (buf.drop (lenPrefixBytes + len))
      | .error error => .fail error

/-- An outcome that needs no more bytes looks at a prefix of the buffer only. -/
theorem nextRequest_append (front back : Bytes)
    : nextRequest (front ++ back)
      = match nextRequest front with
        | .more => nextRequest (front ++ back)
        | .stop => .stop
        | .frame command rest => .frame command (rest ++ back)
        | .fail error => .fail error := by
  by_cases short : front.length < lenPrefixBytes
  · have waiting : nextRequest front = .more := by simp [nextRequest, short]
    rw [waiting]
  · have longer : ¬ (front ++ back).length < lenPrefixBytes := by
      rw [List.length_append]
      omega
    have prefixSame : (front ++ back).take lenPrefixBytes = front.take lenPrefixBytes :=
      List.take_append_of_le_length (by omega)
    by_cases large : maxRequestBytes < (u32OfBytes (front.take lenPrefixBytes)).toNat
    · have closing : nextRequest front = .stop := by simp [nextRequest, short, large]
      rw [closing]
      simp only [nextRequest, longer, if_false, prefixSame, if_pos large]
    · by_cases incomplete : front.length
          < lenPrefixBytes + (u32OfBytes (front.take lenPrefixBytes)).toNat
      · have waiting : nextRequest front = .more := by
          simp [nextRequest, short, large, incomplete]
        rw [waiting]
      · have complete : ¬ (front ++ back).length
            < lenPrefixBytes + (u32OfBytes (front.take lenPrefixBytes)).toNat := by
          rw [List.length_append]
          omega
        let total := lenPrefixBytes + (u32OfBytes (front.take lenPrefixBytes)).toNat
        have bodySame : (front ++ back).take total = front.take total :=
          List.take_append_of_le_length (Nat.le_of_not_lt incomplete)
        have restSame : (front ++ back).drop total = front.drop total ++ back :=
          List.drop_append_of_le_length (Nat.le_of_not_lt incomplete)
        simp only [total] at bodySame restSame
        simp only [nextRequest, short, longer, large, incomplete, complete, if_false,
          prefixSame, bodySame, restSame]
        cases decodeInputFrame (front.take
          (lenPrefixBytes + (u32OfBytes (front.take lenPrefixBytes)).toNat)) <;> rfl

theorem nextRequest_shrinks {bytes rest : Bytes} {command : Command}
    (found : nextRequest bytes = .frame command rest)
    : rest.length + lenPrefixBytes ≤ bytes.length := by
  unfold nextRequest at found
  split at found
  · cases found
  · dsimp only at found
    split at found
    · cases found
    · split at found
      · cases found
      · split at found
        · obtain ⟨-, rfl⟩ := NextFrame.frame.inj found
          rw [List.length_drop]
          omega
        · cases found

def requestParser : StreamParser Command IoError where
  next := nextRequest
  shrinks bytes command rest found := by
    have smaller := nextRequest_shrinks found
    simp only [lenPrefixBytes] at smaller
    omega
  frame_append front back command rest found := by rw [nextRequest_append, found]
  stop_append front back found := by rw [nextRequest_append, found]
  fail_append front back error found := by rw [nextRequest_append, found]

-----------------------------------------------------------------------------------------
-- The parser reads the stream
-----------------------------------------------------------------------------------------

namespace FrameParser

/-- What the parser remembers is the prefix in its buffer. -/
def Settled (parser : FrameParser) : Prop :=
  ∀ len,
    parser.state = .awaitingBody len
    → lenPrefixBytes ≤ parser.buf.length
      ∧ len = u32OfBytes (parser.buf.take lenPrefixBytes)
      ∧ len.toNat ≤ maxRequestBytes

/-- The parser left with these bytes. -/
def settle (stopped : Bool) (rest : Bytes) : FrameParser :=
  {
    state :=
      if stopped ∨ rest.length < lenPrefixBytes then .awaitingLength
      else .awaitingBody (u32OfBytes (rest.take lenPrefixBytes))
    buf := rest
  }

def actionOf (stopped : Bool) : ConnectionAction :=
  if stopped then .close else .continue

theorem settled_new : new.Settled := by
  intro len waiting
  cases waiting

theorem settled_settle {bytes : Bytes} {commands : List Command} {stopped : Bool}
    {rest : Bytes} (parsed : requestParser.parse bytes = .ok (commands, stopped, rest))
    : (settle stopped rest).Settled := by
  intro len waiting
  unfold settle at waiting
  split at waiting
  · cases waiting
  · rename_i open'
    simp only [not_or, Bool.not_eq_true, not_lt] at open'
    obtain ⟨rfl, long⟩ := open'
    obtain rfl := ParseState.awaitingBody.inj waiting
    refine ⟨long, rfl, ?_⟩
    have idle : nextRequest rest = .more := requestParser.parse_rest parsed
    by_contra large
    simp [nextRequest, not_lt.mpr long, not_le.mp large] at idle

theorem Settled.append {parser : FrameParser} (settled : parser.Settled) (bytes : Bytes)
    : ({ parser with buf := parser.buf ++ bytes } : FrameParser).Settled := by
  intro len waiting
  obtain ⟨long, same, small⟩ := settled len waiting
  refine ⟨?_, ?_, small⟩
  · rw [List.length_append]
    omega
  · rw [List.take_append_of_le_length long]
    exact same

/-- The loop parses the buffer. Witness: induction on the fuel, two turns for a frame. -/
theorem advance_eq {fuel : Nat} {parser : FrameParser} (settled : parser.Settled)
    (enough
      : 2 * parser.buf.length + (if parser.state = .awaitingLength then 1 else 0) < fuel)
    (parsed : List Command)
    : advance fuel parser parsed
      = (requestParser.parse parser.buf).map
          (fun drained =>
            (parsed ++ drained.1, actionOf drained.2.1, settle drained.2.1 drained.2.2)) := by
  induction fuel generalizing parser parsed with
  | zero => omega
  | succ fuel ih =>
      obtain ⟨state, buf⟩ := parser
      have next : requestParser.next buf = nextRequest buf := rfl
      cases state with
      | awaitingLength =>
          by_cases long : lenPrefixBytes ≤ buf.length
          · by_cases large : maxRequestBytes
                < (u32OfBytes (buf.take lenPrefixBytes)).toNat
            · have closing : nextRequest buf = .stop := by
                simp [nextRequest, not_lt.mpr long, large]
              rw [requestParser.parse_eq, next, closing]
              simp [advance, long, large, Except.map, actionOf, settle]
            · have waiting : Settled
                  { state := .awaitingBody (u32OfBytes (buf.take lenPrefixBytes)), buf } := by
                intro len same
                obtain rfl := ParseState.awaitingBody.inj same
                exact ⟨long, rfl, not_lt.mp large⟩
              have step := ih waiting (by simp at enough ⊢; omega) parsed
              simpa [advance, long, large] using step
          · have waiting : nextRequest buf = .more := by
              simp [nextRequest, not_le.mp long]
            rw [requestParser.parse_eq, next, waiting]
            simp [advance, long, not_le.mp long, Except.map, actionOf, settle]
      | awaitingBody len =>
          obtain ⟨long, same, small⟩ := settled len rfl
          dsimp only at long same
          subst same
          by_cases complete : lenPrefixBytes
              + (u32OfBytes (buf.take lenPrefixBytes)).toNat ≤ buf.length
          · cases decoded : decodeInputFrame (buf.take (lenPrefixBytes
                + (u32OfBytes (buf.take lenPrefixBytes)).toNat)) with
            | error error =>
                have failing : nextRequest buf = .fail error := by
                  simp [nextRequest, not_lt.mpr long, not_lt.mpr small, not_lt.mpr complete,
                    decoded]
                rw [requestParser.parse_eq, next, failing]
                simp [advance, complete, decoded, Except.map]
            | ok command =>
                have framed : nextRequest buf = .frame command (buf.drop (lenPrefixBytes
                    + (u32OfBytes (buf.take lenPrefixBytes)).toNat)) := by
                  simp [nextRequest, not_lt.mpr long, not_lt.mpr small, not_lt.mpr complete,
                    decoded]
                have smaller := nextRequest_shrinks framed
                have fresh : Settled {
                    state := .awaitingLength
                    buf := buf.drop (lenPrefixBytes
                      + (u32OfBytes (buf.take lenPrefixBytes)).toNat)
                  } := by
                  intro len waiting
                  cases waiting
                have step := ih fresh (by
                  simp only [lenPrefixBytes] at smaller enough ⊢
                  simp at enough ⊢
                  omega) (parsed ++ [command])
                rw [requestParser.parse_eq, next, framed]
                simp only [advance, complete, if_true, decoded, ok_bind, step]
                cases requestParser.parse (buf.drop (lenPrefixBytes
                  + (u32OfBytes (buf.take lenPrefixBytes)).toNat)) <;>
                  simp [Except.map]
          · have waiting : nextRequest buf = .more := by
              simp [nextRequest, not_lt.mpr long, not_lt.mpr small, not_le.mp complete]
            rw [requestParser.parse_eq, next, waiting]
            simp [advance, complete, Except.map, actionOf, settle, not_lt.mpr long]

/-- Feeding is parsing what was left over with the new bytes behind it. -/
theorem feed_eq {parser : FrameParser} (settled : parser.Settled) (bytes : Bytes)
    : parser.feed bytes
      = (requestParser.parse (parser.buf ++ bytes)).map
          (fun drained =>
            (drained.1, actionOf drained.2.1, settle drained.2.1 drained.2.2)) := by
  have enough : 2 * (parser.buf ++ bytes).length
      + (if parser.state = .awaitingLength then 1 else 0)
      < 2 * (parser.buf ++ bytes).length + 2 := by
    split <;> omega
  have looped := advance_eq (settled.append bytes) enough []
  simp only [List.nil_append] at looped
  exact looped

/-- Feeding chunks is feeding the pieces of the stream. Witness: induction over them. -/
theorem feedUntilClose_eq {parser : FrameParser} (settled : parser.Settled)
    (chunks : List Bytes)
    : (parser.feedUntilClose chunks).map (fun fed => (fed.1, fed.2.1))
      = (requestParser.feedAll parser.buf chunks).map
          (fun fed => (fed.1, actionOf fed.2.1)) := by
  induction chunks generalizing parser with
  | nil => rfl
  | cons chunk rest ih =>
      rw [feedUntilClose, StreamParser.feedAll, feed_eq settled]
      cases parsed : requestParser.parse (parser.buf ++ chunk) with
      | error error => rfl
      | ok drained =>
          obtain ⟨commands, stopped, left⟩ := drained
          cases stopped with
          | true => rfl
          | false =>
              have later := ih (settled_settle parsed)
              simp only [Except.map, ok_bind, actionOf, Bool.false_eq_true, if_false]
              change _ = (requestParser.feedAll left rest).map _ at later
              rcases map_eq_map_cases later with
                ⟨error, fed, whole⟩ | ⟨final, result, fed, whole, agree⟩
              · rw [fed, whole]
                rfl
              · obtain ⟨same, action⟩ := Prod.mk.inj agree
                simp only [fed, whole, ok_bind, same, action]
                rfl

/-- Chunks of a stream give what feeding it at once gives. -/
theorem feedUntilClose_flatten {chunks : List Bytes} {commands : List Command}
    {action : ConnectionAction} {after : FrameParser}
    (whole : new.feed chunks.flatten = .ok (commands, action, after))
    : ∃ last, new.feedUntilClose chunks = .ok (commands, action, last) := by
  have idle : requestParser.next [] = .more := rfl
  have pieces := requestParser.feedAll_eq [] idle chunks
  have fed := feedUntilClose_eq settled_new chunks
  rw [feed_eq settled_new] at whole
  simp only [new, List.nil_append] at whole pieces fed
  obtain ⟨drained, parsed, same⟩ := map_eq_ok.mp whole
  obtain ⟨rfl, rest⟩ := Prod.mk.inj same
  obtain ⟨rfl, -⟩ := Prod.mk.inj rest
  rw [parsed] at pieces
  obtain ⟨final, all, agree⟩ := map_eq_ok.mp pieces
  obtain ⟨commandsSame, stoppedSame⟩ := Prod.mk.inj agree
  rw [all] at fed
  obtain ⟨⟨found, foundAction, last⟩, outcome, agree⟩ := map_eq_ok.mp fed
  obtain ⟨commandsFed, actionFed⟩ := Prod.mk.inj agree
  refine ⟨last, ?_⟩
  dsimp only at commandsSame stoppedSame commandsFed actionFed
  simp only [new, outcome, commandsFed, commandsSame, actionFed, stoppedSame]

end FrameParser

-----------------------------------------------------------------------------------------
-- Encoded requests
-----------------------------------------------------------------------------------------

/-- Bytes the protocol allows to be sent for a command. -/
structure Request (command : Command) (bytes : Bytes) : Prop where
  encoded : encodeCommand command = some bytes
  keys : ∀ key ∈ command.keys, key.utf8ByteSize ≤ maxKeyLen
  size : (bytes.drop lenPrefixBytes).length ≤ maxRequestBytes

/-- A request is one whole frame. -/
theorem Request.next {command : Command} {bytes : Bytes} (request : Request command bytes)
    : requestParser.next bytes = .frame command [] := by
  have sendable : ∀ opCode, command ≠ .invalid opCode := by
    rintro opCode rfl
    cases request.encoded
  obtain ⟨op, operands, encoded, back⟩ := encodeCommand_frame sendable request.keys
  obtain rfl := Option.some.inj (encoded.symm.trans request.encoded)
  have length : (u32Bytes (UInt32.ofNat (opCodeSize + operands.length))).length
      = lenPrefixBytes := by
    simp [lenPrefixBytes]
  have parts : frame (UInt32.ofNat (opCodeSize + operands.length)) op operands
      = u32Bytes (UInt32.ofNat (opCodeSize + operands.length))
        ++ ([op.toByte] ++ operands) := by
    simp [frame]
  have size := request.size
  rw [parts, List.drop_left' length, List.length_append] at size
  have small : opCodeSize + operands.length ≤ maxRequestBytes := size
  have bound : maxRequestBytes < 2 ^ 32 := by decide
  have counted : (UInt32.ofNat (opCodeSize + operands.length)).toNat
      = opCodeSize + operands.length :=
    UInt32.toNat_ofNat_of_lt' (lt_of_le_of_lt small bound)
  have total : (frame (UInt32.ofNat (opCodeSize + operands.length)) op operands).length
      = lenPrefixBytes + (opCodeSize + operands.length) := by
    rw [parts, List.length_append, length, List.length_append]
    rfl
  have decoded : decodeInputFrame
        (frame (UInt32.ofNat (opCodeSize + operands.length)) op operands)
      = .ok command := by
    rw [decodeInputFrame_frame, counted, Nat.add_comm _ frameLenSize, ← Nat.add_assoc]
    exact back (lt_of_le_of_lt small bound)
  have front : (frame (UInt32.ofNat (opCodeSize + operands.length)) op operands).take
        lenPrefixBytes
      = u32Bytes (UInt32.ofNat (opCodeSize + operands.length)) := by
    rw [parts, List.take_left' length]
  have long : ¬ (frame (UInt32.ofNat (opCodeSize + operands.length)) op operands).length
      < lenPrefixBytes := by
    omega
  have next : requestParser.next = nextRequest := rfl
  rw [next, nextRequest, if_neg long, front, u32OfBytes_u32Bytes, counted]
  dsimp only
  rw [if_neg (not_lt.mpr small), ← total, if_neg (lt_irrefl _), List.take_length, decoded,
    List.drop_length]

/-- However a stream that parses is cut, the same commands are found in the same order, and
requests sent one behind the other are found exactly.
-/
theorem frames_independent_of_chunks (chunks : List Bytes)
    : (∀ commands action after,
        FrameParser.new.feed chunks.flatten = .ok (commands, action, after)
        → ∃ last, FrameParser.new.feedUntilClose chunks = .ok (commands, action, last))
      ∧ ∀ requests : List (Bytes × Command),
          (∀ request ∈ requests, Request request.2 request.1)
          → chunks.flatten = (requests.map Prod.fst).flatten
          → ∃ last,
              FrameParser.new.feedUntilClose chunks
              = .ok (requests.map Prod.snd, .continue, last) := by
  refine ⟨fun commands action after => FrameParser.feedUntilClose_flatten, ?_⟩
  intro requests sent same
  have whole : requestParser.Frames requests :=
    fun request member => (sent request member).next
  have parsed := requestParser.parse_frames whole []
  have none : requestParser.parse [] = .ok ([], false, []) := rfl
  rw [none, List.append_nil] at parsed
  have fed : FrameParser.new.feed chunks.flatten
      = .ok (requests.map Prod.snd, .continue, .new) := by
    rw [FrameParser.feed_eq FrameParser.settled_new, same]
    simp only [FrameParser.new, List.nil_append, parsed, Except.map, List.append_nil]
    rfl
  exact FrameParser.feedUntilClose_flatten fed

/-- Witness: two requests in three chunks, the second of which ends inside a frame. -/
theorem frames_independent_of_chunks_split
    : ∃ last,
        FrameParser.new.feedUntilClose
          [[0, 0, 0], [], [1, 8, 0, 0, 0, 4, 1, 0], [1, 0x6b]]
        = .ok ([.ping, .read "k"], .continue, last) := by
  refine (frames_independent_of_chunks [[0, 0, 0], [], [1, 8, 0, 0, 0, 4, 1, 0], [1, 0x6b]]).2
    [([0, 0, 0, 1, 8], .ping), ([0, 0, 0, 4, 1, 0, 1, 0x6b], .read "k")] ?_ rfl
  intro request member
  simp only [List.mem_cons, List.not_mem_nil, or_false] at member
  rcases member with rfl | rfl
  · exact ⟨by decide +kernel, by simp [Command.keys], by decide⟩
  · exact ⟨by decide +kernel, by simp [Command.keys, maxKeyLen]; decide, by decide⟩

/-- A key of 65536 bytes is counted as one of none. -/
theorem decode_long_key {key : String} (size : key.utf8ByteSize = 65536)
    : decodeInputFrame (keyFrame .read key) = .ok (.read "") := by
  have field : keyBytes key = keyBytes "" ++ asBytes key := by
    rw [keyBytes, size]
    rfl
  have read : readKey (keyBytes key) = .ok ("", asBytes key) := by
    rw [field]
    exact readKey_keyBytes (by simp) (asBytes key)
  rw [keyFrame, decodeInputFrame_frame]
  simp only [decodeOperands, read, ok_bind]
  rfl

theorem next_long_key {key : String} (size : key.utf8ByteSize = 65536)
    : nextRequest (keyFrame .read key) = .frame (.read "") [] := by
  have length : (keyFrame .read key).length = lenPrefixBytes + 65539 := by
    simp [keyFrame, frame, length_keyBytes, keyLenSize, lenPrefixBytes, size]
  have front : (keyFrame .read key).take lenPrefixBytes = u32Bytes 65539 := by
    rw [keyFrame, frame, size, List.append_assoc]
    exact List.take_left' (by simp [lenPrefixBytes])
  have counted : (u32OfBytes (u32Bytes 65539)).toNat = 65539 := by
    rw [u32OfBytes_u32Bytes]
    rfl
  have whole := List.take_of_length_le length.le
  have nothing := List.drop_eq_nil_of_le length.le
  have long : ¬ (keyFrame .read key).length < lenPrefixBytes := by
    rw [length]
    exact not_lt.mpr (Nat.le_add_right _ _)
  have small : ¬ maxRequestBytes < 65539 := by
    decide
  have complete : ¬ (keyFrame .read key).length < lenPrefixBytes + 65539 := by
    rw [length]
    exact lt_irrefl _
  simp only [nextRequest, front, counted, whole, nothing, decode_long_key size, long, small,
    complete, if_false]

theorem feed_long_key {key : String} (size : key.utf8ByteSize = 65536)
    : FrameParser.new.feed (keyFrame .read key) = .ok ([.read ""], .continue, .new) := by
  have parser : requestParser.next (keyFrame .read key) = .frame (.read "") [] :=
    next_long_key size
  rw [FrameParser.feed_eq FrameParser.settled_new]
  simp only [FrameParser.new, List.nil_append]
  rw [requestParser.parse_eq, parser]
  rfl

theorem length_long_key {key : String} (size : key.utf8ByteSize = 65536)
    : ((keyFrame .read key).drop lenPrefixBytes).length ≤ maxRequestBytes := by
  have payload : ((keyFrame .read key).drop lenPrefixBytes).length = 65539 := by
    simp [keyFrame, frame, length_keyBytes, keyLenSize, lenPrefixBytes, size]
  rw [payload]
  decide

/-- One byte more than the key length field can count. -/
def longKey : String :=
  String.ofList (List.replicate 65536 'a')

theorem size_longKey : longKey.utf8ByteSize = 65536 :=
  utf8ByteSize_replicate 65536

/-- The field is cut to zero, so the server reads an empty key. -/
theorem long_key_reads_empty
    : ∃ bytes,
        encodeCommand (.read longKey) = some bytes
        ∧ (bytes.drop lenPrefixBytes).length ≤ maxRequestBytes
        ∧ Command.read "" ≠ .read longKey
        ∧ ∃ after, FrameParser.new.feed bytes = .ok ([.read ""], .continue, after) := by
  refine ⟨keyFrame .read longKey, rfl, length_long_key size_longKey, ?_, .new,
    feed_long_key size_longKey⟩
  intro same
  have empty := congrArg String.utf8ByteSize (Command.read.inj same)
  rw [size_longKey] at empty
  cases empty

end Rustikv.Server

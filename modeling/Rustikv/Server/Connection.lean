import Rustikv.Server.FrameParser

/-! A client connection: what its calls take from the socket and hand to it. A frame that
cannot be decoded drops the commands parsed in the same call.
-/

namespace Rustikv.Server

open Library

structure Connection where
  parser : FrameParser
  writeBuf : Bytes
  writeOffset : Nat
  pendingClose : Bool
  deriving DecidableEq, Repr

/-- What a read of the socket returns; no bytes are the end of the stream. -/
inductive ReadOutcome
  | data (bytes : Bytes)
  | wouldBlock
  | interrupted
  | failed (error : IoError)
  deriving Repr

/-- What a write to the socket returns. -/
inductive WriteOutcome
  | wrote (count : Nat)
  | wouldBlock
  | interrupted
  | failed (error : IoError)
  deriving Repr

namespace Connection

def new : Connection :=
  { parser := .new, writeBuf := [], writeOffset := 0, pendingClose := false }

/-- The loop of `onReadable`. A list of outcomes that ends is a read that would block. -/
def readLoop : Connection → List Command → List ReadOutcome
    → Except IoError (List Command × ConnectionAction × Connection)
  | conn, allParsed, [] => .ok (allParsed, .continue, conn)
  | conn, allParsed, .wouldBlock :: _ => .ok (allParsed, .continue, conn)
  | conn, allParsed, .interrupted :: reads => readLoop conn allParsed reads
  | _, _, .failed error :: _ => .error error
  | conn, allParsed, .data [] :: _ => .ok (allParsed, .close, conn)
  | conn, allParsed, .data (byte :: bytes) :: reads => do
      let (parsed, action, parser) ← conn.parser.feed (byte :: bytes)
      let conn := { conn with parser := parser }
      match action with
      | .close => return (allParsed ++ parsed, .close, conn)
      | .continue => readLoop conn (allParsed ++ parsed) reads

def onReadable (conn : Connection) (reads : List ReadOutcome)
    : Except IoError (List Command × ConnectionAction × Connection) :=
  readLoop conn [] reads

/-- Writes the buffered bytes, and returns the pieces that the socket accepts. A list of
outcomes that ends is a write that would block.
-/
def onWritable (conn : Connection) (writes : List WriteOutcome)
    : List Bytes × Except IoError Connection :=
  if conn.writeBuf.length ≤ conn.writeOffset then
    ([], .ok { conn with writeBuf := [], writeOffset := 0 })
  else
    match writes with
    | [] => ([], .ok conn)
    | .wouldBlock :: _ => ([], .ok conn)
    | .interrupted :: writes => onWritable conn writes
    | .failed error :: _ => ([], .error error)
    | .wrote 0 :: _ => ([], .ok conn)
    | .wrote (count + 1) :: writes =>
        -- the socket is offered what lies behind the offset and takes no more than that
        let piece := (conn.writeBuf.drop conn.writeOffset).take (count + 1)
        let conn := { conn with writeOffset := conn.writeOffset + piece.length }
        let (sent, outcome) := onWritable conn writes
        (piece :: sent, outcome)

def enqueueResponse (conn : Connection) (bytes : Bytes) : Connection :=
  { conn with writeBuf := conn.writeBuf ++ bytes }

def hasPendingWrites (conn : Connection) : Bool :=
  decide (conn.writeOffset < conn.writeBuf.length)

/-- The commands that reach the worker, call by call, until the connection is closed. An
error closes it at once.
-/
def returned : Connection → List (List ReadOutcome) → List Command
  | _, [] => []
  | conn, reads :: calls =>
      match conn.onReadable reads with
      | .error _ => []
      | .ok (commands, .close, _) => commands
      | .ok (commands, .continue, conn) => commands ++ returned conn calls

end Connection

-----------------------------------------------------------------------------------------
-- A call reads a piece of the stream
-----------------------------------------------------------------------------------------

/-- The outcome brings bytes of the stream, or nothing. -/
def ReadOutcome.Delivers : ReadOutcome → Prop
  | .data bytes => bytes ≠ []
  | .interrupted => True
  | _ => False

def ReadOutcome.bytes : ReadOutcome → Bytes
  | .data bytes => bytes
  | _ => []

/-- The part of the stream read in a call. -/
def bytesOf (reads : List ReadOutcome) : Bytes :=
  reads.flatMap ReadOutcome.bytes

theorem bytesOf_append (front back : List ReadOutcome)
    : bytesOf (front ++ back) = bytesOf front ++ bytesOf back :=
  List.flatMap_append

namespace Connection

/-- Nothing more can be parsed from the bytes received so far. -/
structure Idle (conn : Connection) : Prop where
  parser : conn.parser = FrameParser.settle false conn.parser.buf
  next : requestParser.next conn.parser.buf = .more

theorem idle_new : new.Idle :=
  ⟨rfl, rfl⟩

theorem Idle.settled {conn : Connection} (idle : conn.Idle) : conn.parser.Settled := by
  have left : requestParser.parse conn.parser.buf = .ok ([], false, conn.parser.buf) := by
    rw [requestParser.parse_eq, idle.next]
  rw [idle.parser]
  exact FrameParser.settled_settle left

/-- The connection with other bytes left over. -/
def leave (conn : Connection) (rest : Bytes) : Connection :=
  { conn with parser := FrameParser.settle false rest }

theorem idle_leave (conn : Connection) {bytes : Bytes} {commands : List Command}
    {rest : Bytes} (parsed : requestParser.parse bytes = .ok (commands, false, rest))
    : (conn.leave rest).Idle :=
  ⟨rfl, requestParser.parse_rest parsed⟩

/-- What a call makes of its reads, in terms of the bytes alone. -/
def Reads (conn : Connection) (allParsed : List Command)
    (outcome : Except IoError (List Command × ConnectionAction × Connection))
    : Except IoError (List Command × Bool × Bytes) → Prop
  | .error error => outcome = .error error
  | .ok (commands, true, _) =>
      ∃ after, outcome = .ok (allParsed ++ commands, .close, after)
  | .ok (commands, false, rest) =>
      outcome = .ok (allParsed ++ commands, .continue, conn.leave rest)

/-- A call parses what was left over and its reads. Witness: induction over the reads. -/
theorem readLoop_reads {conn : Connection} (idle : conn.Idle) (allParsed : List Command)
    {reads : List ReadOutcome} (delivers : ∀ read ∈ reads, read.Delivers)
    : Reads conn allParsed (readLoop conn allParsed reads)
        (requestParser.parse (conn.parser.buf ++ bytesOf reads)) := by
  induction reads generalizing conn allParsed with
  | nil =>
      have same : conn = conn.leave conn.parser.buf := by
        rw [leave, ← idle.parser]
      simp only [bytesOf, List.flatMap_nil, List.append_nil]
      rw [requestParser.parse_eq, idle.next]
      simp only [Reads, readLoop, List.append_nil]
      rw [← same]
  | cons read reads ih =>
      have first := delivers read (by simp)
      have others : ∀ later ∈ reads, later.Delivers :=
        fun later member => delivers later (List.mem_cons_of_mem _ member)
      cases read with
      | wouldBlock => exact absurd first id
      | failed error => exact absurd first id
      | interrupted => exact ih idle allParsed others
      | data bytes =>
          cases bytes with
          | nil => exact absurd rfl first
          | cons byte bytes =>
              change Reads conn allParsed _
                (requestParser.parse (conn.parser.buf ++ ((byte :: bytes) ++ bytesOf reads)))
              rw [← List.append_assoc, requestParser.parse_append, readLoop,
                FrameParser.feed_eq idle.settled]
              cases parsed : requestParser.parse (conn.parser.buf ++ byte :: bytes) with
              | error error => rfl
              | ok drained =>
                  obtain ⟨commands, stopped, rest⟩ := drained
                  cases stopped with
                  | true => exact ⟨_, rfl⟩
                  | false =>
                      have later := ih (idle_leave conn parsed) (allParsed ++ commands) others
                      change Reads (conn.leave rest) _ _
                        (requestParser.parse (rest ++ bytesOf reads)) at later
                      change Reads conn allParsed
                        (readLoop (conn.leave rest) (allParsed ++ commands) reads)
                        (requestParser.continueWith (commands, false, rest) (bytesOf reads))
                      unfold StreamParser.continueWith
                      cases tail : requestParser.parse (rest ++ bytesOf reads) with
                      | error error =>
                          rw [tail] at later
                          exact later
                      | ok final =>
                          obtain ⟨more, ended, last⟩ := final
                          rw [tail] at later
                          cases ended <;>
                            simpa [Reads, Except.map, leave, List.append_assoc] using later

theorem onReadable_reads {conn : Connection} (idle : conn.Idle)
    {reads : List ReadOutcome} (delivers : ∀ read ∈ reads, read.Delivers)
    : Reads conn [] (conn.onReadable reads)
        (requestParser.parse (conn.parser.buf ++ bytesOf reads)) :=
  readLoop_reads idle [] delivers

/-- One call, seen from the worker. -/
theorem returned_cons {conn : Connection} (idle : conn.Idle) {reads : List ReadOutcome}
    (delivers : ∀ read ∈ reads, read.Delivers) (calls : List (List ReadOutcome))
    : conn.returned (reads :: calls)
      = match requestParser.parse (conn.parser.buf ++ bytesOf reads) with
        | .error _ => []
        | .ok (commands, true, _) => commands
        | .ok (commands, false, rest) => commands ++ (conn.leave rest).returned calls := by
  have read := onReadable_reads idle delivers
  rw [returned]
  cases parsed : requestParser.parse (conn.parser.buf ++ bytesOf reads) with
  | error error =>
      rw [parsed] at read
      change conn.onReadable reads = .error error at read
      rw [read]
  | ok drained =>
      obtain ⟨commands, stopped, rest⟩ := drained
      rw [parsed] at read
      cases stopped with
      | true =>
          obtain ⟨after, read⟩ := read
          rw [read]
          rfl
      | false =>
          change conn.onReadable reads = .ok ([] ++ commands, .continue, _) at read
          rw [read]
          rfl

/-- Calls that only bring whole frames and the front of another. Witness: induction over
the calls.
-/
theorem returned_append {conn : Connection} (idle : conn.Idle)
    {earlier : List (List ReadOutcome)}
    (delivers : ∀ reads ∈ earlier, ∀ read ∈ reads, read.Delivers)
    {commands : List Command} {rest : Bytes}
    (parsed : requestParser.parse (conn.parser.buf ++ bytesOf earlier.flatten)
      = .ok (commands, false, rest))
    (calls : List (List ReadOutcome))
    : conn.returned (earlier ++ calls) = commands ++ (conn.leave rest).returned calls := by
  induction earlier generalizing conn commands with
  | nil =>
      simp only [List.flatten_nil, bytesOf, List.flatMap_nil, List.append_nil] at parsed
      rw [requestParser.parse_eq, idle.next] at parsed
      obtain ⟨rfl, same⟩ := Prod.mk.inj (Except.ok.inj parsed)
      obtain ⟨-, rfl⟩ := Prod.mk.inj same
      have same : conn.leave conn.parser.buf = conn := by
        rw [leave, ← idle.parser]
      rw [same]
      rfl
  | cons reads earlier ih =>
      have first := delivers reads (by simp)
      have others : ∀ reads ∈ earlier, ∀ read ∈ reads, read.Delivers :=
        fun reads member => delivers reads (List.mem_cons_of_mem _ member)
      rw [List.flatten_cons, bytesOf_append, ← List.append_assoc] at parsed
      rw [List.cons_append, returned_cons idle first]
      rcases requestParser.parse_append_ok parsed with
        ⟨left, -, stopped⟩ | ⟨found, left, more, now, later, rfl⟩
      · cases stopped
      · rw [now]
        dsimp only
        rw [ih (idle_leave conn now) others later, List.append_assoc]
        rfl

/-- Where the stream parses, its frames are returned. Witness: induction over the calls. -/
theorem returned_eq {conn : Connection} (idle : conn.Idle)
    {calls : List (List ReadOutcome)}
    (delivers : ∀ reads ∈ calls, ∀ read ∈ reads, read.Delivers)
    {commands : List Command} {stopped : Bool} {rest : Bytes}
    (parsed : requestParser.parse (conn.parser.buf ++ bytesOf calls.flatten)
      = .ok (commands, stopped, rest))
    : conn.returned calls = commands := by
  induction calls generalizing conn commands with
  | nil =>
      simp only [List.flatten_nil, bytesOf, List.flatMap_nil, List.append_nil] at parsed
      rw [requestParser.parse_eq, idle.next] at parsed
      exact (Prod.mk.inj (Except.ok.inj parsed)).1
  | cons reads calls ih =>
      have first := delivers reads (by simp)
      have others : ∀ reads ∈ calls, ∀ read ∈ reads, read.Delivers :=
        fun reads member => delivers reads (List.mem_cons_of_mem _ member)
      rw [List.flatten_cons, bytesOf_append, ← List.append_assoc] at parsed
      rw [returned_cons idle first]
      rcases requestParser.parse_append_ok parsed with
        ⟨left, now, -⟩ | ⟨found, left, more, now, later, rfl⟩
      · rw [now]
      · rw [now]
        dsimp only
        rw [ih (idle_leave conn now) others later]

end Connection

-----------------------------------------------------------------------------------------
-- A malformed frame behind well-formed ones
-----------------------------------------------------------------------------------------

/-- The length prefix counts the bytes behind it. -/
structure Delimited (bytes : Bytes) : Prop where
  long : lenPrefixBytes ≤ bytes.length
  counted
    : (u32OfBytes (bytes.take lenPrefixBytes)).toNat + lenPrefixBytes = bytes.length

/-- The parser decodes frames up to this size and closes the connection at longer ones. -/
def WithinLimit (bytes : Bytes) : Prop :=
  bytes.length ≤ lenPrefixBytes + maxRequestBytes

theorem next_delimited {bytes : Bytes} (delimited : Delimited bytes)
    (small : WithinLimit bytes)
    : requestParser.next bytes
      = match decodeInputFrame bytes with
        | .ok command => .frame command []
        | .error error => .fail error := by
  have counted := delimited.counted
  have size : ¬ maxRequestBytes < (u32OfBytes (bytes.take lenPrefixBytes)).toNat := by
    unfold WithinLimit at small
    omega
  have whole : ¬ bytes.length
      < lenPrefixBytes + (u32OfBytes (bytes.take lenPrefixBytes)).toNat := by
    omega
  have taken : bytes.take (lenPrefixBytes + (u32OfBytes (bytes.take lenPrefixBytes)).toNat)
      = bytes := by
    rw [Nat.add_comm, counted, List.take_length]
  have dropped : bytes.drop (lenPrefixBytes + (u32OfBytes (bytes.take lenPrefixBytes)).toNat)
      = [] := by
    rw [Nat.add_comm, counted, List.drop_length]
  change nextRequest bytes = _
  cases decoded : decodeInputFrame bytes <;>
    simp only [nextRequest, not_lt.mpr delimited.long, if_false, size, whole, taken, dropped,
      decoded]

theorem next_oversized {bytes : Bytes} (delimited : Delimited bytes)
    (large : ¬ WithinLimit bytes)
    : requestParser.next bytes = .stop := by
  have counted := delimited.counted
  have size : maxRequestBytes < (u32OfBytes (bytes.take lenPrefixBytes)).toNat := by
    unfold WithinLimit at large
    omega
  change nextRequest bytes = _
  simp only [nextRequest, not_lt.mpr delimited.long, if_false, size, if_true]

/-- A frame is not looked at before its last byte has arrived. -/
theorem next_strictPrefix {front back : Bytes} (delimited : Delimited (front ++ back))
    (small : WithinLimit (front ++ back)) (missing : back ≠ [])
    : requestParser.next front = .more := by
  have counted := delimited.counted
  have lengths : (front ++ back).length = front.length + back.length :=
    List.length_append
  have some := List.length_pos_iff.mpr missing
  change nextRequest front = _
  by_cases short : front.length < lenPrefixBytes
  · simp only [nextRequest, short, if_true]
  · rw [List.take_append_of_le_length (not_lt.mp short)] at counted
    have size : ¬ maxRequestBytes < (u32OfBytes (front.take lenPrefixBytes)).toNat := by
      unfold WithinLimit at small
      omega
    have incomplete : front.length
        < lenPrefixBytes + (u32OfBytes (front.take lenPrefixBytes)).toNat := by
      omega
    simp only [nextRequest, short, if_false, size, incomplete, if_true]

/-- A frame that carries the command. -/
structure WellFormed (frame : Bytes × Command) : Prop where
  delimited : Delimited frame.1
  decoded : decodeInputFrame frame.1 = .ok frame.2

theorem frames_wellFormed {frames : List (Bytes × Command)}
    (wellFormed : ∀ frame ∈ frames, WellFormed frame)
    (small : ∀ frame ∈ frames, WithinLimit frame.1)
    : requestParser.Frames frames := by
  intro frame member
  rw [next_delimited (wellFormed frame member).delimited (small frame member),
    (wellFormed frame member).decoded]

/-- Parsing ends at a frame beyond the limit. Witness: induction over the frames. -/
theorem parse_oversized {frames : List (Bytes × Command)}
    (wellFormed : ∀ frame ∈ frames, WellFormed frame)
    (large : ¬ ∀ frame ∈ frames, WithinLimit frame.1) (back : Bytes)
    : ∃ commands rest,
        requestParser.parse ((frames.map Prod.fst).flatten ++ back)
          = .ok (commands, true, rest)
        ∧ commands ≠ frames.map Prod.snd := by
  induction frames with
  | nil => simp at large
  | cons frame frames ih =>
      have sent := wellFormed frame (by simp)
      have others : ∀ later ∈ frames, WellFormed later :=
        fun later member => wellFormed later (List.mem_cons_of_mem _ member)
      rw [List.map_cons, List.flatten_cons, List.append_assoc, requestParser.parse_eq]
      by_cases small : WithinLimit frame.1
      · have next : requestParser.next frame.1 = .frame frame.2 [] := by
          rw [next_delimited sent.delimited small, sent.decoded]
        have later : ¬ ∀ later ∈ frames, WithinLimit later.1 := by
          intro all
          exact large (List.forall_mem_cons.mpr ⟨small, all⟩)
        obtain ⟨commands, rest, parsed, fewer⟩ := ih others later
        refine ⟨frame.2 :: commands, rest, ?_, by simpa using fewer⟩
        rw [requestParser.frame_append _ _ _ _ next]
        dsimp only
        rw [List.nil_append, parsed]
        rfl
      · have closing := next_oversized sent.delimited small
        rw [requestParser.stop_append _ _ closing]
        exact ⟨[], _, rfl, by simp⟩

section Malformed

variable {good : List (Bytes × Command)} {bad : Bytes} {error : IoError}
  {earlier : List (List ReadOutcome)} {last : List ReadOutcome}

/-- The call that brings an undecodable frame to its end returns no commands. -/
theorem returned_failing {conn : Connection} (idle : conn.Idle)
    (delivers : ∀ read ∈ last, read.Delivers)
    (failing : requestParser.parse (conn.parser.buf ++ bytesOf last) = .error error)
    : conn.returned [last] = [] := by
  rw [Connection.returned_cons idle delivers, failing]

/-- The last call brings bytes of the malformed frame only. -/
theorem returned_completed_later {front : Bytes} (whole : requestParser.Frames good)
    (delimited : Delimited bad) (small : WithinLimit bad)
    (rejected : decodeInputFrame bad = .error error)
    (before : ∀ reads ∈ earlier, ∀ read ∈ reads, read.Delivers)
    (completing : ∀ read ∈ last, read.Delivers)
    (read : bytesOf earlier.flatten = (good.map Prod.fst).flatten ++ front)
    (rest : bad = front ++ bytesOf last)
    (completes : bytesOf last ≠ [])
    : Connection.new.returned (earlier ++ [last]) = good.map Prod.snd := by
  have waiting : requestParser.next front = .more :=
    next_strictPrefix (rest ▸ delimited) (rest ▸ small) completes
  have parsed : requestParser.parse ([] ++ bytesOf earlier.flatten)
      = .ok (good.map Prod.snd, false, front) := by
    rw [List.nil_append, read, requestParser.parse_frames whole, requestParser.parse_eq,
      waiting]
    simp [Except.map]
  have failing : requestParser.parse (front ++ bytesOf last) = .error error := by
    rw [← rest, requestParser.parse_eq, next_delimited delimited small, rejected]
  rw [Connection.returned_append Connection.idle_new before parsed,
    returned_failing (Connection.idle_leave _ parsed) completing failing, List.append_nil]

/-- The last call also brings bytes of a well-formed frame. -/
theorem returned_completed_together {missing : Bytes} (whole : requestParser.Frames good)
    (delimited : Delimited bad) (small : WithinLimit bad)
    (rejected : decodeInputFrame bad = .error error)
    (before : ∀ reads ∈ earlier, ∀ read ∈ reads, read.Delivers)
    (completing : ∀ read ∈ last, read.Delivers)
    (cut : (good.map Prod.fst).flatten = bytesOf earlier.flatten ++ missing)
    (rest : bytesOf last = missing ++ bad)
    (some : missing ≠ [])
    : Connection.new.returned (earlier ++ [last]) ≠ good.map Prod.snd := by
  obtain ⟨commands, left, front, fewer⟩ := requestParser.parse_of_prefix whole cut some
  have parsed : requestParser.parse ([] ++ bytesOf earlier.flatten)
      = .ok (commands, false, left) := front
  have stream : requestParser.parse (bytesOf earlier.flatten ++ bytesOf last)
      = .error error := by
    rw [rest, ← List.append_assoc, ← cut, requestParser.parse_frames whole,
      requestParser.parse_eq, next_delimited delimited small, rejected]
    rfl
  have failing : requestParser.parse (left ++ bytesOf last) = .error error := by
    rw [requestParser.parse_append, front] at stream
    change requestParser.continueWith (commands, false, left) _ = _ at stream
    unfold StreamParser.continueWith at stream
    cases tail : requestParser.parse (left ++ bytesOf last) with
    | error other =>
        rw [if_neg (by simp), tail] at stream
        exact stream
    | ok drained =>
        rw [if_neg (by simp), tail] at stream
        cases stream
  rw [Connection.returned_append Connection.idle_new before parsed,
    returned_failing (Connection.idle_leave _ parsed) completing failing, List.append_nil]
  exact fewer

end Malformed

/-- The requests before a malformed frame reach the worker exactly when each is within the
limit, and the malformed one is beyond it or is completed by a later call than the last of
them.
-/
theorem returned_before_malformed (good : List (Bytes × Command)) (bad : Bytes)
    (earlier : List (List ReadOutcome)) (last : List ReadOutcome)
    (wellFormed : ∀ frame ∈ good, WellFormed frame)
    (delimited : Delimited bad)
    (rejected : ∃ error, decodeInputFrame bad = .error error)
    (delivers : ∀ reads ∈ earlier ++ [last], ∀ read ∈ reads, read.Delivers)
    (stream : bytesOf (earlier ++ [last]).flatten = (good.map Prod.fst).flatten ++ bad)
    (completes : bytesOf last ≠ [])
    : Connection.new.returned (earlier ++ [last]) = good.map Prod.snd
      ↔ (∀ frame ∈ good, WithinLimit frame.1)
        ∧ (¬ WithinLimit bad
          ∨ (good.map Prod.fst).flatten.length ≤ (bytesOf earlier.flatten).length) := by
  have idle := Connection.idle_new
  obtain ⟨error, rejected⟩ := rejected
  by_cases small : ∀ frame ∈ good, WithinLimit frame.1
  · have whole := frames_wellFormed wellFormed small
    by_cases limit : WithinLimit bad
    · have before : ∀ reads ∈ earlier, ∀ read ∈ reads, read.Delivers :=
        fun reads member => delivers reads (List.mem_append_left _ member)
      have completing : ∀ read ∈ last, read.Delivers := delivers last (by simp)
      have cut : bytesOf earlier.flatten ++ bytesOf last
          = (good.map Prod.fst).flatten ++ bad := by
        rw [← stream, List.flatten_append, bytesOf_append]
        simp
      rcases List.append_eq_append_iff.mp cut with
        ⟨missing, goods, rest⟩ | ⟨front, read, rest⟩
      · by_cases complete : missing = []
        · subst complete
          rw [List.append_nil] at goods
          have all := returned_completed_later whole delimited limit rejected before
            completing (goods.symm.trans (List.append_nil _).symm) rest.symm completes
          exact iff_of_true all ⟨small, .inr (congrArg List.length goods).le⟩
        · have fewer := returned_completed_together whole delimited limit rejected before
            completing goods rest complete
          refine iff_of_false fewer ?_
          rintro ⟨-, beyond | arrived⟩
          · exact beyond limit
          · rw [goods, List.length_append] at arrived
            have some := List.length_pos_iff.mpr complete
            omega
      · have all := returned_completed_later whole delimited limit rejected before
          completing read rest completes
        refine iff_of_true all ⟨small, .inr ?_⟩
        rw [read, List.length_append]
        exact Nat.le_add_right _ _
    · have parsed : requestParser.parse ([] ++ bytesOf (earlier ++ [last]).flatten)
          = .ok (good.map Prod.snd, true, bad) := by
        rw [List.nil_append, stream, requestParser.parse_frames whole,
          requestParser.parse_eq, next_oversized delimited limit]
        simp [Except.map]
      exact iff_of_true (Connection.returned_eq idle delivers parsed) ⟨small, .inl limit⟩
  · obtain ⟨commands, rest, closing, fewer⟩ := parse_oversized wellFormed small bad
    have parsed : requestParser.parse ([] ++ bytesOf (earlier ++ [last]).flatten)
        = .ok (commands, true, rest) := by
      rw [List.nil_append, stream, closing]
    rw [Connection.returned_eq idle delivers parsed]
    exact iff_of_false fewer (fun both => small both.1)

/-- A ping, and a write whose operands are missing. -/
def pingFrame : Bytes := [0, 0, 0, 1, 8]
def brokenFrame : Bytes := [0, 0, 0, 1, 2]

theorem wellFormed_ping : WellFormed (pingFrame, .ping) :=
  ⟨⟨by decide, by decide⟩, by decide +kernel⟩

theorem delimited_broken : Delimited brokenFrame :=
  ⟨by decide, by decide⟩

theorem rejected_broken : ∃ error, decodeInputFrame brokenFrame = .error error := by
  cases decoded : decodeInputFrame brokenFrame with
  | error error => exact ⟨error, rfl⟩
  | ok command =>
      have fails : (decodeInputFrame brokenFrame).toOption.isNone := by decide +kernel
      rw [decoded] at fails
      cases fails

/-- Witness: the ping is returned by its own call. -/
theorem returned_before_malformed_ping
    : Connection.new.returned [[.data pingFrame, .interrupted], [.data brokenFrame]]
      = [.ping] := by
  refine (returned_before_malformed [(pingFrame, .ping)] brokenFrame
    [[.data pingFrame, .interrupted]] [.data brokenFrame] ?_ delimited_broken
    rejected_broken ?_ rfl (by decide)).mpr ⟨?_, .inr (by decide)⟩
  · simpa using wellFormed_ping
  · simp [ReadOutcome.Delivers, pingFrame, brokenFrame]
  · have short : WithinLimit pingFrame := by
      unfold WithinLimit
      decide
    simpa using short

/-- Read in one call, the ping is dropped with the frame behind it. -/
theorem malformed_drops_ping
    : WellFormed (pingFrame, .ping)
      ∧ Delimited brokenFrame
      ∧ (∃ error, decodeInputFrame brokenFrame = .error error)
      ∧ Connection.new.returned [[.data (pingFrame ++ brokenFrame)]] = []
      ∧ Connection.new.returned [[.data pingFrame], [.data brokenFrame]] = [.ping] :=
  ⟨wellFormed_ping, delimited_broken, rejected_broken, by decide +kernel, by decide +kernel⟩

end Rustikv.Server

import Rustikv.Server.Connection

/-! A worker serving one connection: requests are answered into a buffer that later events
hand to the socket piece by piece.
-/

namespace Rustikv.Server

open Library

inductive Interest
  | readable
  | writable
  | readableWritable
  deriving DecidableEq, Repr

/-- An event of the poll, with what the socket answers while it is handled. -/
structure Event where
  readable : Bool
  reads : List ReadOutcome
  writes : List WriteOutcome
  reregisters : Bool

/-- The worker keeps a connection or has dropped it, by an I/O error or without one. -/
inductive Status
  | kept (conn : Connection) (interest : Interest)
  | dropped (failed : Bool)

/-- A connection with the commands dispatched for it and the pieces its socket accepted. -/
structure Session where
  status : Status
  dispatched : List Command
  sent : List Bytes

section Serving

-- the response to a command, which may depend on everything before it
variable (respond : Nat → Command → Bytes)

/-- Dispatches the commands of a call, the first of them as number `turn`. -/
def Connection.dispatchAll (conn : Connection) (turn : Nat) : List Command → Connection
  | [] => conn
  | command :: commands =>
      dispatchAll (conn.enqueueResponse (respond turn command)) (turn + 1) commands

/-- The readable part of an event: the connection, the commands dispatched, and whether an
error closes it.
-/
def Connection.serveReadable (conn : Connection) (turn : Nat) (event : Event)
    : Connection × List Command × Bool :=
  if event.readable && !conn.pendingClose then
    match conn.onReadable event.reads with
    | .ok (commands, action, conn) =>
        let conn := conn.dispatchAll respond turn commands
        match action with
        | .close => ({ conn with pendingClose := true }, commands, false)
        | .continue => (conn, commands, false)
    | .error _ => (conn, [], true)
  else
    (conn, [], false)

/-- The single attempt to drain what is buffered. -/
def Connection.serveWritable (conn : Connection) (hardClose : Bool) (event : Event)
    : Connection × List Bytes × Bool :=
  if !hardClose && conn.hasPendingWrites then
    match conn.onWritable event.writes with
    | (sent, .ok conn) => (conn, sent, false)
    | (sent, .error _) => (conn, sent, true)
  else
    (conn, [], hardClose)

def Connection.interest (conn : Connection) : Interest :=
  if conn.pendingClose then .writable
  else if conn.hasPendingWrites then .readableWritable
  else .readable

/-- What becomes of the connection after an event. -/
def Connection.settle (conn : Connection) (hardClose : Bool) (event : Event) : Status :=
  if hardClose || (conn.pendingClose && !conn.hasPendingWrites) then .dropped hardClose
  else if event.reregisters then .kept conn conn.interest
  else .dropped false

/-- An event for a connection that was dropped finds no entry for its token. -/
def Session.onEvent (session : Session) (event : Event) : Session :=
  match session.status with
  | .dropped _ => session
  | .kept conn _ =>
      let (conn, commands, hardClose) :=
        conn.serveReadable respond session.dispatched.length event
      let (conn, sent, hardClose) := conn.serveWritable hardClose event
      {
        status := conn.settle hardClose event
        dispatched := session.dispatched ++ commands
        sent := session.sent ++ sent
      }

def Session.new : Session :=
  { status := .kept .new .readable, dispatched := [], sent := [] }

def Session.run (events : List Event) : Session :=
  events.foldl (Session.onEvent respond) .new

/-- The responses to commands, one behind the other, the first as number `turn`. -/
def responsesFrom (turn : Nat) : List Command → Bytes
  | [] => []
  | command :: commands => respond turn command ++ responsesFrom (turn + 1) commands

def responses (commands : List Command) : Bytes :=
  responsesFrom respond 0 commands

end Serving

-----------------------------------------------------------------------------------------
-- What is still to be sent
-----------------------------------------------------------------------------------------

namespace Connection

/-- The buffered bytes that the socket has not accepted. -/
def pending (conn : Connection) : Bytes :=
  conn.writeBuf.drop conn.writeOffset

theorem hasPendingWrites_eq_false {conn : Connection}
    : conn.hasPendingWrites = false ↔ conn.pending = [] := by
  simp [hasPendingWrites, pending]

/-- Only a part of the buffer has been sent. -/
def Sound (conn : Connection) : Prop :=
  conn.writeOffset ≤ conn.writeBuf.length

/-- The pieces accepted are taken from the front of what was pending. -/
def Moves (conn : Connection) (sent : List Bytes) : Except IoError Connection → Prop
  | .ok after =>
      sent.flatten ++ after.pending = conn.pending
      ∧ after.Sound
      ∧ after.pendingClose = conn.pendingClose
  | .error _ => sent.flatten <+: conn.pending

theorem moves_none {conn : Connection} (sound : conn.Sound) : conn.Moves [] (.ok conn) :=
  ⟨rfl, sound, rfl⟩

/-- Writing on after a piece was accepted. -/
theorem Moves.cons {conn : Connection} {sent : List Bytes}
    {outcome : Except IoError Connection} (count : Nat)
    (moves : Moves
      { conn with writeOffset := conn.writeOffset + (conn.pending.take count).length }
      sent outcome)
    : conn.Moves (conn.pending.take count :: sent) outcome := by
  have rest : ({ conn with
      writeOffset := conn.writeOffset + (conn.pending.take count).length
    } : Connection).pending = conn.pending.drop count := by
    have size : (conn.pending.take count).length = min count conn.pending.length :=
      List.length_take
    simp only [pending, List.drop_drop] at size ⊢
    rcases le_total count (conn.writeBuf.drop conn.writeOffset).length with few | many
    · rw [size, min_eq_left few]
    · rw [size, min_eq_right many, List.drop_eq_nil_of_le, List.drop_eq_nil_of_le] <;>
        simp only [List.length_drop] at many ⊢ <;> omega
  cases outcome with
  | ok after =>
      obtain ⟨same, sound, closing⟩ := moves
      refine ⟨?_, sound, closing⟩
      rw [List.flatten_cons, List.append_assoc, same, rest, List.take_append_drop]
  | error error =>
      change sent.flatten <+: _ at moves
      rw [rest] at moves
      change conn.pending.take count ++ sent.flatten <+: conn.pending
      have whole := List.take_append_drop count conn.pending
      rw [← whole]
      nth_rewrite 1 [whole]
      exact (List.prefix_append_right_inj _).mpr moves

/-- Writing moves bytes from the buffer to the socket. Witness: induction over the writes.
-/
theorem onWritable_moves {conn : Connection} (sound : conn.Sound)
    (writes : List WriteOutcome)
    : conn.Moves (conn.onWritable writes).1 (conn.onWritable writes).2 := by
  induction writes generalizing conn with
  | nil =>
      unfold onWritable
      by_cases drained : conn.writeBuf.length ≤ conn.writeOffset
      · simp [drained, Moves, pending, Sound]
      · simpa [drained] using moves_none sound
  | cons write writes ih =>
      unfold onWritable
      by_cases drained : conn.writeBuf.length ≤ conn.writeOffset
      · simp [drained, Moves, pending, Sound]
      · simp only [drained, if_false]
        cases write with
        | wouldBlock => exact moves_none sound
        | failed error => exact List.nil_prefix
        | interrupted => exact ih sound
        | wrote count =>
            cases count with
            | zero => exact moves_none sound
            | succ count =>
                refine Moves.cons (count + 1) (ih ?_)
                have size : (conn.pending.take (count + 1)).length ≤ conn.pending.length :=
                  List.length_take_le' _ _
                simp only [Sound, pending, List.length_drop] at sound size ⊢
                omega

theorem dispatchAll_eq (respond : Nat → Command → Bytes) (conn : Connection) (turn : Nat)
    (commands : List Command)
    : conn.dispatchAll respond turn commands
      = { conn with writeBuf := conn.writeBuf ++ responsesFrom respond turn commands } := by
  induction commands generalizing conn turn with
  | nil => simp [dispatchAll, responsesFrom]
  | cons command commands ih =>
      rw [dispatchAll, ih]
      simp [enqueueResponse, responsesFrom, List.append_assoc]

/-- Reading leaves the write side alone. Witness: induction over the reads. -/
theorem readLoop_keeps {conn after : Connection} {allParsed commands : List Command}
    {reads : List ReadOutcome} {action : ConnectionAction}
    (read : readLoop conn allParsed reads = .ok (commands, action, after))
    : after = { conn with parser := after.parser } := by
  induction reads generalizing conn allParsed with
  | nil =>
      obtain ⟨-, same⟩ := Prod.mk.inj (Except.ok.inj read)
      obtain ⟨-, rfl⟩ := Prod.mk.inj same
      rfl
  | cons outcome reads ih =>
      cases outcome with
      | wouldBlock =>
          obtain ⟨-, same⟩ := Prod.mk.inj (Except.ok.inj read)
          obtain ⟨-, rfl⟩ := Prod.mk.inj same
          rfl
      | interrupted => exact ih read
      | failed error => cases read
      | data bytes =>
          cases bytes with
          | nil =>
              obtain ⟨-, same⟩ := Prod.mk.inj (Except.ok.inj read)
              obtain ⟨-, rfl⟩ := Prod.mk.inj same
              rfl
          | cons byte bytes =>
              rw [readLoop] at read
              cases fed : conn.parser.feed (byte :: bytes) with
              | error error =>
                  rw [fed] at read
                  cases read
              | ok found =>
                  obtain ⟨parsed, fedAction, parser⟩ := found
                  rw [fed] at read
                  cases fedAction with
                  | close =>
                      obtain ⟨-, same⟩ := Prod.mk.inj (Except.ok.inj read)
                      obtain ⟨-, rfl⟩ := Prod.mk.inj same
                      rfl
                  | «continue» =>
                      have tail : readLoop { conn with parser := parser }
                          (allParsed ++ parsed) reads
                        = .ok (commands, action, after) := read
                      have same := ih tail
                      exact same

section Events

variable (respond : Nat → Command → Bytes)

/-- The readable part appends the responses to what is pending. -/
theorem serveReadable_spec {conn : Connection} (sound : conn.Sound) (turn : Nat)
    (event : Event)
    : (conn.serveReadable respond turn event).1.Sound
      ∧ (conn.serveReadable respond turn event).1.pending
        = conn.pending
          ++ responsesFrom respond turn (conn.serveReadable respond turn event).2.1 := by
  have dispatching (parser : FrameParser) (commands : List Command) (closing : Bool)
      : let after : Connection :=
          {
            parser := parser
            writeBuf := conn.writeBuf ++ responsesFrom respond turn commands
            writeOffset := conn.writeOffset
            pendingClose := closing
          }
        after.Sound
        ∧ after.pending = conn.pending ++ responsesFrom respond turn commands := by
    refine ⟨?_, List.drop_append_of_le_length sound⟩
    unfold Sound at sound ⊢
    rw [List.length_append]
    exact Nat.le_add_right_of_le sound
  unfold serveReadable
  split
  · cases read : conn.onReadable event.reads with
    | error error => exact ⟨sound, (List.append_nil _).symm⟩
    | ok found =>
        obtain ⟨commands, action, after⟩ := found
        have same := readLoop_keeps read
        cases action <;> dsimp only <;> rw [dispatchAll_eq, same] <;> exact dispatching _ _ _
  · exact ⟨sound, (List.append_nil _).symm⟩

/-- The drain attempt takes from the front of what is pending. -/
theorem serveWritable_spec {conn : Connection} (sound : conn.Sound) (hardClose : Bool)
    (event : Event)
    : (conn.serveWritable hardClose event).2.1.flatten <+: conn.pending
      ∧ ((conn.serveWritable hardClose event).2.2 = false
        → (conn.serveWritable hardClose event).1.Sound
          ∧ (conn.serveWritable hardClose event).2.1.flatten
              ++ (conn.serveWritable hardClose event).1.pending
            = conn.pending) := by
  unfold serveWritable
  split
  · have moves := onWritable_moves sound event.writes
    cases written : conn.onWritable event.writes with
    | mk sent outcome =>
        rw [written] at moves
        cases outcome with
        | error error => exact ⟨moves, fun soft => by cases soft⟩
        | ok after =>
            obtain ⟨same, sound, -⟩ := moves
            exact ⟨⟨_, same⟩, fun _ => ⟨sound, same⟩⟩
  · exact ⟨List.nil_prefix, fun _ => ⟨sound, rfl⟩⟩

end Events

/-- A connection is kept with an interest that lets what is pending be sent, and a closing
one only as long as something is.
-/
theorem settle_kept {conn after : Connection} {interest : Interest} {hardClose : Bool}
    {event : Event} (kept : conn.settle hardClose event = .kept after interest)
    : after = conn
      ∧ (conn.pending ≠ [] → interest ≠ .readable)
      ∧ (conn.pendingClose = true → conn.pending ≠ [] ∧ interest = .writable) := by
  have empty : conn.hasPendingWrites = false ↔ conn.pending = [] := hasPendingWrites_eq_false
  unfold settle at kept
  split at kept
  · cases kept
  · rename_i going
    split at kept
    · obtain ⟨rfl, rfl⟩ := Status.kept.inj kept
      cases closing : conn.pendingClose <;> cases writes : conn.hasPendingWrites <;>
        simp_all [Connection.interest]
    · cases kept

end Connection

-----------------------------------------------------------------------------------------
-- Runs
-----------------------------------------------------------------------------------------

section Runs

variable (respond : Nat → Command → Bytes)

theorem responsesFrom_append (turn : Nat) (front back : List Command)
    : responsesFrom respond turn (front ++ back)
      = responsesFrom respond turn front
        ++ responsesFrom respond (turn + front.length) back := by
  induction front generalizing turn with
  | nil => rfl
  | cons command front ih =>
      simp only [List.cons_append, responsesFrom, ih, List.append_assoc, List.length_cons]
      congr 3
      omega

theorem responses_append (front back : List Command)
    : responses respond (front ++ back)
      = responses respond front ++ responsesFrom respond front.length back := by
  rw [responses, responsesFrom_append, Nat.zero_add]
  rfl

/-- What was accepted and what is pending are the responses so far. -/
def Session.Delivering (session : Session) : Prop :=
  match session.status with
  | .kept conn _ =>
      conn.Sound
      ∧ session.sent.flatten ++ conn.pending = responses respond session.dispatched
  | .dropped true => session.sent.flatten <+: responses respond session.dispatched
  | .dropped false => session.sent.flatten = responses respond session.dispatched

theorem delivering_new : Session.new.Delivering respond :=
  ⟨Nat.le_refl _, rfl⟩

/-- An event keeps the order of the responses and loses none. -/
theorem Session.Delivering.onEvent {session : Session} (delivering : session.Delivering respond)
    {event : Event} (registers : event.reregisters = true)
    : (session.onEvent respond event).Delivering respond := by
  unfold Session.onEvent
  cases status : session.status with
  | dropped failed => exact delivering
  | kept conn interest =>
      unfold Session.Delivering at delivering
      rw [status] at delivering
      obtain ⟨sound, same⟩ := delivering
      have read := Connection.serveReadable_spec respond sound session.dispatched.length event
      cases served : conn.serveReadable respond session.dispatched.length event with
      | mk answered rest =>
          obtain ⟨commands, readFailed⟩ := rest
          rw [served] at read
          obtain ⟨answeredSound, answers⟩ := read
          have wrote := Connection.serveWritable_spec answeredSound readFailed event
          cases drained : answered.serveWritable readFailed event with
          | mk after rest =>
              obtain ⟨sent, hardClose⟩ := rest
              rw [drained] at wrote
              obtain ⟨accepted, soft⟩ := wrote
              have expected : session.sent.flatten ++ answered.pending
                  = responses respond (session.dispatched ++ commands) := by
                rw [responses_append, answers, ← List.append_assoc, same]
              simp only [served, drained, Session.Delivering, List.flatten_append, ← expected]
              cases hardClose with
              | true =>
                  simp only [Connection.settle, Bool.true_or, if_true]
                  exact (List.prefix_append_right_inj _).mpr accepted
              | false =>
                  obtain ⟨afterSound, moved⟩ := soft rfl
                  dsimp only at afterSound moved
                  simp only [Connection.settle, Bool.false_or, registers, if_true, ← moved]
                  by_cases closing : (after.pendingClose && !after.hasPendingWrites) = true
                  · have empty : after.pending = [] := by
                      rw [← Connection.hasPendingWrites_eq_false]
                      simpa using (Bool.and_eq_true_iff.mp closing).2
                    simp only [closing, if_true, empty, List.append_nil]
                  · simp only [closing, Bool.false_eq_true, if_false, List.append_assoc]
                    exact ⟨afterSound, trivial⟩

theorem Session.delivering_run {events : List Event}
    (registers : ∀ event ∈ events, event.reregisters = true)
    : (Session.run respond events).Delivering respond := by
  have kept (session : Session) (delivering : session.Delivering respond)
      : (events.foldl (Session.onEvent respond) session).Delivering respond := by
    induction events generalizing session with
    | nil => exact delivering
    | cons event events ih =>
        exact ih (fun later member => registers later (List.mem_cons_of_mem _ member)) _
          (delivering.onEvent respond (registers event (by simp)))
  exact kept .new (delivering_new respond)

/-- At every moment the bytes accepted by the socket are a prefix of the responses to the
commands so far, in their order, and a connection dropped without an I/O error has had all
of them.
-/
theorem responses_delivered (events : List Event)
    (registers : ∀ event ∈ events, event.reregisters = true)
    : (∀ moment,
        ((Session.run respond events).sent.take moment).flatten
          <+: responses respond (Session.run respond events).dispatched)
      ∧ ((Session.run respond events).status = .dropped false
        → (Session.run respond events).sent.flatten
          = responses respond (Session.run respond events).dispatched) := by
  have delivering := Session.delivering_run respond registers
  generalize Session.run respond events = session at delivering ⊢
  have accepted : session.sent.flatten <+: responses respond session.dispatched := by
    unfold Session.Delivering at delivering
    split at delivering
    · exact ⟨_, delivering.2⟩
    · exact delivering
    · exact delivering ▸ List.prefix_rfl
  constructor
  · intro moment
    have front := List.take_append_drop moment session.sent
    refine List.IsPrefix.trans ?_ accepted
    nth_rewrite 2 [← front]
    rw [List.flatten_append]
    exact List.prefix_append _ _
  · intro closed
    simpa only [Session.Delivering, closed] using delivering

end Runs

/-- A response is accepted in part before the stream ends, and then the rest of it. -/
def partialWrites : List Event :=
  [
    {
      readable := true
      reads := [.data pingFrame]
      writes := [.interrupted, .wrote 2, .wrote 0]
      reregisters := true
    },
    { readable := true, reads := [.data []], writes := [.wrote 5], reregisters := true }
  ]

/-- Witness: all three bytes of the response arrive. -/
theorem responses_delivered_partial
    : (Session.run (fun _ _ => [7, 8, 9]) partialWrites).sent.flatten = [7, 8, 9] := by
  have delivered := responses_delivered (fun _ _ => [7, 8, 9]) partialWrites
    (by simp [partialWrites])
  exact delivered.2 rfl

end Rustikv.Server

import Mathlib.Data.List.TakeWhile
import Rustikv.Server.EventLoop

/-! What each of many connections gets from a worker: its own responses, in the order of its
requests, whatever happens on the others.
-/

namespace Rustikv.Server

open Library

-----------------------------------------------------------------------------------------
-- A call that reads until it stops
-----------------------------------------------------------------------------------------

namespace Connection

theorem delivers_iff (read : ReadOutcome) : read.delivers = true ↔ read.Delivers := by
  cases read with
  | data bytes => simp [ReadOutcome.delivers, ReadOutcome.Delivers]
  | _ => simp [ReadOutcome.delivers, ReadOutcome.Delivers]

/-- The loop goes on behind reads that neither fail nor close. -/
theorem readLoop_append {conn : Connection} (allParsed : List Command)
    {front : List ReadOutcome} (delivers : ∀ read ∈ front, read.Delivers)
    (back : List ReadOutcome)
    : readLoop conn allParsed (front ++ back)
      = match readLoop conn allParsed front with
        | .error error => .error error
        | .ok (commands, .close, after) => .ok (commands, .close, after)
        | .ok (commands, .continue, after) => readLoop after commands back := by
  induction front generalizing conn allParsed with
  | nil => rfl
  | cons read front ih =>
      obtain ⟨first, others⟩ := List.forall_mem_cons.mp delivers
      cases read with
      | wouldBlock => exact absurd first id
      | failed error => exact absurd first id
      | interrupted => exact ih allParsed others
      | data bytes =>
          cases bytes with
          | nil => exact absurd rfl first
          | cons byte bytes =>
              rw [List.cons_append, readLoop, readLoop]
              cases conn.parser.feed (byte :: bytes) with
              | error error => rfl
              | ok fed =>
                  obtain ⟨parsed, action, parser⟩ := fed
                  cases action with
                  | close => rfl
                  | «continue» => exact ih (allParsed ++ parsed) others

/-- A call that returns commands has parsed what it read, and a call that does not close
leaves the rest to the next one.
-/
theorem onReadable_spec {conn after : Connection} (idle : conn.Idle)
    {reads : List ReadOutcome} {commands : List Command} {action : ConnectionAction}
    (read : conn.onReadable reads = .ok (commands, action, after))
    : ∃ stopped rest,
        requestParser.parse (conn.parser.buf ++ bytesRead reads)
          = .ok (commands, stopped, rest)
        ∧ (action = .continue → stopped = false ∧ after = conn.leave rest) := by
  let front := reads.takeWhile ReadOutcome.delivers
  let back := reads.dropWhile ReadOutcome.delivers
  have delivers : ∀ read ∈ front, read.Delivers :=
    fun read member => (delivers_iff read).mp (List.mem_takeWhile_imp member)
  have found := onReadable_reads idle delivers
  have parts : reads = front ++ back := List.takeWhile_append_dropWhile.symm
  rw [onReadable, parts, readLoop_append [] delivers] at read
  change Reads conn [] (readLoop conn [] front) (requestParser.parse _) at found
  change ∃ stopped rest, requestParser.parse (conn.parser.buf ++ bytesOf front) = _ ∧ _
  cases parsed : requestParser.parse (conn.parser.buf ++ bytesOf front) with
  | error error =>
      rw [parsed] at found
      change readLoop conn [] front = .error error at found
      rw [found] at read
      cases read
  | ok drained =>
      obtain ⟨returned, stopped, rest⟩ := drained
      rw [parsed] at found
      cases stopped with
      | true =>
          obtain ⟨closed, found⟩ := found
          rw [found] at read
          obtain ⟨rfl, rfl, rfl⟩
              : returned = commands ∧ .close = action ∧ closed = after := by
            simpa using read
          exact ⟨true, rest, rfl, fun open? => by cases open?⟩
      | false =>
          change readLoop conn [] front = .ok ([] ++ returned, .continue, _) at found
          rw [found] at read
          have stops (read : ReadOutcome) (first : back.head? = some read)
              : read.delivers = false := by
            have found := List.head?_dropWhile_not ReadOutcome.delivers reads
            rw [first] at found
            exact found
          have ended : returned = commands ∧ conn.leave rest = after := by
            generalize back = back at read stops
            cases back with
            | nil =>
                have same : returned = commands ∧ .continue = action
                    ∧ conn.leave rest = after := by
                  simpa [readLoop] using read
                exact ⟨same.1, same.2.2⟩
            | cons stop later =>
                have stops := stops stop rfl
                cases stop with
                | interrupted => cases stops
                | wouldBlock =>
                    have same : returned = commands ∧ .continue = action
                        ∧ conn.leave rest = after := by
                      simpa [readLoop] using read
                    exact ⟨same.1, same.2.2⟩
                | failed error => cases read
                | data bytes =>
                    cases bytes with
                    | nil =>
                        have same : returned = commands ∧ .close = action
                            ∧ conn.leave rest = after := by
                          simpa [readLoop] using read
                        exact ⟨same.1, same.2.2⟩
                    | cons byte bytes => cases stops
          obtain ⟨rfl, rfl⟩ := ended
          exact ⟨false, rest, rfl, fun _ => ⟨rfl, rfl⟩⟩

/-- Writing changes nothing but the buffer. Witness: induction over the writes. -/
theorem onWritable_keeps {conn after : Connection} {writes : List WriteOutcome}
    (wrote : (conn.onWritable writes).2 = .ok after)
    : after.parser = conn.parser ∧ after.pendingClose = conn.pendingClose := by
  induction writes generalizing conn with
  | nil =>
      unfold onWritable at wrote
      split at wrote <;> obtain rfl := Except.ok.inj wrote <;> exact ⟨rfl, rfl⟩
  | cons write writes ih =>
      unfold onWritable at wrote
      split at wrote
      · obtain rfl := Except.ok.inj wrote
        exact ⟨rfl, rfl⟩
      · cases write with
        | wouldBlock =>
            obtain rfl := Except.ok.inj wrote
            exact ⟨rfl, rfl⟩
        | failed error => cases wrote
        | interrupted => exact ih wrote
        | wrote count =>
            cases count with
            | zero =>
                obtain rfl := Except.ok.inj wrote
                exact ⟨rfl, rfl⟩
            | succ count => exact (ih wrote :)

theorem serveWritable_keeps {conn : Connection} {hardClose : Bool} {event : Event}
    (soft : (conn.serveWritable hardClose event).2.2 = false)
    : hardClose = false
      ∧ (conn.serveWritable hardClose event).1.parser = conn.parser
      ∧ (conn.serveWritable hardClose event).1.pendingClose = conn.pendingClose := by
  unfold serveWritable at soft ⊢
  cases hardClose with
  | true => simp at soft
  | false =>
      split
      · rename_i writes
        rw [if_pos writes] at soft
        cases wrote : conn.onWritable event.writes with
        | mk sent outcome =>
            rw [wrote] at soft
            cases outcome with
            | error error => cases soft
            | ok after => exact ⟨rfl, onWritable_keeps (congrArg Prod.snd wrote)⟩
      · exact ⟨rfl, rfl, rfl⟩

end Connection

-----------------------------------------------------------------------------------------
-- One connection
-----------------------------------------------------------------------------------------

def Past.commands (past : Past) : List Command :=
  past.answered.map Prod.fst

def Past.responses (past : Past) : Bytes :=
  (past.answered.map Prod.snd).flatten

/-- The commands are the first ones in these bytes. -/
def Understood (heard : Bytes) (commands : List Command) : Prop :=
  ∃ front stopped left,
    front <+: heard ∧ requestParser.parse front = .ok (commands, stopped, left)

/-- The commands are all that these bytes hold, as long as the connection is open. -/
structure Follows (heard : Bytes) (commands : List Command) (conn : Connection)
    (hardClose : Bool)
    : Prop where
  understood : Understood heard commands
  complete
    : conn.pendingClose = false
      → hardClose = false
      → conn.Idle ∧ requestParser.parse heard = .ok (commands, false, conn.parser.buf)

/-- What the socket has accepted and what is pending are the responses, and the connection
has not ended.
-/
structure Owes (past : Past) (conn : Connection) : Prop where
  sound : conn.Sound
  going : past.ending = none
  responses : past.sent ++ conn.pending = past.responses

/-- A connection gets its own responses in order. -/
def Client.Faithful (client : Client) : Prop :=
  match client.place with
  | .absent =>
      Understood client.past.heard client.past.commands
      ∧ client.past.sent <+: client.past.responses
      ∧ (client.past.ending = some .drained → client.past.sent = client.past.responses)
  | .kept entry =>
      Follows client.past.heard client.past.commands entry.conn false
      ∧ Owes client.past entry.conn
      ∧ (entry.conn.pending ≠ [] → entry.interest ≠ .readable)
  | .handled handling =>
      Follows client.past.heard (client.past.commands ++ handling.commands) handling.conn
        handling.hardClose
      ∧ Owes client.past handling.entry.conn

/-- Only the parser matters, and whether the connection closes. -/
theorem Follows.of_same {heard : Bytes} {commands : List Command} {conn after : Connection}
    {hardClose : Bool} (follows : Follows heard commands conn hardClose)
    (parser : after.parser = conn.parser) (closing : after.pendingClose = conn.pendingClose)
    : Follows heard commands after hardClose := by
  refine ⟨follows.understood, fun going soft => ?_⟩
  obtain ⟨idle, parsed⟩ := follows.complete (closing ▸ going) soft
  refine ⟨⟨?_, ?_⟩, ?_⟩
  · rw [parser]
    exact idle.parser
  · rw [parser]
    exact idle.next
  · rw [parser]
    exact parsed

theorem Understood.extend {heard : Bytes} {commands : List Command}
    (understood : Understood heard commands) (more : Bytes)
    : Understood (heard ++ more) commands := by
  obtain ⟨front, stopped, left, within, parsed⟩ := understood
  exact ⟨front, stopped, left, within.trans (List.prefix_append _ _), parsed⟩

/-- Reading on from where the parser stands. -/
theorem parse_heard {heard rest more left : Bytes} {commands found : List Command}
    {stopped : Bool} (parsed : requestParser.parse heard = .ok (commands, false, rest))
    (next : requestParser.parse (rest ++ more) = .ok (found, stopped, left))
    : requestParser.parse (heard ++ more) = .ok (commands ++ found, stopped, left) := by
  rw [requestParser.parse_append, parsed]
  change requestParser.continueWith (commands, false, rest) more = _
  unfold StreamParser.continueWith
  rw [if_neg (by simp), next]
  rfl

/-- The readable part of an event understands the bytes it reads. -/
theorem Follows.begin {heard : Bytes} {commands : List Command} {entry : Entry}
    (follows : Follows heard commands entry.conn false) (token : Nat) (event : Event)
    (nowMs : Nat)
    : Follows (heard ++ if entry.reads event then bytesRead event.reads else [])
        (commands ++ (entry.begin token event nowMs).commands)
        (entry.begin token event nowMs).conn
        (entry.begin token event nowMs).hardClose := by
  unfold Entry.begin
  split
  · rename_i reads
    have started : entry.conn.pendingClose = false := by
      simpa using (Bool.and_eq_true_iff.mp reads).2
    obtain ⟨idle, parsed⟩ := follows.complete started rfl
    dsimp only
    cases read : entry.conn.onReadable event.reads with
    | error error =>
        dsimp only
        rw [List.append_nil]
        exact ⟨follows.understood.extend _, fun _ soft => by cases soft⟩
    | ok returned =>
        obtain ⟨found, action, after⟩ := returned
        obtain ⟨stopped, rest, next, goesOn⟩ := Connection.onReadable_spec idle read
        have together := parse_heard parsed next
        refine ⟨⟨_, stopped, rest, List.prefix_rfl, together⟩, fun going _ => ?_⟩
        cases action with
        | close => cases going
        | «continue» =>
            obtain ⟨rfl, rfl⟩ := goesOn rfl
            exact ⟨Connection.idle_leave _ next, together⟩
  · simpa [Handling.conn] using follows

/-- Reading leaves what is to be sent alone. -/
theorem Owes.begin {past : Past} {entry : Entry} (owes : Owes past entry.conn) (token : Nat)
    (event : Event) (nowMs : Nat) (heard : Bytes)
    : Owes { past with heard } (entry.begin token event nowMs).entry.conn := by
  unfold Entry.begin
  split
  · dsimp only
    cases read : entry.conn.onReadable event.reads with
    | error error => exact ⟨owes.sound, owes.going, owes.responses⟩
    | ok returned =>
        obtain ⟨found, action, after⟩ := returned
        have same := Connection.readLoop_keeps read
        dsimp only
        rw [same]
        exact ⟨owes.sound, owes.going, owes.responses⟩
  · exact ⟨owes.sound, owes.going, owes.responses⟩

theorem Owes.enqueue {past : Past} {conn : Connection} (owes : Owes past conn)
    (command : Command) (response : Bytes)
    : Owes { past with answered := past.answered ++ [(command, response)] }
        (conn.enqueueResponse response) := by
  refine ⟨?_, owes.going, ?_⟩
  · have sound := owes.sound
    simp only [Connection.Sound, Connection.enqueueResponse, List.length_append] at sound ⊢
    omega
  · have more : (conn.enqueueResponse response).pending = conn.pending ++ response :=
      List.drop_append_of_le_length owes.sound
    rw [more, ← List.append_assoc, owes.responses]
    simp [Past.responses]

theorem Handling.conn_enqueue (handling : Handling) (commands : List Command)
    (response : Bytes)
    : (handling.enqueue commands response).conn
      = handling.conn.enqueueResponse response := by
  cases closes : handling.closes <;>
    simp [Handling.conn, Handling.enqueue, Connection.enqueueResponse, closes]

/-- Closing later or not, the connection owes the same. -/
theorem Owes.closing {past : Past} {handling : Handling}
    (owes : Owes past handling.entry.conn)
    : Owes past handling.conn := by
  unfold Handling.conn
  split
  · exact ⟨owes.sound, owes.going, owes.responses⟩
  · exact owes

/-- The end of an event sends from the front of what is pending, and drops the connection
only in a way that its past tells.
-/
theorem Client.Faithful.finish {handling : Handling} {past : Past}
    (faithful : Client.Faithful { place := .handled handling, past })
    (done : handling.commands = [])
    : (Client.finish handling past).Faithful := by
  obtain ⟨follows, owing⟩ := faithful
  have owes := owing.closing
  rw [done, List.append_nil] at follows
  have wrote := Connection.serveWritable_spec owes.sound handling.hardClose handling.event
  have keeps :=
    @Connection.serveWritable_keeps handling.conn handling.hardClose handling.event
  unfold Client.finish
  generalize handling.conn.serveWritable handling.hardClose handling.event = served
    at wrote keeps ⊢
  obtain ⟨conn, sent, hardClose⟩ := served
  obtain ⟨accepted, soft⟩ := wrote
  dsimp only at accepted soft keeps ⊢
  have within : past.sent ++ sent.flatten <+: past.responses := by
    rw [← owes.responses]
    exact (List.prefix_append_right_inj _).mpr accepted
  cases settled : conn.settle hardClose handling.event with
  | kept after interest =>
      obtain ⟨rfl, registered, -⟩ := Connection.settle_kept settled
      cases hardClose with
      | true => simp [Connection.settle] at settled
      | false =>
          obtain ⟨sound, moved⟩ := soft rfl
          obtain ⟨before, parser, closing⟩ := keeps rfl
          rw [before] at follows
          refine ⟨follows.of_same parser closing, ⟨sound, owes.going, ?_⟩, registered⟩
          change (past.sent ++ sent.flatten) ++ after.pending = past.responses
          rw [List.append_assoc, moved]
          exact owes.responses
  | dropped failed =>
      refine ⟨follows.understood, within, fun drained => ?_⟩
      have drained := Option.some.inj drained
      unfold Connection.ending at drained
      cases hardClose with
      | true => cases drained
      | false =>
          obtain ⟨-, moved⟩ := soft rfl
          by_cases empty : (conn.pendingClose && !conn.hasPendingWrites) = true
          · have nothing : conn.pending = [] := by
              rw [← Connection.hasPendingWrites_eq_false]
              simpa using (Bool.and_eq_true_iff.mp empty).2
            rw [nothing, List.append_nil] at moved
            change past.sent ++ sent.flatten = past.responses
            rw [moved]
            exact owes.responses
          · simp [empty] at drained

theorem ClientStep.faithful {token : Nat} {client next : Client}
    (step : ClientStep token client next) (faithful : client.Faithful)
    : next.Faithful := by
  cases step with
  | register stream nowMs =>
      refine ⟨⟨⟨[], false, [], List.nil_prefix, rfl⟩, fun _ _ => ⟨Connection.idle_new, rfl⟩⟩,
        ⟨Nat.le_refl _, rfl, rfl⟩, fun pending => absurd rfl pending⟩
  | event entry past event nowMs =>
      obtain ⟨follows, owes, -⟩ := faithful
      exact ⟨follows.begin token event nowMs, owes.begin token event nowMs _⟩
  | answer past next response =>
      rename_i handling command commands
      obtain ⟨follows, owes⟩ := faithful
      rw [next] at follows
      refine ⟨?_, owes.enqueue command response⟩
      have same : past.commands ++ command :: commands
          = ({
              past with
              answered := past.answered ++ [(command, response)]
            } : Past).commands ++ commands := by
        simp [Past.commands]
      dsimp only at follows ⊢
      rw [same] at follows
      rw [Handling.conn_enqueue]
      exact follows.of_same rfl rfl
  | finish past done => exact faithful.finish done
  | sweep entry past =>
      obtain ⟨follows, owes, -⟩ := faithful
      refine ⟨follows.understood, ?_, fun swept => by cases swept⟩
      exact ⟨entry.conn.pending, owes.responses⟩

-----------------------------------------------------------------------------------------
-- All connections of a worker
-----------------------------------------------------------------------------------------

theorem Client.Faithful.advance {token : Nat} {client next : Client}
    (faithful : client.Faithful)
    (steps : Relation.ReflTransGen (ClientStep token) client next)
    : next.Faithful := by
  induction steps with
  | refl => exact faithful
  | tail _ step ih => exact step.faithful ih

/-- The commands answered are the first ones of those heard. -/
theorem Client.Faithful.understood {client : Client} (faithful : client.Faithful)
    : ∃ waiting, Understood client.past.heard (client.past.commands ++ waiting) := by
  unfold Client.Faithful at faithful
  split at faithful
  · exact ⟨[], by simpa using faithful.1⟩
  · exact ⟨[], by simpa using faithful.1.understood⟩
  · exact ⟨_, faithful.1.understood⟩

theorem Client.Faithful.within {client : Client} (faithful : client.Faithful)
    : client.past.sent <+: client.past.responses := by
  unfold Client.Faithful at faithful
  split at faithful
  · exact faithful.2.1
  · exact ⟨_, faithful.2.1.responses⟩
  · exact ⟨_, faithful.2.responses⟩

theorem faithful_new (readTimeout : Option Nat) (token : Nat)
    : ((EventLoop.new readTimeout).client token).Faithful :=
  ⟨⟨[], false, [], List.prefix_rfl, rfl⟩, List.prefix_rfl, fun none => by cases none⟩

/-- In every run of a worker, whatever happens on its other connections: a client's commands
are dispatched in the order of its bytes, and what it is sent are the responses to them, up
to some point. They are complete when its connection was closed in good order. An open
connection has had all its requests dispatched and is registered for what is still to be
sent.
-/
theorem clients_followed (readTimeout : Option Nat) (actions : List LoopAction)
    (last : EventLoop) (run : (EventLoop.new readTimeout).execute actions = some last)
    (token : Nat)
    : (∃ waiting, Understood (last.past token).heard ((last.past token).commands ++ waiting))
      ∧ (last.past token).sent <+: (last.past token).responses
      ∧ ((last.past token).ending = some .drained
        → last.place token = .absent
          ∧ (last.past token).sent = (last.past token).responses)
      ∧ ∀ entry,
          last.place token = .kept entry
          → (last.past token).sent ++ entry.conn.pending = (last.past token).responses
            ∧ (entry.conn.pending ≠ [] → entry.interest ≠ .readable)
            ∧ (entry.conn.pendingClose = false
              → ∃ rest,
                  requestParser.parse (last.past token).heard
                  = .ok ((last.past token).commands, false, rest)) := by
  have advances := EventLoop.execute_advances (EventLoop.tidy_new readTimeout) run
  have faithful := (faithful_new readTimeout token).advance (advances.clients token)
  refine ⟨faithful.understood, faithful.within, ?_⟩
  unfold Client.Faithful EventLoop.client at faithful
  dsimp only at faithful
  cases place : last.place token with
  | absent =>
      rw [place] at faithful
      exact ⟨fun ended => ⟨rfl, faithful.2.2 ended⟩, fun entry other => by cases other⟩
  | kept entry =>
      rw [place] at faithful
      obtain ⟨follows, owes, registered⟩ := faithful
      refine ⟨fun ended => ?_, ?_⟩
      · cases owes.going.symm.trans ended
      · rintro _ ⟨rfl⟩
        exact ⟨owes.responses, registered, fun going => ⟨_, (follows.complete going rfl).2⟩⟩
  | handled handling =>
      rw [place] at faithful
      refine ⟨fun ended => ?_, fun entry other => by cases other⟩
      cases faithful.2.going.symm.trans ended

/-- Two clients; one is answered piece by piece around a request of the other, and then ends
its stream.
-/
def twoClients : List LoopAction :=
  let event (bytes : Bytes) (writes : List WriteOutcome) : Event :=
    { readable := true, reads := [.data bytes], writes, reregisters := true }
  [
    .hand 7, .hand 8, .wake [],
    .event 0 (event pingFrame [.wrote 2]), .answer [1, 2, 3], .finish,
    .event 1 (event pingFrame [.wrote 3]), .answer [4, 5, 6], .finish, .tick 50,
    .event 0 (event [] [.wrote 1]), .finish
  ]

/-- Witness: the first client has had its response when its connection is gone. -/
theorem clients_followed_two
    : ∃ last,
        (EventLoop.new none).execute twoClients = some last
        ∧ (last.past 0).ending = some .drained
        ∧ (last.past 0).sent = [1, 2, 3]
        ∧ (last.past 1).responses = [4, 5, 6] := by
  have ran : ((EventLoop.new none).execute twoClients).any (fun last =>
      decide ((last.past 0).ending = some .drained)
        && decide ((last.past 0).responses = [1, 2, 3])
        && decide ((last.past 1).responses = [4, 5, 6])) := by
    decide +kernel
  obtain ⟨last, run, facts⟩ := (Option.any_eq_true _ _).mp ran
  simp only [Bool.and_eq_true, decide_eq_true_eq] at facts
  obtain ⟨⟨drained, responses⟩, other⟩ := facts
  obtain ⟨-, -, ended, -⟩ := clients_followed none twoClients last run 0
  exact ⟨last, run, drained, (ended drained).2.trans responses, other⟩

end Rustikv.Server

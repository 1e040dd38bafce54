import Mathlib.Logic.Relation
import Rustikv.Library.SortedMap
import Rustikv.Server.WorkerHandler

/-! A worker with many connections. Its event loop handles one event at a time, and what it
does for one connection leaves the others alone.
-/

namespace Rustikv.Server

open Library

-----------------------------------------------------------------------------------------
-- The handler of a worker
-----------------------------------------------------------------------------------------

def sweepInterval : Nat := 100

/-- A connection with its stream and the interest it is registered for. -/
structure Entry where
  stream : Nat
  conn : Connection
  interest : Interest
  lastActivity : Nat
  deriving DecidableEq, Repr

structure WorkerHandler where
  incoming : List Nat
  conns : SortedMap Nat Entry
  nextToken : Nat
  readTimeout : Option Nat
  sweepTimer : Option Nat

/-- The timers that the event loop has still to fire, with the times they are due at. -/
structure Registry where
  timers : List (Nat × Nat)
  nextTimer : Nat

/-- An event that is being handled: the connection is out of the map, and its commands are
dispatched one after the other.
-/
structure Handling where
  token : Nat
  entry : Entry
  commands : List Command
  closes : Bool
  hardClose : Bool
  event : Event

/-- How the handler came to drop a connection. -/
inductive Ending
  | failed
  | drained
  | notReregistered
  | swept
  deriving DecidableEq, Repr

/-- What has happened on a connection so far. -/
structure Past where
  heard : Bytes
  answered : List (Command × Bytes)
  sent : Bytes
  ending : Option Ending
  deriving DecidableEq

/-- A worker's event loop, with the time its clock shows. -/
structure EventLoop where
  handler : WorkerHandler
  registry : Registry
  handling : Option Handling
  nowMs : Nat
  past : Nat → Past

inductive LoopAction
  | tick (laterMs : Nat)
  | hand (stream : Nat)
  | wake (registers : List Bool)
  | timer (timerId : Nat)
  | event (token : Nat) (event : Event)
  | answer (response : Bytes)
  | finish

def Entry.new (stream nowMs : Nat) : Entry :=
  { stream, conn := .new, interest := .readable, lastActivity := nowMs }

def Past.new : Past :=
  { heard := [], answered := [], sent := [], ending := none }

/-- A call of `on_readable` reads up to here. -/
def ReadOutcome.delivers : ReadOutcome → Bool
  | .data bytes => !bytes.isEmpty
  | .interrupted => true
  | _ => false

/-- The bytes that a call of `on_readable` finds on the stream. -/
def bytesRead (reads : List ReadOutcome) : Bytes :=
  bytesOf (reads.takeWhile ReadOutcome.delivers)

/-- Every read of some bytes is an activity. -/
def Entry.activityAfter (entry : Entry) (reads : List ReadOutcome) (nowMs : Nat) : Nat :=
  if bytesRead reads = [] then entry.lastActivity else nowMs

/-- An event will read from the stream. -/
def Entry.reads (entry : Entry) (event : Event) : Bool :=
  event.readable && !entry.conn.pendingClose

/-- The readable part of an event, up to its commands. -/
def Entry.begin (entry : Entry) (token : Nat) (event : Event) (nowMs : Nat) : Handling :=
  let waiting : Handling :=
    { token, entry, commands := [], closes := false, hardClose := false, event }
  if entry.reads event then
    let entry := { entry with lastActivity := entry.activityAfter event.reads nowMs }
    match entry.conn.onReadable event.reads with
    | .ok (commands, action, conn) =>
        {
          waiting with
          entry := { entry with conn }
          commands
          closes := action matches .close
        }
    | .error _ => { waiting with entry, hardClose := true }
  else
    waiting

/-- The connection once all commands are dispatched. -/
def Handling.conn (handling : Handling) : Connection :=
  if handling.closes then { handling.entry.conn with pendingClose := true }
  else handling.entry.conn

def Handling.enqueue (handling : Handling) (commands : List Command) (response : Bytes)
    : Handling :=
  let conn := handling.entry.conn.enqueueResponse response
  { handling with entry := { handling.entry with conn }, commands }

/-- Why a connection was not kept. -/
def Connection.ending (conn : Connection) (hardClose : Bool) : Ending :=
  if hardClose then .failed
  else if conn.pendingClose && !conn.hasPendingWrites then .drained
  else .notReregistered

def Registry.insertTimer (registry : Registry) (deadline : Nat) : Registry :=
  {
    timers := registry.timers ++ [(registry.nextTimer, deadline)]
    nextTimer := registry.nextTimer + 1
  }

namespace EventLoop

def new (readTimeout : Option Nat) : EventLoop :=
  {
    handler := {
      incoming := []
      conns := ∅
      nextToken := 0
      readTimeout
      sweepTimer := none
    }
    registry := { timers := [], nextTimer := 0 }
    handling := none
    nowMs := 0
    past := fun _ => .new
  }

def setConns (loop : EventLoop) (conns : SortedMap Nat Entry) : EventLoop :=
  { loop with handler := { loop.handler with conns } }

def note (loop : EventLoop) (token : Nat) (change : Past → Past) : EventLoop :=
  { loop with past := Function.update loop.past token (change (loop.past token)) }

/-- `on_event` up to the commands it has read. An event for a token that is not in the map
is ignored.
-/
def onEvent (loop : EventLoop) (token : Nat) (event : Event) : EventLoop :=
  match loop.handler.conns[token]? with
  | none => loop
  | some entry =>
      let heard := if entry.reads event then bytesRead event.reads else []
      let taken := loop.setConns (loop.handler.conns.erase token)
      { taken with handling := some (entry.begin token event loop.nowMs) }.note token
        (fun past => { past with heard := past.heard ++ heard })

/-- The next command of the event is dispatched. -/
def answer (loop : EventLoop) (handling : Handling) (response : Bytes) : Option EventLoop :=
  match handling.commands with
  | [] => none
  | command :: commands =>
      some
        ({ loop with handling := some (handling.enqueue commands response) }.note
          handling.token
          (fun past => { past with answered := past.answered ++ [(command, response)] }))

/-- `on_event` after its commands. -/
def finish (loop : EventLoop) (handling : Handling) : EventLoop :=
  let (conn, sent, hardClose) :=
    handling.conn.serveWritable handling.hardClose handling.event
  let written := { loop with handling := none }.note handling.token
    (fun past => { past with sent := past.sent ++ sent.flatten })
  match conn.settle hardClose handling.event with
  | .kept conn interest =>
      let entry := { handling.entry with conn, interest }
      written.setConns (written.handler.conns.insert handling.token entry)
  | .dropped _ =>
      written.note handling.token
        (fun past => { past with ending := some (conn.ending hardClose) })

/-- A new sweep timer, if there is a timeout at all. -/
def startSweeping (loop : EventLoop) : EventLoop :=
  match loop.handler.readTimeout with
  | none => { loop with handler := { loop.handler with sweepTimer := none } }
  | some _ =>
      {
        loop with
        handler := { loop.handler with sweepTimer := some loop.registry.nextTimer }
        registry := loop.registry.insertTimer (loop.nowMs + sweepInterval)
      }

def sweep (loop : EventLoop) (token : Nat) : EventLoop :=
  match loop.handler.conns[token]? with
  | none => loop
  | some _ =>
      (loop.setConns (loop.handler.conns.erase token)).note token
        (fun past => { past with ending := some .swept })

/-- The connections that have been idle for longer than the timeout. -/
def stale (loop : EventLoop) (timeout : Nat) : List Nat :=
  (loop.handler.conns.toList.filter
    (fun item => timeout < loop.nowMs - item.2.lastActivity)).map Prod.fst

def onTimer (loop : EventLoop) (timerId : Nat) : EventLoop :=
  if some timerId ≠ loop.handler.sweepTimer then
    loop
  else
    let swept :=
      match loop.handler.readTimeout with
      | none => loop
      | some timeout => (loop.stale timeout).foldl sweep loop
    swept.startSweeping

/-- A stream received in `on_wake`. One that cannot be registered is dropped. -/
def register (loop : EventLoop) (stream : Nat) (registers : Bool) : EventLoop :=
  let token := loop.handler.nextToken
  let handler := { loop.handler with nextToken := token + 1 }
  if registers then
    let conns := handler.conns.insert token (.new stream loop.nowMs)
    { loop with handler := { handler with conns } }
  else
    { loop with handler }

def registerAll : List Nat → List Bool → EventLoop → EventLoop
  | [], _, loop => loop
  | stream :: streams, registers, loop =>
      registerAll streams registers.tail (loop.register stream (registers.headD true))

/-- `on_wake` takes all streams out of its channel. -/
def onWake (loop : EventLoop) (registers : List Bool) : EventLoop :=
  let started :=
    if loop.handler.sweepTimer.isNone && loop.handler.readTimeout.isSome then
      loop.startSweeping
    else
      loop
  let streams := started.handler.incoming
  registerAll streams registers
    { started with handler := { started.handler with incoming := [] } }

/-- The loop fires a timer that is due, once. -/
def fire (loop : EventLoop) (timerId : Nat) : Option EventLoop :=
  match loop.registry.timers.find? (fun timer => timer.1 = timerId) with
  | none => none
  | some timer =>
      if timer.2 ≤ loop.nowMs then
        let timers := loop.registry.timers.erase timer
        some ({ loop with registry := { loop.registry with timers } }.onTimer timerId)
      else
        none

/-- One event is handled at a time. -/
def step (loop : EventLoop) : LoopAction → Option EventLoop
  | .tick laterMs =>
      if loop.nowMs ≤ laterMs then some { loop with nowMs := laterMs } else none
  | .hand stream =>
      let incoming := loop.handler.incoming ++ [stream]
      some { loop with handler := { loop.handler with incoming } }
  | .wake registers => if loop.handling.isNone then some (loop.onWake registers) else none
  | .timer timerId => if loop.handling.isNone then loop.fire timerId else none
  | .event token event =>
      if loop.handling.isNone then some (loop.onEvent token event) else none
  | .answer response => do
      let handling ← loop.handling
      loop.answer handling response
  | .finish => do
      let handling ← loop.handling
      if handling.commands = [] then some (loop.finish handling) else none

def execute (loop : EventLoop) (actions : List LoopAction) : Option EventLoop :=
  actions.foldlM step loop

end EventLoop

-----------------------------------------------------------------------------------------
-- One connection of the loop
-----------------------------------------------------------------------------------------

/-- Where the handler has a connection. -/
inductive Place
  | absent
  | kept (entry : Entry)
  | handled (handling : Handling)

/-- A connection by itself. -/
structure Client where
  place : Place
  past : Past

def Place.ofEntry : Option Entry → Place
  | none => .absent
  | some entry => .kept entry

def EventLoop.place (loop : EventLoop) (token : Nat) : Place :=
  match loop.handling with
  | none => .ofEntry loop.handler.conns[token]?
  | some handling =>
      if handling.token = token then .handled handling
      else .ofEntry loop.handler.conns[token]?

def EventLoop.client (loop : EventLoop) (token : Nat) : Client :=
  { place := loop.place token, past := loop.past token }

/-- The end of an event, for its connection. -/
def Client.finish (handling : Handling) (past : Past) : Client :=
  let (conn, sent, hardClose) :=
    handling.conn.serveWritable handling.hardClose handling.event
  let past := { past with sent := past.sent ++ sent.flatten }
  match conn.settle hardClose handling.event with
  | .kept conn interest =>
      { place := .kept { handling.entry with conn, interest }, past }
  | .dropped _ =>
      { place := .absent, past := { past with ending := some (conn.ending hardClose) } }

/-- What can happen to one connection. -/
inductive ClientStep (token : Nat) : Client → Client → Prop
  | register (stream nowMs : Nat)
    : ClientStep token { place := .absent, past := .new }
        { place := .kept (.new stream nowMs), past := .new }
  | event (entry : Entry) (past : Past) (event : Event) (nowMs : Nat)
    : ClientStep token { place := .kept entry, past }
        {
          place := .handled (entry.begin token event nowMs)
          past := {
            past with
            heard := past.heard ++ if entry.reads event then bytesRead event.reads else []
          }
        }
  | answer {handling : Handling} {command : Command} {commands : List Command} (past : Past)
      (next : handling.commands = command :: commands) (response : Bytes)
    : ClientStep token { place := .handled handling, past }
        {
          place := .handled (handling.enqueue commands response)
          past := { past with answered := past.answered ++ [(command, response)] }
        }
  | finish {handling : Handling} (past : Past) (done : handling.commands = [])
    : ClientStep token { place := .handled handling, past } (.finish handling past)
  | sweep (entry : Entry) (past : Past)
    : ClientStep token { place := .kept entry, past }
        { place := .absent, past := { past with ending := some .swept } }

namespace EventLoop

/-- A token is given out once, and has one place. -/
structure Tidy (loop : EventLoop) : Prop where
  taken
    : ∀ handling,
        loop.handling = some handling
        → loop.handler.conns[handling.token]? = none
          ∧ handling.token < loop.handler.nextToken
  known
    : ∀ token entry,
        loop.handler.conns[token]? = some entry
        → token < loop.handler.nextToken
  silent : ∀ token, loop.handler.nextToken ≤ token → loop.past token = .new

/-- Every connection makes steps of its own. -/
structure Advances (loop next : EventLoop) : Prop where
  tidy : next.Tidy
  clients
    : ∀ token,
        Relation.ReflTransGen (ClientStep token) (loop.client token) (next.client token)

theorem Advances.trans {first second third : EventLoop} (front : first.Advances second)
    (back : second.Advances third)
    : first.Advances third :=
  ⟨back.tidy, fun token => (front.clients token).trans (back.clients token)⟩

/-- A change that concerns no connection. -/
theorem Tidy.advances {loop next : EventLoop} (tidy : loop.Tidy)
    (conns : next.handler.conns = loop.handler.conns)
    (nextToken : next.handler.nextToken = loop.handler.nextToken)
    (handling : next.handling = loop.handling) (past : next.past = loop.past)
    : loop.Advances next := by
  have same (token : Nat) : next.client token = loop.client token := by
    unfold client place
    rw [conns, handling, past]
  refine ⟨⟨?_, ?_, ?_⟩, fun token => ?_⟩
  · rw [conns, nextToken, handling]
    exact tidy.taken
  · rw [conns, nextToken]
    exact tidy.known
  · rw [nextToken, past]
    exact tidy.silent
  · rw [same]

theorem tidy_new (readTimeout : Option Nat) : (new readTimeout).Tidy :=
  ⟨fun _ none => (by cases none), fun _ _ none => (by cases none), fun _ _ => rfl⟩

/-- A connection that is not being handled is where the map has it. -/
theorem place_eq {loop : EventLoop} {token : Nat}
    (free : ∀ handling, loop.handling = some handling → handling.token ≠ token)
    : loop.place token = .ofEntry loop.handler.conns[token]? := by
  unfold place
  cases held : loop.handling with
  | none => rfl
  | some handling => simp only [if_neg (free handling held)]

theorem place_of_conns {loop : EventLoop} (tidy : loop.Tidy) {token : Nat} {entry : Entry}
    (found : loop.handler.conns[token]? = some entry)
    : loop.place token = .kept entry := by
  rw [place_eq, found]
  · rfl
  · rintro handling held rfl
    cases (tidy.taken handling held).1.symm.trans found

theorem place_handled {loop : EventLoop} {handling : Handling}
    (held : loop.handling = some handling)
    : loop.place handling.token = .handled handling := by
  simp only [place, held, if_true]

/-- A token that has not been given out. -/
theorem client_fresh {loop : EventLoop} (tidy : loop.Tidy) {token : Nat}
    (fresh : loop.handler.nextToken ≤ token)
    : loop.client token = { place := .absent, past := .new } := by
  have unknown : loop.handler.conns[token]? = none := by
    cases found : loop.handler.conns[token]? with
    | none => rfl
    | some entry => exact absurd (tidy.known token entry found) (not_lt.mpr fresh)
  rw [client, place_eq, unknown, tidy.silent token fresh]
  · rfl
  · rintro handling held rfl
    exact absurd (tidy.taken handling held).2 (not_lt.mpr fresh)

/-- Only the connection with this token makes a step. -/
theorem advances_one {loop next : EventLoop} (tidy : next.Tidy) (token : Nat)
    (moves
      : Relation.ReflTransGen (ClientStep token) (loop.client token) (next.client token))
    (others : ∀ other, other ≠ token → next.client other = loop.client other)
    : loop.Advances next := by
  refine ⟨tidy, fun other => ?_⟩
  by_cases same : other = token
  · subst same
    exact moves
  · rw [others other same]

@[simp]
theorem begin_token (entry : Entry) (token : Nat) (event : Event) (nowMs : Nat)
    : (entry.begin token event nowMs).token = token := by
  unfold Entry.begin
  dsimp only
  split
  · split <;> rfl
  · rfl

/-- The past of one connection below the next token changes. -/
theorem silent_update {past : Nat → Past} {nextToken token : Nat}
    (silent : ∀ other, nextToken ≤ other → past other = .new) (below : token < nextToken)
    (changed : Past)
    : ∀ other, nextToken ≤ other → Function.update past token changed other = .new := by
  intro other above
  rw [Function.update_of_ne (by omega)]
  exact silent other above

theorem known_erase {conns : SortedMap Nat Entry} {nextToken : Nat}
    (known : ∀ token entry, conns[token]? = some entry → token < nextToken) (erased : Nat)
    : ∀ token entry, (conns.erase erased)[token]? = some entry → token < nextToken := by
  intro token entry found
  rw [SortedMap.getElem?_erase] at found
  split at found
  · cases found
  · exact known token entry found

theorem known_insert {conns : SortedMap Nat Entry} {nextToken added : Nat}
    (known : ∀ token entry, conns[token]? = some entry → token < nextToken)
    (below : added < nextToken) (new : Entry)
    : ∀ token entry, (conns.insert added new)[token]? = some entry → token < nextToken := by
  intro token entry found
  rw [SortedMap.getElem?_insert] at found
  split at found
  · rename_i same
    exact same ▸ below
  · exact known token entry found

theorem onEvent_advances {loop : EventLoop} (tidy : loop.Tidy) (idle : loop.handling = none)
    (token : Nat) (event : Event)
    : loop.Advances (loop.onEvent token event) := by
  unfold onEvent
  cases found : loop.handler.conns[token]? with
  | none => exact tidy.advances rfl rfl rfl rfl
  | some entry =>
      have below := tidy.known token entry found
      refine advances_one ⟨?_, ?_, ?_⟩ token ?_ ?_
      · rintro handling held
        obtain rfl := Option.some.inj held
        rw [begin_token]
        exact ⟨by simp [setConns, note], below⟩
      · exact known_erase tidy.known token
      · exact silent_update tidy.silent below _
      · have before : loop.client token
            = { place := .kept entry, past := loop.past token } := by
          rw [client, place_of_conns tidy found]
        rw [before]
        refine .single ?_
        have after : ClientStep token _ _ := .event entry (loop.past token) event loop.nowMs
        simpa [client, place, setConns, note] using after
      · intro other different
        simp [client, place, setConns, note, idle, different, different.symm]

theorem answer_advances {loop next : EventLoop} (tidy : loop.Tidy) {handling : Handling}
    (held : loop.handling = some handling) {response : Bytes}
    (answered : loop.answer handling response = some next)
    : loop.Advances next := by
  unfold answer at answered
  cases waiting : handling.commands with
  | nil => simp only [waiting, reduceCtorEq] at answered
  | cons command commands =>
      simp only [waiting, Option.some.injEq] at answered
      subst answered
      obtain ⟨away, below⟩ := tidy.taken handling held
      refine advances_one ⟨?_, tidy.known, silent_update tidy.silent below _⟩ handling.token
        ?_ ?_
      · rintro changed same
        obtain rfl := Option.some.inj same
        exact ⟨away, below⟩
      · rw [client, place_handled held]
        refine .single ?_
        have after : ClientStep handling.token _ _ :=
          .answer (loop.past handling.token) waiting response
        simpa [client, place, note, Handling.enqueue] using after
      · intro other different
        simp [client, place, note, held, different, different.symm, Handling.enqueue]

theorem finish_advances {loop : EventLoop} (tidy : loop.Tidy) {handling : Handling}
    (held : loop.handling = some handling) (done : handling.commands = [])
    : loop.Advances (loop.finish handling) := by
  obtain ⟨away, below⟩ := tidy.taken handling held
  have after : ClientStep handling.token _ _ := .finish (loop.past handling.token) done
  have before : loop.client handling.token
      = { place := .handled handling, past := loop.past handling.token } := by
    rw [client, place_handled held]
  unfold Client.finish at after
  unfold finish
  generalize handling.conn.serveWritable handling.hardClose handling.event = served
    at after ⊢
  obtain ⟨conn, sent, hardClose⟩ := served
  dsimp only at after ⊢
  cases settled : conn.settle hardClose handling.event with
  | kept conn interest =>
      rw [settled] at after
      refine advances_one ⟨fun _ none => (by cases none), known_insert tidy.known below _,
        silent_update tidy.silent below _⟩ handling.token ?_ ?_
      · rw [before]
        refine .single ?_
        simpa [client, place, setConns, note, Place.ofEntry] using after
      · intro other different
        simp [client, place, setConns, note, held, different, different.symm]
  | dropped failed =>
      rw [settled] at after
      refine advances_one ⟨fun _ none => (by cases none), tidy.known,
        silent_update (silent_update tidy.silent below _) below _⟩ handling.token ?_ ?_
      · rw [before]
        refine .single ?_
        simpa [client, place, note, away, Place.ofEntry] using after
      · intro other different
        simp [client, place, note, held, different, different.symm]

theorem sweep_advances {loop : EventLoop} (tidy : loop.Tidy) (token : Nat)
    : loop.Advances (loop.sweep token) := by
  unfold sweep
  cases found : loop.handler.conns[token]? with
  | none => exact tidy.advances rfl rfl rfl rfl
  | some entry =>
      have below := tidy.known token entry found
      have elsewhere (handling : Handling) (held : loop.handling = some handling)
          : handling.token ≠ token := by
        rintro rfl
        cases (tidy.taken handling held).1.symm.trans found
      refine advances_one ⟨?_, known_erase tidy.known token,
        silent_update tidy.silent below _⟩ token ?_ ?_
      · intro handling held
        obtain ⟨away, given⟩ := tidy.taken handling held
        refine ⟨?_, given⟩
        simp [setConns, note, away]
      · rw [client, place_of_conns tidy found]
        refine .single ?_
        have after : ClientStep token _ _ := .sweep entry (loop.past token)
        have absent : ((loop.setConns (loop.handler.conns.erase token)).note token
            (fun past => { past with ending := some .swept })).place token = .absent := by
          refine (place_eq ?_).trans ?_
          · exact elsewhere
          · simp [setConns, note, Place.ofEntry]
        rw [client, absent]
        simpa [setConns, note] using after
      · intro other different
        simp [client, place, setConns, note, different, different.symm]

theorem register_advances {loop : EventLoop} (tidy : loop.Tidy) (stream : Nat)
    (registers : Bool)
    : loop.Advances (loop.register stream registers) := by
  let token := loop.handler.nextToken
  have before := client_fresh tidy (Nat.le_refl token)
  have elsewhere (handling : Handling) (held : loop.handling = some handling)
      : handling.token ≠ token :=
    (tidy.taken handling held).2.ne
  have known (other : Nat) (entry : Entry)
      (found : loop.handler.conns[other]? = some entry) : other < token + 1 :=
    Nat.lt_succ_of_lt (tidy.known other entry found)
  unfold register
  cases registers with
  | false =>
      refine ⟨⟨?_, known, fun other above => tidy.silent other (Nat.le_of_succ_le above)⟩,
        fun _ => .refl⟩
      intro handling held
      obtain ⟨away, given⟩ := tidy.taken handling held
      exact ⟨away, Nat.lt_succ_of_lt given⟩
  | true =>
      refine advances_one ⟨?_, known_insert known (Nat.lt_succ_self token) _,
        fun other above => tidy.silent other (Nat.le_of_succ_le above)⟩ token ?_ ?_
      · intro handling held
        obtain ⟨away, given⟩ := tidy.taken handling held
        refine ⟨?_, Nat.lt_succ_of_lt given⟩
        have different : token ≠ handling.token := given.ne'
        simp only [if_true, SortedMap.getElem?_insert]
        rw [if_neg different]
        exact away
      · rw [before]
        refine .single ?_
        have after : ClientStep token _ _ := .register stream loop.nowMs
        simp only [if_true]
        rw [client, place_eq]
        · simpa [tidy.silent token (Nat.le_refl token), Place.ofEntry, token] using after
        · exact elsewhere
      · intro other different
        unfold client place
        simp only [if_true, SortedMap.getElem?_insert]
        rw [if_neg (Ne.symm different)]

theorem registerAll_advances {loop : EventLoop} (tidy : loop.Tidy) (streams : List Nat)
    (registers : List Bool)
    : loop.Advances (registerAll streams registers loop) := by
  induction streams generalizing loop registers with
  | nil => exact tidy.advances rfl rfl rfl rfl
  | cons stream streams ih =>
      have first := register_advances tidy stream (registers.headD true)
      exact first.trans (ih first.tidy registers.tail)

theorem sweepAll_advances {loop : EventLoop} (tidy : loop.Tidy) (tokens : List Nat)
    : loop.Advances (tokens.foldl sweep loop) := by
  induction tokens generalizing loop with
  | nil => exact tidy.advances rfl rfl rfl rfl
  | cons token tokens ih =>
      have first := sweep_advances tidy token
      exact first.trans (ih first.tidy)

theorem startSweeping_advances {loop : EventLoop} (tidy : loop.Tidy)
    : loop.Advances loop.startSweeping := by
  unfold startSweeping
  split <;> exact tidy.advances rfl rfl rfl rfl

theorem onTimer_advances {loop : EventLoop} (tidy : loop.Tidy) (timerId : Nat)
    : loop.Advances (loop.onTimer timerId) := by
  unfold onTimer
  split
  · exact tidy.advances rfl rfl rfl rfl
  · dsimp only
    split
    · exact startSweeping_advances tidy
    · rename_i timeout _
      have swept := sweepAll_advances tidy (loop.stale timeout)
      exact swept.trans (startSweeping_advances swept.tidy)

theorem fire_advances {loop next : EventLoop} (tidy : loop.Tidy) {timerId : Nat}
    (fired : loop.fire timerId = some next)
    : loop.Advances next := by
  unfold fire at fired
  split at fired
  · cases fired
  · rename_i timer _
    obtain ⟨-, ⟨⟩⟩ := Option.ite_none_right_eq_some.mp fired
    have removed : loop.Advances
        {
          loop with
          registry := { loop.registry with timers := loop.registry.timers.erase timer }
        } :=
      tidy.advances rfl rfl rfl rfl
    exact removed.trans (onTimer_advances removed.tidy timerId)

theorem onWake_advances {loop : EventLoop} (tidy : loop.Tidy) (registers : List Bool)
    : loop.Advances (loop.onWake registers) := by
  have taking {started : EventLoop} (tidy : started.Tidy)
      : started.Advances
          (registerAll started.handler.incoming registers
            { started with handler := { started.handler with incoming := [] } }) := by
    have emptied : started.Advances
        { started with handler := { started.handler with incoming := [] } } :=
      tidy.advances rfl rfl rfl rfl
    exact emptied.trans (registerAll_advances emptied.tidy _ _)
  unfold onWake
  dsimp only
  split
  · have started := startSweeping_advances tidy
    exact started.trans (taking started.tidy)
  · exact taking tidy

/-- A step of the loop is a step, or none, of each connection. Witness: one case for each
action.
-/
theorem step_advances {loop next : EventLoop} {action : LoopAction} (tidy : loop.Tidy)
    (taken : loop.step action = some next)
    : loop.Advances next := by
  cases action with
  | tick laterMs =>
      obtain ⟨-, ⟨⟩⟩ := Option.ite_none_right_eq_some.mp taken
      exact tidy.advances rfl rfl rfl rfl
  | hand stream =>
      obtain rfl := Option.some.inj taken
      exact tidy.advances rfl rfl rfl rfl
  | wake registers =>
      obtain ⟨-, ⟨⟩⟩ := Option.ite_none_right_eq_some.mp taken
      exact onWake_advances tidy registers
  | timer timerId =>
      obtain ⟨-, fired⟩ := Option.ite_none_right_eq_some.mp taken
      exact fire_advances tidy fired
  | event token event =>
      obtain ⟨idle, ⟨⟩⟩ := Option.ite_none_right_eq_some.mp taken
      exact onEvent_advances tidy (Option.isNone_iff_eq_none.mp idle) token event
  | answer response =>
      obtain ⟨handling, held, answered⟩ := Option.bind_eq_some_iff.mp taken
      exact answer_advances tidy held answered
  | finish =>
      obtain ⟨handling, held, finished⟩ := Option.bind_eq_some_iff.mp taken
      obtain ⟨done, ⟨⟩⟩ := Option.ite_none_right_eq_some.mp finished
      exact finish_advances tidy held done

/-- Witness: induction over the run. -/
theorem execute_advances {loop last : EventLoop} {actions : List LoopAction}
    (tidy : loop.Tidy) (run : loop.execute actions = some last)
    : loop.Advances last := by
  induction actions generalizing loop with
  | nil =>
      obtain rfl := Option.some.inj run
      exact tidy.advances rfl rfl rfl rfl
  | cons action actions ih =>
      obtain ⟨next, taken, rest⟩ := Option.bind_eq_some_iff.mp run
      have first := step_advances tidy taken
      exact first.trans (ih first.tidy rest)

theorem past_startSweeping (loop : EventLoop) : loop.startSweeping.past = loop.past := by
  unfold startSweeping
  split <;> rfl

theorem past_registerAll (streams : List Nat) (registers : List Bool) (loop : EventLoop)
    : (registerAll streams registers loop).past = loop.past := by
  induction streams generalizing registers loop with
  | nil => rfl
  | cons stream streams ih =>
      refine (ih registers.tail _).trans ?_
      unfold register
      dsimp only
      split <;> rfl

theorem past_onWake (loop : EventLoop) (registers : List Bool)
    : (loop.onWake registers).past = loop.past := by
  unfold onWake
  dsimp only
  rw [past_registerAll]
  split
  · exact past_startSweeping loop
  · rfl

end EventLoop

end Rustikv.Server

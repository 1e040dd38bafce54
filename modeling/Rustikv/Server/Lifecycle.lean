import Rustikv.Server.Clients
import Rustikv.Server.Service

/-! A server: several workers with their connections share one engine. Every client is
answered in its own order, and all answers come from one map.
-/

namespace Rustikv.Server

open Library Kv

-----------------------------------------------------------------------------------------
-- Workers over one engine
-----------------------------------------------------------------------------------------

/-- A command that was dispatched, with the connection it came from. -/
structure Line where
  worker : Nat
  token : Nat
  command : Command
  response : Bytes

/-- The workers and what they share, with all that was dispatched so far. -/
structure ServerState (σ : Type) where
  process : Process σ
  workers : List EventLoop
  turns : List Turn
  log : List Line

/-- A worker's loop moves on, a worker dispatches its next command, or a compaction runs. -/
inductive ServerAction
  | loop (worker : Nat) (action : LoopAction)
  | dispatch (worker : Nat) (readings : Readings) (finishMs : UInt64)
  | compaction (readings : Readings) (finishMs : UInt64)

/-- The response of a command comes from the engine. -/
def LoopAction.answers : LoopAction → Bool
  | .answer _ => true
  | _ => false

/-- The connections that exist. -/
def EventLoop.connections (loop : EventLoop) : Nat :=
  loop.handler.conns.size + loop.handling.toList.length

namespace ServerState

variable {σ : Type} (engine : StorageEngine σ) (cfg : CompactionCfg)

def start (database : σ) (workers : Nat) (readTimeout : Option Nat) : ServerState σ :=
  {
    process := .new database
    workers := List.replicate workers (.new readTimeout)
    turns := []
    log := []
  }

/-- A worker moves on. Every connection made adds one to the counter of connections, and
every one dropped takes one away.
-/
def moveWorker (server : ServerState σ) (index : Nat) (loop next : EventLoop)
    : ServerState σ :=
  let stats := server.process.stats
  let activeConnections := stats.activeConnections + next.connections - loop.connections
  {
    server with
    process := { server.process with stats := { stats with activeConnections } }
    workers := server.workers.set index next
  }

def step (server : ServerState σ) : ServerAction → Option (ServerState σ)
  | .loop index action => do
      let loop ← server.workers[index]?
      let next ← loop.step action
      if action.answers then none else some (server.moveWorker index loop next)
  | .dispatch index readings finishMs => do
      let loop ← server.workers[index]?
      let handling ← loop.handling
      let command ← handling.commands.head?
      let served := dispatch engine cfg readings server.process command
      let next ← loop.step (.answer served.1)
      some {
        process := served.2
        workers := server.workers.set index next
        turns := server.turns ++ [{ work := .request command, readings, finishMs }]
        log :=
          server.log
          ++ [{ worker := index, token := handling.token, command, response := served.1 }]
      }
  | .compaction readings finishMs =>
      let turn : Turn := { work := .compaction, readings, finishMs }
      some {
        server with
        process := (server.process.turn engine cfg turn).2
        turns := server.turns ++ [turn]
      }

def execute (server : ServerState σ) (actions : List ServerAction)
    : Option (ServerState σ) :=
  actions.foldlM (step engine cfg) server

/-- What a connection was answered, with the commands. -/
def answeredTo (server : ServerState σ) (worker token : Nat) : List (Command × Bytes) :=
  (server.log.filter (fun line => line.worker = worker ∧ line.token = token)).map
    (fun line => (line.command, line.response))

end ServerState

-----------------------------------------------------------------------------------------
-- What a worker was answered
-----------------------------------------------------------------------------------------

namespace EventLoop

theorem answered_update (past : Nat → Past) (token other : Nat) {changed : Past}
    (same : changed.answered = (past token).answered)
    : (Function.update past token changed other).answered = (past other).answered := by
  by_cases here : other = token
  · subst here
    rw [Function.update_self, same]
  · rw [Function.update_of_ne here]

theorem answered_onEvent (loop : EventLoop) (token : Nat) (event : Event) (other : Nat)
    : ((loop.onEvent token event).past other).answered = (loop.past other).answered := by
  unfold onEvent
  split
  · rfl
  · exact answered_update loop.past _ _ rfl

theorem answered_finish (loop : EventLoop) (handling : Handling) (other : Nat)
    : ((loop.finish handling).past other).answered = (loop.past other).answered := by
  unfold finish
  dsimp only
  split
  · exact answered_update loop.past _ _ rfl
  · refine (answered_update _ _ _ ?_).trans (answered_update loop.past _ _ ?_)
    · rfl
    · rfl

theorem answered_sweepAll (loop : EventLoop) (tokens : List Nat) (other : Nat)
    : ((tokens.foldl sweep loop).past other).answered = (loop.past other).answered := by
  induction tokens generalizing loop with
  | nil => rfl
  | cons token tokens ih =>
      refine (ih (loop.sweep token)).trans ?_
      unfold sweep
      split
      · rfl
      · exact answered_update loop.past _ _ rfl

theorem answered_fire {loop next : EventLoop} {timerId : Nat}
    (fired : loop.fire timerId = some next) (other : Nat)
    : (next.past other).answered = (loop.past other).answered := by
  unfold fire at fired
  split at fired
  · cases fired
  · obtain ⟨-, ⟨⟩⟩ := Option.ite_none_right_eq_some.mp fired
    unfold onTimer
    split
    · rfl
    · dsimp only
      rw [past_startSweeping]
      split
      · rfl
      · exact answered_sweepAll _ _ _

/-- Only a response is an answer. -/
theorem answered_step {loop next : EventLoop} {action : LoopAction}
    (taken : loop.step action = some next) (silent : action.answers = false) (token : Nat)
    : (next.past token).answered = (loop.past token).answered := by
  cases action with
  | tick laterMs =>
      obtain ⟨-, ⟨⟩⟩ := Option.ite_none_right_eq_some.mp taken
      rfl
  | hand stream =>
      obtain rfl := Option.some.inj taken
      rfl
  | wake registers =>
      obtain ⟨-, ⟨⟩⟩ := Option.ite_none_right_eq_some.mp taken
      rw [past_onWake]
  | timer timerId =>
      obtain ⟨-, fired⟩ := Option.ite_none_right_eq_some.mp taken
      exact answered_fire fired token
  | event other event =>
      obtain ⟨-, ⟨⟩⟩ := Option.ite_none_right_eq_some.mp taken
      exact answered_onEvent loop other event token
  | answer response => cases silent
  | finish =>
      obtain ⟨handling, -, finished⟩ := Option.bind_eq_some_iff.mp taken
      obtain ⟨-, ⟨⟩⟩ := Option.ite_none_right_eq_some.mp finished
      exact answered_finish loop handling token

end EventLoop

/-- A response is the next answer of the connection that is handled. -/
theorem EventLoop.answered_answer {loop next : EventLoop} {handling : Handling}
    {command : Command} {response : Bytes} (held : loop.handling = some handling)
    (first : handling.commands.head? = some command)
    (taken : loop.step (.answer response) = some next) (token : Nat)
    : (next.past token).answered
      = (loop.past token).answered
        ++ if handling.token = token then [(command, response)] else [] := by
  obtain ⟨commands, waiting⟩ : ∃ commands, handling.commands = command :: commands :=
    List.head?_eq_some_iff.mp first
  obtain ⟨other, same, answered⟩ := Option.bind_eq_some_iff.mp taken
  obtain rfl := Option.some.inj (held.symm.trans same)
  simp only [EventLoop.answer, waiting, Option.some.injEq] at answered
  subst answered
  by_cases here : token = handling.token
  · subst here
    simp [EventLoop.note]
  · simp [EventLoop.note, here, Ne.symm here]

-----------------------------------------------------------------------------------------
-- Runs of the server
-----------------------------------------------------------------------------------------

namespace ServerState

section Runs

variable {σ : Type} {engine : StorageEngine σ} {cfg : CompactionCfg}

/-- The workers are as if each were alone, and the log has what each of their connections
was answered.
-/
structure Sound (server : ServerState σ) : Prop where
  tidy : ∀ (index : Nat) (loop : EventLoop), server.workers[index]? = some loop → loop.Tidy
  faithful
    : ∀ (index : Nat) (loop : EventLoop),
        server.workers[index]? = some loop
        → ∀ token, (loop.client token).Faithful
  logged
    : ∀ (index : Nat) (loop : EventLoop),
        server.workers[index]? = some loop
        → ∀ token, (loop.past token).answered = server.answeredTo index token

/-- A worker that makes a step, with what its connections are answered by it. -/
theorem Sound.set {server next : ServerState σ} (sound : server.Sound) {index : Nat}
    {loop moved : EventLoop} {action : LoopAction}
    (found : server.workers[index]? = some loop) (taken : loop.step action = some moved)
    (workers : next.workers = server.workers.set index moved)
    (here : ∀ token, (moved.past token).answered = next.answeredTo index token)
    (elsewhere
      : ∀ other,
          other ≠ index
          → ∀ token, next.answeredTo other token = server.answeredTo other token)
    : next.Sound := by
  have advances := EventLoop.step_advances (sound.tidy index loop found) taken
  have cases_of {other : Nat} {kept : EventLoop} (later : next.workers[other]? = some kept)
      : other = index ∧ kept = moved
        ∨ other ≠ index ∧ server.workers[other]? = some kept := by
    rw [workers, List.getElem?_set] at later
    by_cases same : index = other
    · rw [if_pos same] at later
      obtain ⟨-, ⟨⟩⟩ := Option.ite_none_right_eq_some.mp later
      exact .inl ⟨same.symm, rfl⟩
    · rw [if_neg same] at later
      exact .inr ⟨Ne.symm same, later⟩
  refine ⟨fun other kept later => ?_, fun other kept later token => ?_,
    fun other kept later token => ?_⟩
  · rcases cases_of later with ⟨-, rfl⟩ | ⟨-, before⟩
    · exact advances.tidy
    · exact sound.tidy other kept before
  · rcases cases_of later with ⟨-, rfl⟩ | ⟨-, before⟩
    · exact (sound.faithful index loop found token).advance (advances.clients token)
    · exact sound.faithful other kept before token
  · rcases cases_of later with ⟨rfl, rfl⟩ | ⟨different, before⟩
    · exact here token
    · rw [elsewhere other different]
      exact sound.logged other kept before token

theorem answeredTo_concat (server : ServerState σ) (line : Line) (worker token : Nat)
    : ({ server with log := server.log ++ [line] } : ServerState σ).answeredTo worker token
      = server.answeredTo worker token
        ++ if line.worker = worker ∧ line.token = token then [(line.command, line.response)]
            else [] := by
  unfold answeredTo
  rw [List.filter_append, List.map_append]
  congr 1
  by_cases own : line.worker = worker ∧ line.token = token
  · simp [own]
  · simp [own]

theorem Sound.step {server next : ServerState σ} (sound : server.Sound)
    {action : ServerAction} (taken : server.step engine cfg action = some next)
    : next.Sound := by
  cases action with
  | loop index action =>
      obtain ⟨loop, found, taken⟩ := Option.bind_eq_some_iff.mp taken
      obtain ⟨moved, stepped, taken⟩ := Option.bind_eq_some_iff.mp taken
      obtain ⟨silent, ⟨⟩⟩ := Option.ite_none_left_eq_some.mp taken
      have silent : action.answers = false := by simpa using silent
      refine sound.set found stepped rfl (fun token => ?_) (fun _ _ _ => rfl)
      rw [EventLoop.answered_step stepped silent token]
      exact sound.logged index loop found token
  | dispatch index readings finishMs =>
      obtain ⟨loop, found, taken⟩ := Option.bind_eq_some_iff.mp taken
      obtain ⟨handling, held, taken⟩ := Option.bind_eq_some_iff.mp taken
      obtain ⟨command, first, taken⟩ := Option.bind_eq_some_iff.mp taken
      obtain ⟨moved, stepped, taken⟩ := Option.bind_eq_some_iff.mp taken
      obtain rfl := Option.some.inj taken
      have answered := EventLoop.answered_answer held first stepped
      refine sound.set found stepped rfl (fun token => ?_) (fun other different token => ?_)
      · refine Eq.trans ?_ (answeredTo_concat server _ index token).symm
        rw [answered token, sound.logged index loop found token]
        simp
      · refine (answeredTo_concat server _ other token).trans ?_
        simp [Ne.symm different]
  | compaction readings finishMs =>
      obtain rfl := Option.some.inj taken
      exact ⟨sound.tidy, sound.faithful, sound.logged⟩

theorem sound_start (database : σ) (workers : Nat) (readTimeout : Option Nat)
    : (start database workers readTimeout).Sound := by
  have only {index : Nat} {loop : EventLoop}
      (found : (start database workers readTimeout).workers[index]? = some loop)
      : loop = .new readTimeout :=
    List.eq_of_mem_replicate (List.mem_of_getElem? found)
  refine ⟨fun index loop found => ?_, fun index loop found token => ?_,
    fun index loop found token => ?_⟩
  · rw [only found]
    exact EventLoop.tidy_new readTimeout
  · rw [only found]
    exact faithful_new readTimeout token
  · rw [only found]
    rfl

theorem sound_execute {server last : ServerState σ} {actions : List ServerAction}
    (sound : server.Sound) (run : server.execute engine cfg actions = some last)
    : last.Sound := by
  induction actions generalizing server with
  | nil =>
      obtain rfl := Option.some.inj run
      exact sound
  | cons action actions ih =>
      obtain ⟨next, taken, rest⟩ := Option.bind_eq_some_iff.mp run
      exact ih (sound.step taken) rest

end Runs

end ServerState

/-- The engine's clock readings lie between what was done before and the end of this. -/
def ServerAction.Timely (since : UInt64) : ServerAction → Prop
  | .loop _ _ => True
  | .dispatch _ readings finishMs =>
      ∀ command, ({ work := .request command, readings, finishMs } : Turn).Timely since
  | .compaction readings finishMs =>
      ({ work := .compaction, readings, finishMs } : Turn).Timely since

def ServerAction.endsAt (since : UInt64) : ServerAction → UInt64
  | .loop _ _ => since
  | .dispatch _ _ finishMs => finishMs
  | .compaction _ finishMs => finishMs

def TimelyActions : UInt64 → List ServerAction → Prop
  | _, [] => True
  | since, action :: rest =>
      action.Timely since ∧ TimelyActions (action.endsAt since) rest

theorem Explained.append {limits : Limits} {contents middle last : Contents}
    {turns later : List Turn} {answers others : List Answer}
    (front : Explained limits contents turns answers middle)
    (back : Explained limits middle later others last)
    : Explained limits contents (turns ++ later) (answers ++ others) last := by
  induction front with
  | nil contents => exact back
  | request finishMs answered rest ih => exact .request finishMs answered (ih back)
  | compaction readings finishMs rest ih => exact .compaction readings finishMs (ih back)

-----------------------------------------------------------------------------------------
-- A server over the hash engine
-----------------------------------------------------------------------------------------

namespace ServerState

/-- The log has the requests so far, with responses that are those of a map, and the engine
holds the map.
-/
structure Explains (clock : Nat → Nat) (since : UInt64)
    (server : ServerState (KVEngine × World))
    : Prop where
  commands : server.log.map Line.command = (requestsOf server.turns).map Prod.fst
  responses
    : ∃ answers contents,
        Explained kvLimits Contents.empty server.turns answers contents
        ∧ server.log.map Line.response = answers.map Answer.frame
        ∧ KvHolds clock server.process.database contents since

section HashEngine

variable {clock : Nat → Nat} (increasing : StrictMono clock) (cfg : CompactionCfg)
include increasing

/-- What one more turn adds. -/
theorem Explains.turn {since : UInt64} {server : ServerState (KVEngine × World)}
    (explains : server.Explains clock since) {turn : Turn} (timely : turn.Timely since)
    : ∃ answers more contents,
        Explained kvLimits Contents.empty (server.turns ++ [turn]) (answers ++ more) contents
        ∧ server.log.map Line.response = answers.map Answer.frame
        ∧ (server.process.turn (kvStorage clock) cfg turn).1.toList = more.map Answer.frame
        ∧ KvHolds clock (server.process.turn (kvStorage clock) cfg turn).2.database contents
            turn.finishMs := by
  obtain ⟨answers, contents, explained, responses, holds⟩ := explains.responses
  obtain ⟨more, changed, goesOn, response, after⟩ := kv_turn increasing cfg holds timely
  have one := goesOn (.nil changed)
  rw [List.append_nil] at one
  exact ⟨answers, more, changed, explained.append one, responses, response, after⟩

theorem Explains.step {since : UInt64} {server next : ServerState (KVEngine × World)}
    (explains : server.Explains clock since) {action : ServerAction}
    (taken : server.step (kvStorage clock) cfg action = some next)
    (timely : action.Timely since)
    : next.Explains clock (action.endsAt since) := by
  cases action with
  | loop index action =>
      obtain ⟨loop, -, taken⟩ := Option.bind_eq_some_iff.mp taken
      obtain ⟨moved, -, taken⟩ := Option.bind_eq_some_iff.mp taken
      obtain ⟨-, ⟨⟩⟩ := Option.ite_none_left_eq_some.mp taken
      exact ⟨explains.commands, explains.responses⟩
  | dispatch index readings finishMs =>
      obtain ⟨loop, -, taken⟩ := Option.bind_eq_some_iff.mp taken
      obtain ⟨handling, -, taken⟩ := Option.bind_eq_some_iff.mp taken
      obtain ⟨command, -, taken⟩ := Option.bind_eq_some_iff.mp taken
      obtain ⟨moved, -, taken⟩ := Option.bind_eq_some_iff.mp taken
      obtain rfl := Option.some.inj taken
      obtain ⟨answers, more, contents, explained, responses, response, holds⟩ :=
        explains.turn increasing cfg (timely command)
      refine ⟨?_, answers ++ more, contents, explained, ?_, holds⟩
      · rw [List.map_append, explains.commands, requestsOf, requestsOf,
          List.filterMap_append, List.map_append]
        rfl
      · rw [List.map_append, List.map_append, ← responses, ← response]
        rfl
  | compaction readings finishMs =>
      obtain rfl := Option.some.inj taken
      obtain ⟨answers, more, contents, explained, responses, response, holds⟩ :=
        explains.turn increasing cfg timely
      have none : (server.process.turn (kvStorage clock) cfg
          { work := .compaction, readings, finishMs }).1.toList = [] := by
        unfold Process.turn
        dsimp only
        split <;> rfl
      obtain rfl : more = [] := by simpa [none] using response.symm
      rw [List.append_nil] at explained
      refine ⟨?_, answers, contents, explained, responses, holds⟩
      rw [explains.commands, requestsOf, requestsOf, List.filterMap_append, List.map_append]
      exact (List.append_nil _).symm

/-- Witness: induction over the run, with the time up to which the engine was read. -/
theorem explains_execute {since : UInt64} {server last : ServerState (KVEngine × World)}
    {actions : List ServerAction} (explains : server.Explains clock since)
    (run : server.execute (kvStorage clock) cfg actions = some last)
    (timely : TimelyActions since actions)
    : ∃ time, last.Explains clock time := by
  induction actions generalizing server since with
  | nil =>
      obtain rfl := Option.some.inj run
      exact ⟨since, explains⟩
  | cons action actions ih =>
      obtain ⟨next, taken, rest⟩ := Option.bind_eq_some_iff.mp run
      exact ih (explains.step increasing cfg taken timely.1) rest timely.2

/-- In every run of a server over a new hash engine, with any number of workers and of
clients, their events in any order and compactions between requests: all responses are
answers of one map, in the order in which the requests were dispatched, and what a client is
sent are the responses to the first requests in the bytes that it sent, in that order.
-/
theorem clients_served_as_map {world : World} (fresh : KVEngine.Fresh clock world)
    (maxSegmentBytes : UInt64) (fsyncStrategy : FSyncStrategy) (workers : Nat)
    (readTimeout : Option Nat) {actions : List ServerAction}
    {last : ServerState (KVEngine × World)}
    (run
      : (start (KVEngine.new clock maxSegmentBytes fsyncStrategy world) workers
            readTimeout).execute (kvStorage clock) cfg actions
        = some last)
    (timely : TimelyActions 0 actions)
    : (∃ answers contents,
        Explained kvLimits Contents.empty last.turns answers contents
        ∧ last.log.map Line.command = (requestsOf last.turns).map Prod.fst
        ∧ last.log.map Line.response = answers.map Answer.frame)
      ∧ ∀ index loop,
          last.workers[index]? = some loop
          → ∀ token,
              (∃ waiting,
                Understood (loop.past token).heard
                  ((last.answeredTo index token).map Prod.fst ++ waiting))
              ∧ (loop.past token).sent
                <+: ((last.answeredTo index token).map Prod.snd).flatten := by
  constructor
  · have first : (start (KVEngine.new clock maxSegmentBytes fsyncStrategy world) workers
        readTimeout).Explains clock 0 :=
      ⟨rfl, [], Contents.empty, .nil _, rfl,
        kvHolds_new increasing fresh maxSegmentBytes fsyncStrategy⟩
    obtain ⟨time, explains⟩ := explains_execute increasing cfg first run timely
    obtain ⟨answers, contents, explained, responses, -⟩ := explains.responses
    exact ⟨answers, contents, explained, explains.commands, responses⟩
  · intro index loop found token
    have sound := sound_execute (sound_start _ workers readTimeout) run
    have faithful := sound.faithful index loop found token
    rw [← sound.logged index loop found token]
    exact ⟨faithful.understood, faithful.within⟩

end HashEngine

/-- Two workers with a client each; the first client's requests are dispatched around one of
the second and a compaction.
-/
def twoWorkers : List ServerAction :=
  let event (bytes : Bytes) : LoopAction :=
    .event 0 { readable := true, reads := [.data bytes], writes := [], reregisters := true }
  let readings (nowMs : UInt64) : Readings := (Work.compaction.at nowMs).readings
  [
    .loop 0 (.hand 7), .loop 1 (.hand 8), .loop 0 (.wake []), .loop 1 (.wake []),
    .loop 0 (event (pingFrame ++ pingFrame)), .loop 1 (event pingFrame),
    .dispatch 0 (readings 1) 1, .dispatch 1 (readings 2) 2, .compaction (readings 3) 3,
    .dispatch 0 (readings 4) 4, .loop 0 .finish
  ]

theorem timely_twoWorkers : TimelyActions 0 twoWorkers :=
  ⟨trivial, trivial, trivial, trivial, trivial, trivial, fun _ => .at (by decide),
    fun _ => .at (by decide), .at (by decide), fun _ => .at (by decide), trivial, trivial⟩

/-- Witness: the run goes through, and both clients are answered. -/
theorem clients_served_as_map_two
    : ∃ last,
        (start (KVEngine.new id 30 .always .initial) 2 none).execute (kvStorage id)
          { ratio := 0, maxSegment := 0 } twoWorkers
        = some last
        ∧ ∃ answers contents,
            Explained kvLimits Contents.empty last.turns answers contents
            ∧ last.log.map Line.response = answers.map Answer.frame := by
  have ran : ((start (KVEngine.new id 30 .always .initial) 2 none).execute (kvStorage id)
      { ratio := 0, maxSegment := 0 } twoWorkers).isSome := by
    decide +kernel
  obtain ⟨last, run⟩ := Option.isSome_iff_exists.mp ran
  obtain ⟨⟨answers, contents, explained, -, responses⟩, -⟩ :=
    clients_served_as_map strictMono_id _ (fresh_initial id) 30 .always 2 none run
      timely_twoWorkers
  exact ⟨last, run, answers, contents, explained, responses⟩

end ServerState

end Rustikv.Server

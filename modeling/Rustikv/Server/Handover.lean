import Mathlib.Data.Int.CardIntervalMod
import Mathlib.Data.List.Count
import Rustikv.Server.Acceptor

/-! Streams on their way from the acceptor to a connection. A stream is in one place, a worker
with streams in its channel is going to look there, and the workers take turns.
-/

namespace Rustikv.Server.Admission

-----------------------------------------------------------------------------------------
-- Every stream is in one place
-----------------------------------------------------------------------------------------

/-- How often a worker has a stream. -/
def Worker.places (worker : Worker) (stream : Nat) : Nat :=
  worker.incoming.count stream
  + worker.taken.toList.count stream
  + (worker.conns.map Prod.snd).count stream

/-- The stream that the acceptor has in hand. -/
def Phase.stream : Phase → Option Nat
  | .accepted stream => some stream
  | .admitted stream => some stream
  | _ => none

theorem Worker.places_tryRecv {worker : Worker} (free : worker.taken = none) (stream : Nat)
    : worker.tryRecv.places stream = worker.places stream := by
  unfold tryRecv
  split
  · rfl
  · rename_i first rest queue
    simp only [places, queue, free, Option.toList_some, Option.toList_none, List.count_nil,
      List.count_cons]
    omega

theorem Worker.places_register {worker : Worker} {received : Nat}
    (taken : worker.taken = some received) (registers : Bool) (stream : Nat)
    : (worker.register received registers).places stream ≤ worker.places stream := by
  cases registers with
  | false =>
      simp only [places, register, taken, Option.toList_none, List.count_nil]
      simp
  | true =>
      simp only [places, register, taken, if_true, Option.toList_none, Option.toList_some,
        List.count_nil, List.map_append, List.count_append, List.map_cons, List.map_nil]
      omega

theorem Worker.places_close (worker : Worker) (token stream : Nat)
    : (worker.close token).places stream ≤ worker.places stream := by
  have fewer : ((worker.close token).conns.map Prod.snd).Sublist
      (worker.conns.map Prod.snd) :=
    List.eraseP_sublist.map Prod.snd
  exact Nat.add_le_add_left (fewer.count_le stream) _

theorem Worker.places_send (worker : Worker) (sent stream : Nat)
    : ({ worker with incoming := worker.incoming ++ [sent] } : Worker).places stream
      = worker.places stream + [sent].count stream := by
  simp only [places, List.count_append]
  omega

namespace System

/-- How often a stream is somewhere. -/
def places (system : System) (stream : Nat) : Nat :=
  system.phase.stream.toList.count stream
  + (system.workers.map (fun worker => worker.places stream)).sum

theorem places_setWorker {system : System} {index : Nat} {worker : Worker}
    (found : system.workers[index]? = some worker) (replaced : Worker) (stream : Nat)
    : (system.setWorker index replaced).places stream + worker.places stream
      = system.places stream + replaced.places stream := by
  have moved := @sum_set (fun worker => worker.places stream) _ _ _ found replaced
  simp only [places, setWorker]
  omega

theorem setWorker_places {system : System} {index : Nat} {worker replaced : Worker}
    (found : system.workers[index]? = some worker)
    (fewer : ∀ stream, replaced.places stream ≤ worker.places stream) (stream : Nat)
    : (system.setWorker index replaced).places stream ≤ system.places stream := by
  have moved := places_setWorker found replaced stream
  have less := fewer stream
  omega

theorem workerStep_places {system next : System} {worker : Worker} {index : Nat}
    {action : Action} (found : system.workers[index]? = some worker)
    (taken : system.workerStep worker index action = some next)
    : (∀ stream, next.places stream ≤ system.places stream)
      ∧ next.nextStream = system.nextStream := by
  cases action with
  | onWake _ =>
      obtain ⟨-, ⟨⟩⟩ := Option.ite_none_right_eq_some.mp taken
      exact ⟨setWorker_places found (fun _ => Nat.le_refl _), rfl⟩
  | tryRecv _ =>
      obtain ⟨free, ⟨⟩⟩ := Option.ite_none_right_eq_some.mp taken
      have empty := Option.isNone_iff_eq_none.mp (Bool.and_eq_true_iff.mp free).2
      exact ⟨setWorker_places found (fun _ => (Worker.places_tryRecv empty _).le), rfl⟩
  | register _ registers =>
      obtain ⟨stream, received, rfl⟩ := Option.map_eq_some_iff.mp taken
      exact ⟨setWorker_places found (Worker.places_register received registers), rfl⟩
  | close _ token =>
      obtain ⟨-, ⟨⟩⟩ := Option.ite_none_right_eq_some.mp taken
      exact ⟨setWorker_places found (Worker.places_close worker token), rfl⟩
  | _ => cases taken

/-- The acceptor puts the stream it has in hand into a channel, or drops it. -/
theorem acceptorStep_places {maxConnections : UInt64} {system next : System}
    {action : Action} (taken : system.acceptorStep maxConnections action = some next)
    : (∀ stream,
        next.places stream
        ≤ system.places stream
          + if action = .accept then [system.nextStream].count stream else 0)
      ∧ next.nextStream = system.nextStream + if action = .accept then 1 else 0 := by
  cases action with
  | accept =>
      simp only [acceptorStep] at taken
      split at taken
      · rename_i listening
        obtain rfl := Option.some.inj taken
        refine ⟨fun stream => ?_, rfl⟩
        simp only [places, listening, Phase.stream, Option.toList_some, Option.toList_none,
          List.count_nil, if_true]
        omega
      · cases taken
  | check =>
      simp only [acceptorStep] at taken
      split at taken
      · rename_i held accepted
        split at taken <;> obtain rfl := Option.some.inj taken
        · refine ⟨fun stream => ?_, rfl⟩
          simp only [places, accepted, Phase.stream, Option.toList_none, List.count_nil]
          omega
        · refine ⟨fun stream => ?_, rfl⟩
          simp only [places, accepted, Phase.stream]
          omega
      · cases taken
  | send =>
      simp only [acceptorStep] at taken
      split at taken
      · rename_i held worker admitted found
        obtain rfl := Option.some.inj taken
        refine ⟨fun stream => ?_, rfl⟩
        have moved := places_setWorker found
          { worker with incoming := worker.incoming ++ [held] } stream
        rw [Worker.places_send] at moved
        simp only [places, setWorker, admitted, Phase.stream, Option.toList_some,
          Option.toList_none, List.count_nil] at moved ⊢
        omega
      · cases taken
  | wake =>
      simp only [acceptorStep] at taken
      split at taken
      · rename_i index sent
        obtain ⟨worker, found, rfl⟩ := Option.map_eq_some_iff.mp taken
        refine ⟨fun stream => ?_, rfl⟩
        have moved := places_setWorker found { worker with woken := true } stream
        simp only [places, Worker.places, setWorker, sent, Phase.stream, Option.toList_none,
          List.count_nil] at moved ⊢
        omega
      · cases taken
  | configureFails | sendFails | wakeFails | acceptFails =>
      simp only [acceptorStep] at taken
      split at taken
      · rename_i phase
        obtain rfl := Option.some.inj taken
        refine ⟨fun stream => ?_, rfl⟩
        simp only [places, phase, Phase.stream, Option.toList_none, List.count_nil]
        omega
      · cases taken
  | _ => cases taken

/-- A step accepts a new stream, or moves and drops the streams there are. -/
theorem step_places {maxConnections : UInt64} {system next : System} {action : Action}
    (taken : system.step maxConnections action = some next)
    : (∀ stream,
        next.places stream
        ≤ system.places stream
          + if action = .accept then [system.nextStream].count stream else 0)
      ∧ next.nextStream = system.nextStream + if action = .accept then 1 else 0 := by
  unfold step at taken
  split at taken
  · exact acceptorStep_places taken
  · rename_i index acting
    obtain ⟨worker, found, taken⟩ := Option.bind_eq_some_iff.mp taken
    obtain ⟨fewer, same⟩ := workerStep_places found taken
    have other : action ≠ .accept := by
      rintro rfl
      cases acting
    rw [if_neg other]
    exact ⟨fun stream => (fewer stream).trans (Nat.le_add_right _ _), same⟩

/-- No stream is in two places, and only those accepted are somewhere. -/
structure Placed (system : System) : Prop where
  once : ∀ stream, system.places stream ≤ 1
  given : ∀ stream, system.nextStream ≤ stream → system.places stream = 0

theorem Placed.step {maxConnections : UInt64} {system next : System} {action : Action}
    (placed : system.Placed) (taken : system.step maxConnections action = some next)
    : next.Placed := by
  obtain ⟨fewer, counter⟩ := step_places taken
  by_cases accepting : action = .accept
  · simp only [accepting, if_true] at fewer counter
    have count (stream : Nat) : [system.nextStream].count stream
        = if system.nextStream = stream then 1 else 0 := by
      simp [List.count_singleton]
    constructor
    · intro stream
      have bound := fewer stream
      rw [count] at bound
      have one := placed.once stream
      split at bound
      · rename_i new
        have none := placed.given stream new.le
        omega
      · omega
    · intro stream later
      have bound := fewer stream
      rw [count, if_neg (by omega), placed.given stream (by omega)] at bound
      omega
  · simp only [accepting, if_false, Nat.add_zero] at fewer counter
    constructor
    · exact fun stream => (fewer stream).trans (placed.once stream)
    · intro stream later
      have bound := fewer stream
      rw [placed.given stream (counter ▸ later)] at bound
      omega

-----------------------------------------------------------------------------------------
-- No stream is forgotten in a channel
-----------------------------------------------------------------------------------------

/-- A worker with streams in its channel has been woken, is emptying the channel, or is about
to be woken. One that has taken a stream is emptying its channel.
-/
structure Attended (system : System) : Prop where
  awake
    : ∀ (index : Nat) (worker : Worker),
        system.workers[index]? = some worker
        → worker.incoming ≠ []
        → worker.woken = true ∨ worker.draining = true ∨ system.phase = .sent index
  taking
    : ∀ (index : Nat) (worker : Worker),
        system.workers[index]? = some worker
        → worker.taken.isSome
        → worker.draining = true

theorem worker_of_set {system : System} {index other : Nat} {replaced worker : Worker}
    (found : (system.setWorker index replaced).workers[other]? = some worker)
    : other = index ∧ worker = replaced
      ∨ other ≠ index ∧ system.workers[other]? = some worker := by
  have found : (system.workers.set index replaced)[other]? = some worker := found
  rw [List.getElem?_set] at found
  by_cases same : index = other
  · rw [if_pos same] at found
    obtain ⟨-, ⟨⟩⟩ := Option.ite_none_right_eq_some.mp found
    exact .inl ⟨same.symm, rfl⟩
  · rw [if_neg same] at found
    exact .inr ⟨Ne.symm same, found⟩

/-- A worker that still attends to its channel, while the acceptor stays where it is. -/
theorem Attended.setWorker {system : System} (attended : system.Attended) {index : Nat}
    {replaced : Worker}
    (awake
      : replaced.incoming ≠ []
        → replaced.woken = true ∨ replaced.draining = true ∨ system.phase = .sent index)
    (taking : replaced.taken.isSome → replaced.draining = true)
    : (system.setWorker index replaced).Attended := by
  constructor
  · intro other worker found waiting
    rcases worker_of_set found with ⟨rfl, rfl⟩ | ⟨-, before⟩
    · exact awake waiting
    · exact attended.awake other worker before waiting
  · intro other worker found held
    rcases worker_of_set found with ⟨rfl, rfl⟩ | ⟨-, before⟩
    · exact taking held
    · exact attended.taking other worker before held

theorem Attended.workerStep {system next : System} (attended : system.Attended)
    {worker : Worker} {index : Nat} {action : Action}
    (found : system.workers[index]? = some worker)
    (taken : system.workerStep worker index action = some next)
    : next.Attended := by
  cases action with
  | onWake _ =>
      obtain ⟨-, ⟨⟩⟩ := Option.ite_none_right_eq_some.mp taken
      exact attended.setWorker (fun _ => .inr (.inl rfl)) (fun _ => rfl)
  | tryRecv _ =>
      obtain ⟨free, ⟨⟩⟩ := Option.ite_none_right_eq_some.mp taken
      obtain ⟨draining, empty⟩ := Bool.and_eq_true_iff.mp free
      have empty := Option.isNone_iff_eq_none.mp empty
      cases queue : worker.incoming with
      | nil =>
          have same : worker.tryRecv = { worker with draining := false } := by
            simp only [Worker.tryRecv, queue]
          rw [same]
          refine attended.setWorker (fun waiting => absurd queue waiting) (fun held => ?_)
          rw [show worker.taken = none from empty] at held
          cases held
      | cons stream rest =>
          have same : worker.tryRecv = { worker with incoming := rest, taken := some stream } :=
            by simp only [Worker.tryRecv, queue]
          rw [same]
          exact attended.setWorker (fun _ => .inr (.inl draining)) (fun _ => draining)
  | register _ registers =>
      obtain ⟨stream, received, rfl⟩ := Option.map_eq_some_iff.mp taken
      have draining := attended.taking index worker found (by rw [received]; rfl)
      have after : (system.setWorker index (worker.register stream registers)).Attended :=
        attended.setWorker (fun _ => .inr (.inl draining)) (fun _ => draining)
      exact ⟨after.awake, after.taking⟩
  | close _ token =>
      obtain ⟨-, ⟨⟩⟩ := Option.ite_none_right_eq_some.mp taken
      have after : (system.setWorker index (worker.close token)).Attended :=
        attended.setWorker (attended.awake index worker found)
          (attended.taking index worker found)
      exact ⟨after.awake, after.taking⟩
  | _ => cases taken

/-- The acceptor wakes the worker that it has sent a stream to. -/
theorem Attended.acceptorStep {maxConnections : UInt64} {system next : System}
    (attended : system.Attended) {action : Action}
    (taken : system.acceptorStep maxConnections action = some next)
    (wakes : action ≠ .wakeFails)
    : next.Attended := by
  -- in all other phases, no worker waits for the acceptor
  have elsewhere {phase : Phase} (other : ∀ index, system.phase ≠ .sent index)
      : ({ system with phase } : System).Attended := by
    refine ⟨fun index worker found waiting => ?_, attended.taking⟩
    rcases attended.awake index worker found waiting with woken | draining | sent
    · exact .inl woken
    · exact .inr (.inl draining)
    · exact absurd sent (other index)
  cases action with
  | accept =>
      simp only [System.acceptorStep] at taken
      split at taken
      · rename_i phase
        obtain rfl := Option.some.inj taken
        have after := @elsewhere (.accepted system.nextStream) (by simp [phase])
        exact ⟨after.awake, after.taking⟩
      · cases taken
  | send =>
      simp only [System.acceptorStep] at taken
      split at taken
      · rename_i held worker phase found
        obtain rfl := Option.some.inj taken
        have after := @elsewhere (.sent system.nextWorker) (by simp [phase])
        have sent := @Attended.setWorker _ after system.nextWorker
          { worker with incoming := worker.incoming ++ [held] } (fun _ => .inr (.inr rfl))
          (attended.taking _ worker found)
        exact ⟨sent.awake, sent.taking⟩
      · cases taken
  | wake =>
      simp only [System.acceptorStep] at taken
      split at taken
      · rename_i index phase
        obtain ⟨worker, found, rfl⟩ := Option.map_eq_some_iff.mp taken
        have woken := @Attended.setWorker _ attended index { worker with woken := true }
          (fun _ => .inl rfl) (attended.taking _ worker found)
        refine ⟨fun other kept later waiting => ?_, woken.taking⟩
        rcases worker_of_set later with ⟨rfl, rfl⟩ | ⟨different, before⟩
        · exact .inl rfl
        · rcases attended.awake other kept before waiting with woken | draining | sent
          · exact .inl woken
          · exact .inr (.inl draining)
          · rw [phase] at sent
            exact absurd (Phase.sent.inj sent).symm different
      · cases taken
  | check =>
      simp only [System.acceptorStep] at taken
      split at taken
      · rename_i held phase
        split at taken <;> obtain rfl := Option.some.inj taken <;>
          exact elsewhere (by simp [phase])
      · cases taken
  | wakeFails => exact absurd rfl wakes
  | acceptFails =>
      simp only [System.acceptorStep] at taken
      split at taken
      · obtain rfl := Option.some.inj taken
        exact attended
      · cases taken
  | configureFails | sendFails =>
      simp only [System.acceptorStep] at taken
      split at taken
      · rename_i phase
        obtain rfl := Option.some.inj taken
        have after := @elsewhere .listening (by simp [phase])
        exact ⟨after.awake, after.taking⟩
      · cases taken
  | _ => cases taken

theorem Attended.step {maxConnections : UInt64} {system next : System} {action : Action}
    (attended : system.Attended) (taken : system.step maxConnections action = some next)
    (wakes : action ≠ .wakeFails)
    : next.Attended := by
  unfold System.step at taken
  split at taken
  · exact attended.acceptorStep taken wakes
  · obtain ⟨worker, found, taken⟩ := Option.bind_eq_some_iff.mp taken
    exact attended.workerStep found taken

-----------------------------------------------------------------------------------------
-- A worker empties its channel
-----------------------------------------------------------------------------------------

/-- What a worker does with the streams of its channel, if it can register them all. -/
def emptyChannel (index : Nat) : List Nat → List Action
  | [] => [.tryRecv index]
  | _ :: rest => .tryRecv index :: .register index true :: emptyChannel index rest

theorem actor_emptyChannel (index : Nat) (streams : List Nat)
    : ∀ action ∈ emptyChannel index streams, actor action = some index := by
  induction streams with
  | nil => simp [emptyChannel, actor]
  | cons stream rest ih => simpa [emptyChannel, actor] using ih

theorem worker_setWorker {system : System} {index : Nat} {worker : Worker}
    (found : system.workers[index]? = some worker) (replaced : Worker)
    : (system.setWorker index replaced).workers[index]? = some replaced := by
  change (system.workers.set index replaced)[index]? = some replaced
  rw [List.getElem?_set_self (List.getElem?_eq_some_iff.mp found).1]

/-- Witness: induction over the channel; each stream takes two steps. -/
theorem execute_emptyChannel (maxConnections : UInt64) {system : System} {index : Nat}
    {worker : Worker} (found : system.workers[index]? = some worker)
    (draining : worker.draining = true) (free : worker.taken = none)
    : ∃ last done,
        execute maxConnections system (emptyChannel index worker.incoming) = some ([], last)
        ∧ last.workers[index]? = some done
        ∧ done.incoming = []
        ∧ done.taken = none
        ∧ done.conns.map Prod.snd = worker.conns.map Prod.snd ++ worker.incoming := by
  generalize queue : worker.incoming = streams
  induction streams generalizing system worker with
  | nil =>
      refine ⟨system.setWorker index worker.tryRecv, worker.tryRecv, ?_,
        worker_setWorker found _, ?_, ?_, ?_⟩
      · simp [emptyChannel, execute, step, actor, found, workerStep, draining, free]
      · simp [Worker.tryRecv, queue]
      · simp [Worker.tryRecv, queue, free]
      · simp [Worker.tryRecv, queue]
  | cons stream rest ih =>
      let received : Worker := { worker with incoming := rest, taken := some stream }
      let registered := received.register stream true
      let middle := system.setWorker index received
      let next : System := {
        middle.setWorker index registered with
        activeConnections := middle.activeConnections + 1
      }
      have here := worker_setWorker found received
      have later : next.workers[index]? = some registered := worker_setWorker here registered
      obtain ⟨last, done, run, kept, empty, released, streams⟩ := ih later draining rfl rfl
      refine ⟨last, done, ?_, kept, empty, released, ?_⟩
      · have first : system.step maxConnections (.tryRecv index) = some middle := by
          simp [step, actor, found, workerStep, draining, free, Worker.tryRecv, queue, middle,
            received]
        have second : middle.step maxConnections (.register index true) = some next := by
          simp [step, actor, here, workerStep, received, next, registered, middle]
        simp [emptyChannel, execute, first, second, run]
      · rw [streams]
        simp [registered, received, Worker.register]

/-- A worker that attends to its channel empties it by steps of its own. -/
theorem Attended.empties {system : System} (attended : system.Attended)
    (maxConnections : UInt64) {index : Nat} {worker : Worker}
    (found : system.workers[index]? = some worker)
    (awake : worker.woken = true ∨ worker.draining = true)
    : ∃ own last done,
        (∀ action ∈ own, actor action = some index)
        ∧ execute maxConnections system own = some ([], last)
        ∧ last.workers[index]? = some done
        ∧ done.incoming = []
        ∧ done.taken = none
        ∧ done.conns.map Prod.snd
          = worker.conns.map Prod.snd ++ worker.taken.toList ++ worker.incoming := by
  have own := actor_emptyChannel index worker.incoming
  cases draining : worker.draining with
  | true =>
      cases held : worker.taken with
      | none =>
          obtain ⟨last, done, run, kept, empty, free, streams⟩ :=
            execute_emptyChannel maxConnections found draining held
          exact ⟨_, last, done, own, run, kept, empty, free, by simpa using streams⟩
      | some stream =>
          let registered := worker.register stream true
          let next : System := {
            system.setWorker index registered with
            activeConnections := system.activeConnections + 1
          }
          have first : system.step maxConnections (.register index true) = some next := by
            simp [System.step, actor, found, System.workerStep, held, next, registered]
          have later : next.workers[index]? = some registered :=
            worker_setWorker found registered
          obtain ⟨last, done, run, kept, empty, free, streams⟩ :=
            execute_emptyChannel maxConnections later draining rfl
          refine ⟨.register index true :: emptyChannel index worker.incoming, last, done,
            List.forall_mem_cons.mpr ⟨rfl, own⟩, ?_, kept, empty, free, ?_⟩
          · have run : execute maxConnections next (emptyChannel index worker.incoming)
                = some ([], last) := run
            simp [execute, first, run]
          · rw [streams]
            simp [registered, Worker.register]
  | false =>
      have woken : worker.woken = true := by simpa [draining] using awake
      have free : worker.taken = none := by
        cases held : worker.taken with
        | none => rfl
        | some stream =>
            have busy := attended.taking index worker found (by rw [held]; rfl)
            cases draining.symm.trans busy
      let started : Worker := { worker with woken := false, draining := true }
      have first : system.step maxConnections (.onWake index)
          = some (system.setWorker index started) := by
        simp [System.step, actor, found, System.workerStep, woken, draining, started]
      have later := worker_setWorker found started
      obtain ⟨last, done, run, kept, empty, released, streams⟩ :=
        execute_emptyChannel maxConnections later rfl free
      refine ⟨.onWake index :: emptyChannel index worker.incoming, last, done,
        List.forall_mem_cons.mpr ⟨rfl, own⟩, ?_, kept, empty, released, ?_⟩
      · have run : execute maxConnections (system.setWorker index started)
            (emptyChannel index worker.incoming) = some ([], last) := run
        simp [execute, first, run]
      · rw [streams]
        simp [started, free]

-----------------------------------------------------------------------------------------
-- Runs
-----------------------------------------------------------------------------------------

theorem placed_new (numWorkers : Nat) : (new numWorkers).Placed := by
  have none (stream : Nat) : (new numWorkers).places stream = 0 := by
    simp [places, new, Phase.stream, Worker.places, Worker.new]
  exact ⟨fun stream => (none stream).le.trans (Nat.zero_le 1), fun stream _ => none stream⟩

theorem attended_new (numWorkers : Nat) : (new numWorkers).Attended := by
  have only {index : Nat} {worker : Worker}
      (found : (new numWorkers).workers[index]? = some worker) : worker = .new :=
    List.eq_of_mem_replicate (List.mem_of_getElem? found)
  constructor
  · intro index worker found waiting
    exact absurd (by rw [only found]; rfl) waiting
  · intro index worker found held
    rw [only found] at held
    cases held

/-- Witness: induction over the run. -/
theorem execute_placed {maxConnections : UInt64} {actions : List Action}
    {system last : System} {checks : List System} (placed : system.Placed)
    (run : execute maxConnections system actions = some (checks, last))
    : last.Placed
      ∧ (system.Attended
        → (∀ action ∈ actions, action ≠ .wakeFails)
        → last.Attended) := by
  induction actions generalizing system checks with
  | nil =>
      obtain ⟨-, rfl⟩ := Prod.mk.inj (Option.some.inj run)
      exact ⟨placed, fun attended _ => attended⟩
  | cons action actions ih =>
      rw [execute] at run
      obtain ⟨next, taken, run⟩ := Option.bind_eq_some_iff.mp run
      obtain ⟨⟨later, final⟩, rest, listed⟩ := Option.bind_eq_some_iff.mp run
      obtain ⟨-, rfl⟩ := Prod.mk.inj (Option.some.inj listed)
      obtain ⟨last, attends⟩ := ih (placed.step taken) rest
      refine ⟨last, fun attended wakes => ?_⟩
      obtain ⟨first, others⟩ := List.forall_mem_cons.mp wakes
      exact attends (attended.step taken first) others

/-- In every run, a stream is in at most one place: the acceptor's hand, a channel, a worker's
hand or a connection. As long as the wakers work, no stream is forgotten in a channel: its
worker can register all streams in it by steps of its own, in their order, unless the
acceptor is just about to wake it.
-/
theorem streams_handed_over (maxConnections : UInt64) (numWorkers : Nat)
    (actions : List Action) (checks : List System) (last : System)
    (run : execute maxConnections (new numWorkers) actions = some (checks, last))
    : (∀ stream, last.places stream ≤ 1)
      ∧ ((∀ action ∈ actions, action ≠ .wakeFails)
        → ∀ index worker,
            last.workers[index]? = some worker
            → worker.incoming ≠ []
            → last.phase ≠ .sent index
            → ∃ own next done,
                (∀ action ∈ own, actor action = some index)
                ∧ execute maxConnections last own = some ([], next)
                ∧ next.workers[index]? = some done
                ∧ done.incoming = []
                ∧ done.taken = none
                ∧ done.conns.map Prod.snd
                  = worker.conns.map Prod.snd ++ worker.taken.toList ++ worker.incoming) := by
  obtain ⟨placed, attends⟩ := execute_placed (placed_new numWorkers) run
  refine ⟨placed.once, fun wakes index worker found waiting elsewhere => ?_⟩
  have attended := attends (attended_new numWorkers) wakes
  refine attended.empties maxConnections found ?_
  rcases attended.awake index worker found waiting with woken | draining | sent
  · exact .inl woken
  · exact .inr draining
  · exact absurd sent elsewhere

/-- Two streams arrive while the worker is still busy with the first wake-up. -/
def lateStreams : List Action :=
  [
    .accept, .check, .send, .wake, .onWake 0, .tryRecv 0, .accept, .check, .send,
    .register 0 true, .wake
  ]

/-- Witness: the second stream is registered too. -/
theorem streams_handed_over_late
    : ∃ checks last own next done,
        execute 9 (new 1) lateStreams = some (checks, last)
        ∧ execute 9 last own = some ([], next)
        ∧ next.workers[0]? = some done
        ∧ done.conns.map Prod.snd = [0, 1] := by
  have ran : (execute 9 (new 1) lateStreams).any (fun run =>
      run.2.phase = .listening
      && run.2.workers[0]?.any (fun worker =>
        worker.conns.map Prod.snd = [0]
        && worker.taken = none
        && worker.incoming = [1])) := by
    decide +kernel
  obtain ⟨⟨checks, last⟩, run, facts⟩ := (Option.any_eq_true _ _).mp ran
  obtain ⟨listening, waiting⟩ := Bool.and_eq_true_iff.mp facts
  obtain ⟨worker, found, facts⟩ := (Option.any_eq_true _ _).mp waiting
  simp only [Bool.and_eq_true, decide_eq_true_eq] at facts listening
  obtain ⟨⟨conns, taken⟩, incoming⟩ := facts
  obtain ⟨own, next, done, -, ran, kept, -, -, streams⟩ :=
    (streams_handed_over 9 1 lateStreams checks last run).2 (by decide) 0 worker found
      (by simp [incoming]) (by simp [listening])
  refine ⟨checks, last, own, next, done, run, ran, kept, ?_⟩
  rw [streams, conns, taken, incoming]
  rfl

-----------------------------------------------------------------------------------------
-- The workers take turns
-----------------------------------------------------------------------------------------

/-- A stream is handed to a worker, or lost because the worker's channel is closed. -/
def handsOver : Action → Bool
  | .send => true
  | .sendFails => true
  | _ => false

/-- The workers that the streams of a run are meant for. -/
def targets (maxConnections : UInt64) : System → List Action → List Nat
  | _, [] => []
  | system, action :: actions =>
      (if handsOver action then [system.nextWorker] else [])
      ++ ((system.step maxConnections action).map
            (fun next => targets maxConnections next actions)).getD []

theorem nextWorker_acceptorStep {maxConnections : UInt64} {system next : System}
    {action : Action} (taken : system.acceptorStep maxConnections action = some next)
    : next.workers.length = system.workers.length
      ∧ next.nextWorker
        = if handsOver action then (system.nextWorker + 1) % system.workers.length
          else system.nextWorker := by
  cases action with
  | accept | acceptFails | configureFails | sendFails | wakeFails =>
      simp only [acceptorStep] at taken
      split at taken
      · obtain rfl := Option.some.inj taken
        exact ⟨rfl, rfl⟩
      · cases taken
  | check =>
      simp only [acceptorStep] at taken
      split at taken
      · split at taken <;> obtain rfl := Option.some.inj taken <;> exact ⟨rfl, rfl⟩
      · cases taken
  | send =>
      simp only [acceptorStep] at taken
      split at taken
      · obtain rfl := Option.some.inj taken
        exact ⟨List.length_set, rfl⟩
      · cases taken
  | wake =>
      simp only [acceptorStep] at taken
      split at taken
      · obtain ⟨worker, -, rfl⟩ := Option.map_eq_some_iff.mp taken
        exact ⟨List.length_set, rfl⟩
      · cases taken
  | _ => cases taken

theorem nextWorker_workerStep {system next : System} {worker : Worker} {index : Nat}
    {action : Action} (taken : system.workerStep worker index action = some next)
    : next.workers.length = system.workers.length
      ∧ next.nextWorker = system.nextWorker
      ∧ handsOver action = false := by
  cases action with
  | onWake _ | tryRecv _ | close _ _ =>
      obtain ⟨-, ⟨⟩⟩ := Option.ite_none_right_eq_some.mp taken
      exact ⟨List.length_set, rfl, rfl⟩
  | register _ registers =>
      obtain ⟨stream, -, rfl⟩ := Option.map_eq_some_iff.mp taken
      exact ⟨List.length_set, rfl, rfl⟩
  | _ => cases taken

theorem nextWorker_step {maxConnections : UInt64} {system next : System} {action : Action}
    (taken : system.step maxConnections action = some next)
    : next.workers.length = system.workers.length
      ∧ next.nextWorker
        = if handsOver action then (system.nextWorker + 1) % system.workers.length
          else system.nextWorker := by
  unfold step at taken
  split at taken
  · exact nextWorker_acceptorStep taken
  · obtain ⟨worker, -, taken⟩ := Option.bind_eq_some_iff.mp taken
    obtain ⟨same, next, other⟩ := nextWorker_workerStep taken
    exact ⟨same, by rw [other]; exact next⟩

/-- Witness: induction over the run, from a state where `first` streams were handed over. -/
theorem targets_eq {maxConnections : UInt64} {actions : List Action} {system last : System}
    {checks : List System} {first : Nat}
    (turn : system.nextWorker = first % system.workers.length)
    (run : execute maxConnections system actions = some (checks, last))
    : targets maxConnections system actions
      = (List.range (actions.countP handsOver)).map
          (fun i => (first + i) % system.workers.length) := by
  induction actions generalizing system checks last first with
  | nil => rfl
  | cons action actions ih =>
      rw [execute] at run
      obtain ⟨next, taken, run⟩ := Option.bind_eq_some_iff.mp run
      obtain ⟨⟨later, final⟩, rest, -⟩ := Option.bind_eq_some_iff.mp run
      obtain ⟨same, advanced⟩ := nextWorker_step taken
      rw [targets, taken]
      change _ ++ targets maxConnections next actions = _
      cases hands : handsOver action with
      | false =>
          rw [hands] at advanced
          have later : next.nextWorker = first % next.workers.length := by
            rw [advanced, same]
            exact turn
          simp [ih later rest, hands, same]
      | true =>
          rw [hands] at advanced
          have later : next.nextWorker = (first + 1) % next.workers.length := by
            rw [advanced, same, turn]
            simp [Nat.add_mod]
          rw [ih later rest, List.countP_cons_of_pos hands, List.range_succ_eq_map]
          simp [turn, same, Nat.add_assoc, Nat.add_comm 1, Function.comp_def]

/-- How many of the first numbers a worker has the turn for. -/
theorem count_turns {numWorkers worker : Nat} (valid : worker < numWorkers) (total : Nat)
    : ((List.range total).map (fun i => i % numWorkers)).count worker
      = total / numWorkers + if worker < total % numWorkers then 1 else 0 := by
  have counted : ((List.range total).map (fun i => i % numWorkers)).count worker
      = total.count (· ≡ worker [MOD numWorkers]) := by
    induction total with
    | zero => simp
    | succ total ih =>
        rw [List.range_succ, List.map_append, List.count_append, ih, Nat.count_succ]
        simp [Nat.ModEq, Nat.mod_eq_of_lt valid, List.count_singleton]
  rw [counted, Nat.count_modEq_card _ (by omega), Nat.mod_eq_of_lt valid]

/-- In every run, the streams that pass the cap go to the workers in turn, so that no worker
is given two more than another.
-/
theorem workers_take_turns (maxConnections : UInt64) (numWorkers : Nat)
    (actions : List Action) (checks : List System) (last : System)
    (run : execute maxConnections (new numWorkers) actions = some (checks, last))
    : targets maxConnections (new numWorkers) actions
        = (List.range (actions.countP handsOver)).map (fun i => i % numWorkers)
      ∧ ∀ worker other,
          worker < numWorkers
          → other < numWorkers
          → (targets maxConnections (new numWorkers) actions).count worker
            ≤ (targets maxConnections (new numWorkers) actions).count other + 1 := by
  have length : (new numWorkers).workers.length = numWorkers := List.length_replicate
  have start : (new numWorkers).nextWorker = 0 % (new numWorkers).workers.length := by
    simp [new]
  have turns := targets_eq start run
  simp only [Nat.zero_add, length] at turns
  refine ⟨turns, fun worker other valid alsoValid => ?_⟩
  rw [turns, count_turns valid, count_turns alsoValid]
  split <;> split <;> omega

/-- Witness: three streams for two workers, the second one lost. -/
theorem workers_take_turns_three
    : targets 9 (new 2)
        [.accept, .check, .send, .wake, .accept, .check, .sendFails, .accept, .check, .send]
      = [0, 1, 0] := by
  have ran : (execute 9 (new 2)
      [.accept, .check, .send, .wake, .accept, .check, .sendFails, .accept, .check,
        .send]).isSome := by
    decide +kernel
  obtain ⟨⟨checks, last⟩, run⟩ := Option.isSome_iff_exists.mp ran
  exact (workers_take_turns 9 2 _ checks last run).1

end System

end Rustikv.Server.Admission

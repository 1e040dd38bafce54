import Mathlib.Algebra.Order.BigOperators.Group.List
import Mathlib.Algebra.Order.Ring.Nat

/-! The connection cap. The acceptor compares a counter that the workers increment when they
register a stream, so streams on their way to a worker are not counted.
-/

namespace Rustikv.Server.Admission

/-- Where the acceptor is between two streams. -/
inductive Phase
  | listening
  | accepted (stream : Nat)
  | admitted (stream : Nat)
  | sent (worker : Nat)
  deriving DecidableEq, Repr

/-- A worker's channel and connections. It is `draining` inside the loop of `on_wake`, where
`taken` is the stream it has received and not yet registered.
-/
structure Worker where
  incoming : List Nat
  woken : Bool
  draining : Bool
  taken : Option Nat
  conns : List (Nat × Nat)
  nextToken : Nat
  deriving DecidableEq, Repr

structure System where
  phase : Phase
  nextWorker : Nat
  nextStream : Nat
  workers : List Worker
  activeConnections : Int
  deriving DecidableEq, Repr

inductive Action
  | accept
  | acceptFails
  | check
  | configureFails
  | send
  | sendFails
  | wake
  | wakeFails
  | onWake (worker : Nat)
  | tryRecv (worker : Nat)
  | register (worker : Nat) (registers : Bool)
  | close (worker token : Nat)
  deriving DecidableEq, Repr

def Worker.new : Worker :=
  { incoming := [], woken := false, draining := false, taken := none, conns := [], nextToken := 0 }

def Worker.tryRecv (worker : Worker) : Worker :=
  match worker.incoming with
  | [] => { worker with draining := false }
  | stream :: rest => { worker with incoming := rest, taken := some stream }

/-- A stream that cannot be registered is dropped; its token is not used again. -/
def Worker.register (worker : Worker) (stream : Nat) (registers : Bool) : Worker :=
  {
    worker with
    taken := none
    nextToken := worker.nextToken + 1
    conns :=
      if registers then worker.conns ++ [(worker.nextToken, stream)] else worker.conns
  }

def Worker.close (worker : Worker) (token : Nat) : Worker :=
  { worker with conns := worker.conns.eraseP (fun entry => entry.1 = token) }

namespace System

def new (numWorkers : Nat) : System :=
  {
    phase := .listening
    nextWorker := 0
    nextStream := 0
    workers := List.replicate numWorkers .new
    activeConnections := 0
  }

/-- The cap as the acceptor compares it, `max_connections as i64`. -/
def capOf (maxConnections : UInt64) : Int :=
  maxConnections.toInt64.toInt

/-- The check of the acceptor: the counter has reached the cap. -/
def Refuses (maxConnections : UInt64) (system : System) : Prop :=
  capOf maxConnections ≤ system.activeConnections

instance (maxConnections : UInt64) (system : System)
    : Decidable (system.Refuses maxConnections) :=
  inferInstanceAs (Decidable (_ ≤ _))

def setWorker (system : System) (index : Nat) (worker : Worker) : System :=
  { system with workers := system.workers.set index worker }

/-- One step of the acceptor's loop. -/
def acceptorStep (maxConnections : UInt64) (system : System) : Action → Option System
  | .accept =>
      match system.phase with
      | .listening =>
          some {
            system with
            phase := .accepted system.nextStream
            nextStream := system.nextStream + 1
          }
      | _ => none
  | .acceptFails =>
      match system.phase with
      | .listening => some system
      | _ => none
  | .check =>
      match system.phase with
      | .accepted stream =>
          if system.Refuses maxConnections then some { system with phase := .listening }
          else some { system with phase := .admitted stream }
      | _ => none
  | .configureFails =>
      match system.phase with
      | .admitted _ => some { system with phase := .listening }
      | _ => none
  | .send =>
      match system.phase, system.workers[system.nextWorker]? with
      | .admitted stream, some worker =>
          some {
            system.setWorker system.nextWorker
              { worker with incoming := worker.incoming ++ [stream] } with
            phase := .sent system.nextWorker
            nextWorker := (system.nextWorker + 1) % system.workers.length
          }
      | _, _ => none
  | .sendFails =>
      match system.phase with
      | .admitted _ =>
          some {
            system with
            phase := .listening
            nextWorker := (system.nextWorker + 1) % system.workers.length
          }
      | _ => none
  | .wake =>
      match system.phase with
      | .sent index =>
          (system.workers[index]?).map (fun worker =>
            { system.setWorker index { worker with woken := true } with phase := .listening })
      | _ => none
  | .wakeFails =>
      match system.phase with
      | .sent _ => some { system with phase := .listening }
      | _ => none
  | _ => none

/-- One step of a worker's loop. -/
def workerStep (system : System) (worker : Worker) (index : Nat)
    : Action → Option System
  | .onWake _ =>
      if worker.woken && !worker.draining then
        some (system.setWorker index { worker with woken := false, draining := true })
      else
        none
  | .tryRecv _ =>
      if worker.draining && worker.taken.isNone then
        some (system.setWorker index worker.tryRecv)
      else
        none
  | .register _ registers =>
      worker.taken.map (fun stream =>
        {
          system.setWorker index (worker.register stream registers) with
          activeConnections := system.activeConnections + if registers then 1 else 0
        })
  | .close _ token =>
      if !worker.draining && worker.conns.any (fun entry => entry.1 = token) then
        some {
          system.setWorker index (worker.close token) with
          activeConnections := system.activeConnections - 1
        }
      else
        none
  | _ => none

/-- The worker that takes the step, if it is not the acceptor. -/
def actor : Action → Option Nat
  | .onWake index => some index
  | .tryRecv index => some index
  | .register index _ => some index
  | .close index _ => some index
  | _ => none

def step (maxConnections : UInt64) (system : System) (action : Action) : Option System :=
  match actor action with
  | none => system.acceptorStep maxConnections action
  | some index => do
      let worker ← system.workers[index]?
      system.workerStep worker index action

/-- Takes the steps in order, and lists the states in which the acceptor checked. -/
def execute (maxConnections : UInt64) : System → List Action → Option (List System × System)
  | system, [] => some ([], system)
  | system, action :: actions => do
      let next ← system.step maxConnections action
      let (checks, last) ← execute maxConnections next actions
      return (if action = .check then system :: checks else checks, last)

end System

-----------------------------------------------------------------------------------------
-- Streams handed over and not closed
-----------------------------------------------------------------------------------------

/-- The streams a worker has been sent and has not dropped. -/
def Worker.handed (worker : Worker) : Nat :=
  worker.incoming.length + worker.taken.toList.length + worker.conns.length

theorem Worker.handed_tryRecv {worker : Worker} (free : worker.taken = none)
    : worker.tryRecv.handed = worker.handed := by
  unfold tryRecv
  split
  · rfl
  · rename_i stream rest queue
    simp [handed, queue, free]

theorem Worker.conns_tryRecv (worker : Worker) : worker.tryRecv.conns = worker.conns := by
  unfold tryRecv
  split <;> rfl

theorem Worker.handed_register {worker : Worker} {stream : Nat}
    (received : worker.taken = some stream) (registers : Bool)
    : (worker.register stream registers).handed ≤ worker.handed := by
  cases registers <;> simp [handed, register, received]
  omega

theorem Worker.conns_close {worker : Worker} {token : Nat}
    (registered : worker.conns.any (fun entry => entry.1 = token))
    : (worker.close token).conns.length + 1 = worker.conns.length := by
  obtain ⟨entry, member, matching⟩ := List.any_eq_true.mp registered
  have shorter := List.length_eraseP_of_mem (p := fun entry => entry.1 = token) member matching
  have some := List.length_pos_of_mem member
  simp only [close]
  omega

theorem sum_set {count : Worker → Nat} {workers : List Worker} {index : Nat}
    {worker : Worker} (found : workers[index]? = some worker) (replaced : Worker)
    : ((workers.set index replaced).map count).sum + count worker
      = (workers.map count).sum + count replaced := by
  induction workers generalizing index with
  | nil => simp at found
  | cons head rest ih =>
      cases index with
      | zero =>
          obtain rfl : head = worker := by simpa using found
          simp only [List.set_cons_zero, List.map_cons, List.sum_cons]
          omega
      | succ index =>
          have tail := ih (by simpa using found)
          simp only [List.set_cons_succ, List.map_cons, List.sum_cons]
          omega

namespace System

def handed (system : System) : Nat :=
  (system.workers.map Worker.handed).sum

def registered (system : System) : Nat :=
  (system.workers.map (fun worker => worker.conns.length)).sum

/-- The stream that passed the check and was not sent yet. -/
def admitted (system : System) : Nat :=
  match system.phase with
  | .admitted _ => 1
  | _ => 0

theorem registered_le_handed (system : System) : system.registered ≤ system.handed := by
  exact List.sum_le_sum (fun worker _ => Nat.le_add_left _ _)

/-- The counter counts the registered streams. -/
def Counted (system : System) : Prop :=
  system.activeConnections = system.registered

theorem handed_setWorker {system : System} {index : Nat} {worker : Worker}
    (found : system.workers[index]? = some worker) (replaced : Worker)
    : (system.setWorker index replaced).handed + worker.handed
      = system.handed + replaced.handed :=
  sum_set found replaced

theorem registered_setWorker {system : System} {index : Nat} {worker : Worker}
    (found : system.workers[index]? = some worker) (replaced : Worker)
    : (system.setWorker index replaced).registered + worker.conns.length
      = system.registered + replaced.conns.length :=
  @sum_set (fun worker => worker.conns.length) _ _ _ found replaced

/-- A worker with no more streams, and the counter moved with its connections. -/
theorem setWorker_counts {system : System} {index : Nat} {worker replaced : Worker}
    (found : system.workers[index]? = some worker) (change : Int)
    (fewer : replaced.handed ≤ worker.handed)
    (counts : (replaced.conns.length : Int) = worker.conns.length + change)
    : let next : System :=
        {
          system.setWorker index replaced with
          activeConnections := system.activeConnections + change
        }
      next.phase = system.phase
      ∧ next.handed ≤ system.handed
      ∧ (system.Counted → next.Counted) := by
  have handed := handed_setWorker found replaced
  have registered := registered_setWorker found replaced
  refine ⟨rfl, ?_, fun counted => ?_⟩
  · change (system.setWorker index replaced).handed ≤ system.handed
    omega
  · unfold Counted at counted ⊢
    change system.activeConnections + change = (system.setWorker index replaced).registered
    omega

/-- A worker that registers and closes nothing. -/
theorem setWorker_counts_same {system : System} {index : Nat} {worker replaced : Worker}
    (found : system.workers[index]? = some worker)
    (fewer : replaced.handed ≤ worker.handed) (same : replaced.conns = worker.conns)
    : (system.setWorker index replaced).phase = system.phase
      ∧ (system.setWorker index replaced).handed ≤ system.handed
      ∧ (system.Counted → (system.setWorker index replaced).Counted) := by
  obtain ⟨phase, handed, counted⟩ := setWorker_counts found 0 fewer (by simp [same])
  rw [Int.add_zero] at counted
  exact ⟨phase, handed, counted⟩

/-- A worker receives and drops streams, and counts those it registers. -/
theorem workerStep_counts {system next : System} {worker : Worker} {index : Nat}
    {action : Action} (found : system.workers[index]? = some worker)
    (taken : system.workerStep worker index action = some next)
    : next.phase = system.phase
      ∧ next.handed ≤ system.handed
      ∧ (system.Counted → next.Counted) := by
  cases action with
  | onWake _ =>
      simp only [workerStep] at taken
      split at taken
      · obtain rfl := Option.some.inj taken
        exact setWorker_counts_same found (Nat.le_refl _) rfl
      · cases taken
  | tryRecv _ =>
      simp only [workerStep] at taken
      split at taken
      · rename_i free
        obtain rfl := Option.some.inj taken
        have empty := Option.isNone_iff_eq_none.mp (Bool.and_eq_true_iff.mp free).2
        exact setWorker_counts_same found (Worker.handed_tryRecv empty).le
          worker.conns_tryRecv
      · cases taken
  | register _ registers =>
      simp only [workerStep, Option.map_eq_some_iff] at taken
      obtain ⟨stream, received, rfl⟩ := taken
      refine setWorker_counts found _ (Worker.handed_register received registers) ?_
      cases registers <;> simp [Worker.register]
  | close _ token =>
      simp only [workerStep] at taken
      split at taken
      · rename_i registered
        obtain rfl := Option.some.inj taken
        have shorter := Worker.conns_close (Bool.and_eq_true_iff.mp registered).2
        refine setWorker_counts found (-1) ?_ ?_
        · simp only [Worker.handed, Worker.close] at shorter ⊢
          omega
        · omega
      · cases taken
  | _ => cases taken

/-- Only the check admits a stream, and only an admitted stream is handed over. -/
theorem acceptorStep_counts {maxConnections : UInt64} {system next : System}
    {action : Action} (taken : system.acceptorStep maxConnections action = some next)
    : (system.Counted → next.Counted)
      ∧ if action = .check then
          next.handed = system.handed
          ∧ next.admitted = if system.Refuses maxConnections then 0 else 1
        else
          next.handed + next.admitted ≤ system.handed + system.admitted := by
  cases action with
  | send =>
      simp only [acceptorStep] at taken
      split at taken
      · rename_i stream worker phase found
        obtain rfl := Option.some.inj taken
        let replaced : Worker := { worker with incoming := worker.incoming ++ [stream] }
        have handed := handed_setWorker found replaced
        have registered := registered_setWorker found replaced
        have one : replaced.handed = worker.handed + 1 := by
          simp only [replaced, Worker.handed, List.length_append, List.length_singleton]
          omega
        refine ⟨fun counted => ?_, ?_⟩
        · have same : (system.setWorker system.nextWorker replaced).registered
              = system.registered := by
            simp only [replaced] at registered ⊢
            omega
          unfold Counted at counted ⊢
          change system.activeConnections
            = (system.setWorker system.nextWorker replaced).registered
          rw [same]
          exact counted
        · simp only [reduceCtorEq, if_false, admitted, phase]
          change (system.setWorker system.nextWorker replaced).handed + 0 ≤ _
          omega
      · cases taken
  | wake =>
      simp only [acceptorStep] at taken
      split at taken
      · rename_i index phase
        obtain ⟨worker, found, rfl⟩ := Option.map_eq_some_iff.mp taken
        let replaced : Worker := { worker with woken := true }
        have fewer : replaced.handed ≤ worker.handed := Nat.le_refl _
        obtain ⟨-, handed, counted⟩ := setWorker_counts_same found fewer rfl
        exact ⟨counted, Nat.add_le_add handed (Nat.zero_le _)⟩
      · cases taken
  | check =>
      simp only [acceptorStep] at taken
      split at taken
      · split at taken <;> rename_i refuses <;> obtain rfl := Option.some.inj taken
        · simp only [if_true, if_pos refuses]
          exact ⟨id, rfl, rfl⟩
        · simp only [if_true, if_neg refuses]
          exact ⟨id, rfl, rfl⟩
      · cases taken
  | accept =>
      simp only [acceptorStep] at taken
      split at taken
      · obtain rfl := Option.some.inj taken
        exact ⟨id, Nat.add_le_add_left (Nat.zero_le _) _⟩
      · cases taken
  | acceptFails =>
      simp only [acceptorStep] at taken
      split at taken
      · obtain rfl := Option.some.inj taken
        exact ⟨id, Nat.le_refl _⟩
      · cases taken
  | configureFails =>
      simp only [acceptorStep] at taken
      split at taken
      · obtain rfl := Option.some.inj taken
        exact ⟨id, Nat.add_le_add_left (Nat.zero_le _) _⟩
      · cases taken
  | sendFails =>
      simp only [acceptorStep] at taken
      split at taken
      · obtain rfl := Option.some.inj taken
        exact ⟨id, Nat.add_le_add_left (Nat.zero_le _) _⟩
      · cases taken
  | wakeFails =>
      simp only [acceptorStep] at taken
      split at taken
      · obtain rfl := Option.some.inj taken
        exact ⟨id, Nat.add_le_add_left (Nat.zero_le _) _⟩
      · cases taken
  | onWake _ => cases taken
  | tryRecv _ => cases taken
  | register _ _ => cases taken
  | close _ _ => cases taken

/-- What a step does to the numbers of streams. -/
theorem step_counts {maxConnections : UInt64} {system next : System} {action : Action}
    (taken : system.step maxConnections action = some next)
    : (system.Counted → next.Counted)
      ∧ if action = .check then
          next.handed = system.handed
          ∧ next.admitted = if system.Refuses maxConnections then 0 else 1
        else
          next.handed + next.admitted ≤ system.handed + system.admitted := by
  unfold step at taken
  split at taken
  · exact acceptorStep_counts taken
  · rename_i index acting
    cases found : system.workers[index]? with
    | none =>
        rw [found] at taken
        cases taken
    | some worker =>
        rw [found] at taken
        obtain ⟨phase, handed, counted⟩ := workerStep_counts found taken
        have other : action ≠ .check := by
          rintro rfl
          cases acting
        rw [if_neg other]
        refine ⟨counted, ?_⟩
        simp only [admitted, phase]
        omega

-----------------------------------------------------------------------------------------
-- The cap
-----------------------------------------------------------------------------------------

/-- The decision the cap asks for: refuse when it is positive and reached. -/
def Decides (maxConnections : UInt64) (system : System) : Prop :=
  system.Refuses maxConnections
  ↔ 0 < maxConnections.toNat ∧ maxConnections.toNat ≤ system.handed

/-- The cap is positive and fits the counter, and streams on their way to a worker make no
difference to it. A cap that does not fit must have been reached.
-/
def Settled (maxConnections : UInt64) (system : System) : Prop :=
  0 < maxConnections.toNat
  ∧ (maxConnections.toNat < 2 ^ 63 ∨ maxConnections.toNat ≤ system.handed)
  ∧ (2 ^ 63 ≤ maxConnections.toNat ∨ system.handed < maxConnections.toNat
      ∨ maxConnections.toNat ≤ system.registered)

theorem capOf_eq (maxConnections : UInt64)
    : capOf maxConnections
      = if maxConnections.toNat < 2 ^ 63 then (maxConnections.toNat : Int)
        else maxConnections.toNat - 2 ^ 64 := by
  have cast : capOf maxConnections = maxConnections.toBitVec.toInt := rfl
  rw [cast, BitVec.toInt_eq_toNat_cond]
  change (if 2 * maxConnections.toNat < 2 ^ 64 then (maxConnections.toNat : Int)
    else maxConnections.toNat - (2 ^ 64 : Nat)) = _
  split <;> split <;> omega

theorem refuses_iff {maxConnections : UInt64} {system : System}
    (counted : system.Counted)
    : system.Refuses maxConnections
      ↔ 2 ^ 63 ≤ maxConnections.toNat ∨ maxConnections.toNat ≤ system.registered := by
  have small := maxConnections.toNat_lt
  unfold Refuses
  rw [capOf_eq, show system.activeConnections = _ from counted]
  split <;> omega

theorem decides_iff {maxConnections : UInt64} {system : System} (counted : system.Counted)
    : system.Decides maxConnections ↔ system.Settled maxConnections := by
  have fewer := system.registered_le_handed
  unfold Decides Settled
  rw [refuses_iff counted]
  omega

/-- No more streams than the cap, the admitted one among them. -/
def Capped (maxConnections : UInt64) (system : System) : Prop :=
  0 < maxConnections.toNat → system.handed + system.admitted ≤ maxConnections.toNat

theorem Capped.step {maxConnections : UInt64} {system next : System} {action : Action}
    (capped : system.Capped maxConnections)
    (taken : system.step maxConnections action = some next)
    (decides : action = .check → system.Decides maxConnections)
    : next.Capped maxConnections := by
  intro positive
  have below := capped positive
  obtain ⟨-, counts⟩ := step_counts taken
  by_cases check : action = .check
  · rw [if_pos check] at counts
    obtain ⟨handed, admitted⟩ := counts
    have right := decides check
    by_cases refuses : system.Refuses maxConnections
    · rw [if_pos refuses] at admitted
      omega
    · rw [if_neg refuses] at admitted
      have room : ¬ maxConnections.toNat ≤ system.handed :=
        fun reached => refuses (right.mpr ⟨positive, reached⟩)
      omega
  · rw [if_neg check] at counts
    omega

/-- Witness: induction over the run, from any state with a true counter. -/
theorem execute_decides_iff {maxConnections : UInt64} {actions : List Action}
    {system last : System} {checks : List System} (counted : system.Counted)
    (run : execute maxConnections system actions = some (checks, last))
    : ((∀ state ∈ checks, state.Decides maxConnections)
        ↔ ∀ state ∈ checks, state.Settled maxConnections)
      ∧ (system.Capped maxConnections
        → (∀ state ∈ checks, state.Decides maxConnections)
        → last.Capped maxConnections) := by
  induction actions generalizing system checks with
  | nil =>
      obtain ⟨rfl, rfl⟩ := Prod.mk.inj (Option.some.inj run)
      exact ⟨by simp, fun capped _ => capped⟩
  | cons action actions ih =>
      rw [execute] at run
      obtain ⟨next, taken, run⟩ := Option.bind_eq_some_iff.mp run
      obtain ⟨⟨later, final⟩, rest, listed⟩ := Option.bind_eq_some_iff.mp run
      obtain ⟨rfl, rfl⟩ := Prod.mk.inj (Option.some.inj listed)
      obtain ⟨settled, capped⟩ := ih ((step_counts taken).1 counted) rest
      split
      · rename_i check
        constructor
        · rw [List.forall_mem_cons, List.forall_mem_cons, decides_iff counted, settled]
        · intro before right
          obtain ⟨first, others⟩ := List.forall_mem_cons.mp right
          exact capped (before.step taken (fun _ => first)) others
      · rename_i check
        exact ⟨settled, fun before right =>
          capped (before.step taken (fun same => absurd same check)) right⟩

theorem counted_new (numWorkers : Nat) : (new numWorkers).Counted := by
  simp [Counted, new, registered, Worker.new]

theorem handed_new (numWorkers : Nat) : (new numWorkers).handed = 0 := by
  simp [handed, new, Worker.handed, Worker.new]

/-- In every run, the acceptor refuses exactly the streams the cap asks it to, and the cap is
kept, if and only if the cap is settled at each check.
-/
theorem connection_cap_iff (maxConnections : UInt64) (numWorkers : Nat)
    (actions : List Action) (checks : List System) (last : System)
    (run : execute maxConnections (new numWorkers) actions = some (checks, last))
    : ((∀ state ∈ checks, state.Decides maxConnections)
        ∧ (0 < maxConnections.toNat → last.handed ≤ maxConnections.toNat))
      ↔ ∀ state ∈ checks, state.Settled maxConnections := by
  obtain ⟨settled, capped⟩ := execute_decides_iff (counted_new numWorkers) run
  constructor
  · exact fun both => settled.mp both.1
  · intro all
    have right := settled.mpr all
    refine ⟨right, fun positive => ?_⟩
    have first : (new numWorkers).Capped maxConnections := by
      intro _
      rw [handed_new]
      exact Nat.zero_le _
    have bound := capped first right positive
    omega

instance (maxConnections : UInt64) (system : System)
    : Decidable (system.Settled maxConnections) :=
  inferInstanceAs (Decidable (_ ∧ _ ∧ _))

instance (maxConnections : UInt64) (system : System)
    : Decidable (system.Decides maxConnections) :=
  inferInstanceAs (Decidable (_ ↔ _))

/-- A stream is refused while another is registered, and a third one is admitted after it. -/
def oneAtATime : List Action :=
  [
    .accept, .check, .send, .wake, .onWake 0, .tryRecv 0, .register 0 true, .tryRecv 0,
    .accept, .check, .close 0 0, .accept, .check, .send, .wake
  ]

/-- Witness: a cap of one with two workers. -/
theorem connection_cap_one
    : ∃ checks last,
        execute 1 (new 2) oneAtATime = some (checks, last)
        ∧ checks.length = 3
        ∧ (∀ state ∈ checks, state.Decides 1)
        ∧ last.handed ≤ 1 := by
  have ran : (execute 1 (new 2) oneAtATime).any (fun run =>
      run.1.length = 3 && run.1.all (fun state => state.Settled 1)) := by
    decide +kernel
  obtain ⟨⟨checks, last⟩, run, facts⟩ := (Option.any_eq_true _ _).mp ran
  simp only [Bool.and_eq_true, List.all_eq_true, decide_eq_true_eq] at facts
  obtain ⟨right, bound⟩ := (connection_cap_iff 1 2 oneAtATime checks last run).mpr facts.2
  exact ⟨checks, last, run, facts.1, right, bound (by decide)⟩

/-- Two streams pass the check before the worker wakes. -/
def burst : List Action :=
  [
    .accept, .check, .send, .wake, .accept, .check, .send, .wake,
    .onWake 0, .tryRecv 0, .register 0 true, .tryRecv 0, .register 0 true
  ]

/-- A burst exceeds a cap of one, and a cap of zero refuses a stream instead of none. -/
theorem burst_exceeds_cap
    : (∃ checks last,
        execute 1 (new 1) burst = some (checks, last)
        ∧ (∃ state ∈ checks, ¬ state.Decides 1)
        ∧ 1 < last.registered)
      ∧ ∃ checks last,
          execute 0 (new 1) [.accept, .check] = some (checks, last)
          ∧ ∃ state ∈ checks, state.Refuses 0 ∧ ¬ state.Decides 0 := by
  constructor
  · have ran : (execute 1 (new 1) burst).any (fun run =>
        run.1.any (fun state => ¬ state.Decides 1) && 1 < run.2.registered) := by
      decide +kernel
    obtain ⟨⟨checks, last⟩, run, facts⟩ := (Option.any_eq_true _ _).mp ran
    simp only [Bool.and_eq_true, List.any_eq_true, decide_eq_true_eq] at facts
    exact ⟨checks, last, run, facts⟩
  · have ran : (execute 0 (new 1) [.accept, .check]).any (fun run =>
        run.1.any (fun state => state.Refuses 0 ∧ ¬ state.Decides 0)) := by
      decide +kernel
    obtain ⟨⟨checks, last⟩, run, facts⟩ := (Option.any_eq_true _ _).mp ran
    simp only [List.any_eq_true, decide_eq_true_eq] at facts
    exact ⟨checks, last, run, facts⟩

end System

end Rustikv.Server.Admission

import Mathlib.Tactic.Common

/-! The thread behind periodic syncs, and how its owner ends it. A flag tells the thread to
stop, and an unpark keeps it from sleeping through that.
-/

namespace Rustikv.Kv.BackgroundWorker

/-- Where the thread is in its loop. A job that fails makes it panic. -/
inductive Stage
  | checking
  | parking
  | rechecking
  | starting
  | running
  | exited
  | panicked
  deriving DecidableEq, Repr

/-- Where the owner is in `drop`. -/
inductive Owner
  | holding
  | stored
  | unparked
  | joined
  | failed
  deriving DecidableEq, Repr

/-- The flag, the token that an unpark leaves, and both sides. The thread may go on loading an
old value of the flag until it has consumed the token. Jobs that start after the unpark are
counted.
-/
structure System where
  stop : Bool
  token : Bool
  synced : Bool
  stage : Stage
  owner : Owner
  late : Nat
  deriving DecidableEq, Repr

inductive Action
  | load (seen : Bool)
  | park
  | timeout
  | startJob
  | endJob (succeeds : Bool)
  | store
  | unpark
  | join
  deriving DecidableEq, Repr

/-- The steps of the thread. -/
def Action.ofThread : Action → Bool
  | .store => false
  | .unpark => false
  | .join => false
  | _ => true

/-- The owner has done the unpark. -/
def Owner.hasUnparked : Owner → Bool
  | .holding => false
  | .stored => false
  | _ => true

namespace System

def spawn : System :=
  {
    stop := false
    token := false
    synced := false
    stage := .checking
    owner := .holding
    late := 0
  }

/-- What a load of the flag can return. -/
def loads (system : System) (seen : Bool) : Bool :=
  if seen then system.stop else !(system.stop && system.synced)

/-- A park returns at once if there is a token, which it consumes. Else it returns when its
time is over, or for no reason.
-/
def step (system : System) : Action → Option System
  | .load seen =>
      match system.stage, system.loads seen with
      | .checking, true => some { system with stage := if seen then .exited else .parking }
      | .rechecking, true => some { system with stage := if seen then .exited else .starting }
      | _, _ => none
  | .park =>
      if system.stage = .parking ∧ system.token then
        some { system with stage := .rechecking, token := false, synced := true }
      else
        none
  | .timeout =>
      if system.stage = .parking ∧ !system.token then
        some { system with stage := .rechecking }
      else
        none
  | .startJob =>
      if system.stage = .starting then
        some {
          system with
          stage := .running
          late := system.late + system.owner.hasUnparked.toNat
        }
      else
        none
  | .endJob succeeds =>
      if system.stage = .running then
        some { system with stage := if succeeds then .checking else .panicked }
      else
        none
  | .store =>
      if system.owner = .holding then some { system with stop := true, owner := .stored }
      else none
  | .unpark =>
      if system.owner = .stored then some { system with token := true, owner := .unparked }
      else none
  | .join =>
      if system.owner = .unparked ∧ system.stage = .exited then
        some { system with owner := .joined }
      else if system.owner = .unparked ∧ system.stage = .panicked then
        some { system with owner := .failed }
      else
        none

def execute (system : System) (actions : List Action) : Option System :=
  actions.foldlM step system

-----------------------------------------------------------------------------------------
-- The token reaches the thread
-----------------------------------------------------------------------------------------

/-- How many steps the drop can still take once it has done the unpark. -/
def remaining (system : System) : Nat :=
  (system.owner == .unparked).toNat
  + match system.stage with
    | .exited => 0
    | .panicked => 0
    | .rechecking => if system.synced then 1 else 6
    | .parking => 2
    | .checking => 3
    | .running => 4
    | .starting => 5

/-- The thread may start one more job. -/
def mayStart (system : System) : Bool :=
  system.stage = .starting || (system.stage = .rechecking && !system.synced)

/-- After the unpark, the token waits for the thread, or the thread has seen that it must
stop.
-/
structure Sound (system : System) : Prop where
  stored : system.owner ≠ .holding → system.stop = true
  early
    : system.owner.hasUnparked = false
      → system.token = false ∧ system.synced = false ∧ system.late = 0
  pending
    : system.owner.hasUnparked = true
      → system.synced = false
      → system.token = true ∨ system.stage = .exited ∨ system.stage = .panicked
  seen : system.synced = true → system.stage = .rechecking ∨ system.stage = .exited
  few : system.late + system.mayStart.toNat ≤ 1
  joined : system.owner = .joined → system.stage = .exited
  failed : system.owner = .failed → system.stage = .panicked

theorem sound_spawn : spawn.Sound :=
  ⟨fun changed => absurd rfl changed, fun _ => ⟨rfl, rfl, rfl⟩, (nofun : false = true → _),
    (nofun : false = true → _), Nat.zero_le 1, nofun, nofun⟩

theorem Sound.load {system next : System} (sound : system.Sound) {seen : Bool}
    (taken : system.step (.load seen) = some next)
    : next.Sound := by
  obtain ⟨stored, early, pending, seen', few, joined, failed⟩ := sound
  have known : system.synced = true → system.stop = true := fun isSynced => by
    refine stored fun holding => ?_
    have nothing := (early (by rw [holding]; rfl)).2.1
    rw [isSynced] at nothing
    cases nothing
  cases seen <;> simp only [System.step] at taken <;> split at taken <;> cases taken
  all_goals rename_i stage loaded
  all_goals simp only [loads, Bool.false_eq_true, if_true, if_false] at loaded
  all_goals constructor <;> grind [mayStart]

theorem Sound.step_thread {system next : System} (sound : system.Sound) {action : Action}
    (own : action.ofThread = true) (taken : system.step action = some next)
    : next.Sound := by
  obtain ⟨stored, early, pending, seen, few, joined, failed⟩ := id sound
  cases action with
  | load saw => exact sound.load taken
  | park =>
      obtain ⟨⟨parking, available⟩, ⟨⟩⟩ := Option.ite_none_right_eq_some.mp taken
      constructor <;> grind [mayStart]
  | timeout =>
      obtain ⟨⟨parking, absent⟩, ⟨⟩⟩ := Option.ite_none_right_eq_some.mp taken
      constructor <;> grind [mayStart]
  | startJob =>
      obtain ⟨starting, ⟨⟩⟩ := Option.ite_none_right_eq_some.mp taken
      have none : system.late = 0 := by
        have may : system.mayStart = true := by simp [mayStart, starting]
        rw [may] at few
        exact Nat.le_zero.mp (Nat.le_of_succ_le_succ few)
      have one := Bool.toNat_le system.owner.hasUnparked
      constructor <;> grind [mayStart]
  | endJob succeeds =>
      obtain ⟨running, ⟨⟩⟩ := Option.ite_none_right_eq_some.mp taken
      constructor <;> grind [mayStart]
  | store => cases own
  | unpark => cases own
  | join => cases own

theorem Sound.step_owner {system next : System} (sound : system.Sound) {action : Action}
    (own : action.ofThread = false) (taken : system.step action = some next)
    : next.Sound := by
  obtain ⟨stored, early, pending, seen, few, joined, failed⟩ := sound
  cases action with
  | load saw => cases own
  | park => cases own
  | timeout => cases own
  | startJob => cases own
  | endJob succeeds => cases own
  | store =>
      obtain ⟨holding, ⟨⟩⟩ := Option.ite_none_right_eq_some.mp taken
      constructor <;> grind [mayStart, Owner.hasUnparked]
  | unpark =>
      obtain ⟨holding, ⟨⟩⟩ := Option.ite_none_right_eq_some.mp taken
      constructor <;> grind [mayStart, Owner.hasUnparked]
  | join =>
      simp only [System.step] at taken
      split at taken
      · obtain rfl := Option.some.inj taken
        constructor <;> grind [mayStart, Owner.hasUnparked]
      · obtain ⟨ended, ⟨⟩⟩ := Option.ite_none_right_eq_some.mp taken
        constructor <;> grind [mayStart, Owner.hasUnparked]

theorem Sound.step {system next : System} (sound : system.Sound) {action : Action}
    (taken : system.step action = some next)
    : next.Sound := by
  cases own : action.ofThread with
  | true => exact sound.step_thread own taken
  | false => exact sound.step_owner own taken

theorem Sound.execute {actions : List Action} {system ended : System}
    (sound : system.Sound) (ran : system.execute actions = some ended)
    : ended.Sound := by
  induction actions generalizing system with
  | nil => exact Option.some.inj ran ▸ sound
  | cons action rest ih =>
      obtain ⟨next, taken, ran⟩ := Option.bind_eq_some_iff.mp ran
      exact ih (sound.step taken) ran

/-- Witness: the token is there unless the thread has already consumed it, and then its next
load returns true.
-/
theorem Sound.step_remaining {system next : System} (sound : system.Sound)
    (unparked : system.owner.hasUnparked = true) {action : Action}
    (taken : system.step action = some next)
    : action ≠ .timeout
      ∧ next.owner.hasUnparked = true
      ∧ next.remaining < system.remaining := by
  obtain ⟨stored, -, pending, seen, -, -, -⟩ := sound
  have stop : system.stop = true := stored fun holding => by
    rw [holding] at unparked
    cases unparked
  cases action with
  | load saw =>
      cases saw <;> simp only [System.step] at taken <;> split at taken <;> cases taken
      all_goals rename_i stage loaded
      all_goals simp only [loads, stop, Bool.false_eq_true, if_true, if_false] at loaded
      all_goals refine ⟨nofun, unparked, Nat.add_lt_add_left ?_ _⟩
      all_goals grind
  | park =>
      obtain ⟨⟨parking, available⟩, ⟨⟩⟩ := Option.ite_none_right_eq_some.mp taken
      refine ⟨nofun, unparked, Nat.add_lt_add_left ?_ _⟩
      grind
  | timeout =>
      obtain ⟨⟨parking, absent⟩, ⟨⟩⟩ := Option.ite_none_right_eq_some.mp taken
      grind
  | startJob =>
      obtain ⟨starting, ⟨⟩⟩ := Option.ite_none_right_eq_some.mp taken
      refine ⟨nofun, unparked, Nat.add_lt_add_left ?_ _⟩
      grind
  | endJob succeeds =>
      obtain ⟨running, ⟨⟩⟩ := Option.ite_none_right_eq_some.mp taken
      refine ⟨nofun, unparked, Nat.add_lt_add_left ?_ _⟩
      grind
  | store =>
      obtain ⟨holding, ⟨⟩⟩ := Option.ite_none_right_eq_some.mp taken
      rw [holding] at unparked
      cases unparked
  | unpark =>
      obtain ⟨stored, ⟨⟩⟩ := Option.ite_none_right_eq_some.mp taken
      rw [stored] at unparked
      cases unparked
  | join =>
      simp only [System.step] at taken
      split at taken
      next waiting =>
        obtain rfl := Option.some.inj taken
        simp [remaining, waiting, Owner.hasUnparked]
      next =>
        obtain ⟨waiting, ⟨⟩⟩ := Option.ite_none_right_eq_some.mp taken
        simp [remaining, waiting, Owner.hasUnparked]

theorem remaining_le (system : System) : system.remaining ≤ 7 := by
  have one := Bool.toNat_le (system.owner == .unparked)
  have most : system.remaining ≤ (system.owner == .unparked).toNat + 6 :=
    Nat.add_le_add_left (by split <;> grind) _
  omega

/-- What is left of the drop only gets shorter, and nothing in it waits for a time. -/
theorem Sound.execute_remaining {actions : List Action} {system ended : System}
    (sound : system.Sound) (unparked : system.owner.hasUnparked = true)
    (ran : system.execute actions = some ended)
    : .timeout ∉ actions
      ∧ ended.owner.hasUnparked = true
      ∧ ended.remaining + actions.length ≤ system.remaining := by
  induction actions generalizing system with
  | nil =>
      obtain rfl := Option.some.inj ran
      exact ⟨List.not_mem_nil, unparked, Nat.le_refl _⟩
  | cons action rest ih =>
      obtain ⟨next, taken, ran⟩ := Option.bind_eq_some_iff.mp ran
      obtain ⟨waits, still, less⟩ := sound.step_remaining unparked taken
      obtain ⟨later, last, bound⟩ := ih (sound.step taken) still ran
      refine ⟨?_, last, ?_⟩
      · intro found
        rcases List.mem_cons.mp found with same | found
        · exact waits same.symm
        · exact later found
      · rw [List.length_cons]
        omega

/-- Someone can go on until the owner has joined the thread. -/
theorem Sound.enabled {system : System} (sound : system.Sound)
    (unparked : system.owner.hasUnparked = true)
    : (∃ action next, system.step action = some next)
      ∨ system.owner = .joined
      ∨ system.owner = .failed := by
  obtain ⟨stored, -, pending, seen, -, -, -⟩ := sound
  have stop : system.stop = true := stored fun holding => by
    rw [holding] at unparked
    cases unparked
  cases stage : system.stage with
  | checking => exact .inl ⟨.load true, _, by simp [System.step, stage, loads, stop]; rfl⟩
  | parking =>
      have token : system.token = true := by
        cases synced : system.synced <;> grind
      exact .inl ⟨.park, _, if_pos ⟨stage, token⟩⟩
  | rechecking => exact .inl ⟨.load true, _, by simp [System.step, stage, loads, stop]; rfl⟩
  | starting => exact .inl ⟨.startJob, _, if_pos stage⟩
  | running => exact .inl ⟨.endJob true, _, if_pos stage⟩
  | exited =>
      cases owner : system.owner with
      | holding | stored => rw [owner] at unparked; cases unparked
      | unparked => exact .inl ⟨.join, _, if_pos ⟨owner, stage⟩⟩
      | joined => exact .inr (.inl rfl)
      | failed => exact .inr (.inr rfl)
  | panicked =>
      cases owner : system.owner with
      | holding | stored => rw [owner] at unparked; cases unparked
      | unparked =>
          have panics : ¬(system.owner = .unparked ∧ system.stage = .exited) := by
            rw [stage]
            nofun
          exact .inl ⟨.join, _, (if_neg panics).trans (if_pos ⟨owner, stage⟩)⟩
      | joined => exact .inr (.inl rfl)
      | failed => exact .inr (.inr rfl)

-----------------------------------------------------------------------------------------
-- What the rest of a drop can do
-----------------------------------------------------------------------------------------

theorem step_panicked {system next : System} {action : Action}
    (taken : system.step action = some next)
    : next.stage = .panicked ↔ system.stage = .panicked ∨ action = .endJob false := by
  cases action with
  | load saw =>
      cases saw <;> simp only [step] at taken <;> split at taken <;> cases taken
      all_goals simp_all
  | park | timeout | startJob | store | unpark =>
      obtain ⟨allowed, ⟨⟩⟩ := Option.ite_none_right_eq_some.mp taken
      simp_all
  | endJob succeeds =>
      obtain ⟨running, ⟨⟩⟩ := Option.ite_none_right_eq_some.mp taken
      cases succeeds <;> simp [running]
  | join =>
      simp only [step] at taken
      split at taken
      next waiting =>
        obtain rfl := Option.some.inj taken
        simp
      next =>
        obtain ⟨waiting, ⟨⟩⟩ := Option.ite_none_right_eq_some.mp taken
        simp

/-- The thread has panicked exactly if a job of its has. -/
theorem execute_panicked {actions : List Action} {system ended : System}
    (ran : system.execute actions = some ended)
    : ended.stage = .panicked ↔ system.stage = .panicked ∨ .endJob false ∈ actions := by
  induction actions generalizing system with
  | nil =>
      obtain rfl := Option.some.inj ran
      simp
  | cons action rest ih =>
      obtain ⟨next, taken, ran⟩ := Option.bind_eq_some_iff.mp ran
      rw [ih ran, step_panicked taken, List.mem_cons, or_assoc,
        eq_comm (a := Action.endJob false)]

theorem step_late {system next : System} (unparked : system.owner.hasUnparked = true)
    {action : Action} (taken : system.step action = some next)
    : next.late = system.late + [action].count .startJob := by
  cases action with
  | load saw =>
      cases saw <;> simp only [step] at taken <;> split at taken <;> cases taken
      all_goals rfl
  | park | timeout | endJob | store | unpark =>
      obtain ⟨allowed, ⟨⟩⟩ := Option.ite_none_right_eq_some.mp taken
      rfl
  | startJob =>
      obtain ⟨starting, ⟨⟩⟩ := Option.ite_none_right_eq_some.mp taken
      simp [unparked]
  | join =>
      simp only [step] at taken
      split at taken
      next waiting => exact Option.some.inj taken ▸ rfl
      next =>
        obtain ⟨waiting, ⟨⟩⟩ := Option.ite_none_right_eq_some.mp taken
        rfl

theorem Sound.execute_late {actions : List Action} {system ended : System}
    (sound : system.Sound) (unparked : system.owner.hasUnparked = true)
    (ran : system.execute actions = some ended)
    : ended.late = system.late + actions.count .startJob := by
  induction actions generalizing system with
  | nil =>
      obtain rfl := Option.some.inj ran
      rfl
  | cons action rest ih =>
      obtain ⟨next, taken, ran⟩ := Option.bind_eq_some_iff.mp ran
      have still := (sound.step_remaining unparked taken).2.1
      rw [ih (sound.step taken) still ran, step_late unparked taken, Nat.add_assoc,
        ← List.count_append, List.singleton_append]

/-- A drop is over when its owner has joined the thread. -/
def dropped (system : System) : Bool :=
  system.owner = .joined || system.owner = .failed

theorem Sound.step_dropped {system : System} (sound : system.Sound)
    (dropped : system.dropped = true) (action : Action)
    : system.step action = none := by
  obtain ⟨-, -, -, -, -, joined, failed⟩ := sound
  rcases (Bool.or_eq_true ..).mp dropped with owner | owner
  all_goals
    replace owner := of_decide_eq_true owner
  · have stage := joined owner
    cases action <;> simp [System.step, stage, owner]
  · have stage := failed owner
    cases action <;> simp [System.step, stage, owner]

/-- From the unpark on, whatever the thread was doing and whichever side goes on, at most
seven steps are left, none waits for the interval to pass, and at most one of them starts a
job. They end with the thread joined, and the drop fails exactly if a job has panicked.
-/
theorem drop_joins_thread {before after : List Action} {system ended : System}
    (spawned : spawn.execute before = some system)
    (unparked : system.owner.hasUnparked = true)
    (continued : system.execute after = some ended)
    : after.length ≤ 7
      ∧ .timeout ∉ after
      ∧ after.count .startJob ≤ 1
      ∧ ((∀ action, ended.step action = none) ↔ ended.dropped = true)
      ∧ (ended.dropped = true
          → (ended.owner = .failed ↔ .endJob false ∈ before ++ after)) := by
  have sound := sound_spawn.execute spawned
  obtain ⟨untimed, still, bound⟩ := sound.execute_remaining unparked continued
  have sound' := sound.execute continued
  have started := sound.execute_late unparked continued
  have few := sound'.few
  refine ⟨?_, untimed, by omega, ⟨fun stuck => ?_, sound'.step_dropped⟩, fun dropped => ?_⟩
  · have most := system.remaining_le
    omega
  · rcases sound'.enabled still with ⟨action, next, taken⟩ | owner | owner
    · rw [stuck action] at taken
      cases taken
    · simp [System.dropped, owner]
    · simp [System.dropped, owner]
  · have panicked : ended.stage = .panicked ↔ .endJob false ∈ before ++ after := by
      rw [execute_panicked continued, execute_panicked spawned, List.mem_append]
      simp [spawn]
    rw [← panicked]
    refine ⟨sound'.failed, fun stage => ?_⟩
    rcases (Bool.or_eq_true ..).mp dropped with owner | owner
    · have exited := sound'.joined (of_decide_eq_true owner)
      rw [stage] at exited
      cases exited
    · exact of_decide_eq_true owner

/-- The thread has just seen that it need not stop when the drop begins, so one more job
runs. It then parks without a wait.
-/
theorem drop_joins_thread_late
    : ∃ ended,
        spawn.execute
            ([.load false, .timeout, .load false, .store, .unpark]
              ++ [.startJob, .endJob true, .load false, .park, .load true, .join])
          = some ended
        ∧ (∀ action, ended.step action = none)
        ∧ ended.owner = .joined :=
  have drop :=
    @drop_joins_thread [.load false, .timeout, .load false, .store, .unpark]
      [.startJob, .endJob true, .load false, .park, .load true, .join] _ _ rfl rfl rfl
  ⟨_, rfl, drop.2.2.2.1.mpr rfl, rfl⟩

end System

end Rustikv.Kv.BackgroundWorker

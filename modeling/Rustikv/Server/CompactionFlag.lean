import Rustikv.Server.Bffp

/-! Compactions started by requests. An atomic flag admits one at a time and is cleared by the
thread that compacts, if it lives long enough.
-/

namespace Rustikv.Server.CompactionFlag

/-- The statistics that a compaction touches. -/
structure Stats where
  compacting : Bool
  compactionCount : UInt64
  lastCompactStartMs : UInt64
  lastCompactEndMs : UInt64
  deriving DecidableEq, Repr

/-- How far a compaction has got since its request won the flag. A thread whose `compact`
returned an error has panicked.
-/
inductive Stage
  | claimed
  | stamped
  | compacting
  | compacted
  | ended
  | cleared
  | counted
  | panicked
  deriving DecidableEq, Repr

/-- The flag is on because of this compaction, or would be cleared by it. -/
def Stage.running : Stage → Bool
  | .cleared => false
  | .counted => false
  | .panicked => false
  | _ => true

structure System where
  stats : Stats
  compactions : List Stage
  deriving DecidableEq, Repr

/-- The steps of workers handling COMPACT or a write that may trigger a compaction, and of
the threads they spawn.
-/
inductive Action
  | compact
  | maybeTriggerCompaction (shouldCompact : Bool)
  | storeStart (compaction : Nat) (nowMs : UInt64)
  | spawn (compaction : Nat)
  | compactReturns (compaction : Nat) (succeeds : Bool)
  | storeEnd (compaction : Nat) (nowMs : UInt64)
  | clear (compaction : Nat)
  | addCount (compaction : Nat)
  deriving DecidableEq, Repr

namespace System

def new : System :=
  {
    stats := {
      compacting := false
      compactionCount := 0
      lastCompactStartMs := 0
      lastCompactEndMs := 0
    }
    compactions := []
  }

/-- The compare-exchange that both kinds of request begin with. -/
def claim (system : System) : System :=
  if system.stats.compacting then
    system
  else
    {
      stats := { system.stats with compacting := true }
      compactions := system.compactions ++ [.claimed]
    }

/-- The answer to a COMPACT that arrives now. -/
def compactAnswer (system : System) : ResponseStatus :=
  if system.stats.compacting then .noop else .ok

/-- Moves a compaction from one stage to the next, with a change to the statistics. -/
def move (system : System) (compaction : Nat) (source target : Stage)
    (touch : Stats → Stats)
    : Option System :=
  if system.compactions[compaction]? = some source then
    some {
      stats := touch system.stats
      compactions := system.compactions.set compaction target
    }
  else
    none

def step (system : System) : Action → Option System
  | .compact => some system.claim
  | .maybeTriggerCompaction shouldCompact =>
      some (if shouldCompact then system.claim else system)
  | .storeStart compaction nowMs =>
      system.move compaction .claimed .stamped
        (fun stats => { stats with lastCompactStartMs := nowMs })
  | .spawn compaction => system.move compaction .stamped .compacting id
  | .compactReturns compaction succeeds =>
      system.move compaction .compacting (if succeeds then .compacted else .panicked) id
  | .storeEnd compaction nowMs =>
      system.move compaction .compacted .ended
        (fun stats => { stats with lastCompactEndMs := nowMs })
  | .clear compaction =>
      system.move compaction .ended .cleared
        (fun stats => { stats with compacting := false })
  | .addCount compaction =>
      system.move compaction .cleared .counted
        (fun stats => { stats with compactionCount := stats.compactionCount + 1 })

def execute (system : System) (actions : List Action) : Option System :=
  actions.foldlM step system

def running (system : System) : Nat :=
  system.compactions.countP Stage.running

def panicked (system : System) : Nat :=
  system.compactions.count .panicked

/-- One compaction at most, and with none the flag is off and a COMPACT is accepted. -/
def Disciplined (system : System) : Prop :=
  system.running ≤ 1
  ∧ (system.running = 0
    → system.stats.compacting = false ∧ system.compactAnswer = .ok)

/-- The flag is on for as long as a compaction runs, and for ever once one has panicked. -/
def Flagged (system : System) : Prop :=
  system.running + system.panicked = if system.stats.compacting then 1 else 0

end System

-----------------------------------------------------------------------------------------
-- Steps and runs
-----------------------------------------------------------------------------------------

/-- `compact` returned an error. -/
def Action.Fails : Action → Prop
  | .compactReturns _ succeeds => succeeds = false
  | _ => False

instance (action : Action) : Decidable action.Fails := by
  cases action <;> unfold Action.Fails <;> infer_instance

theorem countP_set_add {stages : List Stage} {index : Nat} {stage : Stage}
    (found : stages[index]? = some stage) (counts : Stage → Bool) (target : Stage)
    : (stages.set index target).countP counts + (if counts stage then 1 else 0)
      = stages.countP counts + if counts target then 1 else 0 := by
  induction stages generalizing index with
  | nil => simp at found
  | cons head rest ih =>
      cases index with
      | zero =>
          obtain rfl : head = stage := by simpa using found
          simp only [List.set_cons_zero, List.countP_cons]
          omega
      | succ index =>
          have tail := ih (by simpa using found)
          simp only [List.set_cons_succ, List.countP_cons]
          omega

namespace System

theorem flagged_new : new.Flagged := rfl

theorem move_spec {system next : System} {compaction : Nat} {source target : Stage}
    {touch : Stats → Stats}
    (moved : system.move compaction source target touch = some next)
    : next.stats = touch system.stats
      ∧ next.running + (if source.running then 1 else 0)
        = system.running + (if target.running then 1 else 0)
      ∧ next.panicked + (if source = .panicked then 1 else 0)
        = system.panicked + if target = .panicked then 1 else 0 := by
  unfold move at moved
  split at moved
  · rename_i found
    obtain rfl := Option.some.inj moved
    have panicked := countP_set_add found (· == .panicked) target
    refine ⟨rfl, countP_set_add found Stage.running target, ?_⟩
    simp only [beq_iff_eq] at panicked
    exact panicked
  · cases moved

theorem claim_spec (system : System)
    : system.claim.panicked = system.panicked
      ∧ (system.Flagged → system.claim.Flagged) := by
  unfold claim
  split
  · exact ⟨rfl, id⟩
  · rename_i free
    constructor
    · simp [panicked]
    · intro flagged
      simp only [Flagged, running, panicked, free, Bool.false_eq_true, if_false] at flagged
      simp only [Flagged, running, panicked, if_true, List.countP_append, List.count_append,
        List.countP_singleton, List.count_singleton, Stage.running]
      simp only [show (Stage.claimed == .panicked) = false from rfl, Bool.false_eq_true,
        if_false]
      omega

/-- A move that neither starts nor ends a compaction. -/
theorem move_within {system next : System} {compaction : Nat} {source target : Stage}
    {touch : Stats → Stats}
    (moved : system.move compaction source target touch = some next)
    (same : target.running = source.running)
    (alive : source ≠ .panicked ∧ target ≠ .panicked)
    (keeps : (touch system.stats).compacting = system.stats.compacting)
    : next.panicked = system.panicked ∧ (system.Flagged → next.Flagged) := by
  obtain ⟨stats, running, panicked⟩ := move_spec moved
  simp only [alive.1, alive.2, if_false, Nat.add_zero] at panicked
  rw [same] at running
  refine ⟨panicked, fun flagged => ?_⟩
  unfold Flagged at flagged ⊢
  rw [stats, keeps, ← flagged, panicked]
  omega

/-- A step counts the panicked threads and keeps the flag in line with them. -/
theorem step_spec {system next : System} {action : Action}
    (taken : system.step action = some next)
    : next.panicked = system.panicked + (if action.Fails then 1 else 0)
      ∧ (system.Flagged → next.Flagged) := by
  cases action <;> simp only [step] at taken
  case compact =>
      obtain rfl := Option.some.inj taken
      exact system.claim_spec
  case maybeTriggerCompaction shouldCompact =>
      obtain rfl := Option.some.inj taken
      cases shouldCompact with
      | false => exact ⟨rfl, id⟩
      | true => exact system.claim_spec
  case storeStart compaction nowMs => exact move_within taken rfl (by decide) rfl
  case spawn compaction => exact move_within taken rfl (by decide) rfl
  case storeEnd compaction nowMs => exact move_within taken rfl (by decide) rfl
  case addCount compaction => exact move_within taken rfl (by decide) rfl
  case compactReturns compaction succeeds =>
      cases succeeds with
      | true => exact move_within taken rfl (by decide) rfl
      | false =>
          obtain ⟨stats, running, panicked⟩ := move_spec taken
          simp only [Stage.running, Bool.false_eq_true, if_false, if_true, reduceCtorEq]
            at running panicked
          refine ⟨panicked, fun flagged => ?_⟩
          unfold Flagged at flagged ⊢
          rw [stats, id, ← flagged]
          omega
  case clear compaction =>
      obtain ⟨stats, running, panicked⟩ := move_spec taken
      simp only [Stage.running, Bool.false_eq_true, if_false, if_true, reduceCtorEq]
        at running panicked
      refine ⟨panicked, fun flagged => ?_⟩
      unfold Flagged at flagged ⊢
      rw [stats]
      simp only [Bool.false_eq_true, if_false]
      split at flagged <;> omega

/-- Witness: induction over the run, from any state with the flag in line. -/
theorem execute_spec {actions : List Action} {system last : System}
    (run : system.execute actions = some last) (flagged : system.Flagged)
    : last.panicked = system.panicked + actions.countP (fun action => action.Fails)
      ∧ last.Flagged := by
  induction actions generalizing system with
  | nil =>
      obtain rfl := Option.some.inj run
      exact ⟨rfl, flagged⟩
  | cons action actions ih =>
      rw [execute, List.foldlM_cons] at run
      obtain ⟨next, taken, rest⟩ := Option.bind_eq_some_iff.mp run
      obtain ⟨counted, keeps⟩ := step_spec taken
      obtain ⟨total, final⟩ := ih rest (keeps flagged)
      refine ⟨?_, final⟩
      rw [total, counted, List.countP_cons]
      simp only [decide_eq_true_eq]
      omega

theorem disciplined_iff {system : System} (flagged : system.Flagged)
    : system.Disciplined ↔ system.panicked = 0 := by
  unfold Flagged at flagged
  unfold Disciplined compactAnswer
  cases on : system.stats.compacting with
  | false =>
      simp only [on, Bool.false_eq_true, if_false, and_self, implies_true, and_true] at flagged ⊢
      omega
  | true =>
      simp only [on, if_true, Bool.true_eq_false, false_and, imp_false] at flagged ⊢
      omega

/-- However requests and compactions interleave, at most one compaction runs. -/
theorem running_le_one {actions : List Action} {last : System}
    (run : new.execute actions = some last)
    : last.running ≤ 1 := by
  obtain ⟨-, flagged⟩ := execute_spec run flagged_new
  unfold Flagged at flagged
  split at flagged <;> omega

/-- The flag is disciplined in the states that are reached exactly as long as no `compact`
has returned an error.
-/
theorem disciplined_iff_no_error (actions : List Action) (last : System)
    (run : new.execute actions = some last)
    : last.Disciplined ↔ ∀ action ∈ actions, ¬ action.Fails := by
  obtain ⟨total, flagged⟩ := execute_spec run flagged_new
  rw [disciplined_iff flagged, total]
  have fresh : new.panicked = 0 := rfl
  rw [fresh, Nat.zero_add, List.countP_eq_zero]
  simp only [decide_eq_true_eq]

/-- Two requests, of which one is admitted, and its compaction. -/
def compaction (succeeds : Bool) : List Action :=
  [
    .compact, .maybeTriggerCompaction true, .storeStart 0 5, .spawn 0, .compact,
    .compactReturns 0 succeeds
  ]

/-- Witness: a compaction that succeeds and ends, after which another is accepted. -/
theorem disciplined_after_compaction
    : ∃ last,
        new.execute (compaction true ++ [.storeEnd 0 9, .clear 0, .addCount 0]) = some last
        ∧ last.Disciplined
        ∧ last.running = 0 := by
  have ran : (new.execute (compaction true ++ [.storeEnd 0 9, .clear 0, .addCount 0])).any
      (fun last => last.running = 0) := by
    decide +kernel
  obtain ⟨last, run, idle⟩ := (Option.any_eq_true _ _).mp ran
  refine ⟨last, run, (disciplined_iff_no_error _ last run).mpr ?_, by simpa using idle⟩
  decide

/-- Once a thread has panicked, every COMPACT is answered with a no-op. -/
theorem noop_after_panic {system next : System} {later : List Action}
    (flagged : system.Flagged) (panicked : 0 < system.panicked)
    (run : system.execute later = some next)
    : next.compactAnswer = .noop := by
  obtain ⟨total, final⟩ := execute_spec run flagged
  unfold Flagged at final
  unfold compactAnswer
  split at final
  · rename_i on
    rw [if_pos on]
  · omega

/-- After an error no compaction runs, and COMPACT is never accepted again. -/
theorem error_leaves_flag_set
    : ∃ last,
        new.execute (compaction false) = some last
        ∧ last.running = 0
        ∧ last.stats.compacting = true
        ∧ ¬ last.Disciplined
        ∧ ∀ later next, last.execute later = some next → next.compactAnswer = .noop := by
  have ran : (new.execute (compaction false)).any (fun last =>
      last.running = 0 && last.stats.compacting && 0 < last.panicked) := by
    decide +kernel
  obtain ⟨last, run, facts⟩ := (Option.any_eq_true _ _).mp ran
  simp only [Bool.and_eq_true, decide_eq_true_eq] at facts
  obtain ⟨⟨idle, on⟩, panicked⟩ := facts
  obtain ⟨-, flagged⟩ := execute_spec run flagged_new
  refine ⟨last, run, idle, on, ?_, fun later next => noop_after_panic flagged panicked⟩
  rw [disciplined_iff flagged]
  omega

end System

end Rustikv.Server.CompactionFlag

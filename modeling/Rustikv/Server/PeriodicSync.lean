import Rustikv.Kv.Fsync
import Rustikv.Server.Service

/-! Periodic syncs under a running server: how many records a power failure can take. A worker
thread syncs the active segment whenever its interval has passed, between any two turns.
-/

namespace Rustikv.Server

open Library Kv

-----------------------------------------------------------------------------------------
-- The worker between the turns
-----------------------------------------------------------------------------------------

/-- The job of the worker that `spawn_fsync_worker` starts. It is started with every new
active segment, and the one for the segment before is joined first.
-/
def syncActive (state : KVEngine × World) : KVEngine × World :=
  match state.1.fsyncStrategy with
  | .periodic _ => (state.1, state.2.perform (.segmentSync state.1.activeSegment))
  | _ => state

/-- A turn of the server, or a job of the worker. -/
inductive Moment
  | turn (turn : Turn)
  | sync

def Moment.turn? : Moment → Option Turn
  | .turn served => some served
  | .sync => none

/-- The responses of a run that the worker takes part in. -/
def Process.serveSyncing (clock : Nat → Nat) (cfg : CompactionCfg)
    : List Moment → Process (KVEngine × World) → List Bytes × Process (KVEngine × World)
  | [], process => ([], process)
  | .turn next :: rest, process =>
      let (response, process) := process.turn (kvStorage clock) cfg next
      let (responses, process) := serveSyncing clock cfg rest process
      (response.toList ++ responses, process)
  | .sync :: rest, process =>
      serveSyncing clock cfg rest { process with database := syncActive process.database }

/-- The records that a request can append. -/
def Command.records : Command → Nat
  | .write _ _ _ => 1
  | .delete _ => 1
  | .ttl _ _ => 1
  | .mset items => items.length
  | _ => 0

def Work.records : Work → Nat
  | .request command => command.records
  | .compaction => 0

/-- The records of the requests since the last sync, after `count` before these moments. -/
def waiting : Nat → List Moment → Nat
  | count, [] => count
  | count, .turn turn :: rest => waiting (count + turn.work.records) rest
  | _, .sync :: rest => waiting 0 rest

-----------------------------------------------------------------------------------------
-- Calls of the engine
-----------------------------------------------------------------------------------------

/-- At most `count` records wait for the worker, and all of them in the active segment. -/
structure Waits (milliseconds : Nat) (count : Nat) (state : KVEngine × World) : Prop where
  periodic : state.1.fsyncStrategy = .periodic milliseconds
  confined : Confined [] state.1 state.2
  waiting : state.2.unsyncedIn state.1.activeSegment ≤ count

variable {milliseconds count : Nat} {state : KVEngine × World}

theorem Waits.mono {more : Nat} (waits : Waits milliseconds count state) (order : count ≤ more)
    : Waits milliseconds more state :=
  ⟨waits.periodic, waits.confined, waits.waiting.trans order⟩

theorem Waits.syncActive (waits : Waits milliseconds count state)
    : Waits milliseconds 0 (syncActive state) := by
  have synced : Server.syncActive state
      = (state.1, state.2.perform (.segmentSync state.1.activeSegment)) := by
    rw [Server.syncActive, waits.periodic]
  rw [synced]
  refine ⟨waits.periodic, fun segment outside other => ?_, ?_⟩
  · rw [World.unsyncedIn_perform, FileOp.unsyncedAfter, if_neg (Ne.symm other)]
    exact waits.confined segment outside other
  · rw [World.unsyncedIn_perform, FileOp.unsyncedAfter, if_pos rfl]

/-- The strategy leaves the syncs to the worker. -/
theorem Waits.fsync (waits : Waits milliseconds count state)
    : Waits milliseconds count (state.1.fsync state.2) := by
  have unsynced : state.1.fsync state.2
      = ({ state.1 with writesSinceFsync := state.1.writesSinceFsync + 1 }, state.2) := by
    rw [KVEngine.fsync]
    simp only [waits.periodic]
  rw [unsynced]
  exact ⟨waits.periodic, waits.confined, waits.waiting⟩

theorem Waits.finishWrite (waits : Waits milliseconds count state) (newSize : Nat)
    (replaced : Option Nat)
    : Waits milliseconds count (state.1.finishWrite state.2 newSize replaced) := by
  have counted : Waits milliseconds count
      ({
        state.1 with
        deadBytes := state.1.deadBytes + replaced.getD 0
        totalBytes := state.1.totalBytes + newSize
      }, state.2) :=
    ⟨waits.periodic, waits.confined, waits.waiting⟩
  exact counted.fsync

variable (clock : Nat → Nat)

theorem Waits.setWithTtl (waits : Waits milliseconds count state) (key value : String)
    (expiryMs : Option UInt64) (stamp : Nat → Nat)
    : Waits milliseconds (count + 1)
        ((kvStorage clock).setWithTtl state key value expiryMs stamp).2 := by
  simp only [kvStorage]
  cases written : state.1.setWithTtl clock state.2 key value expiryMs with
  | error error => exact waits.mono (Nat.le_succ count)
  | ok next =>
      obtain ⟨-, result⟩ := KVEngine.setWithTtl_eq_ok written
      obtain ⟨-, confined, more⟩ :=
        @KVEngine.kvAppend_unsynced clock state.1 state.2 key value expiryMs
      have appended : Waits milliseconds (count + 1)
          (state.1.kvAppend clock state.2 key value expiryMs).2 := by
        refine ⟨?_, confined [] waits.confined,
          (more waits.confined).trans (Nat.succ_le_succ waits.waiting)⟩
        rw [KVEngine.kvAppend_eq]
        dsimp only
        rw [KVEngine.appendTarget_engine]
        split <;> exact waits.periodic
      have finished := (appended.finishWrite
        (state.1.kvAppend clock state.2 key value expiryMs).1.1
        (state.1.kvAppend clock state.2 key value expiryMs).1.2)
      rwa [result] at finished

theorem Waits.msetWithTtl (waits : Waits milliseconds count state)
    (items : List (String × String × Option UInt64)) (stamp : Nat → Nat)
    : Waits milliseconds (count + items.length)
        ((kvStorage clock).msetWithTtl items state stamp).2 := by
  induction items generalizing state count stamp with
  | nil => exact waits
  | cons item rest ih =>
      obtain ⟨key, value, expiryMs⟩ := item
      have first := waits.setWithTtl clock key value expiryMs stamp
      rw [StorageEngine.msetWithTtl]
      cases written : (kvStorage clock).setWithTtl state key value expiryMs stamp with
      | mk outcome next =>
          rw [written] at first
          cases outcome with
          | error error =>
              refine first.mono ?_
              rw [List.length_cons]
              omega
          | ok done =>
              refine (ih first _).mono ?_
              rw [List.length_cons]
              omega

theorem Waits.delete (waits : Waits milliseconds count state) (key : String)
    (readings : Readings)
    : Waits milliseconds (count + 1) ((kvStorage clock).delete state key readings).2 := by
  simp only [kvStorage]
  have logged (segment : Nat)
      : (KVEngine.deleteWal state.2 key).unsyncedIn segment = state.2.unsyncedIn segment := by
    simp [KVEngine.deleteWal, FileOp.unsyncedAfter]
  cases deleted : state.1.delete state.2 key with
  | error error => exact waits.mono (Nat.le_succ count)
  | ok result =>
      obtain ⟨found, next, after⟩ := result
      obtain ⟨-, ⟨-, rfl, rfl⟩ | ⟨entry, -, result⟩⟩ := KVEngine.delete_cases deleted
      · refine ⟨waits.periodic, fun segment outside other => ?_, ?_⟩
        · exact (logged segment).trans (waits.confined segment outside other)
        · exact (logged _).trans_le (waits.waiting.trans (Nat.le_succ count))
      · have appended : Waits milliseconds (count + 1)
            ((state.1.deleteIndex key).2,
              (state.1.deleteIndex key).2.deleteRecord (KVEngine.deleteWal state.2 key) key) := by
          refine ⟨waits.periodic, fun segment outside other => ?_, ?_⟩
          · rw [KVEngine.deleteRecord, World.unsyncedIn_perform, FileOp.unsyncedAfter,
              if_neg (Ne.symm other), logged]
            exact waits.confined segment outside other
          · rw [KVEngine.deleteRecord, World.unsyncedIn_perform, FileOp.unsyncedAfter,
              if_pos rfl, logged]
            exact Nat.succ_le_succ waits.waiting
        have finished := appended.fsync
        obtain ⟨rfl, rfl⟩ := Prod.mk.inj result
        exact ⟨finished.periodic, finished.confined, finished.waiting⟩

variable {clock}

theorem Waits.ttl (waits : Waits milliseconds count state) {contents : Contents}
    {since : UInt64} (holds : KvHolds clock state contents since) (key : String)
    (expiryMs : Option UInt64) (readings : Readings)
    : Waits milliseconds (count + 1) ((kvStorage clock).ttl state key expiryMs readings).2 := by
  obtain ⟨stored, ready, -⟩ := holds
  simp only [kvStorage]
  cases done : state.1.ttl clock state.2 key expiryMs (readings.clock 0 0) with
  | error error => exact waits.mono (Nat.le_succ count)
  | ok result =>
      obtain ⟨outcome, next, after⟩ := result
      rcases KVEngine.ttl_cases ready.represents done with ⟨rfl, rfl⟩ | ⟨value, written⟩
      · exact waits.mono (Nat.le_succ count)
      · have retimed := waits.setWithTtl clock key value expiryMs id
        simp only [kvStorage, written, Except.map, outcomeOf] at retimed
        exact retimed

/-- The new files are synced as they are filled. -/
theorem Waits.compact (waits : Waits milliseconds count state) {contents : Contents}
    {since : UInt64} (holds : KvHolds clock state contents since) (readings : Readings)
    : Waits milliseconds count ((kvStorage clock).compact state readings).2 := by
  obtain ⟨stored, ready, -⟩ := holds
  simp only [kvStorage]
  cases compacted : state.1.compact clock readings.order state.2 (readings.clock 0 0)
      readings.copyMs with
  | error error => exact waits
  | ok result =>
      have none := KVEngine.compact_unsynced waits.confined ready.active compacted
      obtain ⟨newDb, filled, -, swapped, -, -⟩ := KVEngine.compact_cases compacted
      refine ⟨?_, fun segment _ _ => none segment, (none _).trans_le (Nat.zero_le count)⟩
      change result.1.fsyncStrategy = _
      rw [swapped]
      exact waits.periodic

-----------------------------------------------------------------------------------------
-- Turns and jobs
-----------------------------------------------------------------------------------------

/-- Only these requests reach the engine's writing calls. -/
theorem database_answer {σ : Type} (engine : StorageEngine σ) (cfg : CompactionCfg)
    (readings : Readings) (process : Process σ) (command : Command)
    : (answer engine cfg readings process command).2.database
      = match command with
        | .write key value ttl =>
            (engine.setWithTtl process.database key value (ttl.bind (expiryOf readings.nowMs))
              readings.stamp).2
        | .delete key => (engine.delete process.database key readings).2
        | .mset items =>
            (engine.msetWithTtl (items.map (withExpiry readings.nowMs)) process.database
              readings.stamp).2
        | .ttl key seconds =>
            (engine.ttl process.database key (expiryOf readings.nowMs seconds) readings).2
        | _ => process.database := by
  cases command with
  | write key value ttl => exact database_finishWrite engine cfg readings _ _ _
  | delete key => exact database_finishDelete engine cfg readings _ _
  | mset items => exact database_finishWrite engine cfg readings _ _ _
  | ttl key seconds => exact database_finishTtl process _
  | read key =>
      simp only [answer]
      split <;> rfl
  | compact =>
      simp only [answer]
      split <;> rfl
  | list =>
      simp only [answer]
      split <;> rfl
  | «exists» key =>
      simp only [answer]
      split <;> rfl
  | mget keys =>
      simp only [answer]
      split <;> rfl
  | range start finish =>
      simp only [answer]
      split
      · split <;> rfl
      · rfl
  | stats | invalid | ping => rfl

theorem Waits.turn {process : Process (KVEngine × World)}
    (waits : Waits milliseconds count process.database) {contents : Contents} {since : UInt64}
    (holds : KvHolds clock process.database contents since) (cfg : CompactionCfg) (turn : Turn)
    : Waits milliseconds (count + turn.work.records)
        (process.turn (kvStorage clock) cfg turn).2.database := by
  obtain ⟨work, readings, finishMs⟩ := turn
  cases work with
  | request command =>
      simp only [Process.turn, dispatch, Work.records]
      rw [database_answer]
      cases command with
      | write key value ttl => exact waits.setWithTtl clock key value _ _
      | delete key => exact waits.delete clock key readings
      | mset items =>
          have batch := waits.msetWithTtl clock
            (items.map (withExpiry readings.nowMs)) readings.stamp
          rwa [List.length_map] at batch
      | ttl key seconds => exact waits.ttl holds key _ readings
      | _ => exact waits
  | compaction =>
      simp only [Process.turn, Work.records]
      split
      · exact waits
      · have compacted := waits.compact holds readings
        rw [Process.runCompaction]
        split <;> rename_i result <;> rwa [result] at compacted

/-- The worker is not seen by the calls. -/
theorem KvHolds.syncActive {contents : Contents} {since : UInt64}
    (holds : KvHolds clock state contents since)
    : KvHolds clock (syncActive state) contents since := by
  obtain ⟨stored, ⟨represents, active, fresh⟩, trims⟩ := holds
  unfold Server.syncActive
  split
  · exact ⟨stored, ⟨represents, active, fresh⟩, trims⟩
  · exact ⟨stored, ⟨represents, active, fresh⟩, trims⟩

section Runs

variable (increasing : StrictMono clock) (cfg : CompactionCfg)
include increasing

/-- A run with the worker, from any map. Witness: induction over the moments. -/
theorem serveSyncing_waits {moments : List Moment} {process : Process (KVEngine × World)}
    {contents : Contents} {since : UInt64}
    (holds : KvHolds clock process.database contents since)
    (waits : Waits milliseconds count process.database)
    (timely : TimelyTurns since (moments.filterMap Moment.turn?))
    : ∃ answers last,
        Explained kvLimits contents (moments.filterMap Moment.turn?) answers last
        ∧ (process.serveSyncing clock cfg moments).1 = answers.map Answer.frame
        ∧ Waits milliseconds (waiting count moments)
            (process.serveSyncing clock cfg moments).2.database := by
  induction moments generalizing process contents since count with
  | nil => exact ⟨[], contents, .nil contents, rfl, waits⟩
  | cons moment rest ih =>
      cases moment with
      | turn turn =>
          obtain ⟨answers, changed, explains, responses, now⟩ :=
            kv_turn increasing cfg holds timely.1
          obtain ⟨others, last, explained, later, final⟩ :=
            ih now (waits.turn holds cfg turn) timely.2
          refine ⟨answers ++ others, last, explains explained, ?_, final⟩
          rw [Process.serveSyncing, List.map_append, ← responses, ← later]
      | sync => exact ih holds.syncActive waits.syncActive timely

/-- In every run of a server over a new engine with the strategy `Periodic`, whenever the worker
comes between the requests, the answers are those of the map, and the records that wait for a
sync are at most those of the requests since it came last.
-/
theorem periodic_sync_bounds_loss (maxSegmentBytes : UInt64) {moments : List Moment}
    (timely : TimelyTurns 0 (moments.filterMap Moment.turn?))
    : let start := KVEngine.new clock maxSegmentBytes (.periodic milliseconds) World.initial
      let served := Process.serveSyncing clock cfg moments (.new start)
      (∃ answers last,
          Explained kvLimits Contents.empty (moments.filterMap Moment.turn?) answers last
          ∧ served.1 = answers.map Answer.frame)
        ∧ served.2.database.2.unsynced ≤ waiting 0 moments := by
  have holds := kvHolds_new increasing (fresh_initial clock) maxSegmentBytes
    (.periodic milliseconds)
  have waits : Waits milliseconds 0
      (KVEngine.new clock maxSegmentBytes (.periodic milliseconds) World.initial) :=
    ⟨rfl, fun _ _ _ => rfl, Nat.le_refl 0⟩
  obtain ⟨answers, last, explained, responses, final⟩ :=
    serveSyncing_waits increasing cfg holds waits timely
  exact ⟨⟨answers, last, explained, responses⟩, final.confined.unsynced_le.trans final.waiting⟩

end Runs

/-- A batch rolls over two segments before the worker comes; a write and a delete follow. -/
def syncedMoments : List Moment :=
  [
    .turn ((Work.request (.mset [("k", "v", none), ("a", "b", some 1)])).at 1),
    .sync,
    .turn ((Work.request (.write "k" "w" none)).at 2),
    .turn ((Work.request (.delete "a")).at 3),
  ]

theorem timely_syncedMoments : TimelyTurns 0 (syncedMoments.filterMap Moment.turn?) :=
  ⟨.at (by decide), .at (by decide), .at (by decide), trivial⟩

/-- Witness: what was written before the worker came is safe. -/
theorem periodic_sync_bounds_loss_rolled
    : waiting 0 syncedMoments = 2
      ∧ ((Process.new
            (KVEngine.new id 30 (.periodic 1000) .initial)).serveSyncing id
            { ratio := 0, maxSegment := 0 } syncedMoments).2.database.2.unsynced ≤ 2 :=
  ⟨rfl, (periodic_sync_bounds_loss strictMono_id _ 30 timely_syncedMoments).2⟩

end Rustikv.Server

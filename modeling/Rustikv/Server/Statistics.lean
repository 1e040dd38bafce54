import Rustikv.Server.Service

/-! The counters of a server process. They count what its clients have been told. -/

namespace Rustikv.Server

open Library Kv

/-- The counters that requests add to. -/
inductive Counter
  | reads
  | writes
  | deletes
  | writeBlockedAttempts
  | writeBlockedTotalMs
  deriving DecidableEq, Repr

def Stats.value (stats : Stats) : Counter → UInt64
  | .reads => stats.reads
  | .writes => stats.writes
  | .deletes => stats.deletes
  | .writeBlockedAttempts => stats.writeBlockedAttempts
  | .writeBlockedTotalMs => stats.writeBlockedTotalMs

/-- A request with its answer, and whether a compaction was on when it arrived. -/
structure Exchange where
  command : Command
  readings : Readings
  compacting : Bool
  answer : Answer

/-- Where a request is for items, the numbers of those it returned and those it wrote. -/
def Exchange.counts (exchange : Exchange) (counter : Counter) : Nat :=
  match counter, exchange.command, exchange.answer with
  | .reads, .read _, _ => 1
  | .reads, .mget _, (.ok, fields) => fields.length / 2
  | .reads, .range _ _, (.ok, fields) => fields.length / 2
  | .writes, .write _ _ _, (.ok, _) => 1
  | .writes, .mset items, (.ok, _) => items.length
  | .deletes, .delete _, (.ok, _) => 1
  | .writeBlockedAttempts, .write _ _ _, _ => exchange.compacting.toNat
  | .writeBlockedAttempts, .mset _, _ => exchange.compacting.toNat
  | .writeBlockedTotalMs, .write _ _ _, _ => exchange.readings.lockMs.toNat
  | .writeBlockedTotalMs, .mset _, _ => exchange.readings.lockMs.toNat
  | _, _, _ => 0

/-- What a list of exchanges counts for. -/
def total (exchanges : List Exchange) (counter : Counter) : Nat :=
  (exchanges.map (fun exchange => exchange.counts counter)).sum

section Counting

variable {σ : Type} (engine : StorageEngine σ) (cfg : CompactionCfg)

namespace Process

/-- The request of a turn with its answer. -/
def exchange? (process : Process σ) (turn : Turn) : Option Exchange :=
  match turn.work with
  | .request command =>
      some {
        command
        readings := turn.readings
        compacting := process.stats.compacting
        answer := (answer engine cfg turn.readings process command).1
      }
  | .compaction => none

def exchanges : List Turn → Process σ → List Exchange
  | [], _ => []
  | turn :: rest, process =>
      (process.exchange? engine cfg turn).toList
      ++ exchanges rest (process.turn engine cfg turn).2

theorem serve_eq_exchanges (turns : List Turn) (process : Process σ)
    : (serve engine cfg turns process).1
      = (exchanges engine cfg turns process).map
          (fun exchange => exchange.answer.frame) := by
  induction turns generalizing process with
  | nil => rfl
  | cons turn rest ih =>
      rw [exchanges, List.map_append, ← ih]
      change _ ++ _ = _
      congr 1
      unfold exchange?
      cases turn.work with
      | request command => rfl
      | compaction =>
          dsimp only
          split <;> rfl

theorem exchanges_append (front back : List Turn) (process : Process σ)
    : exchanges engine cfg (front ++ back) process
      = exchanges engine cfg front process
        ++ exchanges engine cfg back (serve engine cfg front process).2 := by
  induction front generalizing process with
  | nil => rfl
  | cons turn rest ih =>
      rw [List.cons_append, exchanges, exchanges, ih, List.append_assoc]
      rfl

theorem value_maybeTriggerCompaction (process : Process σ) (startMs : UInt64)
    (counter : Counter)
    : (process.maybeTriggerCompaction engine cfg startMs).stats.value counter
      = process.stats.value counter := by
  unfold maybeTriggerCompaction
  split
  · cases counter <;> rfl
  · rfl

end Process

theorem value_attempt (stats : Stats) (counter : Counter)
    : stats.attempt.value counter
      = stats.value counter
        + UInt64.ofNat
          (if counter = .writeBlockedAttempts then stats.compacting.toNat else 0) := by
  unfold Stats.attempt
  cases counter <;> cases stats.compacting <;> simp [Stats.value]

theorem value_finishWrite (readings : Readings) (process : Process σ) (count : Nat)
    (outcome : Except IoError Unit × σ) (counter : Counter)
    : (finishWrite engine cfg readings process count outcome).2.stats.value counter
      = process.stats.value counter
        + UInt64.ofNat
          (match counter with
            | .writes => if outcome.1.isOk then count else 0
            | .writeBlockedTotalMs => readings.lockMs.toNat
            | _ => 0) := by
  obtain ⟨outcome, next⟩ := outcome
  cases outcome with
  | error error =>
      cases counter <;>
        simp [finishWrite, Stats.value, Stats.locked, Except.isOk, Except.toBool]
  | ok _ =>
      unfold finishWrite
      dsimp only
      rw [Process.value_maybeTriggerCompaction]
      cases counter <;>
        simp [Stats.value, Stats.locked, Stats.addWrites, Except.isOk, Except.toBool]

/-- A request adds what its exchange counts for. -/
theorem value_answer (readings : Readings) (process : Process σ) (command : Command)
    (counter : Counter)
    : (answer engine cfg readings process command).2.stats.value counter
      = process.stats.value counter
        + UInt64.ofNat
          (Exchange.counts
            {
              command
              readings
              compacting := process.stats.compacting
              answer := (answer engine cfg readings process command).1
            }
            counter) := by
  cases command with
  | write key value ttl =>
      simp only [answer, value_finishWrite, value_attempt]
      generalize engine.setWithTtl process.database key value _ _ = outcome
      obtain ⟨_ | _, next⟩ := outcome <;> cases counter <;>
        simp [finishWrite, errorAnswer, Exchange.counts, Except.isOk, Except.toBool]
  | mset items =>
      simp only [answer, value_finishWrite, value_attempt]
      generalize engine.msetWithTtl _ process.database _ = outcome
      obtain ⟨_ | _, next⟩ := outcome <;> cases counter <;>
        simp [finishWrite, errorAnswer, Exchange.counts, Except.isOk, Except.toBool]
  | delete key =>
      simp only [answer]
      generalize engine.delete process.database key readings = outcome
      obtain ⟨_ | _ | _, next⟩ := outcome
      · cases counter <;> simp [finishDelete, errorAnswer, Exchange.counts]
      · cases counter <;> simp [finishDelete, Exchange.counts]
      · unfold finishDelete
        dsimp only
        rw [Process.value_maybeTriggerCompaction]
        cases counter <;> simp [Exchange.counts, Stats.value]
  | ttl key seconds =>
      simp only [answer]
      generalize engine.ttl process.database key _ readings = outcome
      obtain ⟨_ | _ | _ | _, next⟩ := outcome <;> cases counter <;>
        simp [finishTtl, Exchange.counts]
  | read key =>
      simp only [answer]
      cases engine.get process.database key (readings.clock 0) with
      | error error => cases counter <;> simp [Exchange.counts, Stats.value, Stats.addReads]
      | ok found =>
          cases found <;> cases counter <;>
            simp [Exchange.counts, Stats.value, Stats.addReads]
  | mget keys =>
      simp only [answer]
      cases engine.mget process.database keys readings.clock with
      | error error => cases counter <;> simp [Exchange.counts, errorAnswer]
      | ok items =>
          cases counter <;> simp [Exchange.counts, Stats.value, Stats.addReads]
  | range start finish =>
      simp only [answer]
      cases engine.range with
      | none => cases counter <;> simp [Exchange.counts]
      | some range =>
          dsimp only
          cases range process.database start finish (readings.clock 0 0) with
          | error error => cases counter <;> simp [Exchange.counts, errorAnswer]
          | ok results =>
              cases counter <;> simp [Exchange.counts, Stats.value, Stats.addReads]
  | compact =>
      simp only [answer]
      split <;> cases counter <;>
        simp [Exchange.counts, Stats.value, Process.startCompaction]
  | list =>
      simp only [answer]
      cases engine.listKeys process.database readings <;> cases counter <;>
        simp [Exchange.counts]
  | «exists» key =>
      simp only [answer]
      split <;> cases counter <;> simp [Exchange.counts]
  | _ => cases counter <;> simp [answer, Exchange.counts]

/-- A turn adds what its request counts for; a compaction adds nothing. -/
theorem value_turn (process : Process σ) (turn : Turn) (counter : Counter)
    : (process.turn engine cfg turn).2.stats.value counter
      = process.stats.value counter
        + UInt64.ofNat (total (process.exchange? engine cfg turn).toList counter) := by
  obtain ⟨work, readings, finishMs⟩ := turn
  cases work with
  | request command =>
      simp only [Process.exchange?, Option.toList_some, total, List.map_cons, List.map_nil,
        List.sum_cons, List.sum_nil, Nat.add_zero]
      exact value_answer engine cfg readings process command counter
  | compaction =>
      simp only [Process.exchange?, Option.toList_none, total, List.map_nil, List.sum_nil]
      unfold Process.turn
      dsimp only
      split
      · simp
      · unfold Process.runCompaction
        split <;> cases counter <;> simp [Stats.value]

/-- Witness: induction over the turns, with the counters after each of them. -/
theorem value_serve (turns : List Turn) (process : Process σ) (counter : Counter)
    : (Process.serve engine cfg turns process).2.stats.value counter
      = process.stats.value counter
        + UInt64.ofNat (total (Process.exchanges engine cfg turns process) counter) := by
  induction turns generalizing process with
  | nil => simp [Process.serve, Process.exchanges, total]
  | cons turn rest ih =>
      have split : total (Process.exchanges engine cfg (turn :: rest) process) counter
          = total (process.exchange? engine cfg turn).toList counter
            + total (Process.exchanges engine cfg rest (process.turn engine cfg turn).2)
              counter := by
        rw [Process.exchanges, total, List.map_append, List.sum_append]
        rfl
      change (Process.serve engine cfg rest (process.turn engine cfg turn).2).2.stats.value
        counter = _
      rw [ih, value_turn, split, UInt64.ofNat_add, UInt64.add_assoc]

/-- The text that STATS returns at any moment of a run gives the numbers, modulo 2^64, of
the items that clients were sent and of those whose writes and deletes were acknowledged to
them. A batch that was refused in the middle counts for none of its items.
-/
theorem stats_reported (database : σ) (front back : List Turn) (readings : Readings)
    (finishMs : UInt64)
    : ∃ (stats : Stats) (later : List Bytes),
        (Process.serve engine cfg
            (front ++ { work := .request .stats, readings, finishMs } :: back)
            (.new database)).1
          = (Process.exchanges engine cfg front (.new database)).map
              (fun exchange => exchange.answer.frame)
            ++ encodeFrame .ok [stats.snapshot] :: later
        ∧ ∀ counter,
            stats.value counter
            = UInt64.ofNat
              (total (Process.exchanges engine cfg front (.new database)) counter) := by
  let reached := (Process.serve engine cfg front (.new database)).2
  refine ⟨reached.stats,
    (Process.exchanges engine cfg back reached).map (fun exchange => exchange.answer.frame),
    ?_, fun counter => ?_⟩
  · rw [Process.serve_eq_exchanges, Process.exchanges_append, List.map_append]
    rfl
  · rw [value_serve]
    have zero : (Process.new database).stats.value counter = 0 := by cases counter <;> rfl
    rw [zero, UInt64.zero_add]

end Counting

end Rustikv.Server

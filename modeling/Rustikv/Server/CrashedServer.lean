import Rustikv.Kv.CrashRecovery
import Rustikv.Server.Service

/-! Servers that crash. Whatever file operation of whatever request a crash falls on, the next
server over the same directory has all that was answered, and of the request in progress
nothing, all, or the first items of an `MSET`.
-/

namespace Rustikv.Server

open Library Kv

-----------------------------------------------------------------------------------------
-- Lives of a server
-----------------------------------------------------------------------------------------

/-- How `main` opens the hash engine. -/
def openDatabase (clock : Nat → Nat) (maxSegmentBytes : UInt64)
    (fsyncStrategy : FSyncStrategy) (world : World)
    : Except IoError (KVEngine × World) := do
  match ← KVEngine.fromDir maxSegmentBytes fsyncStrategy world with
  | (some db, world) => return (db, world)
  | (none, world) => return KVEngine.new clock maxSegmentBytes fsyncStrategy world

/-- The requests that a server answers, the one it crashes in after some file operations, and
the settings of the server that follows. That one may crash a few times while it opens the
directory.
-/
structure Life where
  requests : List (Command × Readings)
  interrupted : Command × Readings
  writes : Nat
  openings : List Nat
  maxSegmentBytes : UInt64
  fsyncStrategy : FSyncStrategy

def turnOf (request : Command × Readings) : Turn :=
  { work := .request request.1, readings := request.2, finishMs := request.2.nowMs }

def Life.turns (life : Life) : List Turn :=
  life.requests.map turnOf

namespace Process

variable (clock : Nat → Nat) (cfg : CompactionCfg)

/-- The responses of a server, and the one that follows it. -/
def live (life : Life) (process : Process (KVEngine × World))
    : Except IoError (List Bytes × Process (KVEngine × World)) := do
  let served := process.serve (kvStorage clock) cfg life.turns
  let stopped := dispatch (kvStorage clock) cfg life.interrupted.2 served.2 life.interrupted.1
  let world := served.2.database.2.crash stopped.2.database.2 life.writes
  let world ← life.openings.foldlM
    (KVEngine.crashRecovering life.maxSegmentBytes life.fsyncStrategy) world
  let database ← openDatabase clock life.maxSegmentBytes life.fsyncStrategy world
  return (served.1, .new database)

def liveAll
    : List Life → Process (KVEngine × World)
      → Except IoError (List (List Bytes) × Process (KVEngine × World))
  | [], process => .ok ([], process)
  | life :: rest, process => do
      let (responses, process) ← process.live clock cfg life
      let (more, process) ← liveAll rest process
      return (responses :: more, process)

end Process

/-- The maps that a request may leave behind when it is interrupted. -/
inductive Interrupted (limits : Limits) (readings : Readings) (contents : Contents)
    : Command → Contents → Prop
  | before (command : Command) : Interrupted limits readings contents command contents
  | after {command : Command} {answer : Answer} {changed : Contents}
      (answered : Answered limits readings contents command answer changed)
    : Interrupted limits readings contents command changed
  | within {items : List (String × String × Option UInt32)} (count : Nat)
      (admitted : ∀ item ∈ items.take count, limits.refusesItem item.1 item.2.1 = false)
    : Interrupted limits readings contents (.mset items)
        (contents.setAll ((items.take count).map (withExpiry readings.nowMs)))

/-- The answers of each life come from the map that the lives before it left. -/
inductive Lived (limits : Limits)
    : Contents → List Life → List (List Answer) → Contents → Prop
  | nil (contents : Contents) : Lived limits contents [] [] contents
  | cons {contents answered left last : Contents} {life : Life} {answers : List Answer}
      {rest : List Life} {more : List (List Answer)}
      (explained : Explained limits contents life.turns answers answered)
      (interrupted
        : Interrupted limits life.interrupted.2 answered life.interrupted.1 left)
      (later : Lived limits left rest more last)
    : Lived limits contents (life :: rest) (answers :: more) last

-----------------------------------------------------------------------------------------
-- What a crash leaves
-----------------------------------------------------------------------------------------

theorem durable_later {limit other : Nat} {contents : Contents} {disk : Disk}
    (durable : Durable limit contents disk) (order : limit ≤ other)
    : Durable other contents disk := by
  obtain ⟨hints, logs, wal, nonempty, stored, replayed, below⟩ := durable
  exact ⟨hints, logs, wal, nonempty, stored, replayed,
    fun log member => (below log member).trans order⟩

/-- Wherever a crash falls between two worlds, one of these maps is on the disk. -/
structure Leaves (clock : Nat → Nat) (before after : World) (possible : Contents → Prop)
    : Prop where
  later : clock before.ticks ≤ clock after.ticks
  crash
    : ∃ operations,
        Performs before after operations
        ∧ Throughout
            (fun disk => ∃ left, possible left ∧ Durable (clock after.ticks) left disk)
            before.disk operations

namespace Leaves

variable {clock : Nat → Nat} {before middle after : World}
  {possible other : Contents → Prop}

theorem refl {contents : Contents}
    (durable : Durable (clock before.ticks) contents before.disk) (here : possible contents)
    : Leaves clock before before possible :=
  ⟨le_rfl, [], .refl before, contents, here, durable⟩

theorem imp (leaves : Leaves clock before after possible)
    (weaker : ∀ left, possible left → other left)
    : Leaves clock before after other := by
  obtain ⟨later, operations, performs, throughout⟩ := leaves
  refine ⟨later, operations, performs, throughout.imp ?_⟩
  rintro disk ⟨left, here, durable⟩
  exact ⟨left, weaker left here, durable⟩

theorem trans (first : Leaves clock before middle possible)
    (second : Leaves clock middle after possible)
    : Leaves clock before after possible := by
  obtain ⟨early, front, performsFront, throughoutFront⟩ := first
  obtain ⟨late, back, performsBack, throughoutBack⟩ := second
  refine ⟨early.trans late, front ++ back, performsFront.trans performsBack, ?_⟩
  refine Throughout.append (throughoutFront.imp ?_) (performsFront.disk ▸ throughoutBack)
  rintro disk ⟨left, here, durable⟩
  exact ⟨left, here, durable_later durable late⟩

theorem crashed (leaves : Leaves clock before after possible) (writes : Nat)
    : ∃ left,
        possible left
        ∧ Durable (clock (before.crash after writes).ticks) left
            (before.crash after writes).disk := by
  obtain ⟨-, operations, performs, throughout⟩ := leaves
  rw [performs.crash]
  exact throughout.take writes

end Leaves

-----------------------------------------------------------------------------------------
-- The hash engine without compactions
-----------------------------------------------------------------------------------------

/-- The engine stores exactly the map, and a crash would leave it. -/
def KvRuns (clock : Nat → Nat) (state : KVEngine × World) (contents : Contents)
    (_ : UInt64)
    : Prop :=
  Running clock state.1 state.2 contents

theorem running_implements {clock : Nat → Nat} (monotone : Monotone clock)
    : Implements (kvStorage clock) kvLimits (fun _ _ _ _ => True) (KvRuns clock) where
  get runs _ := runs.shows.get _ UInt64.zero_le
  set {state contents since key value expiryMs} stamp runs admitted _ := by
    obtain ⟨next, after, written, now, -⟩ :=
      runs.setWithTtl monotone (fits_of_admitted admitted) expiryMs
    refine ⟨(next, after), ?_, now⟩
    simp only [kvStorage, written, Except.map, outcomeOf]
  setRefused {state contents since key value} expiryMs stamp _ refused :=
    kvStorage_setRefused refused state expiryMs stamp
  delete {state contents since key readings} runs _ admitted _ := by
    have fits : key.utf8ByteSize ≤ maxKeySize := not_lt.mp (of_decide_eq_false admitted)
    obtain ⟨found, next, after, deleted, now, -⟩ := runs.delete fits
    have known := KVEngine.delete_found deleted
    rw [runs.represents.isSome_get] at known
    refine ⟨found, (next, after), by simp only [kvStorage, deleted, outcomeOf], now, ?_⟩
    cases held : contents key with
    | none =>
        rw [held] at known
        subst known
        simp [Contents.read, held]
    | some item =>
        rw [held] at known
        subst known
        simp
  deleteRefused {state contents since key} readings _ refused :=
    kvStorage_deleteRefused refused state readings
  ttl {state contents since key expiryMs readings} runs _ _ := by
    cases live : contents.read key (readings.clock 0 0) with
    | none =>
        have lookup := runs.represents.kvLookup state.1.activeSegment key (readings.clock 0 0)
        rw [live] at lookup
        refine ⟨state, ?_, runs⟩
        simp only [kvStorage, KVEngine.ttl, lookup]
        rfl
    | some value =>
        obtain ⟨next, after, written, now, -⟩ := runs.ttl monotone expiryMs live
        exact ⟨(next, after), by simp only [kvStorage, written, outcomeOf], now⟩
  listKeys {state contents since readings} runs _ :=
    ⟨_, rfl, Shows.nodup_listKeys readings.order state.1 (readings.clock 0 0),
      fun key => runs.shows.mem_listKeys readings.order key UInt64.zero_le⟩
  exists? {state contents since key times} runs _ :=
    runs.shows.exists? key UInt64.zero_le
  range := rfl

theorem active_of_running {db : KVEngine} {world : World} {logs : List Log}
    {updates wal : List Update} (running : RunningOn clock db world contents logs updates wal)
    : db.activeSegment ∈ world.disk.segments :=
  (running.stored.filed.mem_iff _).mpr ⟨updates, by simp⟩

/-- The next server opens what a crash has left. -/
theorem openDatabase_runs {clock : Nat → Nat} {world : World} {left : Contents}
    (durable : Durable (clock world.ticks) left world.disk) (maxSegmentBytes : UInt64)
    (fsyncStrategy : FSyncStrategy)
    : ∃ database,
        openDatabase clock maxSegmentBytes fsyncStrategy world = .ok database
        ∧ KvRuns clock database left 0 := by
  obtain ⟨db, after, opened, running, -⟩ := durable.fromDir maxSegmentBytes fsyncStrategy
  exact ⟨(db, after), by rw [openDatabase, opened]; rfl, running⟩

section Crashes

variable {clock : Nat → Nat} (monotone : Monotone clock) {state : KVEngine × World}
  {contents : Contents}
include monotone

theorem clock_progress {db next : KVEngine} {world after : World}
    (progress : KVEngine.Progress clock db next world after)
    : clock world.ticks ≤ clock after.ticks := by
  refine monotone ?_
  rcases progress.segment with ⟨-, same⟩ | ⟨-, next⟩ <;> omega

/-- A write leaves the map before it or the one behind it. -/
theorem leaves_write {db next : KVEngine} {world after : World} {logs more : List Log}
    {updates last wal newWal : List Update} {added : List Kv.Place} {operations : List FileOp}
    {update : Update} (running : RunningOn clock db world contents logs updates wal)
    (effect : KVEngine.WriteEffect clock update db next world after logs more updates last wal
      newWal added operations)
    (progress : KVEngine.Progress clock db next world after)
    : Leaves clock world after (fun left => left = contents ∨ left = contents.apply update) := by
  have durable := effect.durable running.mirrors
    (fun unknown _ => running.represents.absent update.key unknown) running.hints
  refine ⟨clock_progress monotone progress, operations, effect.performs, durable.imp ?_⟩
  rintro disk (old | new)
  · exact ⟨contents, .inl rfl, old⟩
  · exact ⟨contents.apply update, .inr rfl, new⟩

theorem leaves_set (runs : KvRuns clock state contents 0) {key value : String}
    (expiryMs : Option UInt64) (stamp : Nat → Nat)
    : Leaves clock state.2 ((kvStorage clock).setWithTtl state key value expiryMs stamp).2.2
        (fun left =>
          left = contents
          ∨ kvLimits.refusesItem key value = false
            ∧ left = contents.set key value expiryMs) := by
  obtain ⟨logs, updates, wal, running⟩ := runs
  cases refused : kvLimits.refusesItem key value with
  | true =>
      rw [kvStorage_setRefused refused]
      exact .refl running.durable (.inl rfl)
  | false =>
      have fits := fits_of_admitted refused
      obtain ⟨next, after, more, last, newWal, added, operations, written, effect⟩ :=
        KVEngine.setWithTtl_effect monotone running.stored running.bound fits expiryMs
      obtain ⟨_, _, same, progress, -⟩ := KVEngine.setWithTtl_sound clock running.represents
        (active_of_running running) fits expiryMs
      obtain ⟨rfl, rfl⟩ := Prod.mk.inj (Except.ok.inj (written.symm.trans same))
      simp only [kvStorage, written, Except.map, outcomeOf]
      refine (leaves_write monotone running effect progress).imp ?_
      rintro left (old | new)
      · exact .inl old
      · exact .inr ⟨trivial, new⟩

theorem leaves_delete (runs : KvRuns clock state contents 0) (key : String)
    (readings : Readings)
    : Leaves clock state.2 ((kvStorage clock).delete state key readings).2.2
        (fun left =>
          left = contents
          ∨ kvLimits.refusesKey key = false ∧ left = contents.delete key) := by
  obtain ⟨logs, updates, wal, running⟩ := runs
  cases refused : kvLimits.refusesKey key with
  | true =>
      rw [kvStorage_deleteRefused refused]
      exact .refl running.durable (.inl rfl)
  | false =>
      have fits : key.utf8ByteSize ≤ maxKeySize := not_lt.mp (of_decide_eq_false refused)
      obtain ⟨found, next, after, last, newWal, added, operations, deleted, effect⟩ :=
        KVEngine.delete_effect running.stored running.bound fits
      obtain ⟨_, _, _, same, progress, -⟩ := KVEngine.delete_sound clock running.represents
        (active_of_running running) fits
      obtain ⟨-, pair⟩ := Prod.mk.inj (Except.ok.inj (deleted.symm.trans same))
      obtain ⟨rfl, rfl⟩ := Prod.mk.inj pair
      simp only [kvStorage, deleted, outcomeOf]
      refine (leaves_write monotone running effect progress).imp ?_
      rintro left (old | new)
      · exact .inl old
      · exact .inr ⟨trivial, new⟩

theorem leaves_ttl (runs : KvRuns clock state contents 0) (key : String)
    (expiryMs : Option UInt64) (readings : Readings)
    : Leaves clock state.2 ((kvStorage clock).ttl state key expiryMs readings).2.2
        (fun left =>
          left = contents
          ∨ ∃ value,
              contents.read key (readings.clock 0 0) = some value
              ∧ left = contents.set key value expiryMs) := by
  obtain ⟨logs, updates, wal, running⟩ := runs
  rcases KVEngine.ttl_sound clock running.represents (active_of_running running) key
    expiryMs (readings.clock 0 0) with
    ⟨-, unchanged⟩ | ⟨value, next, after, live, written, progress, -⟩
  · simp only [kvStorage, unchanged, outcomeOf]
    exact .refl running.durable (.inl rfl)
  · obtain ⟨_, _, more, last, newWal, added, operations, same, effect⟩ :=
      KVEngine.ttl_effect monotone running.stored running.bound running.represents expiryMs live
    obtain ⟨-, pair⟩ := Prod.mk.inj (Except.ok.inj (written.symm.trans same))
    obtain ⟨rfl, rfl⟩ := Prod.mk.inj pair
    simp only [kvStorage, written, outcomeOf]
    refine (leaves_write monotone running effect progress).imp ?_
    rintro left (old | new)
    · exact .inl old
    · exact .inr ⟨value, live, new⟩

/-- A crash in a batch leaves the items before it, and perhaps the one it falls on. -/
theorem leaves_mset {items : List (String × String × Option UInt64)} {stamp : Nat → Nat}
    (runs : KvRuns clock state contents 0)
    : Leaves clock state.2 ((kvStorage clock).msetWithTtl items state stamp).2.2
        (fun left =>
          ∃ count,
            (∀ item ∈ items.take count, kvLimits.refusesItem item.1 item.2.1 = false)
            ∧ left = contents.setAll (items.take count)) := by
  induction items generalizing state contents stamp with
  | nil =>
      obtain ⟨logs, updates, wal, running⟩ := runs
      exact .refl running.durable ⟨0, by simp, rfl⟩
  | cons item rest ih =>
      obtain ⟨key, value, expiryMs⟩ := item
      have first
          : Leaves clock state.2 ((kvStorage clock).setWithTtl state key value expiryMs stamp).2.2
              (fun left =>
                ∃ count,
                  (∀ item ∈ ((key, value, expiryMs) :: rest).take count,
                    kvLimits.refusesItem item.1 item.2.1 = false)
                  ∧ left = contents.setAll (((key, value, expiryMs) :: rest).take count)) := by
        refine (leaves_set monotone runs expiryMs stamp).imp ?_
        rintro left (rfl | ⟨admitted, rfl⟩)
        · exact ⟨0, by simp, rfl⟩
        · exact ⟨1, by simpa using admitted, rfl⟩
      cases refused : kvLimits.refusesItem key value with
      | true =>
          rw [StorageEngine.msetWithTtl, kvStorage_setRefused refused]
          rwa [kvStorage_setRefused refused] at first
      | false =>
          obtain ⟨next, written, now⟩ :=
            (running_implements monotone).set stamp runs refused trivial
          rw [StorageEngine.msetWithTtl, written]
          rw [written] at first
          refine first.trans ((ih now).imp ?_)
          rintro left ⟨count, admitted, rfl⟩
          exact ⟨count + 1, List.forall_mem_cons.mpr ⟨refused, admitted⟩, rfl⟩

/-- A request that is interrupted at any file operation. -/
theorem leaves_answer {process : Process (KVEngine × World)}
    (runs : KvRuns clock process.database contents 0) (cfg : CompactionCfg)
    (readings : Readings) (command : Command)
    : Leaves clock process.database.2
        (dispatch (kvStorage clock) cfg readings process command).2.database.2
        (Interrupted kvLimits readings contents command) := by
  have untouched
      : Leaves clock process.database.2 process.database.2
          (Interrupted kvLimits readings contents command) := by
    obtain ⟨logs, updates, wal, running⟩ := runs
    exact .refl running.durable (.before command)
  change Leaves clock _ (answer (kvStorage clock) cfg readings process command).2.database.2 _
  cases command with
  | write key value ttl =>
      rw [answer, database_finishWrite]
      refine (leaves_set monotone runs _ readings.stamp).imp ?_
      rintro left (rfl | ⟨admitted, rfl⟩)
      · exact .before _
      · exact .after (.wrote ttl admitted)
  | delete key =>
      rw [answer, database_finishDelete]
      refine (leaves_delete monotone runs key readings).imp ?_
      rintro left (rfl | ⟨admitted, rfl⟩)
      · exact .before _
      · cases held : contents key with
        | none => exact .after (.nothingDeleted admitted (by rw [Contents.read, held]; rfl))
        | some item => exact .after (.deleted admitted (by rw [held]; rfl))
  | mset items =>
      rw [answer, database_finishWrite]
      refine (leaves_mset monotone runs).imp ?_
      rintro left ⟨count, admitted, rfl⟩
      rw [← List.map_take] at admitted ⊢
      exact .within count (fun item member => admitted _ (List.mem_map_of_mem member))
  | ttl key seconds =>
      rw [answer, database_finishTtl]
      refine (leaves_ttl monotone runs key _ readings).imp ?_
      rintro left (rfl | ⟨value, live, rfl⟩)
      · exact .before _
      · exact .after (.retimed seconds live)
  | read key =>
      unfold answer
      dsimp only
      split <;> exact untouched
  | compact =>
      unfold answer
      dsimp only
      split <;> exact untouched
  | list =>
      unfold answer
      dsimp only
      split <;> exact untouched
  | «exists» key =>
      unfold answer
      dsimp only
      split <;> exact untouched
  | mget keys =>
      unfold answer
      dsimp only
      split <;> exact untouched
  | stats | invalid opCode | ping | range start finish => exact untouched

-----------------------------------------------------------------------------------------
-- Whole histories
-----------------------------------------------------------------------------------------

/-- Requests without compactions between them. Witness: induction over the requests. -/
theorem serve_requests {process : Process (KVEngine × World)}
    (runs : KvRuns clock process.database contents 0) (cfg : CompactionCfg)
    (requests : List (Command × Readings))
    : ∃ answers answered,
        Explained kvLimits contents (requests.map turnOf) answers answered
        ∧ (process.serve (kvStorage clock) cfg (requests.map turnOf)).1
          = answers.map Answer.frame
        ∧ KvRuns clock (process.serve (kvStorage clock) cfg (requests.map turnOf)).2.database
            answered 0 := by
  induction requests generalizing process contents with
  | nil => exact ⟨[], contents, .nil contents, rfl, runs⟩
  | cons request rest ih =>
      obtain ⟨changed, answeredFirst, now⟩ := (running_implements monotone).answer runs cfg
        (fun i => UInt64.zero_le) (permits_anything (kvStorage clock) request.2 _ request.1)
      obtain ⟨answers, answered, explained, responses, final⟩ := ih now
      exact ⟨_ :: answers, answered, .request request.2.nowMs answeredFirst explained,
        congrArg (List.cons _) responses, final⟩

theorem live_runs {process : Process (KVEngine × World)}
    (runs : KvRuns clock process.database contents 0) (cfg : CompactionCfg) (life : Life)
    : ∃ responses next answers answered left,
        process.live clock cfg life = .ok (responses, next)
        ∧ responses = answers.map Answer.frame
        ∧ Explained kvLimits contents life.turns answers answered
        ∧ Interrupted kvLimits life.interrupted.2 answered life.interrupted.1 left
        ∧ KvRuns clock next.database left 0 := by
  obtain ⟨answers, answered, explained, responses, now⟩ :=
    serve_requests monotone runs cfg life.requests
  obtain ⟨left, interrupted, durable⟩ :=
    (leaves_answer monotone now cfg life.interrupted.2 life.interrupted.1).crashed life.writes
  obtain ⟨world, opening, still⟩ :=
    durable.recoveries life.maxSegmentBytes life.fsyncStrategy life.openings
  obtain ⟨database, opened, final⟩ :=
    openDatabase_runs still life.maxSegmentBytes life.fsyncStrategy
  refine ⟨_, .new database, answers, answered, left, ?_, responses, explained, interrupted,
    final⟩
  simp only [Process.live, Life.turns, opening, ok_bind, opened]
  rfl

theorem liveAll_runs {process : Process (KVEngine × World)}
    (runs : KvRuns clock process.database contents 0) (cfg : CompactionCfg)
    (lives : List Life)
    : ∃ responses last answers final,
        process.liveAll clock cfg lives = .ok (responses, last)
        ∧ responses = answers.map (List.map Answer.frame)
        ∧ Lived kvLimits contents lives answers final
        ∧ KvRuns clock last.database final 0 := by
  induction lives generalizing process contents with
  | nil => exact ⟨[], process, [], contents, rfl, rfl, .nil contents, runs⟩
  | cons life rest ih =>
      obtain ⟨responses, next, answers, answered, left, lived, frames, explained, interrupted,
        now⟩ := live_runs monotone runs cfg life
      obtain ⟨more, last, others, final, livedOn, framesOn, later, finished⟩ := ih now
      refine ⟨responses :: more, last, answers :: others, final, ?_, ?_,
        .cons explained interrupted later, finished⟩
      · simp only [Process.liveAll, lived, ok_bind, livedOn]
        rfl
      · rw [frames, framesOn, List.map_cons]

/-- A server over a new hash engine crashes in any request and at any of its file operations,
and so do the servers that follow it, also while they open the directory. As long as no
compaction runs, every server answers its requests from a map, which is the one that the
server before it had answered from, with nothing, all, or the first items of the request
that was interrupted.
-/
theorem crashed_server_keeps_answered (cfg : CompactionCfg) (maxSegmentBytes : UInt64)
    (fsyncStrategy : FSyncStrategy) (lives : List Life)
    : ∃ responses last answers final,
        (Process.new (KVEngine.new clock maxSegmentBytes fsyncStrategy World.initial)).liveAll
            clock cfg lives
          = .ok (responses, last)
        ∧ responses = answers.map (List.map Answer.frame)
        ∧ Lived kvLimits Contents.empty lives answers final
        ∧ ∀ key nowMs,
            last.database.1.get last.database.2 key nowMs
            = .ok ((final.read key nowMs).map (fun value => (key, value))) := by
  have runs : KvRuns clock (Process.new
      (KVEngine.new clock maxSegmentBytes fsyncStrategy World.initial)).database
      Contents.empty 0 :=
    running_new monotone maxSegmentBytes fsyncStrategy
  obtain ⟨responses, last, answers, final, lived, frames, history, now⟩ :=
    liveAll_runs monotone runs cfg lives
  exact ⟨responses, last, answers, final, lived, frames, history,
    fun key nowMs => now.shows.get key UInt64.zero_le⟩

end Crashes

/-- An `MSET` of two items is interrupted behind the first, and the next server crashes while
it recovers.
-/
def halfWritten : List Life :=
  let readings := (Work.compaction.at 5).readings
  [
    {
      requests := [(.write "k" "v" none, readings), (.read "k", readings)]
      interrupted := (.mset [("k", "w", none), ("j", "x", some 7)], readings)
      writes := 5
      openings := [1]
      maxSegmentBytes := 30
      fsyncStrategy := .always
    },
    {
      requests := [(.mget ["k", "j"], readings)]
      interrupted := (.delete "k", readings)
      writes := 1
      openings := []
      maxSegmentBytes := 3000
      fsyncStrategy := .never
    }
  ]

theorem crashed_server_keeps_answered_half
    : ∃ responses last answers final,
        (Process.new (KVEngine.new (fun _ => 7) 30 .always World.initial)).liveAll (fun _ => 7)
            { ratio := 0, maxSegment := 0 } halfWritten
          = .ok (responses, last)
        ∧ responses = answers.map (List.map Answer.frame)
        ∧ Lived kvLimits Contents.empty halfWritten answers final
        ∧ ∀ key nowMs,
            last.database.1.get last.database.2 key nowMs
            = .ok ((final.read key nowMs).map (fun value => (key, value))) :=
  crashed_server_keeps_answered monotone_const _ 30 .always halfWritten

end Rustikv.Server

import Rustikv.Kv.LoggedWrites
import Rustikv.Kv.Refinement

/-! Crashes between file operations, and what reopening the directory brings back. -/

namespace Rustikv.Kv

open Library

-----------------------------------------------------------------------------------------
-- Sessions that end in a crash
-----------------------------------------------------------------------------------------

/-- The process dies after the first `writes` of the file operations that led from
`before` to `after`.
-/
def World.crash (before after : World) (writes : Nat) : World :=
  let performed := (after.trace.drop before.trace.length).take writes
  {
    disk := performed.foldl Disk.apply before.disk
    trace := before.trace ++ performed
    ticks := after.ticks
  }

/-- Calls that return, a call the crash interrupts, recoveries that crash in turn, and the
settings of the recovery that gets through.
-/
structure Session where
  calls : List Event
  inFlight : Event
  writes : Nat
  recoveries : List Nat
  maxSegmentBytes : UInt64
  fsyncStrategy : FSyncStrategy

/-- The calls whose crash behaviour is described here, each one write at most. -/
def Call.Single : Call → Prop
  | .msetWithTtl _ => False
  | .compact _ _ => False
  | _ => True

structure Session.Admissible (session : Session) : Prop where
  fits : ∀ event ∈ session.calls, event.call.Fits ∧ event.call.Single
  inFlight : session.inFlight.call.Fits ∧ session.inFlight.call.Single

namespace KVEngine

variable (clock : Nat → Nat)

def crashDuring (event : Event) (db : KVEngine) (world : World) (writes : Nat)
    : Except IoError World := do
  let (_, _, after) ← handle clock event db world
  return world.crash after writes

def crashRecovering (maxSegmentBytes : UInt64) (fsyncStrategy : FSyncStrategy)
    (world : World) (writes : Nat)
    : Except IoError World := do
  let (_, after) ← fromDir maxSegmentBytes fsyncStrategy world
  return world.crash after writes

def runSession (session : Session) (db : KVEngine) (world : World)
    : Except IoError (List Reply × KVEngine × World) := do
  let (replies, db, world) ← run clock session.calls db world
  let world ← crashDuring clock session.inFlight db world session.writes
  let world ← session.recoveries.foldlM
    (crashRecovering session.maxSegmentBytes session.fsyncStrategy) world
  match ← fromDir session.maxSegmentBytes session.fsyncStrategy world with
  | (some db, world) => return (replies, db, world)
  | (none, _) => .error { kind := .notFound, message := "no segment" }

def runSessions
    : List Session → KVEngine → World → Except IoError (List (List Reply) × KVEngine × World)
  | [], db, world => .ok ([], db, world)
  | session :: rest, db, world => do
      let (replies, db, world) ← runSession clock session db world
      let (more, db, world) ← runSessions rest db world
      return (replies :: more, db, world)

end KVEngine

/-- The acknowledged calls of every session are kept; the one in flight at its crash may
be.
-/
def Contents.Survives : Contents → List Session → List (List Reply) → Contents → Prop
  | contents, [], [], final => final = contents
  | contents, session :: rest, replies :: more, final =>
      let acknowledged := session.calls.foldl Contents.handle contents
      contents.Explains session.calls replies
      ∧ (acknowledged.Survives rest more final
        ∨ (acknowledged.handle session.inFlight).Survives rest more final)
  | _, _, _, _ => False

-----------------------------------------------------------------------------------------
-- Disks that can be recovered
-----------------------------------------------------------------------------------------

/-- Segments followed by the WAL give the map, and no hint file is there. -/
def Durable (limit : Nat) (contents : Contents) (disk : Disk) : Prop :=
  (∀ segment : Nat, disk.hints[segment]? = none)
  ∧ ∃ logs wal,
      logs ≠ []
      ∧ Stored disk logs wal
      ∧ Contents.replay (updatesOf logs ++ wal) = contents
      ∧ ∀ log ∈ logs, log.1 ≤ limit

theorem Stored.durable {disk : Disk} {logs : List Log} {segment limit : Nat}
    {updates wal : List Update} {contents : Contents}
    (stored : Stored disk (logs ++ [(segment, updates)]) wal) (bound : segment ≤ limit)
    (hints : ∀ segment : Nat, disk.hints[segment]? = none)
    (replayed
      : Contents.replay (updatesOf (logs ++ [(segment, updates)]) ++ wal) = contents)
    : Durable limit contents disk := by
  obtain ⟨-, held, foundWal, nonempty, found, places, member, below⟩ :=
    stored.holding [wal] (by simp) bound rfl
  have same : updatesOf held = updatesOf (logs ++ [(segment, updates)]) := by
    rw [← map_update_placesOf, places, map_update_placesOf]
  rw [List.mem_singleton] at member
  subst member
  exact ⟨hints, held, foundWal, nonempty, found, by rw [same, replayed], below⟩

/-- A running engine whose index covers all logs, which mirror the map. -/
structure RunningOn (clock : Nat → Nat) (db : KVEngine) (world : World)
    (contents : Contents) (logs : List Log) (updates wal : List Update)
    : Prop where
  stored : Stored world.disk (logs ++ [(db.activeSegment, updates)]) wal
  tracks : Tracks db.index (placesOf (logs ++ [(db.activeSegment, updates)]))
  mirrors : Mirrors contents (updatesOf (logs ++ [(db.activeSegment, updates)])) wal
  bound : db.activeSegment ≤ clock world.ticks
  hints : ∀ segment : Nat, world.disk.hints[segment]? = none

def Running (clock : Nat → Nat) (db : KVEngine) (world : World) (contents : Contents)
    : Prop :=
  ∃ logs updates wal, RunningOn clock db world contents logs updates wal

theorem Performs.crash {before after : World} {operations : List FileOp}
    (performs : Performs before after operations) (writes : Nat)
    : (before.crash after writes).disk
      = (operations.take writes).foldl Disk.apply before.disk := by
  simp [World.crash, performs.trace]

/-- A crash inside a step from `world` to `after` leaves one of the two maps. -/
def CrashSafe (clock : Nat → Nat) (world after : World) (old new : Contents) : Prop :=
  ∀ writes,
    Durable (clock after.ticks) old (world.crash after writes).disk
    ∨ Durable (clock after.ticks) new (world.crash after writes).disk

/-- Every file operation of a write leaves the map before or after it on the disk. -/
theorem KVEngine.WriteEffect.durable {clock : Nat → Nat} {update : Update}
    {db next : KVEngine} {world after : World} {logs more : List Log}
    {updates last wal newWal : List Update} {added : List Place} {operations : List FileOp}
    (effect : KVEngine.WriteEffect clock update db next world after logs more updates last wal
      newWal added operations)
    {contents : Contents}
    (mirrors : Mirrors contents (updatesOf (logs ++ [(db.activeSegment, updates)])) wal)
    (absent
      : db.index.get update.key = none → update.item = none → contents update.key = none)
    (hints : ∀ segment : Nat, world.disk.hints[segment]? = none)
    : Throughout
        (fun disk =>
          Durable (clock after.ticks) contents disk
          ∨ Durable (clock after.ticks) (contents.apply update) disk)
        world.disk operations := by
  have finished : Mirrors (contents.apply update)
      (updatesOf (logs ++ [(db.activeSegment, updates)]) ++ added.map Place.update) newWal :=
    mirrors.write (effect.written.imp_right
      (fun ⟨unplaced, unknown, removes, rest⟩ =>
        ⟨unplaced, absent unknown removes, removes, rest⟩))
  refine effect.throughout.imp (fun disk holding => ?_)
  rcases holding with
    ⟨kept, held, foundWal, nonempty, found, places, member, below⟩
    | ⟨kept, held, foundWal, nonempty, found, places, member, below⟩
  · have same : updatesOf held = updatesOf (logs ++ [(db.activeSegment, updates)]) := by
      rw [← map_update_placesOf, places, map_update_placesOf]
    have durable (target : Contents)
        (replayed : Contents.replay (updatesOf held ++ foundWal) = target)
        : Durable (clock after.ticks) target disk :=
      ⟨by rw [kept]; exact hints, held, foundWal, nonempty, found, replayed, below⟩
    simp only [List.mem_cons, List.not_mem_nil, or_false] at member
    rcases member with rfl | rfl | rfl
    · exact Or.inl (durable _ (by rw [same, mirrors.overlaid]))
    · refine Or.inr (durable _ ?_)
      rw [same, ← List.append_assoc, Contents.replay_concat, mirrors.overlaid]
    · exact Or.inl (durable _ (by rw [same, List.append_nil, mirrors.alone]))
  · have same : updatesOf held
        = updatesOf (logs ++ [(db.activeSegment, updates)]) ++ added.map Place.update := by
      rw [← map_update_placesOf, places, List.map_append, map_update_placesOf]
    rw [List.mem_singleton] at member
    subst member
    exact Or.inr ⟨by rw [kept]; exact hints, held, foundWal, nonempty, found,
      by rw [same, finished.overlaid], below⟩

namespace RunningOn

variable {clock : Nat → Nat} {db : KVEngine} {world : World} {contents : Contents}
  {logs : List Log} {updates wal : List Update}

theorem represents (running : RunningOn clock db world contents logs updates wal)
    : Represents db.index world.disk contents := by
  have represents := running.tracks.represents running.stored.filed (List.Subset.refl _)
  rwa [map_update_placesOf, running.mirrors.alone] at represents

theorem durable (running : RunningOn clock db world contents logs updates wal)
    : Durable (clock world.ticks) contents world.disk :=
  running.stored.durable running.bound running.hints running.mirrors.overlaid

/-- A write keeps the engine running with the update applied. -/
theorem write (running : RunningOn clock db world contents logs updates wal)
    {update : Update} {next : KVEngine} {after : World} {more : List Log}
    {last newWal : List Update} {added : List Place} {operations : List FileOp}
    (effect : KVEngine.WriteEffect clock update db next world after logs more updates last wal
      newWal added operations)
    : RunningOn clock next after (contents.apply update) (logs ++ more) last newWal where
  stored := effect.stored
  tracks := by
    rw [effect.placesOf_eq]
    exact effect.tracks _ running.tracks
  mirrors := by
    rw [effect.updatesOf_eq]
    exact running.mirrors.write (effect.written.imp_right
      (fun ⟨unplaced, unknown, rest⟩ =>
        ⟨unplaced, running.represents.absent update.key unknown, rest⟩))
  bound := effect.bound
  hints := by
    rw [effect.hints]
    exact running.hints

/-- A crash at any file operation of a write leaves the map before or after it. -/
theorem write_crashSafe (running : RunningOn clock db world contents logs updates wal)
    {update : Update} {next : KVEngine} {after : World} {more : List Log}
    {last newWal : List Update} {added : List Place} {operations : List FileOp}
    (effect : KVEngine.WriteEffect clock update db next world after logs more updates last wal
      newWal added operations)
    : CrashSafe clock world after contents (contents.apply update) := by
  intro writes
  rw [effect.performs.crash]
  exact (effect.durable running.mirrors
    (fun unknown _ => running.represents.absent update.key unknown) running.hints).take writes

end RunningOn

namespace Running

variable {clock : Nat → Nat} {db : KVEngine} {world : World} {contents : Contents}

theorem represents (running : Running clock db world contents)
    : Represents db.index world.disk contents := by
  obtain ⟨logs, updates, wal, running⟩ := running
  exact running.represents

theorem shows (running : Running clock db world contents) : Shows db world contents 0 :=
  ⟨contents, running.represents, fun _ _ _ => rfl⟩

theorem setWithTtl (monotone : Monotone clock) (running : Running clock db world contents)
    {key value : String} (fits : Record.Fits key value) (expiryMs : Option UInt64)
    : ∃ next after,
        db.setWithTtl clock world key value expiryMs = .ok (next, after)
        ∧ Running clock next after (contents.set key value expiryMs)
        ∧ CrashSafe clock world after contents (contents.set key value expiryMs) := by
  obtain ⟨logs, updates, wal, running⟩ := running
  obtain ⟨next, after, more, last, newWal, added, operations, written, effect⟩ :=
    KVEngine.setWithTtl_effect monotone running.stored running.bound fits expiryMs
  exact ⟨next, after, written, ⟨_, _, _, running.write effect⟩,
    running.write_crashSafe effect⟩

theorem delete (running : Running clock db world contents) {key : String}
    (fits : key.utf8ByteSize ≤ maxKeySize)
    : ∃ found next after,
        db.delete world key = .ok (found, next, after)
        ∧ Running clock next after (contents.delete key)
        ∧ CrashSafe clock world after contents (contents.delete key) := by
  obtain ⟨logs, updates, wal, running⟩ := running
  obtain ⟨found, next, after, last, newWal, added, operations, deleted, effect⟩ :=
    KVEngine.delete_effect running.stored running.bound fits
  exact ⟨found, next, after, deleted, ⟨_, _, _, running.write effect⟩,
    running.write_crashSafe effect⟩

theorem ttl (monotone : Monotone clock) (running : Running clock db world contents)
    {key value : String} (expiryMs : Option UInt64) {nowMs : UInt64}
    (live : contents.read key nowMs = some value)
    : ∃ next after,
        db.ttl clock world key expiryMs nowMs
          = .ok (if expiryMs.isSome then .set else .persisted, next, after)
        ∧ Running clock next after (contents.set key value expiryMs)
        ∧ CrashSafe clock world after contents (contents.set key value expiryMs) := by
  obtain ⟨logs, updates, wal, running⟩ := running
  obtain ⟨next, after, more, last, newWal, added, operations, written, effect⟩ :=
    KVEngine.ttl_effect monotone running.stored running.bound running.represents expiryMs live
  exact ⟨next, after, written, ⟨_, _, _, running.write effect⟩,
    running.write_crashSafe effect⟩

/-- One call: the engine answers as the map does, and a crash inside it leaves the map
before or after the call.
-/
theorem handle (monotone : Monotone clock) (running : Running clock db world contents)
    {event : Event} (fits : event.call.Fits) (single : event.call.Single)
    : ∃ reply next after,
        KVEngine.handle clock event db world = .ok (reply, next, after)
        ∧ contents.Answers event reply
        ∧ Running clock next after (contents.handle event)
        ∧ CrashSafe clock world after contents (contents.handle event) := by
  have untouched : CrashSafe clock world world contents contents := by
    intro writes
    obtain ⟨logs, updates, wal, running⟩ := running
    rw [(Performs.refl world).crash]
    simpa using running.durable
  have reading (reads : event.call.Reads)
      : ∃ reply next after,
          KVEngine.handle clock event db world = .ok (reply, next, after)
          ∧ contents.Answers event reply
          ∧ Running clock next after (contents.handle event)
          ∧ CrashSafe clock world after contents (contents.handle event) := by
    obtain ⟨same, reply, handled, answers⟩ :=
      running.shows.handle reads UInt64.zero_le (fun _ _ _ _ => UInt64.zero_le) clock
    rw [same]
    exact ⟨reply, db, world, handled, answers, running, untouched⟩
  obtain ⟨call, nowMs, finishMs⟩ := event
  cases call with
  | set key value =>
      obtain ⟨next, after, written, ran⟩ := running.setWithTtl monotone fits none
      exact ⟨.done, next, after, by simp [KVEngine.handle, KVEngine.set, written], trivial, ran⟩
  | setWithTtl key value expiryMs =>
      obtain ⟨next, after, written, ran⟩ := running.setWithTtl monotone fits expiryMs
      exact ⟨.done, next, after, by simp [KVEngine.handle, written], trivial, ran⟩
  | delete key =>
      obtain ⟨found, next, after, deleted, ran⟩ := running.delete fits
      exact ⟨.deleted found, next, after, by simp [KVEngine.handle, deleted], trivial, ran⟩
  | ttl key expiryMs =>
      cases live : contents.read key nowMs with
      | none =>
          have lookup := running.represents.kvLookup db.activeSegment key nowMs
          rw [live] at lookup
          refine ⟨.ttl .notFound, db, world,
            by simp [KVEngine.handle, KVEngine.ttl, lookup]; rfl,
            by simp [Contents.Answers, live], ?_⟩
          simp only [Contents.handle, live]
          exact ⟨running, untouched⟩
      | some value =>
          obtain ⟨next, after, written, ran⟩ := running.ttl monotone expiryMs live
          refine ⟨.ttl (if expiryMs.isSome then .set else .persisted), next, after,
            by simp [KVEngine.handle, written], by simp [Contents.Answers, live], ?_⟩
          simp only [Contents.handle, live]
          exact ran
  | get key => exact reading trivial
  | mget keys => exact reading trivial
  | «exists» key => exact reading trivial
  | listKeys order => exact reading trivial
  | msetWithTtl _ => exact single.elim
  | compact _ _ => exact single.elim

theorem run (monotone : Monotone clock) (running : Running clock db world contents)
    {events : List Event}
    (fits : ∀ event ∈ events, event.call.Fits ∧ event.call.Single)
    : ∃ replies next after,
        KVEngine.run clock events db world = .ok (replies, next, after)
        ∧ contents.Explains events replies
        ∧ Running clock next after (events.foldl Contents.handle contents) := by
  induction events generalizing db world contents with
  | nil => exact ⟨[], db, world, rfl, trivial, running⟩
  | cons event rest ih =>
      obtain ⟨eventFits, single⟩ := fits event (by simp)
      obtain ⟨reply, next, after, handled, answers, now, -⟩ :=
        running.handle monotone eventFits single
      obtain ⟨replies, last, final, ran, explains, finished⟩ :=
        ih now (fun other member => fits other (List.mem_cons_of_mem event member))
      refine ⟨reply :: replies, last, final, ?_, ⟨answers, explains⟩, finished⟩
      simp only [KVEngine.run, handled, ok_bind, ran]
      rfl

end Running

-----------------------------------------------------------------------------------------
-- Recovery and its crashes
-----------------------------------------------------------------------------------------

/-- Re-appending updates the WAL still holds keeps the map. Witness: induction over the
updates to come.
-/
theorem appendOps_throughout {limit segment : Nat} {contents : Contents} {logs : List Log}
    {wal recovered : List Update} (bound : segment ≤ limit)
    (fits : ∀ update ∈ recovered, update.Fits)
    (known : ∀ update ∈ recovered, latest Update.key wal update.key = some update)
    {disk : Disk} {updates : List Update}
    (stored : Stored disk (logs ++ [(segment, updates)]) wal)
    (replayed
      : Contents.replay (updatesOf (logs ++ [(segment, updates)]) ++ wal) = contents)
    (hints : ∀ segment : Nat, disk.hints[segment]? = none)
    : Throughout (Durable limit contents) disk (appendOps segment recovered) := by
  induction recovered generalizing disk updates with
  | nil => exact stored.durable bound hints replayed
  | cons update rest ih =>
      have appended := stored.segmentAppend (fits update (by simp))
      have unchanged
          : Contents.replay (updatesOf (logs ++ [(segment, updates ++ [update])]) ++ wal)
            = contents := by
        have shadowed := Contents.replay_shadowed
          (updatesOf (logs ++ [(segment, updates)])) wal (known update (by simp))
        rw [← replayed, ← shadowed]
        simp
      exact ⟨stored.durable bound hints replayed,
        ih (fun other member => fits other (List.mem_cons_of_mem _ member))
          (fun other member => known other (List.mem_cons_of_mem _ member)) appended
          unchanged hints⟩

/-- Recovery succeeds on a durable disk, brings back its map, and may itself crash. -/
theorem Durable.fromDir {clock : Nat → Nat} {world : World} {contents : Contents}
    (durable : Durable (clock world.ticks) contents world.disk) (maxSegmentBytes : UInt64)
    (fsyncStrategy : FSyncStrategy)
    : ∃ db after,
        KVEngine.fromDir maxSegmentBytes fsyncStrategy world = .ok (some db, after)
        ∧ Running clock db after contents
        ∧ CrashSafe clock world after contents contents := by
  obtain ⟨hints, logs, wal, nonempty, stored, replayed, below⟩ := durable
  obtain ⟨front, ⟨segment, updates⟩, rfl⟩ := List.eq_nil_or_concat logs |>.resolve_left nonempty
  rw [List.concat_eq_append] at stored replayed below
  obtain ⟨index, loaded, tracks⟩ := loadSegments_tracks world.disk
    (fun log => placesFrom log.1 0 log.2)
    (fun log member index places tracks =>
      loadSegment_scanned stored.filed member (hints log.1) tracks)
    tracks_new
  rw [← stored.filed.keys] at loaded
  obtain ⟨db, after, recovered, reopened, active, filed, finalTracks, performs, emptied,
    finalHints, ticks, same, known⟩ :=
    fromDir_sound stored.filed stored.logged stored.fits loaded tracks maxSegmentBytes
      fsyncStrategy
  have bound : segment ≤ clock world.ticks := below (segment, updates) (by simp)
  have finalReplay
      : Contents.replay (updatesOf (front ++ [(segment, updates ++ recovered)]))
        = contents := by
    rw [← replayed, ← Contents.replay_congr_right _ same]
    simp
  have running : RunningOn clock db after contents front (updates ++ recovered) [] := {
    stored := ⟨active ▸ filed, emptied, by simp⟩
    tracks := by
      rw [active]
      simpa [placesOf, placesFrom_append] using finalTracks
    mirrors := by
      rw [active]
      exact ⟨finalReplay, by rw [List.append_nil, finalReplay]⟩
    bound := by rw [active, ticks]; exact bound
    hints := by rw [finalHints]; exact hints
  }
  refine ⟨db, after, reopened, ⟨_, _, _, running⟩, ?_⟩
  intro writes
  rw [performs.crash, or_self, ticks]
  refine Throughout.take (Throughout.append ?_ ?_) writes
  · exact appendOps_throughout bound
      (fun update member => stored.fits update (latest_some _ (known update member)).1)
      known stored replayed hints
  · have final := running.durable
    rw [ticks, performs.disk, List.foldl_append] at final
    have before := (appendOps_throughout bound
      (fun update member => stored.fits update (latest_some _ (known update member)).1)
      known stored replayed hints).take (appendOps segment recovered).length
    rw [List.take_length] at before
    exact ⟨before, final⟩

theorem Durable.recoveries {clock : Nat → Nat} {world : World} {contents : Contents}
    (durable : Durable (clock world.ticks) contents world.disk) (maxSegmentBytes : UInt64)
    (fsyncStrategy : FSyncStrategy) (recoveries : List Nat)
    : ∃ after,
        recoveries.foldlM (KVEngine.crashRecovering maxSegmentBytes fsyncStrategy) world
          = .ok after
        ∧ Durable (clock after.ticks) contents after.disk := by
  induction recoveries generalizing world with
  | nil => exact ⟨world, rfl, durable⟩
  | cons writes rest ih =>
      obtain ⟨db, after, reopened, -, safe⟩ := durable.fromDir maxSegmentBytes fsyncStrategy
      have crashed : KVEngine.crashRecovering maxSegmentBytes fsyncStrategy world writes
          = .ok (world.crash after writes) := by
        simp [KVEngine.crashRecovering, reopened]
      rw [List.foldlM_cons, crashed]
      exact ih (or_self_iff.mp (safe writes))

-----------------------------------------------------------------------------------------
-- Whole histories
-----------------------------------------------------------------------------------------

theorem Running.runSession {clock : Nat → Nat} (monotone : Monotone clock) {db : KVEngine}
    {world : World} {contents : Contents} (running : Running clock db world contents)
    {session : Session} (admissible : session.Admissible)
    : ∃ replies next after,
        KVEngine.runSession clock session db world = .ok (replies, next, after)
        ∧ contents.Explains session.calls replies
        ∧ (Running clock next after (session.calls.foldl Contents.handle contents)
          ∨ Running clock next after
              ((session.calls.foldl Contents.handle contents).handle session.inFlight)) := by
  obtain ⟨replies, live, before, ran, explains, acknowledged⟩ :=
    running.run monotone admissible.fits
  obtain ⟨reply, next, after, handled, -, -, safe⟩ :=
    acknowledged.handle monotone admissible.inFlight.1 admissible.inFlight.2
  have crashed : KVEngine.crashDuring clock session.inFlight live before session.writes
      = .ok (before.crash after session.writes) := by
    simp [KVEngine.crashDuring, handled]
  have recover (survivor : Contents)
      (durable : Durable (clock after.ticks) survivor
        (before.crash after session.writes).disk)
      : ∃ next final,
          KVEngine.runSession clock session db world = .ok (replies, next, final)
          ∧ Running clock next final survivor := by
    have crashedDurable : Durable (clock (before.crash after session.writes).ticks) survivor
        (before.crash after session.writes).disk := durable
    obtain ⟨stopped, recovering, stillDurable⟩ :=
      crashedDurable.recoveries session.maxSegmentBytes session.fsyncStrategy
        session.recoveries
    obtain ⟨next, final, reopened, recovered, -⟩ :=
      stillDurable.fromDir session.maxSegmentBytes session.fsyncStrategy
    refine ⟨next, final, ?_, recovered⟩
    simp only [KVEngine.runSession, ran, ok_bind, crashed, recovering, reopened]
    rfl
  rcases safe session.writes with durable | durable
  · obtain ⟨next, final, finished, recovered⟩ := recover _ durable
    exact ⟨replies, next, final, finished, explains, Or.inl recovered⟩
  · obtain ⟨next, final, finished, recovered⟩ := recover _ durable
    exact ⟨replies, next, final, finished, explains, Or.inr recovered⟩

theorem Running.runSessions {clock : Nat → Nat} (monotone : Monotone clock) {db : KVEngine}
    {world : World} {contents : Contents} (running : Running clock db world contents)
    {sessions : List Session} (admissible : ∀ session ∈ sessions, session.Admissible)
    : ∃ replies next after final,
        KVEngine.runSessions clock sessions db world = .ok (replies, next, after)
        ∧ contents.Survives sessions replies final
        ∧ Running clock next after final := by
  induction sessions generalizing db world contents with
  | nil => exact ⟨[], db, world, contents, rfl, rfl, running⟩
  | cons session rest ih =>
      obtain ⟨replies, next, after, ran, explains, recovered⟩ :=
        running.runSession monotone (admissible session (by simp))
      have continued (survivor : Contents) (recovered : Running clock next after survivor)
          : ∃ more last later final,
              KVEngine.runSessions clock (session :: rest) db world
                = .ok (replies :: more, last, later)
              ∧ survivor.Survives rest more final
              ∧ Running clock last later final := by
        obtain ⟨more, last, later, final, ranRest, survives, finished⟩ :=
          ih recovered (fun other member => admissible other (List.mem_cons_of_mem _ member))
        refine ⟨more, last, later, final, ?_, survives, finished⟩
        simp only [KVEngine.runSessions, ran, ok_bind, ranRest]
        rfl
      rcases recovered with kept | applied
      · obtain ⟨more, last, later, final, finished, survives, end_⟩ := continued _ kept
        exact ⟨replies :: more, last, later, final, finished,
          ⟨explains, Or.inl survives⟩, end_⟩
      · obtain ⟨more, last, later, final, finished, survives, end_⟩ := continued _ applied
        exact ⟨replies :: more, last, later, final, finished,
          ⟨explains, Or.inr survives⟩, end_⟩

theorem running_new {clock : Nat → Nat} (monotone : Monotone clock)
    (maxSegmentBytes : UInt64) (fsyncStrategy : FSyncStrategy)
    : Running clock (KVEngine.new clock maxSegmentBytes fsyncStrategy World.initial).1
        (KVEngine.new clock maxSegmentBytes fsyncStrategy World.initial).2
        Contents.empty := by
  have created := Filed.nil.create (clock 0) (by simp)
  refine ⟨[], [], [], ⟨?_, rfl, by simp⟩, ?_, ⟨rfl, rfl⟩, monotone (Nat.zero_le _), ?_⟩
  · simpa [KVEngine.new, World.newSegment, World.initial, Disk.apply, Disk.empty] using created
  · exact tracks_new
  · intro segment
    simp [KVEngine.new, World.newSegment, World.initial, Disk.apply, Disk.empty]

/-- Whatever file operation each crash of a history falls on, reopening brings back all
acknowledged calls and at most the one in flight.
-/
theorem crash_recovery {clock : Nat → Nat} (monotone : Monotone clock)
    (maxSegmentBytes : UInt64) (fsyncStrategy : FSyncStrategy) {sessions : List Session}
    (admissible : ∀ session ∈ sessions, session.Admissible)
    : ∃ replies db world final,
        KVEngine.runSessions clock sessions
            (KVEngine.new clock maxSegmentBytes fsyncStrategy World.initial).1
            (KVEngine.new clock maxSegmentBytes fsyncStrategy World.initial).2
          = .ok (replies, db, world)
        ∧ Contents.empty.Survives sessions replies final
        ∧ ∀ key nowMs,
            db.get world key nowMs
            = .ok ((final.read key nowMs).map (fun value => (key, value))) := by
  obtain ⟨replies, db, world, final, ran, survives, running⟩ :=
    (running_new monotone maxSegmentBytes fsyncStrategy).runSessions monotone admissible
  exact ⟨replies, db, world, final, ran, survives,
    fun key nowMs => running.shows.get key UInt64.zero_le⟩

/-- Witness: a crash right after the roll of an overwrite, within one millisecond, and
again inside the recovery from it.
-/
theorem crash_recovery_roll
    : let session : Session := {
        calls := [{ call := .set "k" "v", nowMs := 1, finishMs := 1 }]
        inFlight := { call := .set "k" "w", nowMs := 2, finishMs := 2 }
        writes := 4
        recoveries := [1]
        maxSegmentBytes := 30
        fsyncStrategy := .never
      }
      ∃ replies db world final,
        KVEngine.runSessions (fun _ => 7) [session]
            (KVEngine.new (fun _ => 7) 30 .never World.initial).1
            (KVEngine.new (fun _ => 7) 30 .never World.initial).2
          = .ok (replies, db, world)
        ∧ Contents.empty.Survives [session] replies final
        ∧ ∀ key nowMs,
            db.get world key nowMs
            = .ok ((final.read key nowMs).map (fun value => (key, value))) := by
  refine crash_recovery monotone_const 30 .never ?_
  intro session member
  rw [List.mem_singleton.mp member]
  have fits (value : String) (short : value.utf8ByteSize = 1) : Record.Fits "k" value :=
    ⟨by decide, by rw [short]; decide⟩
  exact {
    fits := by simpa [Call.Fits, Call.Single] using fits "v" (by decide)
    inFlight := ⟨fits "w" (by decide), trivial⟩
  }

end Rustikv.Kv

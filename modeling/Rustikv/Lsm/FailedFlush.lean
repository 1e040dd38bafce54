import Rustikv.Lsm.ReadLatest

/-! Flushes and compactions that fail half-way. The memtable stays in the immutable slot
without a thread that flushes it, and the next swap overwrites it.
-/

namespace Rustikv.Lsm

open Library

-----------------------------------------------------------------------------------------
-- Calls that meet I/O errors
-----------------------------------------------------------------------------------------

/-- The I/O errors that a call meets: at the file of a new table, and at the reset of the
log, before or after it is truncated.
-/
structure Faults where
  table : Option IoError
  reset : Option (IoError × Bool)

namespace LsmEngine

/-- A background thread leaves the slot empty. -/
theorem finishFlush_empty {engine next : LsmEngine} {timestamp : Nat}
    (done : engine.finishFlush timestamp = .ok next)
    : next.immutable = none := by
  unfold finishFlush at done
  split at done
  · obtain ⟨sst, -, done⟩ := bind_eq_ok.mp done
    obtain ⟨strategy, -, done⟩ := bind_eq_ok.mp done
    rw [← Except.ok.inj done]
  · next empty =>
      obtain rfl := Except.ok.inj done
      exact empty

/-- The active memtable is taken out and put into the immutable slot, whatever that holds. -/
def take (engine : LsmEngine) : LsmEngine :=
  { engine with active := Memtable.new, immutable := some engine.active }

/-- `Wal::reset`: `set_len(0)`, then `seek`. -/
def resetWal (engine : LsmEngine) (faults : Faults) : Except IoError Unit × LsmEngine :=
  match faults.reset with
  | none => (.ok (), { engine with wal := [] })
  | some (error, truncated) =>
      (.error error, if truncated then { engine with wal := [] } else engine)

/-- Write a memtable to a new table file, and add the table. -/
def addTable (engine : LsmEngine) (faults : Faults) (memtable : Memtable) (timestamp : Nat)
    : Except IoError StorageStrategy :=
  match faults.table with
  | some error => .error error
  | none => do
      let sstable ← engine.flushTable memtable timestamp
      engine.strategy.addSstable sstable

end LsmEngine

/-- The engine and its `flush_handle`: whether there is a background thread that has not been
waited for. A call on it answers `none` where it panics.
-/
structure LsmShared where
  engine : LsmEngine
  flushHandle : Bool

/-- A call with the errors it meets. -/
structure FaultyEvent extends Event where
  faults : Faults

namespace LsmShared

/-- The thread runs to its end. One that fails panics, and so does `join().unwrap()`. -/
def join (shared : LsmShared) (timestamp : Nat) : Option LsmShared :=
  if shared.flushHandle then do
    let engine ← (shared.engine.finishFlush timestamp).toOption
    return { engine, flushHandle := false }
  else
    some shared

def flushMemtableAsync (shared : LsmShared) (faults : Faults) (timestamp : Nat)
    : Option (Except IoError Unit × LsmShared) := do
  let shared ← shared.join timestamp
  match shared.engine.take.resetWal faults with
  | (.ok (), engine) => return (.ok (), { engine, flushHandle := true })
  | (.error error, engine) => return (.error error, { shared with engine })

/-- An error of the full compaction at the end is not followed. -/
def compact (shared : LsmShared) (faults : Faults) (clock : Nat → UInt64) (stamp : Nat → Nat)
    : Option (Except IoError Unit × LsmShared) := do
  let shared ← shared.join (stamp 0)
  let engine := shared.engine.take
  match engine.addTable faults shared.engine.active (stamp 1) with
  | .error error => return (.error error, { shared with engine })
  | .ok strategy =>
      match LsmEngine.resetWal { engine with strategy } faults with
      | (.error error, engine) => return (.error error, { shared with engine })
      | (.ok (), engine) => do
          let strategy ←
            (engine.strategy.compactAll clock (fun i => stamp (i + 2))).toOption
          let engine := { engine with immutable := none, strategy }
          return (.ok (), { shared with engine })

/-- A write, and the flush if it fills the memtable. -/
def write (shared : LsmShared) (key : String) (value : Option String)
    (expiryMs : Option UInt64) (faults : Faults) (timestamp : Nat)
    : Option (Except IoError Unit × LsmShared) :=
  let shared := { shared with engine := shared.engine.write key value expiryMs }
  if shared.engine.isFull then shared.flushMemtableAsync faults timestamp
  else some (.ok (), shared)

/-- The call returns the reply, unless what it did failed. -/
def replying (reply : Reply) (answer : Option (Except IoError Unit × LsmShared))
    : Option (Except IoError Reply × LsmShared) :=
  answer.map (fun item => (item.1.map (fun _ => reply), item.2))

def handle (shared : LsmShared) (event : FaultyEvent)
    : Option (Except IoError Reply × LsmShared) :=
  let { call, clock, stamp, faults, .. } := event
  match call with
  | .set key value => replying .done (shared.write key (some value) none faults (stamp 0))
  | .setWithTtl key value expiryMs =>
      replying .done (shared.write key (some value) expiryMs faults (stamp 0))
  | .delete key =>
      match shared.engine.get key clock with
      | .error error => some (.error error, shared)
      | .ok found =>
          replying (.deleted found.isSome) (shared.write key none none faults (stamp 0))
  | .ttl key expiryMs =>
      match shared.engine.find key (clock 0) (clock 1) with
      | .error error => some (.error error, shared)
      | .ok none => some (.ok (.ttl .notFound), shared)
      | .ok (some value) =>
          replying (.ttl (if expiryMs.isSome then .set else .persisted))
            (shared.write key (some value) expiryMs faults (stamp 0))
  | .get key =>
      match shared.engine.get key clock with
      | .error error => some (.error error, shared)
      | .ok found => some (.ok (.value found), shared)
  | .flush => replying .done (shared.flushMemtableAsync faults (stamp 0))
  | .background =>
      if shared.flushHandle then do
        let engine ← (shared.engine.finishFlush (stamp 0)).toOption
        return (.ok .done, { shared with engine })
      else
        some (.ok .done, shared)
  | .compactStep => do
      let (ran, engine) ← (shared.engine.compactStep clock stamp).toOption
      return (.ok (.stepped ran), { shared with engine })
  | .compact => replying .done (shared.compact faults clock stamp)

/-- The last writes after one more call. A call writes before it flushes, so that a failed
flush does not take its write back.
-/
def lastWrites (shared : LsmShared) (event : FaultyEvent) (written : Writes) : Writes :=
  match event.call with
  | .set key value => written.write key (some value) none
  | .setWithTtl key value expiryMs => written.write key (some value) expiryMs
  | .delete key =>
      match shared.engine.get key event.clock with
      | .error _ => written
      | .ok _ => written.write key none none
  | .ttl key expiryMs =>
      match shared.engine.find key (event.clock 0) (event.clock 1) with
      | .ok (some value) => written.write key (some value) expiryMs
      | _ => written
  | _ => written

-----------------------------------------------------------------------------------------
-- What a failed call leaves
-----------------------------------------------------------------------------------------

/-- The engine as the next flush finds it: a memtable in the slot without a thread is not
flushed, but overwritten.
-/
def settled (shared : LsmShared) : LsmEngine :=
  if shared.flushHandle then shared.engine else { shared.engine with immutable := none }

variable {shared next : LsmShared} {faults : Faults} {timestamp : Nat}
  {result : Except IoError Unit}

theorem healthy_settled (healthy : shared.engine.Healthy) : shared.settled.Healthy := by
  unfold settled
  split
  · exact healthy
  · exact ⟨healthy.sound, healthy.active, by simp⟩

/-- Waiting for the thread leaves the engine as the flush finds it, but for the slot. -/
theorem join_settled (joined : shared.join timestamp = some next)
    : shared.settled.finishFlush timestamp = .ok { next.engine with immutable := none } := by
  unfold join at joined
  unfold settled
  cases handle : shared.flushHandle with
  | true =>
      simp only [handle, if_true] at joined
      obtain ⟨engine, flushed, same⟩ := Option.bind_eq_some_iff.mp joined
      obtain rfl := Option.some.inj same
      rw [toOption_eq_some] at flushed
      rw [if_pos rfl, flushed, ← LsmEngine.finishFlush_empty flushed]
  | false =>
      simp only [handle, Bool.false_eq_true, if_false] at joined
      obtain rfl := Option.some.inj joined
      rfl

theorem resetWal_eq (engine : LsmEngine) (faults : Faults)
    : ∃ wal,
        (engine.resetWal faults).2 = { engine with wal }
        ∧ ((engine.resetWal faults).1 = .ok () ↔ faults.reset = none) := by
  unfold LsmEngine.resetWal
  split
  · next none => exact ⟨[], rfl, by simp [none]⟩
  · next error truncated some =>
      cases truncated
      · exact ⟨engine.wal, rfl, by simp [some]⟩
      · exact ⟨[], rfl, by simp [some]⟩

/-- A flush swaps the memtables of what it finds, whether or not it fails. -/
theorem flush_inv (done : shared.flushMemtableAsync faults timestamp = some (result, next))
    : (∃ flushed wal,
        shared.settled.finishFlush timestamp = .ok flushed
        ∧ next.engine = { flushed.swap with wal })
      ∧ (result = .ok () ↔ faults.reset = none) := by
  obtain ⟨joined, waited, done⟩ := Option.bind_eq_some_iff.mp done
  obtain ⟨wal, engine, fails⟩ := resetWal_eq joined.engine.take faults
  have found := join_settled waited
  split at done
  next reset =>
    obtain ⟨rfl, rfl⟩ := Prod.mk.inj (Option.some.inj done)
    rw [reset] at engine fails
    exact ⟨⟨_, wal, found, engine⟩, fails⟩
  next error reset =>
    obtain ⟨rfl, rfl⟩ := Prod.mk.inj (Option.some.inj done)
    rw [reset] at engine fails
    exact ⟨⟨_, wal, found, engine⟩, fails⟩

theorem addTable_eq_ok {engine : LsmEngine} {memtable : Memtable}
    {strategy : StorageStrategy}
    (added : engine.addTable faults memtable timestamp = .ok strategy)
    : faults.table = none
      ∧ ∃ sst,
          engine.flushTable memtable timestamp = .ok sst
          ∧ engine.strategy.addSstable sst = .ok strategy := by
  unfold LsmEngine.addTable at added
  split at added
  · cases added
  · next none =>
      obtain ⟨sst, flushed, added⟩ := bind_eq_ok.mp added
      exact ⟨none, sst, flushed, added⟩

/-- Everything that a compaction can do: it fails before its table is added, it fails at the
log, or it succeeds.
-/
theorem compact_cases {clock : Nat → UInt64} {stamp : Nat → Nat}
    (done : shared.compact faults clock stamp = some (result, next))
    : ∃ flushed,
        shared.settled.finishFlush (stamp 0) = .ok flushed
        ∧ (result.isOk = false
              ∧ next.engine = { flushed.swap with wal := flushed.wal }
            ∨ (∃ installed wal,
                flushed.install (stamp 1) = .ok installed
                ∧ result.isOk = false
                ∧ faults.table = none
                ∧ next.engine = { installed with immutable := some flushed.active, wal })
            ∨ faults.table = none
              ∧ faults.reset = none
              ∧ result = .ok ()
              ∧ shared.settled.compact clock stamp = .ok next.engine) := by
  obtain ⟨joined, waited, done⟩ := Option.bind_eq_some_iff.mp done
  have found := join_settled waited
  refine ⟨_, found, ?_⟩
  dsimp only at done
  split at done
  next error fails =>
    obtain ⟨rfl, rfl⟩ := Prod.mk.inj (Option.some.inj done)
    exact .inl ⟨rfl, rfl⟩
  next strategy added =>
    obtain ⟨unharmed, sst, flushed, added⟩ := addTable_eq_ok added
    have installs : LsmEngine.install { joined.engine with immutable := none } (stamp 1)
        = .ok {
          joined.engine with
          active := Memtable.new
          immutable := none
          wal := []
          strategy
        } := by
      have flushed : LsmEngine.flushTable { joined.engine with immutable := none }
          joined.engine.active (stamp 1) = .ok sst := flushed
      have added : joined.engine.strategy.addSstable sst = .ok strategy := added
      rw [LsmEngine.install, flushed, ok_bind, added]
      rfl
    obtain ⟨wal, engine, fails⟩ :=
      resetWal_eq { joined.engine.take with strategy } faults
    split at done
    next error after reset =>
      obtain ⟨rfl, rfl⟩ := Prod.mk.inj (Option.some.inj done)
      rw [reset] at engine
      exact .inr (.inl ⟨_, wal, installs, rfl, unharmed, engine⟩)
    next after reset =>
      obtain ⟨last, compacted, done⟩ := Option.bind_eq_some_iff.mp done
      rw [toOption_eq_some] at compacted
      obtain ⟨rfl, rfl⟩ := Prod.mk.inj (Option.some.inj done)
      have clean := fails.mp (by rw [reset])
      simp only [LsmEngine.resetWal, clean, Prod.mk.injEq, true_and] at reset
      subst reset
      refine .inr (.inr ⟨unharmed, clean, rfl, ?_⟩)
      rw [LsmEngine.compact, found, ok_bind, installs, ok_bind]
      have compacted : strategy.compactAll clock (fun i => stamp (i + 2)) = .ok last :=
        compacted
      rw [compacted]
      rfl

@[simp]
theorem settled_strategy (shared : LsmShared)
    : shared.settled.strategy = shared.engine.strategy := by
  unfold settled
  split <;> rfl

@[simp]
theorem settled_active (shared : LsmShared)
    : shared.settled.active = shared.engine.active := by
  unfold settled
  split <;> rfl

-----------------------------------------------------------------------------------------
-- What a call keeps
-----------------------------------------------------------------------------------------

/-- The call overwrites the immutable slot: a write that fills the memtable does, and every
flush and compaction.
-/
def overwrites (shared : LsmShared) (event : Event) : Bool :=
  match event.call with
  | .background => false
  | _ => shared.engine.flushes event

/-- The tables that the call adds are read in front of the others, and its merges drop
safely, as far as it comes.
-/
def inFront (shared : LsmShared) (event : FaultyEvent) (key : String) : Bool :=
  match event.call with
  | .compact =>
      if event.faults.table.isSome || event.faults.reset.isSome then
        shared.settled.flushesInFront (event.stamp 0) key
        && match shared.settled.finishFlush (event.stamp 0) with
          | .ok flushed =>
              event.faults.table.isSome
              || flushed.strategy.addsInFront
                (flushed.tableFor flushed.active (event.stamp 1)) key
          | .error _ => true
      else
        shared.settled.keeps event.toEvent key
  | _ => shared.settled.keeps event.toEvent key

/-- What a call needs in order to lose nothing of a key. If it overwrites the slot, then a
memtable left there without a thread must not be needed: without it the key reads the same.
-/
structure Keeps (shared : LsmShared) (event : FaultyEvent) (key : String) : Prop where
  spare
    : shared.overwrites event.toEvent = true
      → StandsFor (event.clock 0) (shared.settled.version key) (shared.engine.version key)
  inFront : shared.inFront event key = true

/-- A flush loses nothing of what it finds, whether or not it fails. -/
theorem flush_versions (healthy : shared.engine.Healthy)
    (done : shared.flushMemtableAsync faults timestamp = some (result, next))
    : next.engine.Healthy
      ∧ ∀ key,
          shared.settled.flushesInFront timestamp key = true
          → next.engine.version key = shared.settled.version key := by
  obtain ⟨⟨flushed, wal, finished, engine⟩, -⟩ := flush_inv done
  obtain ⟨healthyFlushed, empty, -, versions⟩ :=
    (healthy_settled healthy).finishFlush finished
  have swapped := healthyFlushed.swap
  rw [engine]
  refine ⟨⟨swapped.sound, swapped.active, swapped.immutable⟩, fun key front => ?_⟩
  rw [← versions key front, ← LsmEngine.version_swap empty]
  rfl

/-- A write followed by the flush it may trigger, whether or not that fails. -/
theorem write_standsFor (healthy : shared.engine.Healthy) {key : String}
    {value : Option String} (fits : Record.Fits key (value.getD ""))
    {expiryMs : Option UInt64}
    (done : shared.write key value expiryMs faults timestamp = some (result, next))
    : next.engine.Healthy
      ∧ ∀ other written since,
          StandsFor since (shared.engine.version other) (written other)
          → ((shared.engine.write key value expiryMs).isFull = true
            → StandsFor since (shared.settled.version other) (shared.engine.version other)
              ∧ shared.settled.flushesInFront timestamp other = true)
          → StandsFor since (next.engine.version other)
              (Writes.write written key value expiryMs other) := by
  have wrote := healthy.write fits expiryMs
  unfold write at done
  dsimp only at done
  split at done
  next full =>
    obtain ⟨healthyNext, versions⟩ := flush_versions wrote done
    refine ⟨healthyNext, fun other written since stands front => ?_⟩
    obtain ⟨spare, filed⟩ := front full
    have commutes : settled { shared with engine := shared.engine.write key value expiryMs }
        = shared.settled.write key value expiryMs := by
      unfold settled
      split <;> rfl
    have filedAfter : (settled { shared with engine := shared.engine.write key value expiryMs
        }).flushesInFront timestamp other = true := by
      rw [commutes]
      exact filed
    rw [versions other filedAfter, commutes]
    exact LsmEngine.standsFor_write (spare.trans stands) key value expiryMs
  next =>
    obtain ⟨-, rfl⟩ := Prod.mk.inj (Option.some.inj done)
    exact ⟨wrote, fun other written since stands _ =>
      LsmEngine.standsFor_write stands key value expiryMs⟩

/-- The facts that a compaction which comes so far needs. -/
theorem inFront_compact {event : FaultyEvent} {key : String} (call : event.call = .compact)
    (front : shared.inFront event key = true)
    : shared.settled.flushesInFront (event.stamp 0) key = true
      ∧ (event.faults.table = none
        → ∀ flushed,
            shared.settled.finishFlush (event.stamp 0) = .ok flushed
            → flushed.strategy.addsInFront
                (flushed.tableFor flushed.active (event.stamp 1)) key
              = true)
      ∧ (event.faults.table = none
        → event.faults.reset = none
        → shared.settled.keeps event.toEvent key = true) := by
  simp only [inFront, call] at front
  split at front
  next fails =>
    simp only [Bool.and_eq_true] at front
    refine ⟨front.1, fun unharmed flushed finished => ?_, fun unharmed clean => ?_⟩
    · simpa [finished, unharmed] using front.2
    · simp [unharmed, clean] at fails
  next =>
    refine ⟨?_, fun _ flushed finished => ?_, fun _ _ => front⟩
    · simp only [LsmEngine.keeps, LsmEngine.flushes, call, Bool.not_true, Bool.false_or,
        Bool.and_eq_true] at front
      exact front.1
    · simp only [LsmEngine.keeps, LsmEngine.flushes, call, finished, Bool.not_true,
        Bool.false_or, Bool.and_eq_true] at front
      exact front.2.1

/-- A compaction loses nothing, wherever it fails before it merges tables. -/
theorem compact_standsFor (healthy : shared.engine.Healthy) {event : FaultyEvent}
    (call : event.call = .compact)
    (done : shared.compact event.faults event.clock event.stamp = some (result, next))
    : next.engine.Healthy
      ∧ ∀ (key : String) (written : Writes) since,
          StandsFor since (shared.engine.version key) (written key)
          → event.Timely since
          → shared.Keeps event key
          → StandsFor event.finishMs (next.engine.version key) (written key) := by
  have healthySettled := healthy_settled healthy
  obtain ⟨flushed, finished, cases⟩ := compact_cases done
  obtain ⟨healthyFlushed, empty, -, versions⟩ := healthySettled.finishFlush finished
  have stands {key : String} {written : Writes} {since : UInt64}
      (stands : StandsFor since (shared.engine.version key) (written key))
      (timely : event.Timely since) (keeps : shared.Keeps event key)
      : StandsFor event.finishMs (shared.settled.version key) (written key) := by
    have spare := keeps.spare (by simp [overwrites, LsmEngine.flushes, call])
    exact (spare.trans (stands.mono timely.starts)).mono (timely.ends 0)
  rcases cases with ⟨-, engine⟩ | ⟨installed, wal, installs, -, unharmed, engine⟩
    | ⟨unharmed, clean, -, compacted⟩
  · have swapped := healthyFlushed.swap
    rw [engine]
    refine ⟨⟨swapped.sound, swapped.active, swapped.immutable⟩,
      fun key written since before timely keeps => ?_⟩
    have front := (inFront_compact call keeps.inFront).1
    have same : flushed.swap.version key = shared.settled.version key := by
      rw [LsmEngine.version_swap empty, versions key front]
    have after := stands before timely keeps
    rw [← same] at after
    exact after
  · obtain ⟨healthyInstalled, none, installedVersions⟩ := healthyFlushed.install installs
    rw [engine]
    refine ⟨⟨healthyInstalled.sound, healthyInstalled.active, ?_⟩,
      fun key written since before timely keeps => ?_⟩
    · rintro memtable ⟨⟩
      exact healthyFlushed.active
    · obtain ⟨front, adds, -⟩ := inFront_compact call keeps.inFront
      have same := installedVersions key (adds unharmed flushed finished)
      have after := stands before timely keeps
      rw [← versions key front] at after
      obtain ⟨sst, -, installs⟩ := bind_eq_ok.mp installs
      obtain ⟨strategy, -, installs⟩ := bind_eq_ok.mp installs
      obtain rfl := Except.ok.inj installs
      simp only [LsmEngine.version, Memtable.entry_new, Option.none_or, Option.bind_none,
        Option.bind_some, empty] at same after ⊢
      rw [same]
      cases held : flushed.active.entry key with
      | none => simpa [held] using after
      | some entry => simpa [held] using after
  · have handled : shared.settled.handle event.toEvent = .ok (.done, next.engine) := by
      simp [LsmEngine.handle, call, compacted]
    obtain ⟨healthyNext, through⟩ := healthySettled.handle (by simp [call, Call.fits]) handled
    refine ⟨healthyNext, fun key written since before timely keeps => ?_⟩
    have front := (inFront_compact call keeps.inFront).2.2 unharmed clean
    have spare := keeps.spare (by simp [overwrites, LsmEngine.flushes, call])
    have after := through key written (event.clock 0)
      (spare.trans (before.mono timely.starts)) ⟨UInt64.le_rfl, timely.monotone, timely.ends⟩
      front
    simpa [Writes.after, call] using after

theorem replying_inv {reply : Reply} {answer : Option (Except IoError Unit × LsmShared)}
    {answered : Except IoError Reply} (done : replying reply answer = some (answered, next))
    : ∃ result, answer = some (result, next) := by
  obtain ⟨⟨result, after⟩, answered, same⟩ := Option.map_eq_some_iff.mp done
  obtain ⟨-, rfl⟩ := Prod.mk.inj same
  exact ⟨result, answered⟩

/-- The flush of a call that waits for the thread adds its table in front. -/
theorem flushesInFront_of_keeps {event : Event} {key : String}
    (flushes : shared.engine.flushes event = true)
    (keeps : shared.settled.keeps event key = true)
    : shared.settled.flushesInFront (event.stamp 0) key = true := by
  cases handle : shared.flushHandle with
  | true =>
      have same : shared.settled = shared.engine := if_pos handle
      rw [same] at keeps ⊢
      simp only [LsmEngine.keeps, flushes, Bool.not_true, Bool.false_or,
        Bool.and_eq_true] at keeps
      exact keeps.1
  | false => simp [settled, handle, LsmEngine.flushesInFront]

/-- A write, in a call that keeps what its flush needs. -/
theorem write_keeps (healthy : shared.engine.Healthy) (event : FaultyEvent) {key : String}
    {value : Option String} {expiryMs : Option UInt64}
    (fits : Record.Fits key (value.getD ""))
    (flushes
      : (shared.engine.write key value expiryMs).isFull = true
        → shared.engine.flushes event.toEvent = true)
    (overwrites : shared.overwrites event.toEvent = shared.engine.flushes event.toEvent)
    (inFront
      : ∀ other, shared.inFront event other = shared.settled.keeps event.toEvent other)
    (done
      : shared.write key value expiryMs event.faults (event.stamp 0) = some (result, next))
    : next.engine.Healthy
      ∧ ∀ (other : String) (written : Writes) since,
          StandsFor since (shared.engine.version other) (written other)
          → event.Timely since
          → shared.Keeps event other
          → StandsFor event.finishMs (next.engine.version other)
              (written.write key value expiryMs other) := by
  obtain ⟨healthyNext, through⟩ := write_standsFor healthy fits done
  refine ⟨healthyNext, fun other written since stands timely keeps => ?_⟩
  have after := through other written (event.clock 0) (stands.mono timely.starts) (by
    intro full
    refine ⟨keeps.spare (overwrites.trans (flushes full)), ?_⟩
    have front := keeps.inFront
    rw [inFront other] at front
    exact flushesInFront_of_keeps (flushes full) front)
  exact after.mono (timely.ends 0)

/-- What a call does, whether or not it fails: it keeps the engine healthy, and what it does
not lose stands for the last writes afterwards. Witness: one case for each call.
-/
theorem handle_standsFor (healthy : shared.engine.Healthy) {event : FaultyEvent}
    {answered : Except IoError Reply} (fits : event.call.fits = true)
    (done : shared.handle event = some (answered, next))
    : next.engine.Healthy
      ∧ ∀ (key : String) (written : Writes) since,
          StandsFor since (shared.engine.version key) (written key)
          → event.Timely since
          → shared.Keeps event key
          → StandsFor event.finishMs (next.engine.version key)
              (shared.lastWrites event written key) := by
  obtain ⟨⟨call, clock, stamp, finishMs⟩, faults⟩ := event
  have unchanged {key : String} {written : Writes} {since : UInt64}
      (stands : StandsFor since (shared.engine.version key) (written key))
      (timely : Event.Timely since { call, clock, stamp, finishMs })
      : StandsFor finishMs (shared.engine.version key) (written key) :=
    stands.mono timely.within
  cases call with
  | set key value =>
      obtain ⟨result, wrote⟩ := replying_inv done
      have limits : Record.Fits key ((some value).getD "") := by simpa [Call.fits] using fits
      exact write_keeps healthy ⟨⟨.set key value, clock, stamp, finishMs⟩, faults⟩ limits
        (by simp [LsmEngine.flushes]) rfl (fun _ => rfl) wrote
  | setWithTtl key value expiryMs =>
      obtain ⟨result, wrote⟩ := replying_inv done
      have limits : Record.Fits key ((some value).getD "") := by simpa [Call.fits] using fits
      exact write_keeps healthy ⟨⟨.setWithTtl key value expiryMs, clock, stamp, finishMs⟩,
        faults⟩ limits
        (by simp [LsmEngine.flushes]) rfl (fun _ => rfl) wrote
  | delete key =>
      simp only [handle] at done
      split at done
      next error fails =>
        obtain ⟨-, rfl⟩ := Prod.mk.inj (Option.some.inj done)
        simp only [lastWrites, fails]
        exact ⟨healthy, fun _ _ _ stands timely _ => unchanged stands timely⟩
      next found searched =>
        obtain ⟨result, wrote⟩ := replying_inv done
        simp only [lastWrites, searched]
        have limits : Record.Fits key ((none : Option String).getD "") :=
          ⟨by simpa [Call.fits] using fits, by simp [maxValueSize]⟩
        exact write_keeps healthy ⟨⟨.delete key, clock, stamp, finishMs⟩, faults⟩ limits
          (by simp [LsmEngine.flushes]) rfl (fun _ => rfl) wrote
  | ttl key expiryMs =>
      simp only [handle] at done
      split at done
      next error fails =>
        obtain ⟨-, rfl⟩ := Prod.mk.inj (Option.some.inj done)
        simp only [lastWrites, fails]
        exact ⟨healthy, fun _ _ _ stands timely _ => unchanged stands timely⟩
      next absent =>
        obtain ⟨-, rfl⟩ := Prod.mk.inj (Option.some.inj done)
        simp only [lastWrites, absent]
        exact ⟨healthy, fun _ _ _ stands timely _ => unchanged stands timely⟩
      next value found =>
        obtain ⟨result, wrote⟩ := replying_inv done
        simp only [lastWrites, found]
        have limits : Record.Fits key ((some value).getD "") := healthy.fits_of_find found
        exact write_keeps healthy ⟨⟨.ttl key expiryMs, clock, stamp, finishMs⟩, faults⟩ limits
          (by simp [LsmEngine.flushes, found]) rfl (fun _ => rfl) wrote
  | get key =>
      have same : next = shared := by
        simp only [handle] at done
        split at done
        · exact (Prod.mk.inj (Option.some.inj done)).2.symm
        · exact (Prod.mk.inj (Option.some.inj done)).2.symm
      rw [same]
      exact ⟨healthy, fun _ _ _ stands timely _ => unchanged stands timely⟩
  | flush =>
      obtain ⟨result, flushed⟩ := replying_inv done
      obtain ⟨healthyNext, versions⟩ := flush_versions healthy flushed
      refine ⟨healthyNext, fun key written since stands timely keeps => ?_⟩
      have flushes : shared.engine.flushes { call := .flush, clock, stamp, finishMs }
          = true := rfl
      rw [versions key (flushesInFront_of_keeps flushes keeps.inFront)]
      exact ((keeps.spare flushes).trans (stands.mono timely.starts)).mono (timely.ends 0)
  | background =>
      simp only [handle] at done
      split at done
      next attached =>
        obtain ⟨engine, finished, same⟩ := Option.bind_eq_some_iff.mp done
        rw [toOption_eq_some] at finished
        obtain ⟨-, rfl⟩ := Prod.mk.inj (Option.some.inj same)
        obtain ⟨healthyNext, -, -, versions⟩ := healthy.finishFlush finished
        refine ⟨healthyNext, fun key written since stands timely keeps => ?_⟩
        have flushes : shared.engine.flushes { call := .background, clock, stamp, finishMs }
            = true := rfl
        have front := flushesInFront_of_keeps flushes keeps.inFront
        rw [show shared.settled = shared.engine from if_pos attached] at front
        rw [versions key front]
        exact unchanged stands timely
      next =>
        obtain ⟨-, rfl⟩ := Prod.mk.inj (Option.some.inj done)
        exact ⟨healthy, fun _ _ _ stands timely _ => unchanged stands timely⟩
  | compactStep =>
      obtain ⟨⟨ran, engine⟩, stepped, same⟩ := Option.bind_eq_some_iff.mp done
      rw [toOption_eq_some] at stepped
      obtain ⟨-, rfl⟩ := Prod.mk.inj (Option.some.inj same)
      have handled : shared.engine.handle { call := .compactStep, clock, stamp, finishMs }
          = .ok (.stepped ran, engine) := by
        simp [LsmEngine.handle, stepped]
      obtain ⟨healthyNext, through⟩ := healthy.handle rfl handled
      refine ⟨healthyNext, fun key written since stands timely keeps => ?_⟩
      refine through key written since stands timely ?_
      simpa [inFront, LsmEngine.keeps, LsmEngine.flushes] using keeps.inFront
  | compact =>
      obtain ⟨result, compacted⟩ := replying_inv done
      exact compact_standsFor healthy rfl compacted

-----------------------------------------------------------------------------------------
-- Calls that meet no error
-----------------------------------------------------------------------------------------

/-- What is in the slot has a thread, as it does as long as nothing fails. -/
def Attended (shared : LsmShared) : Prop :=
  shared.engine.immutable = none ∨ shared.flushHandle = true

def noFaults : Faults :=
  { table := none, reset := none }

section NoFaults

variable {engine : LsmEngine} {event : Event}

theorem join_attended (attended : shared.Attended)
    (finished : shared.engine.finishFlush timestamp = .ok engine)
    : shared.join timestamp = some { engine, flushHandle := false } := by
  obtain ⟨before, handle⟩ := shared
  cases handle with
  | true =>
      have finished : before.finishFlush timestamp = .ok engine := finished
      simp [join, finished, Except.toOption]
  | false =>
      obtain empty : before.immutable = none := by simpa [Attended] using attended
      simp only [LsmEngine.finishFlush, empty, Except.ok.injEq] at finished
      simp [join, finished]

theorem flush_attended (attended : shared.Attended)
    (done : shared.engine.flushMemtableAsync timestamp = .ok engine)
    : shared.flushMemtableAsync noFaults timestamp
      = some (.ok (), { engine, flushHandle := true }) := by
  obtain ⟨flushed, finished, done⟩ := bind_eq_ok.mp done
  obtain rfl := Except.ok.inj done
  simp [flushMemtableAsync, join_attended attended finished]
  rfl

theorem write_attended (attended : shared.Attended) {key : String} {value : Option String}
    {expiryMs : Option UInt64}
    (done
      : (shared.engine.write key value expiryMs).finishWrite timestamp = .ok engine)
    : ∃ flushHandle,
        shared.write key value expiryMs noFaults timestamp
          = some (.ok (), { engine, flushHandle })
        ∧ Attended { engine, flushHandle } := by
  unfold LsmEngine.finishWrite at done
  unfold write
  split at done
  next full =>
    rw [if_pos full]
    exact ⟨true, flush_attended attended done, .inr rfl⟩
  next room =>
    obtain rfl := Except.ok.inj done
    rw [if_neg room]
    exact ⟨shared.flushHandle, rfl, attended⟩

theorem compact_attended (attended : shared.Attended) {clock : Nat → UInt64}
    {stamp : Nat → Nat} (done : shared.engine.compact clock stamp = .ok engine)
    : shared.compact noFaults clock stamp = some (.ok (), { engine, flushHandle := false })
      ∧ engine.immutable = none := by
  obtain ⟨flushed, finished, done⟩ := bind_eq_ok.mp done
  obtain ⟨installed, installs, done⟩ := bind_eq_ok.mp done
  obtain ⟨strategy, compacted, done⟩ := bind_eq_ok.mp done
  obtain rfl := Except.ok.inj done
  obtain ⟨sst, flushes, installs⟩ := bind_eq_ok.mp installs
  obtain ⟨grown, added, installs⟩ := bind_eq_ok.mp installs
  obtain rfl := Except.ok.inj installs
  have adds : flushed.take.addTable noFaults flushed.active (stamp 1) = .ok grown := by
    have flushes : flushed.take.flushTable flushed.active (stamp 1) = .ok sst := flushes
    rw [LsmEngine.addTable, noFaults, flushes, ok_bind]
    exact added
  have compacted : grown.compactAll clock (fun i => stamp (i + 2)) = .ok strategy := compacted
  have clean : noFaults.reset = none := rfl
  simp [compact, join_attended attended finished, adds, LsmEngine.resetWal, clean, compacted,
    Except.toOption]
  exact ⟨rfl, rfl, rfl⟩

/-- Without errors a call does what it does in the engine that knows none. Witness: one case
for each call.
-/
theorem handle_attended (attended : shared.Attended) {reply : Reply}
    (done : shared.engine.handle event = .ok (reply, engine))
    : ∃ flushHandle,
        shared.handle { event with faults := noFaults }
          = some (.ok reply, { engine, flushHandle })
        ∧ Attended { engine, flushHandle } := by
  obtain ⟨call, clock, stamp, finishMs⟩ := event
  cases call with
  | set key value =>
      obtain ⟨after, wrote, same⟩ := bind_eq_ok.mp done
      obtain ⟨rfl, rfl⟩ := Prod.mk.inj (Except.ok.inj same)
      obtain ⟨flushHandle, ran, attendedNext⟩ := write_attended attended wrote
      exact ⟨flushHandle, by simp [handle, replying, ran]; rfl, attendedNext⟩
  | setWithTtl key value expiryMs =>
      obtain ⟨after, wrote, same⟩ := bind_eq_ok.mp done
      obtain ⟨rfl, rfl⟩ := Prod.mk.inj (Except.ok.inj same)
      obtain ⟨flushHandle, ran, attendedNext⟩ := write_attended attended wrote
      exact ⟨flushHandle, by simp [handle, replying, ran]; rfl, attendedNext⟩
  | delete key =>
      obtain ⟨⟨found, after⟩, deleted, same⟩ := bind_eq_ok.mp done
      obtain ⟨rfl, rfl⟩ := Prod.mk.inj (Except.ok.inj same)
      obtain ⟨held, searched, deleted⟩ := bind_eq_ok.mp deleted
      obtain ⟨last, wrote, same⟩ := bind_eq_ok.mp deleted
      obtain ⟨rfl, rfl⟩ := Prod.mk.inj (Except.ok.inj same)
      obtain ⟨flushHandle, ran, attendedNext⟩ := write_attended attended wrote
      exact ⟨flushHandle, by simp [handle, searched, replying, ran]; rfl, attendedNext⟩
  | ttl key expiryMs =>
      obtain ⟨⟨outcome, after⟩, answered, same⟩ := bind_eq_ok.mp done
      obtain ⟨rfl, rfl⟩ := Prod.mk.inj (Except.ok.inj same)
      obtain ⟨held, searched, answered⟩ := bind_eq_ok.mp answered
      cases held with
      | none =>
          obtain ⟨rfl, rfl⟩ := Prod.mk.inj (Except.ok.inj answered)
          exact ⟨shared.flushHandle, by simp [handle, searched], attended⟩
      | some value =>
          obtain ⟨last, wrote, same⟩ := bind_eq_ok.mp answered
          obtain ⟨rfl, rfl⟩ := Prod.mk.inj (Except.ok.inj same)
          obtain ⟨flushHandle, ran, attendedNext⟩ := write_attended attended wrote
          exact ⟨flushHandle, by simp [handle, searched, replying, ran]; rfl, attendedNext⟩
  | get key =>
      obtain ⟨found, searched, same⟩ := bind_eq_ok.mp done
      obtain ⟨rfl, rfl⟩ := Prod.mk.inj (Except.ok.inj same)
      exact ⟨shared.flushHandle, by simp [handle, searched], attended⟩
  | flush =>
      obtain ⟨after, flushed, same⟩ := bind_eq_ok.mp done
      obtain ⟨rfl, rfl⟩ := Prod.mk.inj (Except.ok.inj same)
      exact ⟨true, by simp [handle, replying, flush_attended attended flushed]; rfl, .inr rfl⟩
  | background =>
      obtain ⟨after, finished, same⟩ := bind_eq_ok.mp done
      obtain ⟨rfl, rfl⟩ := Prod.mk.inj (Except.ok.inj same)
      refine ⟨shared.flushHandle, ?_, .inl (LsmEngine.finishFlush_empty finished)⟩
      obtain ⟨before, attached⟩ := shared
      cases attached with
      | true =>
          have finished : before.finishFlush (stamp 0) = .ok after := finished
          simp [handle, finished, Except.toOption]
      | false =>
          obtain empty : before.immutable = none := by simpa [Attended] using attended
          simp only [LsmEngine.finishFlush, empty, Except.ok.injEq] at finished
          simp [handle, finished]
  | compactStep =>
      obtain ⟨⟨ran, after⟩, stepped, same⟩ := bind_eq_ok.mp done
      obtain ⟨rfl, rfl⟩ := Prod.mk.inj (Except.ok.inj same)
      refine ⟨shared.flushHandle, by simp [handle, stepped, Except.toOption], ?_⟩
      obtain ⟨⟨_, strategy⟩, -, same⟩ := bind_eq_ok.mp stepped
      obtain ⟨-, rfl⟩ := Prod.mk.inj (Except.ok.inj same)
      exact attended
  | compact =>
      obtain ⟨after, compacted, same⟩ := bind_eq_ok.mp done
      obtain ⟨rfl, rfl⟩ := Prod.mk.inj (Except.ok.inj same)
      obtain ⟨ran, empty⟩ := compact_attended attended compacted
      exact ⟨false, by simp [handle, replying, ran]; rfl, .inl empty⟩

end NoFaults

-----------------------------------------------------------------------------------------
-- Runs
-----------------------------------------------------------------------------------------

/-- The states that sequential calls lead to, some of which fail, with the last write of each
key and the time reached. At the start, each key was written last what it is read as.
-/
inductive Runs (permitted : LsmShared → FaultyEvent → Prop) (start : LsmShared)
    : LsmShared → Writes → UInt64 → Prop
  | start : Runs permitted start start start.engine.version 0
  | step {shared next : LsmShared} {written : Writes} {since : UInt64} {event : FaultyEvent}
      {answered : Except IoError Reply}
      (reached : Runs permitted start shared written since)
      (timely : event.Timely since)
      (allowed : permitted shared event)
      (done : shared.handle event = some (answered, next))
    : Runs permitted start next (shared.lastWrites event written) event.finishMs

theorem Runs.standsFor {start last : LsmShared} {written : Writes} {since : UInt64}
    {key : String} (healthy : start.engine.Healthy)
    (reached
      : Runs (fun shared event => event.call.fits = true ∧ shared.Keeps event key) start last
          written since)
    : last.engine.Healthy ∧ StandsFor since (last.engine.version key) (written key) := by
  induction reached with
  | start => exact ⟨healthy, .refl⟩
  | step reached timely allowed done ih =>
      obtain ⟨healthyNow, stands⟩ := ih
      obtain ⟨healthyNext, through⟩ := handle_standsFor healthyNow allowed.1 done
      exact ⟨healthyNext, through key _ _ stands timely allowed.2⟩

/-- A flush that fails at the log, and a compaction that fails at its table or at the log,
returns the error; and in every run whose calls keep what a key needs, failed ones among
them, a get returns the last write of the key.
-/
theorem failed_flush_loses_nothing {start last : LsmShared} {written : Writes}
    {since : UInt64} {key : String} (healthy : start.engine.Healthy)
    (reached
      : Runs (fun shared event => event.call.fits = true ∧ shared.Keeps event key) start last
          written since)
    : (∀ faults timestamp result next,
        faults.reset ≠ none
        → last.flushMemtableAsync faults timestamp = some (result, next)
        → result.isOk = false)
      ∧ (∀ faults clock stamp result next,
        faults.table ≠ none ∨ faults.reset ≠ none
        → last.compact faults clock stamp = some (result, next)
        → result.isOk = false)
      ∧ ∀ clock : Nat → UInt64,
          since ≤ clock 0
          → clock 0 ≤ clock 1
          → ∃ readMs,
              (readMs = clock 0 ∨ readMs = clock 1)
              ∧ last.engine.get key clock
                = .ok ((readAt (written key) readMs).map (fun value => (key, value))) := by
  refine ⟨?_, ?_, fun clock starts order => ?_⟩
  · intro faults timestamp result next fault done
    cases result with
    | ok => exact absurd ((flush_inv done).2.mp rfl) fault
    | error => rfl
  · intro faults clock stamp result next fault done
    obtain ⟨flushed, -, ⟨fails, -⟩ | ⟨installed, wal, -, fails, -⟩ | ⟨noTable, noReset, -⟩⟩ :=
      compact_cases done
    · exact fails
    · exact fails
    · simp [noTable, noReset] at fault
  · obtain ⟨healthyLast, stands⟩ := reached.standsFor healthy
    exact LsmEngine.get_written healthyLast stands clock starts order

/-- Makes one permitted call after the other, and tells which of them succeeded. -/
def run (permitted : LsmShared → FaultyEvent → Bool)
    : List FaultyEvent → LsmShared → Writes → Option (List Bool × LsmShared × Writes)
  | [], shared, written => some ([], shared, written)
  | event :: rest, shared, written =>
      if permitted shared event then do
        let (answered, next) ← shared.handle event
        let (answers, final) ← run permitted rest next (shared.lastWrites event written)
        return (answered.isOk :: answers, final)
      else
        none

theorem Runs.run {decides : LsmShared → FaultyEvent → Bool}
    {permitted : LsmShared → FaultyEvent → Prop}
    (permits : ∀ shared event, decides shared event = true → permitted shared event)
    {start shared last : LsmShared} {written final : Writes} {since : UInt64}
    {events : List FaultyEvent} {answers : List Bool}
    (reached : Runs permitted start shared written since)
    (timely : TimelyFrom since (events.map FaultyEvent.toEvent))
    (ran : LsmShared.run decides events shared written = some (answers, last, final))
    : Runs permitted start last final
        (finishOf since (events.map FaultyEvent.toEvent)) := by
  induction events generalizing shared written since answers with
  | nil =>
      obtain ⟨rfl, rfl⟩ := Prod.mk.inj (Prod.mk.inj (Option.some.inj ran)).2
      exact reached
  | cons event rest ih =>
      unfold LsmShared.run at ran
      split at ran
      next allowed =>
        obtain ⟨⟨answered, next⟩, done, ran⟩ := Option.bind_eq_some_iff.mp ran
        obtain ⟨⟨others, _⟩, later, same⟩ := Option.bind_eq_some_iff.mp ran
        obtain ⟨-, rfl⟩ := Prod.mk.inj (Option.some.inj same)
        have final := ih (reached.step timely.1 (permits _ _ allowed) done) timely.2 later
        cases ending : rest.getLast? <;>
          simpa [finishOf, List.getLast?_cons, ending] using final
      next => cases ran

/-- Everything in a slot without a thread is in a table or written again. -/
def slotStored (shared : LsmShared) : Bool :=
  shared.flushHandle
  || shared.engine.immutable.all
    (fun memtable =>
      memtable.entries.toList.all
        (fun item =>
          (shared.engine.active.entry item.1).isSome
          || shared.engine.strategy.version item.1 = some item.2))

theorem keeps_of_slotStored {shared : LsmShared} {event : FaultyEvent}
    (stored : shared.slotStored = true)
    (safe : shared.settled.mergesSafely event.toEvent = true) (key : String)
    : shared.Keeps event key where
  spare _ := by
    refine .inl ?_
    unfold settled
    cases handle : shared.flushHandle with
    | true => rfl
    | false =>
        simp only [slotStored, handle, Bool.false_or] at stored
        cases slot : shared.engine.immutable with
        | none => simp [LsmEngine.version, slot]
        | some memtable =>
            simp only [slot, Option.all_some, List.all_eq_true, Bool.or_eq_true,
              decide_eq_true_eq] at stored
            simp only [LsmEngine.version, slot, Option.bind_none, Option.none_or,
              Option.bind_some, Bool.false_eq_true, if_false]
            cases held : memtable.entry key with
            | none => simp
            | some entry =>
                have member : (key, entry) ∈ memtable.entries.toList :=
                  (SortedMap.mem_toList _ _ _).mpr held
                rcases stored _ member with again | below
                · obtain ⟨newer, found⟩ := Option.isSome_iff_exists.mp again
                  simp [found]
                · simp [below]
  inFront := by
    have keeps := LsmEngine.keeps_of_mergesSafely safe key
    unfold inFront
    split
    next call =>
      split
      · simp only [LsmEngine.keeps, LsmEngine.flushes, call, Bool.not_true, Bool.false_or,
          Bool.and_eq_true] at keeps
        rw [keeps.1, Bool.true_and]
        split
        next flushed finished =>
          simp only [finished, Bool.and_eq_true] at keeps
          simp [keeps.2.1]
        next => rfl
      · exact keeps
    next => exact keeps

/-- A leveled engine with two levels, and nothing in it. -/
def emptyShared : LsmShared :=
  {
    engine := LsmEngine.new 1000 (.leveled (Leveled.new 2 4 1000 smallBlocks)) smallBlocks
    flushHandle := false
  }

/-- No space is left on the device. -/
def deviceFull : IoError :=
  { kind := .other, message := "No space left on device (os error 28)" }

/-- A call at one moment, with its faults. -/
def Faults.at (faults : Faults) (call : Call) (timestamp : Nat) : FaultyEvent :=
  { toEvent := call.at 10 timestamp, faults }

theorem healthy_emptyShared : emptyShared.engine.Healthy :=
  LsmEngine.healthy_new (StorageStrategy.New.leveled 2 4 1000 smallBlocks).sound _ _

/-- A compaction that fails at the log, when its table is there, and a second one. -/
def failedReset : List FaultyEvent :=
  [Faults.at ⟨none, none⟩ (.set "k" "v") 0,
    Faults.at ⟨none, some (deviceFull, true)⟩ .compact 10,
    Faults.at ⟨none, none⟩ (.set "j" "w") 20, Faults.at ⟨none, none⟩ .compact 30]

/-- Witness: the table is there when the log fails, and nothing is lost. -/
theorem failed_flush_loses_nothing_reset
    : ∃ last written,
        run (fun shared event => event.call.fits && shared.slotStored
            && shared.settled.mergesSafely event.toEvent)
          failedReset emptyShared emptyShared.engine.version
          = some ([true, false, true, true], last, written)
        ∧ written "k" = some { value := some "v", expiryMs := none }
        ∧ last.engine.get "k" (fun _ => 10) = .ok (some ("k", "v")) := by
  have computed : (run (fun shared event => event.call.fits && shared.slotStored
      && shared.settled.mergesSafely event.toEvent)
      failedReset emptyShared emptyShared.engine.version).any
      (fun final =>
        final.1 = [true, false, true, true]
        && final.2.2 "k" = some { value := some "v", expiryMs := none }) = true := by
    decide +kernel
  simp only [Option.any_eq_true, Bool.and_eq_true, decide_eq_true_eq] at computed
  obtain ⟨⟨answers, last, written⟩, ran, rfl, wrote⟩ := computed
  have wrote : written "k" = some { value := some "v", expiryMs := none } := wrote
  have timely : TimelyFrom 0 (failedReset.map FaultyEvent.toEvent) := by
    have increasing : TimelyFrom 0 (script [(.set "k" "v", 10, 0), (.compact, 10, 10),
        (.set "j" "w", 10, 20), (.compact, 10, 30)]) :=
      timelyFrom_script (by decide)
    exact increasing
  have first : Runs (fun shared event => event.call.fits = true ∧ shared.Keeps event "k")
      emptyShared emptyShared emptyShared.engine.version 0 := .start
  have reached := first.run (fun shared event allowed => by
    simp only [Bool.and_eq_true] at allowed
    exact ⟨allowed.1.1, keeps_of_slotStored allowed.1.2 allowed.2 "k"⟩) timely ran
  obtain ⟨readMs, -, found⟩ := (failed_flush_loses_nothing healthy_emptyShared reached).2.2
    (fun _ => 10) (by decide) UInt64.le_rfl
  rw [wrote] at found
  exact ⟨last, written, ran, wrote, found⟩

/-- A compaction that fails at its table, and a second one. -/
def failedTable : List FaultyEvent :=
  [Faults.at ⟨none, none⟩ (.set "k" "v") 0,
    Faults.at ⟨some deviceFull, none⟩ .compact 10, Faults.at ⟨none, none⟩ .compact 20]

/-- Counterexample: compacting again after the failure loses the write. -/
theorem failed_compact_loses_write
    : ∃ last written,
        run (fun _ event => event.call.fits) failedTable emptyShared
          emptyShared.engine.version
          = some ([true, false, true], last, written)
        ∧ Runs (fun _ event => event.call.fits = true) emptyShared last written 10
        ∧ written "k" = some { value := some "v", expiryMs := none }
        ∧ last.engine.get "k" (fun _ => 10) = .ok none
        ∧ last.engine.wal = [] := by
  have computed : (run (fun _ event => event.call.fits) failedTable emptyShared
      emptyShared.engine.version).any
      (fun final =>
        final.1 = [true, false, true]
        && final.2.2 "k" = some { value := some "v", expiryMs := none }
        && (final.2.1.engine.get "k" (fun _ => 10)).toOption = some none
        && final.2.1.engine.wal = []) = true := by
    decide +kernel
  simp only [Option.any_eq_true, Bool.and_eq_true, decide_eq_true_eq, toOption_eq_some]
    at computed
  obtain ⟨⟨answers, last, written⟩, ran, ⟨⟨rfl, wrote⟩, lost⟩, emptied⟩ := computed
  have timely : TimelyFrom 0 (failedTable.map FaultyEvent.toEvent) := by
    have increasing : TimelyFrom 0 (script [(.set "k" "v", 10, 0), (.compact, 10, 10),
        (.compact, 10, 20)]) :=
      timelyFrom_script (by decide)
    exact increasing
  exact ⟨last, written, ran, Runs.start.run (fun _ _ fits => fits) timely ran, wrote, lost,
    emptied⟩

end LsmShared

end Rustikv.Lsm

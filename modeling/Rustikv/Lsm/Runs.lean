import Rustikv.Lsm.Sections

/-! Sequential runs of the LSM engine, and what one call does to the version of each key. -/

namespace Rustikv.Lsm

open Library

/-- The calls of the engine, a memtable flush, and the end of the background thread of an
earlier flush.
-/
inductive Call
  | set (key value : String)
  | setWithTtl (key value : String) (expiryMs : Option UInt64)
  | delete (key : String)
  | ttl (key : String) (expiryMs : Option UInt64)
  | get (key : String)
  | flush
  | background
  | compactStep
  | compact

inductive Reply
  | done
  | deleted (found : Bool)
  | ttl (outcome : TtlOutcome)
  | value (found : Option (String × String))
  | stepped (ran : Bool)
  deriving DecidableEq, Repr

/-- A call with its successive clock readings and the time it returns. -/
structure Event where
  call : Call
  clock : Nat → UInt64
  stamp : Nat → Nat
  finishMs : UInt64

/-- Keys and values within the limits of the record format. -/
def Call.fits : Call → Bool
  | .set key value => Record.Fits key value
  | .setWithTtl key value _ => Record.Fits key value
  | .delete key => key.utf8ByteSize ≤ maxKeySize
  | _ => true

/-- The clock readings do not decrease, from `since` to the end of the call. -/
structure Event.Timely (since : UInt64) (event : Event) : Prop where
  starts : since ≤ event.clock 0
  monotone : ∀ i j, i ≤ j → event.clock i ≤ event.clock j
  ends : ∀ i, event.clock i ≤ event.finishMs

theorem Event.Timely.within {since : UInt64} {event : Event} (timely : event.Timely since)
    : since ≤ event.finishMs :=
  UInt64.le_trans timely.starts (timely.ends 0)

namespace LsmEngine

def handle (engine : LsmEngine) (event : Event) : Except IoError (Reply × LsmEngine) :=
  match event.call with
  | .set key value => do return (.done, ← engine.set key value event.stamp)
  | .setWithTtl key value expiryMs => do
      return (.done, ← engine.setWithTtl key value expiryMs event.stamp)
  | .delete key => do
      let (found, engine) ← engine.delete key event.clock event.stamp
      return (.deleted found, engine)
  | .ttl key expiryMs => do
      let (outcome, engine) ← engine.ttl key expiryMs event.clock event.stamp
      return (.ttl outcome, engine)
  | .get key => do return (.value (← engine.get key event.clock), engine)
  | .flush => do return (.done, ← engine.flushMemtableAsync (event.stamp 0))
  | .background => do return (.done, ← engine.finishFlush (event.stamp 0))
  | .compactStep => do
      let (ran, engine) ← engine.compactStep event.clock event.stamp
      return (.stepped ran, engine)
  | .compact => do return (.done, ← engine.compact event.clock event.stamp)

end LsmEngine

namespace Writes

def none : Writes := fun _ => Option.none

/-- A new expiry for what was written last. -/
def retime (written : Writes) (key : String) (expiryMs : Option UInt64) : Writes :=
  match written key with
  | some entry => written.write key entry.value expiryMs
  | Option.none => written

/-- The last write of each key after one more call. A `ttl` writes if it found its key. -/
def after (written : Writes) (call : Call) (reply : Reply) : Writes :=
  match call with
  | .set key value => written.write key (some value) Option.none
  | .setWithTtl key value expiryMs => written.write key (some value) expiryMs
  | .delete key => written.write key Option.none Option.none
  | .ttl key expiryMs =>
      if reply = .ttl .notFound then written else written.retime key expiryMs
  | _ => written

end Writes

/-- The states that sequential calls, all of them `permitted`, lead to, with the last write
of each key and the time reached.
-/
inductive Runs (permitted : LsmEngine → Event → Bool) (start : LsmEngine)
    : LsmEngine → Writes → UInt64 → Prop
  | start : Runs permitted start start Writes.none 0
  | step {engine next : LsmEngine} {written : Writes} {since : UInt64} {event : Event}
      {reply : Reply}
      (reached : Runs permitted start engine written since)
      (timely : event.Timely since)
      (allowed : permitted engine event = true)
      (done : engine.handle event = .ok (reply, next))
    : Runs permitted start next (written.after event.call reply) event.finishMs

/-- Makes one permitted call after the other. -/
def run (permitted : LsmEngine → Event → Bool)
    : List Event → LsmEngine → Writes → Option (LsmEngine × Writes)
  | [], engine, written => some (engine, written)
  | event :: rest, engine, written =>
      if permitted engine event then
        match engine.handle event with
        | .ok (reply, next) => run permitted rest next (written.after event.call reply)
        | .error _ => none
      else
        none

def TimelyFrom : UInt64 → List Event → Prop
  | _, [] => True
  | since, event :: rest => event.Timely since ∧ TimelyFrom event.finishMs rest

def finishOf (since : UInt64) (events : List Event) : UInt64 :=
  (events.getLast?.map Event.finishMs).getD since

theorem Runs.run {permitted : LsmEngine → Event → Bool} {start engine next : LsmEngine}
    {written last : Writes} {since : UInt64} {events : List Event}
    (reached : Runs permitted start engine written since)
    (timely : TimelyFrom since events)
    (ran : Lsm.run permitted events engine written = some (next, last))
    : Runs permitted start next last (finishOf since events) := by
  induction events generalizing engine written since with
  | nil =>
      obtain ⟨rfl, rfl⟩ := Prod.mk.inj (Option.some.inj ran)
      exact reached
  | cons event rest ih =>
      unfold Lsm.run at ran
      split at ran
      next allowed =>
        split at ran
        next reply middle done =>
          have final := ih (reached.step timely.1 allowed done) timely.2 ran
          simpa [finishOf, List.getLast?_cons] using final
        next => cases ran
      next => cases ran

-----------------------------------------------------------------------------------------
-- One call
-----------------------------------------------------------------------------------------

namespace LsmEngine

/-- The call waits for the pending flush to end: a write that fills the memtable does, and
every flush and compaction.
-/
def flushes (engine : LsmEngine) (event : Event) : Bool :=
  match event.call with
  | .set key value => (engine.write key (some value) none).isFull
  | .setWithTtl key value expiryMs => (engine.write key (some value) expiryMs).isFull
  | .delete key => (engine.write key none none).isFull
  | .ttl key expiryMs =>
      match engine.find key (event.clock 0) (event.clock 1) with
      | .ok (some value) => (engine.write key (some value) expiryMs).isFull
      | _ => false
  | .flush => true
  | .background => true
  | .compact => true
  | _ => false

/-- What a call needs in order to keep the newest version of a key in front: a table it
flushes is added in front of the others, and its merges drop safely.
-/
def keeps (engine : LsmEngine) (event : Event) (key : String) : Bool :=
  (!engine.flushes event || engine.flushesInFront (event.stamp 0) key)
  && match event.call with
    | .compactStep =>
        match engine.strategy with
        | .leveled strategy => strategy.safeStep (event.clock 0)
        | .sizeTiered _ => false
    | .compact =>
        match engine.finishFlush (event.stamp 0) with
        | .ok flushed =>
            flushed.strategy.addsInFront
              (flushed.tableFor flushed.active (event.stamp 1)) key
            && match flushed.install (event.stamp 1) with
              | .ok installed =>
                  installed.strategy.safeAll event.clock (fun i => event.stamp (i + 2))
              | .error _ => true
        | .error _ => true
    | _ => true

variable {engine next : LsmEngine}

theorem Healthy.flushMemtableAsync (healthy : engine.Healthy) {timestamp : Nat}
    (done : engine.flushMemtableAsync timestamp = .ok next)
    : next.Healthy
      ∧ ∀ key,
          engine.flushesInFront timestamp key = true
          → next.version key = engine.version key := by
  obtain ⟨flushed, finished, rest⟩ := bind_eq_ok.mp done
  obtain rfl := Except.ok.inj rest
  obtain ⟨healthyFlushed, empty, -, versions⟩ := healthy.finishFlush finished
  refine ⟨healthyFlushed.swap, fun key filed => ?_⟩
  rw [version_swap empty, versions key filed]

theorem Healthy.finishWrite (healthy : engine.Healthy) {timestamp : Nat}
    (done : engine.finishWrite timestamp = .ok next)
    : next.Healthy
      ∧ ∀ key,
          (!engine.isFull || engine.flushesInFront timestamp key) = true
          → next.version key = engine.version key := by
  unfold LsmEngine.finishWrite at done
  split at done
  next full =>
    obtain ⟨healthyNext, versions⟩ := healthy.flushMemtableAsync done
    exact ⟨healthyNext, fun key filed => versions key (by simpa [full] using filed)⟩
  next =>
    obtain rfl := Except.ok.inj done
    exact ⟨healthy, fun _ _ => rfl⟩

theorem Healthy.compact (healthy : engine.Healthy) {clock : Nat → UInt64}
    {stamp : Nat → Nat} (done : engine.compact clock stamp = .ok next)
    : ∃ flushed installed strategy,
        engine.finishFlush (stamp 0) = .ok flushed
        ∧ flushed.install (stamp 1) = .ok installed
        ∧ installed.strategy.compactAll clock (fun i => stamp (i + 2)) = .ok strategy
        ∧ flushed.Healthy
        ∧ installed.Healthy
        ∧ next = { installed with strategy } := by
  obtain ⟨flushed, finished, rest⟩ := bind_eq_ok.mp done
  obtain ⟨installed, installs, rest⟩ := bind_eq_ok.mp rest
  obtain ⟨strategy, compacted, rest⟩ := bind_eq_ok.mp rest
  have healthyFlushed := (healthy.finishFlush finished).1
  exact ⟨flushed, installed, strategy, finished, installs, compacted, healthyFlushed,
    (healthyFlushed.install installs).1, (Except.ok.inj rest).symm⟩

/-- A `ttl` writes what it found, and nothing otherwise. -/
theorem ttl_cases {key : String} {expiryMs : Option UInt64} {clock : Nat → UInt64}
    {stamp : Nat → Nat} {outcome : TtlOutcome}
    (done : engine.ttl key expiryMs clock stamp = .ok (outcome, next))
    : engine.find key (clock 0) (clock 1) = .ok none
        ∧ outcome = .notFound
        ∧ next = engine
      ∨ ∃ value,
          engine.find key (clock 0) (clock 1) = .ok (some value)
          ∧ outcome ≠ .notFound
          ∧ (engine.write key (some value) expiryMs).finishWrite (stamp 0) = .ok next := by
  obtain ⟨found, searched, rest⟩ := bind_eq_ok.mp done
  cases found with
  | none =>
      obtain ⟨rfl, rfl⟩ := Prod.mk.inj (Except.ok.inj rest)
      exact .inl ⟨searched, rfl, rfl⟩
  | some value =>
      obtain ⟨written, flushed, rest⟩ := bind_eq_ok.mp rest
      obtain ⟨rfl, rfl⟩ := Prod.mk.inj (Except.ok.inj rest)
      refine .inr ⟨value, searched, ?_, flushed⟩
      split <;> simp

/-- Whatever version a healthy engine has of a key can be flushed again. -/
theorem Healthy.storable (healthy : engine.Healthy) {key : String} {entry : MemtableEntry}
    (found : engine.version key = some entry)
    : Storable key entry := by
  unfold version at found
  cases active : engine.active.entry key with
  | some first =>
      simp only [active, Option.some_or, Option.some.injEq] at found
      exact healthy.active key entry (found ▸ active)
  | none =>
      rw [active, Option.none_or] at found
      cases slot : engine.immutable.bind (fun memtable => memtable.entry key) with
      | some first =>
          simp only [slot, Option.some_or, Option.some.injEq] at found
          obtain ⟨memtable, filled, held⟩ := Option.bind_eq_some_iff.mp slot
          exact healthy.immutable memtable filled key entry (found ▸ held)
      | none =>
          rw [slot, Option.none_or, StorageStrategy.version,
            versionIn_eq_earliest] at found
          obtain ⟨record, first, rfl⟩ := Option.map_eq_some_iff.mp found
          obtain ⟨member, rfl⟩ := earliest_some Record.key first
          exact storable_entry (valid_flatMap_records healthy.sound.valid record member)

/-- A value that a lookup returns is the one in the key's version. -/
theorem Healthy.version_of_find (healthy : engine.Healthy) {key value : String}
    {nowMs tableMs : UInt64} (found : engine.find key nowMs tableMs = .ok (some value))
    : ∃ readMs, readAt (engine.version key) readMs = some value := by
  obtain ⟨readMs, -, search⟩ := find_eq healthy.sound.valid key nowMs tableMs
  exact ⟨readMs, Except.ok.inj (search.symm.trans found)⟩

theorem value_of_readAt {version : Option MemtableEntry} {nowMs : UInt64} {value : String}
    (found : readAt version nowMs = some value)
    : ∃ expiryMs, version = some { value := some value, expiryMs } := by
  obtain ⟨⟨held, expiryMs⟩, rfl, read⟩ := Option.bind_eq_some_iff.mp found
  refine ⟨expiryMs, ?_⟩
  cases held with
  | none => simp [MemtableEntry.read] at read
  | some held =>
      cases expiryMs with
      | none =>
          simp only [MemtableEntry.read, Option.some.injEq] at read
          rw [read]
      | some ms =>
          simp only [MemtableEntry.read] at read
          split at read
          · cases read
          · rw [Option.some.inj read]

theorem Healthy.fits_of_find (healthy : engine.Healthy) {key value : String}
    {nowMs tableMs : UInt64} (found : engine.find key nowMs tableMs = .ok (some value))
    : Record.Fits key value := by
  obtain ⟨readMs, read⟩ := healthy.version_of_find found
  obtain ⟨expiryMs, version⟩ := value_of_readAt read
  exact (healthy.storable version).fits

/-- Giving the value found a new expiry rewrites the last write. -/
theorem Healthy.retime_apply_of_find (healthy : engine.Healthy) {written : Writes}
    {since : UInt64} {key other value : String}
    (stands : StandsFor since (engine.version other) (written other))
    {nowMs tableMs : UInt64} (found : engine.find key nowMs tableMs = .ok (some value))
    (expiryMs : Option UInt64)
    : written.retime key expiryMs other
      = written.write key (some value) expiryMs other := by
  by_cases same : key = other
  · subst same
    obtain ⟨readMs, read⟩ := healthy.version_of_find found
    obtain ⟨held, version⟩ := value_of_readAt read
    simp [Writes.retime, ← stands.eq_of_read read, version]
  · cases last : written key <;> simp [Writes.retime, last, Writes.write_apply, same]

/-- A write followed by the flush it may trigger. -/
theorem Healthy.writeThrough (healthy : engine.Healthy) {key : String}
    (value : Option String) (fits : Record.Fits key (value.getD ""))
    {expiryMs : Option UInt64} {timestamp : Nat}
    (done : (engine.write key value expiryMs).finishWrite timestamp = .ok next)
    : next.Healthy
      ∧ ∀ other written since,
          StandsFor since (engine.version other) (written other)
          → (!(engine.write key value expiryMs).isFull
              || engine.flushesInFront timestamp other)
            = true
          → StandsFor since (next.version other)
              (Writes.write written key value expiryMs other) := by
  obtain ⟨healthyNext, versions⟩ := (healthy.write fits expiryMs).finishWrite done
  refine ⟨healthyNext, fun other written since stands front => ?_⟩
  rw [versions other front]
  exact standsFor_write stands key value expiryMs

/-- What a call does: it keeps the engine healthy, and if it keeps newer versions in front
the engine stands for the last writes afterwards. Witness: one case for each call, from the
lemmas about its sections.
-/
theorem Healthy.handle (healthy : engine.Healthy) {event : Event} {reply : Reply}
    (fits : event.call.fits = true) (done : engine.handle event = .ok (reply, next))
    : next.Healthy
      ∧ ∀ key written since,
          StandsFor since (engine.version key) (written key)
          → event.Timely since
          → engine.keeps event key = true
          → StandsFor event.finishMs (next.version key)
              (Writes.after written event.call reply key) := by
  obtain ⟨call, clock, stamp, finishMs⟩ := event
  cases call with
  | set written value =>
      obtain ⟨_, wrote, rest⟩ := bind_eq_ok.mp done
      obtain ⟨rfl, rfl⟩ := Prod.mk.inj (Except.ok.inj rest)
      obtain ⟨healthyNext, through⟩ := healthy.writeThrough (some value)
        (by simpa [Call.fits] using fits) wrote
      refine ⟨healthyNext, fun key last since stands timely front => ?_⟩
      simp only [keeps, flushes, Bool.and_true] at front
      exact (through key last since stands front).mono timely.within
  | setWithTtl written value expiryMs =>
      obtain ⟨_, wrote, rest⟩ := bind_eq_ok.mp done
      obtain ⟨rfl, rfl⟩ := Prod.mk.inj (Except.ok.inj rest)
      obtain ⟨healthyNext, through⟩ := healthy.writeThrough (some value)
        (by simpa [Call.fits] using fits) wrote
      refine ⟨healthyNext, fun key last since stands timely front => ?_⟩
      simp only [keeps, flushes, Bool.and_true] at front
      exact (through key last since stands front).mono timely.within
  | delete written =>
      obtain ⟨⟨_, _⟩, deleted, rest⟩ := bind_eq_ok.mp done
      obtain ⟨rfl, rfl⟩ := Prod.mk.inj (Except.ok.inj rest)
      obtain ⟨found, -, deleted⟩ := bind_eq_ok.mp deleted
      obtain ⟨_, wrote, rest⟩ := bind_eq_ok.mp deleted
      obtain ⟨-, rfl⟩ := Prod.mk.inj (Except.ok.inj rest)
      obtain ⟨healthyNext, through⟩ := healthy.writeThrough none
        ⟨by simpa [Call.fits] using fits, by simp [maxValueSize]⟩ wrote
      refine ⟨healthyNext, fun key last since stands timely front => ?_⟩
      simp only [keeps, flushes, Bool.and_true] at front
      exact (through key last since stands front).mono timely.within
  | ttl written expiryMs =>
      obtain ⟨⟨outcome, _⟩, answered, rest⟩ := bind_eq_ok.mp done
      obtain ⟨rfl, rfl⟩ := Prod.mk.inj (Except.ok.inj rest)
      rcases ttl_cases answered with ⟨-, rfl, rfl⟩ | ⟨value, found, wrote, through⟩
      · refine ⟨healthy, fun key last since stands timely _ => ?_⟩
        simpa [Writes.after] using stands.mono timely.within
      · obtain ⟨healthyNext, through⟩ := healthy.writeThrough (some value)
          (healthy.fits_of_find found) through
        refine ⟨healthyNext, fun key last since stands timely front => ?_⟩
        simp only [keeps, flushes, found, Bool.and_true] at front
        simp only [Writes.after, Reply.ttl.injEq, if_neg wrote]
        rw [healthy.retime_apply_of_find stands found]
        exact (through key last since stands front).mono timely.within
  | get written =>
      obtain ⟨_, -, rest⟩ := bind_eq_ok.mp done
      obtain ⟨rfl, rfl⟩ := Prod.mk.inj (Except.ok.inj rest)
      exact ⟨healthy, fun key last since stands timely _ => stands.mono timely.within⟩
  | flush =>
      obtain ⟨_, flushed, rest⟩ := bind_eq_ok.mp done
      obtain ⟨rfl, rfl⟩ := Prod.mk.inj (Except.ok.inj rest)
      obtain ⟨healthyNext, versions⟩ := healthy.flushMemtableAsync flushed
      refine ⟨healthyNext, fun key last since stands timely front => ?_⟩
      simp only [keeps, flushes, Bool.not_true, Bool.false_or, Bool.and_true] at front
      rw [versions key front]
      exact stands.mono timely.within
  | background =>
      obtain ⟨_, flushed, rest⟩ := bind_eq_ok.mp done
      obtain ⟨rfl, rfl⟩ := Prod.mk.inj (Except.ok.inj rest)
      obtain ⟨healthyNext, -, -, versions⟩ := healthy.finishFlush flushed
      refine ⟨healthyNext, fun key last since stands timely front => ?_⟩
      simp only [keeps, flushes, Bool.not_true, Bool.false_or, Bool.and_true] at front
      rw [versions key front]
      exact stands.mono timely.within
  | compactStep =>
      obtain ⟨⟨ran, _⟩, stepped, rest⟩ := bind_eq_ok.mp done
      obtain ⟨rfl, rfl⟩ := Prod.mk.inj (Except.ok.inj rest)
      obtain ⟨⟨ran, strategy⟩, compacted, rest⟩ := bind_eq_ok.mp stepped
      obtain ⟨rfl, rfl⟩ := Prod.mk.inj (Except.ok.inj rest)
      refine ⟨⟨healthy.sound.compactIfNeeded compacted, healthy.active,
        healthy.immutable⟩, fun key last since stands timely safe => ?_⟩
      refine standsFor_strategy (stands.mono timely.within) ?_
      have sound := healthy.sound
      simp only [keeps, flushes, Bool.not_false, Bool.true_or, Bool.true_and] at safe
      cases kind : engine.strategy with
      | sizeTiered strategy => simp [kind] at safe
      | leveled strategy =>
          simp only [kind] at safe sound compacted
          obtain ⟨⟨_, _⟩, merged, rest⟩ := bind_eq_ok.mp compacted
          obtain ⟨rfl, rfl⟩ := Prod.mk.inj (Except.ok.inj rest)
          exact (Leveled.Sound.compactIfNeeded_standsFor sound safe merged key).mono
            (timely.ends 0)
  | compact =>
      obtain ⟨_, compacted, rest⟩ := bind_eq_ok.mp done
      obtain ⟨rfl, rfl⟩ := Prod.mk.inj (Except.ok.inj rest)
      obtain ⟨flushed, installed, strategy, finished, installs, merged, healthyFlushed,
        healthyInstalled, rfl⟩ := healthy.compact compacted
      obtain ⟨-, empty, -, flushedVersions⟩ := healthy.finishFlush finished
      obtain ⟨-, -, installedVersions⟩ := healthyFlushed.install installs
      obtain ⟨sound, compactedVersions⟩ := healthyInstalled.sound.compactAll merged
      refine ⟨⟨sound, healthyInstalled.active, healthyInstalled.immutable⟩,
        fun key last since stands timely safe => ?_⟩
      simp only [keeps, flushes, finished, installs, Bool.not_true, Bool.false_or,
        Bool.and_eq_true] at safe
      obtain ⟨flushFront, installFront, drops⟩ := safe
      have same : installed.version key = engine.version key := by
        rw [installedVersions key installFront, ← flushedVersions key flushFront, version,
          empty]
        rfl
      refine standsFor_strategy ?_ (compactedVersions finishMs drops timely.ends key)
      rw [same]
      exact stands.mono timely.within

end LsmEngine

/-- Every state a run of fitting calls reaches is healthy, and stands for the last write of
every key that its calls keep in front. Witness: induction over the run.
-/
theorem Runs.standsFor {permitted : LsmEngine → Event → Bool} {start engine : LsmEngine}
    {written : Writes} {since : UInt64} (healthy : start.Healthy)
    (empty : ∀ key, start.version key = none)
    (fits : ∀ engine event, permitted engine event = true → event.call.fits = true)
    (reached : Runs permitted start engine written since)
    : engine.Healthy
      ∧ ∀ key,
          (∀ engine event,
            LsmEngine.Healthy engine
            → permitted engine event = true
            → engine.keeps event key = true)
          → StandsFor since (engine.version key) (written key) := by
  induction reached with
  | start =>
      refine ⟨healthy, fun key _ => ?_⟩
      rw [empty key]
      exact .refl
  | step reached timely allowed done ih =>
      obtain ⟨healthyNow, stands⟩ := ih
      obtain ⟨healthyNext, through⟩ := healthyNow.handle (fits _ _ allowed) done
      exact ⟨healthyNext, fun key keeps =>
        through key _ _ (stands key keeps) timely (keeps _ _ healthyNow allowed)⟩

end Rustikv.Lsm

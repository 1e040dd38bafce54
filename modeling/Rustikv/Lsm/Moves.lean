import Rustikv.Lsm.System

/-! The ways one step of the concurrent engine can go. -/

namespace Rustikv.Lsm

open Library

namespace System

/-- Each way with what the step finds and what it changes: the system, the last writes and
the time of the last merge.
-/
inductive Moves (system : System) (written : Writes) (since : UInt64)
    : Action → System → Writes → UInt64 → Prop
  | invoked {thread : Nat} {call : Call} {nowMs : UInt64} {task : Task}
      (begins : call.begin nowMs = some task)
    : Moves system written since (.invoke thread call nowMs) (system.setTask thread task)
        written since
  | answered {thread : Nat} {clock : Nat → UInt64} {stamp : Nat → Nat} {finishMs : UInt64}
      (result : Except IoError Reply)
    : Moves system written since (.advance thread clock stamp finishMs)
        (system.setTask thread (.returned result)) written since
  | checked {thread : Nat} {clock : Nat → UInt64} {stamp : Nat → Nat} {finishMs : UInt64}
      {key : String} {nowMs : UInt64} (found : Bool)
      (was : system.threads[thread]? = some (.delete key nowMs))
    : Moves system written since (.advance thread clock stamp finishMs)
        (system.setTask thread (.write key none none (.deleted found))) written since
  | wrote {thread : Nat} {clock : Nat → UInt64} {stamp : Nat → Nat} {finishMs : UInt64}
      {key : String} {value : Option String} {expiryMs : Option UInt64} {reply : Reply}
      (was : system.threads[thread]? = some (.write key value expiryMs reply))
    : Moves system written since (.advance thread clock stamp finishMs)
        ({ system with engine := system.engine.write key value expiryMs }.setTask thread
          (afterWrite (system.engine.write key value expiryMs) reply))
        (written.write key value expiryMs) since
  | retimed {thread : Nat} {clock : Nat → UInt64} {stamp : Nat → Nat} {finishMs : UInt64}
      {key value : String} {expiryMs : Option UInt64} {nowMs : UInt64} (reply : Reply)
      (was : system.threads[thread]? = some (.ttl key expiryMs nowMs))
      (found : system.engine.find key nowMs (clock 0) = .ok (some value))
    : Moves system written since (.advance thread clock stamp finishMs)
        ({ system with engine := system.engine.write key (some value) expiryMs }.setTask
          thread (afterWrite (system.engine.write key (some value) expiryMs) reply))
        (written.retime key expiryMs) since
  | joined {thread : Nat} {clock : Nat → UInt64} {stamp : Nat → Nat} {finishMs : UInt64}
      (can : system.canJoin = true)
    : Moves system written since (.advance thread clock stamp finishMs)
        { system with flushLock := some (thread, .joined), handle := false } written since
  | swapped {thread : Nat} {clock : Nat → UInt64} {stamp : Nat → Nat} {finishMs : UInt64}
      (holds : system.flushLock = some (thread, .joined))
    : Moves system written since (.advance thread clock stamp finishMs)
        {
          system with
          engine := system.engine.swap
          flushLock := some (thread, .swapped)
        }
        written since
  | spawned {thread : Nat} {clock : Nat → UInt64} {stamp : Nat → Nat} {finishMs : UInt64}
      (reply : Reply) (holds : system.flushLock = some (thread, .swapped))
    : Moves system written since (.advance thread clock stamp finishMs)
        ({
          system with
          flushLock := none
          handle := true
          flusher := .spawned
        }.setTask thread (.returned (.ok reply)))
        written since
  | released {thread : Nat} {clock : Nat → UInt64} {stamp : Nat → Nat} {finishMs : UInt64}
      (was : system.threads[thread]? = some .compact)
      (can : system.canJoin = true)
    : Moves system written since (.advance thread clock stamp finishMs)
        ({ system with handle := false }.setTask thread .install) written since
  | installed {thread : Nat} {clock : Nat → UInt64} {stamp : Nat → Nat} {finishMs : UInt64}
      {engine : LsmEngine}
      (was : system.threads[thread]? = some .install)
      (free : system.immutableFree = true)
      (installs : system.engine.install (stamp 0) = .ok engine)
      (apart : system.namesApart engine.strategy = true)
    : Moves system written since (.advance thread clock stamp finishMs)
        ({ system with engine, merging := some thread }.setTask thread .merge) written since
  | merged {thread : Nat} {clock : Nat → UInt64} {stamp : Nat → Nat} {finishMs : UInt64}
      {strategy : StorageStrategy}
      (was : system.threads[thread]? = some .merge)
      (compacts : system.engine.strategy.compactAll clock stamp = .ok strategy)
      (apart : system.namesApart strategy = true)
    : Moves system written since (.advance thread clock stamp finishMs)
        ({
          system with
          engine := { system.engine with strategy }
          merging := none
        }.setTask thread (.returned (.ok .done)))
        written finishMs
  | stepped {thread : Nat} {clock : Nat → UInt64} {stamp : Nat → Nat} {finishMs : UInt64}
      {ran : Bool} {strategy : StorageStrategy}
      (was : system.threads[thread]? = some .compactStep)
      (compacts : system.engine.strategy.compactIfNeeded (clock 0) (stamp 0)
        = .ok (ran, strategy))
      (apart : system.namesApart strategy = true)
    : Moves system written since (.advance thread clock stamp finishMs)
        ({
          system with
          engine := { system.engine with strategy }
        }.setTask thread (.returned (.ok (.stepped ran))))
        written finishMs
  | created {timestamp : Nat} {memtable : Memtable} {sst : SSTable}
      (state : system.flusher = .spawned)
      (slot : system.engine.immutable = some memtable)
      (creates : system.engine.flushTable memtable timestamp = .ok sst)
    : Moves system written since (.background timestamp)
        { system with flusher := .writing sst 0 } written since
  | refused {timestamp : Nat} {memtable : Memtable} {error : IoError}
      (state : system.flusher = .spawned)
      (slot : system.engine.immutable = some memtable)
      (fails : system.engine.flushTable memtable timestamp = .error error)
    : Moves system written since (.background timestamp)
        { system with flusher := .failed } written since
  | skipped {timestamp : Nat}
      (state : system.flusher = .spawned)
      (slot : system.engine.immutable = none)
    : Moves system written since (.background timestamp)
        { system with flusher := .clearing } written since
  | wroteBlock {timestamp : Nat} {sst : SSTable} {count : Nat}
      (state : system.flusher = .writing sst count)
      (more : count < sst.blocks.length)
    : Moves system written since (.background timestamp)
        { system with flusher := .writing sst (count + 1) } written since
  | finished {timestamp : Nat} {sst : SSTable} {count : Nat}
      (state : system.flusher = .writing sst count)
      (all : sst.blocks.length ≤ count)
    : Moves system written since (.background timestamp)
        { system with flusher := .built sst } written since
  | added {timestamp : Nat} {sst : SSTable} {strategy : StorageStrategy}
      (state : system.flusher = .built sst)
      (adds : system.engine.strategy.addSstable sst = .ok strategy)
    : Moves system written since (.background timestamp)
        {
          system with
          engine := { system.engine with strategy }
          flusher := .clearing
        }
        written since
  | poisoned {timestamp : Nat} {sst : SSTable} {error : IoError}
      (state : system.flusher = .built sst)
      (fails : system.engine.strategy.addSstable sst = .error error)
    : Moves system written since (.background timestamp)
        { system with flusher := .poisoned } written since
  | cleared {timestamp : Nat}
      (state : system.flusher = .clearing)
    : Moves system written since (.background timestamp)
        {
          system with
          engine := { system.engine with immutable := none }
          flusher := .idle
        }
        written since

variable {system next : System} {written : Writes} {since : UInt64}

/-- The flush thread's steps. -/
theorem Moves.of_background {timestamp : Nat}
    (taken : system.background timestamp = some next)
    : Moves system written since (.background timestamp) next written since := by
  unfold System.background at taken
  split at taken
  next state =>
    split at taken
    next memtable slot =>
      split at taken
      next sst creates =>
        obtain rfl := Option.some.inj taken
        exact .created state slot creates
      next error fails =>
        obtain rfl := Option.some.inj taken
        exact .refused state slot fails
    next slot =>
      obtain rfl := Option.some.inj taken
      exact .skipped state slot
  next sst count state =>
    split at taken
    next more =>
      obtain rfl := Option.some.inj taken
      exact .wroteBlock state more
    next all =>
      obtain rfl := Option.some.inj taken
      exact .finished state (Nat.le_of_not_lt all)
  next sst state =>
    split at taken
    next =>
      split at taken
      next strategy adds =>
        obtain rfl := Option.some.inj taken
        exact .added state adds
      next error fails =>
        obtain rfl := Option.some.inj taken
        exact .poisoned state fails
    next => cases taken
  next state =>
    obtain rfl := Option.some.inj taken
    exact .cleared state
  next => cases taken

/-- The sections of the calls that read or write, and of `flush_memtable_async`. -/
theorem Moves.of_flushSection {thread : Nat} {clock : Nat → UInt64} {stamp : Nat → Nat}
    {finishMs : UInt64} {reply : Reply}
    (taken : system.flushSection thread reply = some next)
    : Moves system written since (.advance thread clock stamp finishMs) next written since
    := by
  unfold flushSection at taken
  split at taken
  next =>
    split at taken
    next can =>
      obtain rfl := Option.some.inj taken
      exact .joined can
    next => cases taken
  next holder holds =>
    split at taken
    next both =>
      obtain rfl := Option.some.inj taken
      exact .swapped (both.1 ▸ holds)
    next => cases taken
  next holder holds =>
    split at taken
    next same =>
      obtain rfl := Option.some.inj taken
      exact .spawned reply (same ▸ holds)
    next => cases taken

theorem Moves.of_ttlSection {thread : Nat} {clock : Nat → UInt64} {stamp : Nat → Nat}
    {finishMs nowMs : UInt64} {key : String} {expiryMs : Option UInt64}
    (was : system.threads[thread]? = some (.ttl key expiryMs nowMs))
    (taken : system.ttlSection thread key expiryMs nowMs (clock 0) = some next)
    : Moves system written since (.advance thread clock stamp finishMs) next
        (written.afterStep system (.advance thread clock stamp finishMs)) since := by
  simp only [Writes.afterStep, was]
  unfold ttlSection at taken
  split at taken
  next =>
    cases search : system.engine.find key nowMs (clock 0) with
    | error error =>
        simp only [search] at taken ⊢
        obtain rfl := Option.some.inj taken
        exact .answered _
    | ok found =>
        cases found with
        | none =>
            simp only [search] at taken ⊢
            obtain rfl := Option.some.inj taken
            exact .answered _
        | some value =>
            simp only [search] at taken ⊢
            obtain rfl := Option.some.inj taken
            exact .retimed _ was search
  next => cases taken

/-- The sections of `compact` and `compact_step`. -/
theorem Moves.of_installSection {thread : Nat} {clock : Nat → UInt64} {stamp : Nat → Nat}
    {finishMs : UInt64} (was : system.threads[thread]? = some .install)
    (taken : system.installSection thread (stamp 0) = some next)
    : Moves system written since (.advance thread clock stamp finishMs) next written since
    := by
  unfold installSection at taken
  split at taken
  next free =>
    split at taken
    next engine installs =>
      split at taken
      next apart =>
        obtain rfl := Option.some.inj taken
        exact .installed was (Bool.and_eq_true_iff.mp free).2 installs apart
      next => cases taken
    next => cases taken
  next => cases taken

theorem Moves.of_mergeSection {thread : Nat} {clock : Nat → UInt64} {stamp : Nat → Nat}
    {finishMs : UInt64} (was : system.threads[thread]? = some .merge)
    (taken : system.mergeSection thread clock stamp = some next)
    : Moves system written since (.advance thread clock stamp finishMs) next written finishMs
    := by
  unfold mergeSection at taken
  split at taken
  next =>
    split at taken
    next strategy compacts =>
      split at taken
      next apart =>
        obtain rfl := Option.some.inj taken
        exact .merged was compacts apart
      next => cases taken
    next => cases taken
  next => cases taken

theorem Moves.of_compactStepSection {thread : Nat} {clock : Nat → UInt64}
    {stamp : Nat → Nat} {finishMs : UInt64}
    (was : system.threads[thread]? = some .compactStep)
    (taken : system.compactStepSection thread (clock 0) (stamp 0) = some next)
    : Moves system written since (.advance thread clock stamp finishMs) next written finishMs
    := by
  unfold compactStepSection at taken
  split at taken
  next =>
    split at taken
    next ran strategy compacts =>
      split at taken
      next apart =>
        obtain rfl := Option.some.inj taken
        exact .stepped was compacts apart
      next => cases taken
    next => cases taken
  next => cases taken

/-- A step goes in one of these ways. -/
theorem Moves.of_step (written : Writes) (since : UInt64) {action : Action} (taken : system.step action = some next)
    : Moves system written since action next (written.afterStep system action)
        (system.mergedBy since action) := by
  cases action with
  | invoke thread call nowMs =>
      simp only [step] at taken
      split at taken
      next =>
        obtain ⟨task, begins, rfl⟩ := Option.map_eq_some_iff.mp taken
        exact .invoked begins
      next => cases taken
  | background timestamp => exact .of_background taken
  | advance thread clock stamp finishMs =>
      obtain ⟨task, was, taken⟩ := Option.bind_eq_some_iff.mp taken
      cases task with
      | get key nowMs =>
          simp only [Writes.afterStep, mergedBy, merges, was]
          simp only [advance, getSection] at taken
          split at taken
          next => split at taken <;> (obtain rfl := Option.some.inj taken; exact .answered _)
          next => cases taken
      | delete key nowMs =>
          simp only [Writes.afterStep, mergedBy, merges, was]
          simp only [advance, deleteSection] at taken
          split at taken
          next =>
            split at taken
            next found _ =>
              obtain rfl := Option.some.inj taken
              exact .checked _ was
            next =>
              obtain rfl := Option.some.inj taken
              exact .answered _
          next => cases taken
      | write key value expiryMs reply =>
          simp only [Writes.afterStep, mergedBy, merges, was]
          obtain rfl := Option.some.inj taken
          exact .wrote was
      | ttl key expiryMs nowMs =>
          have merged : system.mergedBy since (.advance thread clock stamp finishMs) = since := by
            simp [mergedBy, merges, was]
          rw [merged]
          exact .of_ttlSection was taken
      | flush reply =>
          simp only [Writes.afterStep, mergedBy, merges, was]
          exact .of_flushSection taken
      | compact =>
          simp only [Writes.afterStep, mergedBy, merges, was]
          simp only [advance, joinSection] at taken
          split at taken
          next can =>
            obtain rfl := Option.some.inj taken
            exact .released was can
          next => cases taken
      | install =>
          simp only [Writes.afterStep, mergedBy, merges, was]
          exact .of_installSection was taken
      | merge =>
          simp only [Writes.afterStep, mergedBy, merges, was]
          exact .of_mergeSection was taken
      | compactStep =>
          simp only [Writes.afterStep, mergedBy, merges, was]
          exact .of_compactStepSection was taken
      | returned result => cases taken

end System

end Rustikv.Lsm

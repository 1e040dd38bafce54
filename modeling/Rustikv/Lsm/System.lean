import Rustikv.Lsm.Runs

/-! The LSM engine shared by several threads, with the background thread of a flush. A step
is one lock section, and inside the flush thread one file operation.
-/

namespace Rustikv.Lsm

open Library

-----------------------------------------------------------------------------------------
-- Threads
-----------------------------------------------------------------------------------------

/-- The next lock section of a call, with the clock reading taken before it. -/
inductive Task
  | get (key : String) (nowMs : UInt64)
  | delete (key : String) (nowMs : UInt64)
  | write (key : String) (value : Option String) (expiryMs : Option UInt64) (reply : Reply)
  | ttl (key : String) (expiryMs : Option UInt64) (nowMs : UInt64)
  | flush (reply : Reply)
  | compact
  | install
  | merge
  | compactStep
  | returned (result : Except IoError Reply)
  deriving DecidableEq

/-- The first section of a call. Flushes are started by the engine itself. -/
def Call.begin (nowMs : UInt64) : Call → Option Task
  | .set key value => some (.write key (some value) none .done)
  | .setWithTtl key value expiryMs => some (.write key (some value) expiryMs .done)
  | .delete key => some (.delete key nowMs)
  | .ttl key expiryMs => some (.ttl key expiryMs nowMs)
  | .get key => some (.get key nowMs)
  | .compactStep => some .compactStep
  | .compact => some .compact
  | .flush => none
  | .background => none

/-- How far the holder of `flush_handle` is in `flush_memtable_async`. -/
inductive FlushStage
  | joined
  | swapped
  deriving DecidableEq

/-- The thread of the last flush. While it writes its file it holds the read lock of the
immutable memtable. It panics if its file cannot be created, and if its table cannot be
added, which poisons the lock of the strategy.
-/
inductive Flusher
  | idle
  | spawned
  | writing (sst : SSTable) (count : Nat)
  | built (sst : SSTable)
  | clearing
  | failed
  | poisoned

def Flusher.isIdle : Flusher → Bool
  | .idle => true
  | _ => false

/-- The table whose file exists, in part or whole, before the strategy knows it. -/
def Flusher.table : Flusher → Option SSTable
  | .writing sst _ => some sst
  | .built sst => some sst
  | _ => none

/-- `merging` is the thread whose `compact` still holds the lock of the strategy. -/
structure System where
  engine : LsmEngine
  threads : SortedMap Nat Task
  flushLock : Option (Nat × FlushStage)
  handle : Bool
  flusher : Flusher
  merging : Option Nat

/-- A call begins, a thread executes its next section with the clock readings it makes
there, ending at `finishMs`, or the flush thread does its next step.
-/
inductive Action
  | invoke (thread : Nat) (call : Call) (nowMs : UInt64)
  | advance (thread : Nat) (clock : Nat → UInt64) (stamp : Nat → Nat) (finishMs : UInt64)
  | background (timestamp : Nat)

namespace System

def start (engine : LsmEngine) : System :=
  {
    engine
    threads := ∅
    flushLock := none
    handle := false
    flusher := .idle
    merging := none
  }

def setTask (system : System) (thread : Nat) (task : Task) : System :=
  { system with threads := system.threads.insert thread task }

/-- The thread is not inside a call. -/
def isFree (system : System) (thread : Nat) : Bool :=
  match system.threads[thread]? with
  | none => true
  | some (.returned _) => true
  | some _ => false

/-- All calls have returned and the flush thread has ended. -/
def quiescent (system : System) : Bool :=
  system.threads.keys.all system.isFree
  && system.flushLock.isNone
  && system.flusher.isIdle
  && system.merging.isNone

/-- No thread holds the lock of the strategy, and none has panicked with it. -/
def strategyFree (system : System) : Bool :=
  system.merging.isNone && !(system.flusher matches .poisoned)

/-- The flush thread does not hold the immutable memtable. -/
def immutableFree (system : System) : Bool :=
  !(system.flusher matches .writing _ _)

/-- A thread that takes `flush_handle` now need not wait for the flush thread. -/
def canJoin (system : System) : Bool :=
  system.flushLock.isNone && (!system.handle || system.flusher.isIdle)

/-- No table of the strategy has taken the name of the file that the flush thread created.
-/
def namesApart (system : System) (strategy : StorageStrategy) : Bool :=
  system.flusher.table.all (fun sst => sst.path ∉ strategy.paths)

-----------------------------------------------------------------------------------------
-- Sections
-----------------------------------------------------------------------------------------

/-- The end of a writing call, or the flush that it triggers. -/
def afterWrite (engine : LsmEngine) (reply : Reply) : Task :=
  if engine.isFull then .flush reply else .returned (.ok reply)

def getSection (system : System) (thread : Nat) (key : String) (nowMs tableMs : UInt64)
    : Option System :=
  if system.strategyFree then
    match system.engine.find key nowMs tableMs with
    | .ok found =>
        let pair := found.map (fun value => (key, value))
        some (system.setTask thread (.returned (.ok (.value pair))))
    | .error error => some (system.setTask thread (.returned (.error error)))
  else
    none

/-- The `get` that `delete` makes first. -/
def deleteSection (system : System) (thread : Nat) (key : String) (nowMs tableMs : UInt64)
    : Option System :=
  if system.strategyFree then
    match system.engine.find key nowMs tableMs with
    | .ok found =>
        some (system.setTask thread (.write key none none (.deleted found.isSome)))
    | .error error => some (system.setTask thread (.returned (.error error)))
  else
    none

def writeSection (system : System) (thread : Nat) (key : String) (value : Option String)
    (expiryMs : Option UInt64) (reply : Reply)
    : Option System :=
  let engine := system.engine.write key value expiryMs
  some ({ system with engine }.setTask thread (afterWrite engine reply))

def ttlSection (system : System) (thread : Nat) (key : String) (expiryMs : Option UInt64)
    (nowMs tableMs : UInt64)
    : Option System :=
  if system.strategyFree then
    match system.engine.find key nowMs tableMs with
    | .ok (some value) =>
        system.writeSection thread key (some value) expiryMs
          (.ttl (if expiryMs.isSome then .set else .persisted))
    | .ok none => some (system.setTask thread (.returned (.ok (.ttl .notFound))))
    | .error error => some (system.setTask thread (.returned (.error error)))
  else
    none

/-- The three parts of `flush_memtable_async`, made under `flush_handle`: the previous flush
is joined, the memtables are swapped, the flush thread is spawned.
-/
def flushSection (system : System) (thread : Nat) (reply : Reply) : Option System :=
  match system.flushLock with
  | none =>
      if system.canJoin then
        some { system with flushLock := some (thread, .joined), handle := false }
      else
        none
  | some (holder, .joined) =>
      if holder = thread ∧ system.immutableFree then
        some {
          system with
          engine := system.engine.swap
          flushLock := some (thread, .swapped)
        }
      else
        none
  | some (holder, .swapped) =>
      if holder = thread then
        some ({
          system with
          flushLock := none
          handle := true
          flusher := .spawned
        }.setTask thread (.returned (.ok reply)))
      else
        none

/-- `compact` gives `flush_handle` back before it takes any other lock. -/
def joinSection (system : System) (thread : Nat) : Option System :=
  if system.canJoin then some ({ system with handle := false }.setTask thread .install)
  else none

/-- Of the locks taken here `compact` keeps the strategy's for its merges. A file operation
that fails ends the run.
-/
def installSection (system : System) (thread : Nat) (timestamp : Nat) : Option System :=
  if system.strategyFree && system.immutableFree then
    match system.engine.install timestamp with
    | .ok engine =>
        if system.namesApart engine.strategy then
          some ({ system with engine, merging := some thread }.setTask thread .merge)
        else
          none
    | .error _ => none
  else
    none

def mergeSection (system : System) (thread : Nat) (clock : Nat → UInt64)
    (stamp : Nat → Nat)
    : Option System :=
  if system.merging = some thread then
    match system.engine.strategy.compactAll clock stamp with
    | .ok strategy =>
        if system.namesApart strategy then
          some ({
            system with
            engine := { system.engine with strategy }
            merging := none
          }.setTask thread (.returned (.ok .done)))
        else
          none
    | .error _ => none
  else
    none

def compactStepSection (system : System) (thread : Nat) (nowMs : UInt64) (timestamp : Nat)
    : Option System :=
  if system.strategyFree then
    match system.engine.strategy.compactIfNeeded nowMs timestamp with
    | .ok (ran, strategy) =>
        if system.namesApart strategy then
          some ({
            system with
            engine := { system.engine with strategy }
          }.setTask thread (.returned (.ok (.stepped ran))))
        else
          none
    | .error _ => none
  else
    none

def advance (system : System) (thread : Nat) (clock : Nat → UInt64) (stamp : Nat → Nat)
    : Task → Option System
  | .get key nowMs => system.getSection thread key nowMs (clock 0)
  | .delete key nowMs => system.deleteSection thread key nowMs (clock 0)
  | .write key value expiryMs reply => system.writeSection thread key value expiryMs reply
  | .ttl key expiryMs nowMs => system.ttlSection thread key expiryMs nowMs (clock 0)
  | .flush reply => system.flushSection thread reply
  | .compact => system.joinSection thread
  | .install => system.installSection thread (stamp 0)
  | .merge => system.mergeSection thread clock stamp
  | .compactStep => system.compactStepSection thread (clock 0) (stamp 0)
  | .returned _ => none

/-- The flush thread: it creates its file, writes one block after the other, adds the table
and clears the immutable slot. It has nothing to write if the slot is empty.
-/
def background (system : System) (timestamp : Nat) : Option System :=
  match system.flusher with
  | .spawned =>
      match system.engine.immutable with
      | some memtable =>
          match system.engine.flushTable memtable timestamp with
          | .ok sst => some { system with flusher := .writing sst 0 }
          | .error _ => some { system with flusher := .failed }
      | none => some { system with flusher := .clearing }
  | .writing sst count =>
      if count < sst.blocks.length then
        some { system with flusher := .writing sst (count + 1) }
      else
        some { system with flusher := .built sst }
  | .built sst =>
      if system.merging.isNone then
        match system.engine.strategy.addSstable sst with
        | .ok strategy =>
            some {
              system with
              engine := { system.engine with strategy }
              flusher := .clearing
            }
        | .error _ => some { system with flusher := .poisoned }
      else
        none
  | .clearing =>
      some {
        system with
        engine := { system.engine with immutable := none }
        flusher := .idle
      }
  | _ => none

def step (system : System) : Action → Option System
  | .invoke thread call nowMs =>
      if system.isFree thread then (call.begin nowMs).map (system.setTask thread) else none
  | .advance thread clock stamp _ =>
      system.threads[thread]?.bind (system.advance thread clock stamp)
  | .background timestamp => system.background timestamp

end System

-----------------------------------------------------------------------------------------
-- Interleavings
-----------------------------------------------------------------------------------------

/-- The last write of each key after one more step. -/
def Writes.afterStep (written : Writes) (system : System) : Action → Writes
  | .advance thread clock _ _ =>
      match system.threads[thread]? with
      | some (.write key value expiryMs _) => written.write key value expiryMs
      | some (.ttl key expiryMs nowMs) =>
          match system.engine.find key nowMs (clock 0) with
          | .ok (some _) => written.retime key expiryMs
          | _ => written
      | _ => written
  | _ => written

/-- The step merges tables, by the clock readings it makes. -/
def System.merges (system : System) : Action → Bool
  | .advance thread _ _ _ =>
      match system.threads[thread]? with
      | some .merge => true
      | some .compactStep => true
      | _ => false
  | _ => false

/-- The time by which the last merge was over, after one more step. -/
def System.mergedBy (system : System) (since : UInt64) : Action → UInt64
  | .advance thread clock stamp finishMs =>
      if system.merges (.advance thread clock stamp finishMs) then finishMs else since
  | _ => since

/-- A section reads the clock before it ends, and after every merge that came before it has
ended.
-/
def Action.Timely (since : UInt64) : Action → Prop
  | .advance _ clock _ finishMs => since ≤ finishMs ∧ ∀ i, clock i ≤ finishMs
  | _ => True

/-- The systems that `permitted` steps lead to, in any order, with the last write of each
key and the time of the last merge.
-/
inductive Interleaves (permitted : System → Action → Bool) (engine : LsmEngine)
    : System → Writes → UInt64 → Prop
  | start : Interleaves permitted engine (System.start engine) Writes.none 0
  | step {system next : System} {written : Writes} {since : UInt64} {action : Action}
      (reached : Interleaves permitted engine system written since)
      (timely : action.Timely since)
      (allowed : permitted system action = true)
      (taken : system.step action = some next)
    : Interleaves permitted engine next (written.afterStep system action)
        (system.mergedBy since action)

/-- Takes one permitted step after the other. -/
def interleave (permitted : System → Action → Bool)
    : List Action → System → Writes → Option (System × Writes)
  | [], system, written => some (system, written)
  | action :: rest, system, written =>
      if permitted system action then
        (system.step action).bind
          (fun next => interleave permitted rest next (written.afterStep system action))
      else
        none

/-- All clock readings of the step are the same. -/
def Action.At (nowMs : UInt64) : Action → Prop
  | .advance _ clock _ finishMs => finishMs = nowMs ∧ ∀ i, clock i = nowMs
  | _ => True

/-- Steps taken at one moment make an interleaving. -/
theorem Interleaves.interleave {permitted : System → Action → Bool} {engine : LsmEngine}
    {system next : System} {written last : Writes} {since : UInt64}
    {actions : List Action} (reached : Interleaves permitted engine system written since)
    (nowMs : UInt64) (starts : since ≤ nowMs) (moment : ∀ action ∈ actions, action.At nowMs)
    (ran : Lsm.interleave permitted actions system written = some (next, last))
    : ∃ until_, Interleaves permitted engine next last until_ ∧ until_ ≤ nowMs := by
  induction actions generalizing system written since with
  | nil =>
      obtain ⟨rfl, rfl⟩ := Prod.mk.inj (Option.some.inj ran)
      exact ⟨since, reached, starts⟩
  | cons action rest ih =>
      unfold Lsm.interleave at ran
      split at ran
      next allowed =>
        obtain ⟨middle, taken, ran⟩ := Option.bind_eq_some_iff.mp ran
        have now := moment action (by simp)
        have timely : action.Timely since := by
          cases action with
          | advance thread clock stamp finishMs =>
              obtain ⟨rfl, same⟩ := now
              exact ⟨starts, fun i => same i ▸ UInt64.le_rfl⟩
          | invoke thread call nowMs => trivial
          | background timestamp => trivial
        refine ih (reached.step timely allowed taken) ?_
          (fun other member => moment other (List.mem_cons_of_mem _ member)) ran
        cases action with
        | advance thread clock stamp finishMs =>
            obtain ⟨rfl, -⟩ := now
            rw [System.mergedBy]
            split
            · exact UInt64.le_rfl
            · exact starts
        | invoke thread call nowMs => exact starts
        | background timestamp => exact starts
      next => cases ran

end Rustikv.Lsm

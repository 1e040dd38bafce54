import Rustikv.Library.GuardedRun
import Rustikv.Lsm.Durability
import Rustikv.Lsm.Scans

/-! A range scan among the steps of other threads. `range` reads the tables, the immutable
memtable and the active one in three lock sections, while a flush moves entries the other
way.
-/

namespace Rustikv.Lsm

open Library

-----------------------------------------------------------------------------------------
-- The three sections
-----------------------------------------------------------------------------------------

namespace LsmEngine

/-- The section under the lock of the strategy. -/
def rangeTables (engine : LsmEngine) (start end_ : String) (nowMs : UInt64)
    : Except IoError (SortedMap String String) :=
  scanTables id nowMs (fun key => start ≤ key && key ≤ end_)
    (engine.strategy.iterFilesForRange start end_) ∅

def rangeImmutable (engine : LsmEngine) (start end_ : String) (nowMs : UInt64)
    (found : SortedMap String String)
    : SortedMap String String :=
  match engine.immutable with
  | some memtable =>
      scanMemtable id nowMs (fun key => start ≤ key && key ≤ end_) memtable found
  | none => found

def rangeActive (engine : LsmEngine) (start end_ : String) (nowMs : UInt64)
    (found : SortedMap String String)
    : SortedMap String String :=
  scanMemtable id nowMs (fun key => start ≤ key && key ≤ end_) engine.active found

/-- A range whose sections meet the engine in three states. -/
def rangeAcross (tables immutable active : LsmEngine) (start end_ : String)
    (nowMs : UInt64)
    : Except IoError (List (String × String)) :=
  if end_ < start then
    .ok []
  else do
    let found ← tables.rangeTables start end_ nowMs
    let found := immutable.rangeImmutable start end_ nowMs found
    return (active.rangeActive start end_ nowMs found).toList

/-- While no other thread takes a step the three sections are a range. -/
theorem range_eq_rangeAcross (engine : LsmEngine) (start end_ : String) (nowMs : UInt64)
    : engine.range start end_ nowMs = rangeAcross engine engine engine start end_ nowMs := by
  unfold range rangeAcross rangeTables scan
  split
  · rfl
  · simp only [bind_assoc, pure_bind]
    rfl

variable {key start end_ : String} {nowMs : UInt64}

/-- The first section finds the last table in the list that holds a key. -/
theorem Healthy.rangeTables_reads {engine : LsmEngine} (healthy : engine.Healthy)
    (low : start ≤ key) (high : key ≤ end_) (nowMs : UInt64)
    : ∃ found,
        engine.rangeTables start end_ nowMs = .ok found
        ∧ found[key]? = readAt (versionIn engine.strategy.iterAll.reverse key) nowMs := by
  have valid : ∀ table ∈ engine.strategy.iterFilesForRange start end_, table.Valid :=
    fun table member => healthy.sound.valid table (List.mem_of_mem_filter member)
  obtain ⟨found, scans, reads⟩ :=
    scanTables_reads id nowMs (fun key => start ≤ key && key ≤ end_) valid
  refine ⟨found, scans, ?_⟩
  rw [reads, if_pos (by simp [low, high]), Option.map_id, id,
    StorageStrategy.iterFilesForRange, ← List.filter_reverse,
    versionIn_filter_overlaps
      (fun table member => healthy.sound.valid table (List.mem_reverse.mp member)) low high]

/-- A section over a memtable puts its entries over what the sections before have passed. -/
theorem scanMemtable_reads {memtable : Memtable} {found : SortedMap String String}
    {passed : Option MemtableEntry} (low : start ≤ key) (high : key ≤ end_)
    (before : found[key]? = readAt passed nowMs)
    : (scanMemtable id nowMs (fun key => start ≤ key && key ≤ end_) memtable found)[key]?
      = readAt ((memtable.entry key).or passed) nowMs := by
  rw [getElem?_scanMemtable, if_pos (by simp [low, high]), before]
  cases memtable.entry key with
  | none => rfl
  | some entry => simp [readAt]

end LsmEngine

-----------------------------------------------------------------------------------------
-- Steps of other threads
-----------------------------------------------------------------------------------------

/-- The key that the next section of a call may write. -/
def Task.target : Task → Option String
  | .write key _ _ _ => some key
  | .ttl key _ _ => some key
  | _ => none

namespace System

/-- A step of a background flush, or of a call that neither compacts nor writes this key. -/
def leaves (key : String) (system : System) : Action → Bool
  | .invoke _ call _ => !call.compacts && call.fits
  | .advance thread _ _ _ =>
      system.threads[thread]?.all (fun task => !task.compacts && task.target ≠ some key)
  | .background _ => true

/-- The step swaps the memtables. -/
def swaps (system : System) : Action → Bool
  | .advance thread _ _ _ =>
      match system.threads[thread]? with
      | some (.flush _) => system.flushLock = some (thread, .joined)
      | _ => false
  | _ => false

/-- The step clears the immutable slot. -/
def clears (system : System) : Action → Bool
  | .background _ => (system.flusher matches .clearing)
  | _ => false

/-- What such a step does to the engine. -/
inductive Leaves (key : String) (system : System) (action : Action) : LsmEngine → Prop
  | same (stays : system.swaps action = false) (full : system.clears action = false)
    : Leaves key system action system.engine
  | wrote {other : String} {value : Option String} {expiryMs : Option UInt64}
      (differs : other ≠ key) (stays : system.swaps action = false)
      (full : system.clears action = false)
    : Leaves key system action (system.engine.write other value expiryMs)
  | swapped (swaps : system.swaps action = true) (full : system.clears action = false)
      (empty : system.engine.immutable = none)
    : Leaves key system action system.engine.swap
  | added {timestamp : Nat} {strategy : StorageStrategy} (is : action = .background timestamp)
      (stays : system.swaps action = false) (full : system.clears action = false)
    : Leaves key system action { system.engine with strategy }
  | cleared {timestamp : Nat} (is : action = .background timestamp)
      (stays : system.swaps action = false) (clears : system.clears action = true)
    : Leaves key system action { system.engine with immutable := none }

variable {key : String} {system next : System} {action : Action}

theorem Leaves.of_background {timestamp : Nat}
    (taken : system.background timestamp = some next)
    : Leaves key system (.background timestamp) next.engine := by
  have moves : Moves system Writes.none 0 (.background timestamp) next Writes.none 0 :=
    Moves.of_background taken
  cases moves with
  | created state slot creates => exact .same rfl (by simp [clears, state])
  | refused state slot fails => exact .same rfl (by simp [clears, state])
  | skipped state slot => exact .same rfl (by simp [clears, state])
  | wroteBlock state more => exact .same rfl (by simp [clears, state])
  | finished state all => exact .same rfl (by simp [clears, state])
  | added state adds => exact .added rfl rfl (by simp [clears, state])
  | poisoned state fails => exact .same rfl (by simp [clears, state])
  | cleared state => exact .cleared rfl rfl (by simp [clears, state])

theorem Leaves.of_flushSection {thread : Nat} {clock : Nat → UInt64} {stamp : Nat → Nat}
    {finishMs : UInt64} {reply : Reply} (formed : system.Formed)
    (was : system.threads[thread]? = some (.flush reply))
    (taken : system.flushSection thread reply = some next)
    : Leaves key system (.advance thread clock stamp finishMs) next.engine := by
  unfold flushSection at taken
  split at taken
  next free =>
    split at taken
    next =>
      obtain rfl := Option.some.inj taken
      exact .same (by simp [swaps, was, free]) rfl
    next => cases taken
  next holder holds =>
    split at taken
    next both =>
      obtain rfl := Option.some.inj taken
      obtain rfl := both.1
      have empty := formed.emptied (formed.idle_of_locked holds) (by simp [holds])
      exact .swapped (by simp [swaps, was, holds]) rfl empty
    next => cases taken
  next holder holds =>
    split at taken
    next =>
      obtain rfl := Option.some.inj taken
      exact .same (by simp [swaps, was, holds]) rfl
    next => cases taken

/-- The step of a call goes through one of its sections. -/
theorem Leaves.of_advance {thread : Nat} {clock : Nat → UInt64} {stamp : Nat → Nat}
    {finishMs : UInt64} {task : Task} (formed : system.Formed)
    (was : system.threads[thread]? = some task) (plain : task.compacts = false)
    (elsewhere : task.target ≠ some key)
    (taken : system.advance thread clock stamp task = some next)
    : Leaves key system (.advance thread clock stamp finishMs) next.engine := by
  have same (stays : system.swaps (.advance thread clock stamp finishMs) = false)
      (unchanged : next.engine = system.engine)
      : Leaves key system (.advance thread clock stamp finishMs) next.engine := by
    rw [unchanged]
    exact .same stays rfl
  cases task with
  | get target nowMs =>
      refine same (by simp [swaps, was]) ?_
      simp only [advance, getSection] at taken
      split at taken
      next => split at taken <;> (obtain rfl := Option.some.inj taken; rfl)
      next => cases taken
  | delete target nowMs =>
      refine same (by simp [swaps, was]) ?_
      simp only [advance, deleteSection] at taken
      split at taken
      next => split at taken <;> (obtain rfl := Option.some.inj taken; rfl)
      next => cases taken
  | write target value expiryMs reply =>
      obtain rfl := Option.some.inj taken
      exact .wrote (by simpa [Task.target] using elsewhere) (by simp [swaps, was]) rfl
  | ttl target expiryMs nowMs =>
      have stays : system.swaps (.advance thread clock stamp finishMs) = false := by
        simp [swaps, was]
      simp only [advance, ttlSection] at taken
      split at taken
      next =>
        split at taken
        next value found =>
          obtain rfl := Option.some.inj taken
          have moved : Leaves key system (.advance thread clock stamp finishMs)
              (system.engine.write target (some value) expiryMs) :=
            .wrote (by simpa [Task.target] using elsewhere) stays rfl
          exact moved
        next =>
          obtain rfl := Option.some.inj taken
          exact .same stays rfl
        next =>
          obtain rfl := Option.some.inj taken
          exact .same stays rfl
      next => cases taken
  | flush reply => exact .of_flushSection formed was taken
  | compact => cases plain
  | install => cases plain
  | merge => cases plain
  | compactStep => cases plain
  | returned result => cases taken

/-- A step that leaves the key alone goes in one of these ways. -/
theorem Leaves.of_step (formed : system.Formed) (allowed : system.leaves key action = true)
    (taken : system.step action = some next)
    : Leaves key system action next.engine := by
  cases action with
  | invoke thread call nowMs =>
      simp only [step] at taken
      split at taken
      next =>
        obtain ⟨task, begins, rfl⟩ := Option.map_eq_some_iff.mp taken
        exact .same rfl rfl
      next => cases taken
  | background timestamp => exact .of_background taken
  | advance thread clock stamp finishMs =>
      obtain ⟨task, was, taken⟩ := Option.bind_eq_some_iff.mp taken
      simp only [leaves, was, Option.all_some, Bool.and_eq_true, Bool.not_eq_true',
        decide_eq_true_eq] at allowed
      exact .of_advance formed was allowed.1 allowed.2 taken

theorem Formed.leaves (formed : system.Formed) (allowed : system.leaves key action = true)
    (taken : system.step action = some next)
    : next.Formed := by
  have fits : action.fits = true := by
    cases action with
    | invoke thread call nowMs =>
        simp only [System.leaves, Bool.and_eq_true] at allowed
        exact allowed.2
    | advance thread clock stamp finishMs => rfl
    | background timestamp => rfl
  exact formed.moves fits (Moves.of_step Writes.none 0 taken)

-----------------------------------------------------------------------------------------
-- One key
-----------------------------------------------------------------------------------------

theorem entry_write_ne (engine : LsmEngine) {other : String} (value : Option String)
    (expiryMs : Option UInt64) (differs : other ≠ key)
    : (engine.write other value expiryMs).active.entry key = engine.active.entry key := by
  cases value <;> simp [LsmEngine.write, applyWrite, differs]

/-- A swap moves the active entry of the key to the empty slot, a clear empties the slot, and
the other steps leave both entries.
-/
theorem Leaves.entries (moves : Leaves key system action next.engine)
    : next.engine.active.entry key
        = (if system.swaps action then none else system.engine.active.entry key)
      ∧ next.slotEntry key
        = (if system.swaps action then system.engine.active.entry key
          else if system.clears action then none
          else system.slotEntry key)
      ∧ (system.swaps action = true → system.slotEntry key = none) := by
  unfold slotEntry
  generalize next.engine = engine at moves ⊢
  cases moves with
  | same stays full => simp [stays, full]
  | wrote differs stays full =>
      rw [entry_write_ne _ _ _ differs]
      simp [stays, full, LsmEngine.write]
  | swapped swaps full empty => simp [swaps, empty, LsmEngine.swap]
  | added is stays full => simp [stays, full]
  | cleared is stays clears => simp [stays, clears]

/-- The step clears the slot only if the key is in the active memtable, or reads the same
without the slot.
-/
def clearsBehind (key : String) (nowMs : UInt64) (passed : Option MemtableEntry)
    (system : System) (action : Action)
    : Bool :=
  !system.clears action
  || (system.engine.active.entry key).isSome
  || readAt ((system.slotEntry key).or passed) nowMs = readAt passed nowMs

/-- The step swaps the memtables only if the key reads the same without the active one. -/
def swapsBehind (key : String) (nowMs : UInt64) (passed : Option MemtableEntry)
    (system : System) (action : Action)
    : Bool :=
  !system.swaps action
  || readAt ((system.engine.active.entry key).or passed) nowMs = readAt passed nowMs

/-- The two memtables' entry of the key. -/
def pendingEntry (key : String) (system : System) : Option MemtableEntry :=
  (system.engine.active.entry key).or (system.slotEntry key)

def activeEntry (key : String) (system : System) : Option MemtableEntry :=
  system.engine.active.entry key

/-- What the scan has still to read, over what it has passed, shows the value. -/
structure Ahead (pending : System → Option MemtableEntry) (passed : Option MemtableEntry)
    (nowMs : UInt64) (value : String) (system : System)
    : Prop where
  formed : system.Formed
  reads : readAt ((pending system).or passed) nowMs = some value

/-- There is nothing left to read of the key, and what the scan has passed does not show the
value.
-/
structure Missed (pending : System → Option MemtableEntry) (passed : Option MemtableEntry)
    (nowMs : UInt64) (value : String) (system : System)
    : Prop where
  formed : system.Formed
  absent : pending system = none
  unread : readAt passed nowMs ≠ some value

section Passed

variable {pending : System → Option MemtableEntry} {nowMs : UInt64}
  {passed : Option MemtableEntry} {value : String} {last : System} {actions : List Action}

theorem clears_of_swaps (swaps : system.swaps action = true)
    : system.clears action = false := by
  cases action with
  | background timestamp => cases swaps
  | _ => rfl

/-- Between the first two sections only a clear of the slot takes entries past the scan. -/
theorem pendingEntry_moves (formed : system.Formed)
    (allowed : system.leaves key action = true) (taken : system.step action = some next)
    : next.pendingEntry key
      = if system.clears action then system.activeEntry key else system.pendingEntry key := by
  obtain ⟨active, slot, empty⟩ := (Leaves.of_step formed allowed taken).entries
  unfold pendingEntry activeEntry
  rw [active, slot]
  cases swaps : system.swaps action with
  | true => simp [clears_of_swaps swaps, empty swaps]
  | false => cases system.clears action <;> simp

/-- Between the last two sections only a swap does. -/
theorem activeEntry_moves (formed : system.Formed)
    (allowed : system.leaves key action = true) (taken : system.step action = some next)
    : next.activeEntry key
      = if system.swaps action then none else system.activeEntry key :=
  (Leaves.of_step formed allowed taken).entries.1

theorem Ahead.step_tables (ahead : Ahead (pendingEntry key) passed nowMs value system)
    (allowed : system.leaves key action = true) (taken : system.step action = some next)
    : if clearsBehind key nowMs passed system action then
        Ahead (pendingEntry key) passed nowMs value next
      else Missed (pendingEntry key) passed nowMs value next := by
  have formed := ahead.formed.leaves allowed taken
  have moved := pendingEntry_moves ahead.formed allowed taken
  have reads := ahead.reads
  unfold clearsBehind
  cases clears : system.clears action with
  | false =>
      rw [clears, if_neg Bool.false_ne_true] at moved
      exact ⟨formed, moved ▸ reads⟩
  | true =>
      rw [clears, if_pos rfl] at moved
      unfold pendingEntry at reads
      unfold activeEntry at moved
      cases active : system.engine.active.entry key with
      | some entry =>
          rw [active] at moved reads
          exact ⟨formed, by rw [moved]; exact reads⟩
      | none =>
          rw [active] at moved
          rw [active, Option.none_or] at reads
          simp only [Bool.not_true, Option.isSome_none, Bool.false_or, decide_eq_true_eq]
          split
          next same => exact ⟨formed, by rw [moved, Option.none_or, ← same]; exact reads⟩
          next differs => exact ⟨formed, moved, fun unread => differs (reads.trans unread.symm)⟩

theorem Missed.step_tables (missed : Missed (pendingEntry key) passed nowMs value system)
    (allowed : system.leaves key action = true) (taken : system.step action = some next)
    : Missed (pendingEntry key) passed nowMs value next := by
  refine ⟨missed.formed.leaves allowed taken, ?_, missed.unread⟩
  have absent := Option.or_eq_none_iff.mp missed.absent
  rw [pendingEntry_moves missed.formed allowed taken]
  split
  · exact absent.1
  · exact missed.absent

theorem Ahead.step_immutable (ahead : Ahead (activeEntry key) passed nowMs value system)
    (allowed : system.leaves key action = true) (taken : system.step action = some next)
    : if swapsBehind key nowMs passed system action then
        Ahead (activeEntry key) passed nowMs value next
      else Missed (activeEntry key) passed nowMs value next := by
  have formed := ahead.formed.leaves allowed taken
  have moved := activeEntry_moves ahead.formed allowed taken
  have reads := ahead.reads
  unfold swapsBehind
  cases swaps : system.swaps action with
  | false =>
      rw [swaps, if_neg Bool.false_ne_true] at moved
      exact ⟨formed, moved ▸ reads⟩
  | true =>
      rw [swaps, if_pos rfl] at moved
      unfold activeEntry at reads
      simp only [Bool.not_true, Bool.false_or, decide_eq_true_eq]
      split
      next same => exact ⟨formed, by rw [moved, Option.none_or, ← same]; exact reads⟩
      next differs => exact ⟨formed, moved, fun unread => differs (reads.trans unread.symm)⟩

theorem Missed.step_immutable (missed : Missed (activeEntry key) passed nowMs value system)
    (allowed : system.leaves key action = true) (taken : system.step action = some next)
    : Missed (activeEntry key) passed nowMs value next := by
  refine ⟨missed.formed.leaves allowed taken, ?_, missed.unread⟩
  rw [activeEntry_moves missed.formed allowed taken]
  split
  · rfl
  · exact missed.absent

/-- From the first section to the second, the value stays ahead of the scan as long as every
clear of the slot is behind it.
-/
theorem Ahead.tables (ahead : Ahead (pendingEntry key) passed nowMs value system)
    (ran : steps System.step (System.leaves key) actions system = some last)
    : if along System.step (clearsBehind key nowMs passed) actions system then
        Ahead (pendingEntry key) passed nowMs value last
      else Missed (pendingEntry key) passed nowMs value last :=
  steps_intact_or_lost ahead
    (fun _ _ _ allowed taken ahead => ahead.step_tables allowed taken)
    (fun _ _ _ allowed taken missed => missed.step_tables allowed taken) ran

theorem Missed.tables (missed : Missed (pendingEntry key) passed nowMs value system)
    (ran : steps System.step (System.leaves key) actions system = some last)
    : Missed (pendingEntry key) passed nowMs value last :=
  steps_keeps missed (fun _ _ _ allowed taken missed => missed.step_tables allowed taken) ran

/-- From the second section to the last, as long as every swap is. -/
theorem Ahead.immutable (ahead : Ahead (activeEntry key) passed nowMs value system)
    (ran : steps System.step (System.leaves key) actions system = some last)
    : if along System.step (swapsBehind key nowMs passed) actions system then
        Ahead (activeEntry key) passed nowMs value last
      else Missed (activeEntry key) passed nowMs value last :=
  steps_intact_or_lost ahead
    (fun _ _ _ allowed taken ahead => ahead.step_immutable allowed taken)
    (fun _ _ _ allowed taken missed => missed.step_immutable allowed taken) ran

theorem Missed.immutable (missed : Missed (activeEntry key) passed nowMs value system)
    (ran : steps System.step (System.leaves key) actions system = some last)
    : Missed (activeEntry key) passed nowMs value last :=
  steps_keeps missed (fun _ _ _ allowed taken missed => missed.step_immutable allowed taken)
    ran

/-- The second section passes the entry of the slot. -/
theorem Ahead.pass_slot (ahead : Ahead (pendingEntry key) passed nowMs value system)
    : Ahead (activeEntry key) ((system.slotEntry key).or passed) nowMs value system where
  formed := ahead.formed
  reads := by
    rw [activeEntry, ← Option.or_assoc]
    exact ahead.reads

theorem Missed.pass_slot (missed : Missed (pendingEntry key) passed nowMs value system)
    : Missed (activeEntry key) ((system.slotEntry key).or passed) nowMs value system := by
  obtain ⟨active, slot⟩ := Option.or_eq_none_iff.mp missed.absent
  exact ⟨missed.formed, active, by rw [slot, Option.none_or]; exact missed.unread⟩

end Passed

-----------------------------------------------------------------------------------------
-- Before the first section
-----------------------------------------------------------------------------------------

/-- A step of the flush thread leaves what a point read of the key returns. -/
def flushKeeps (key : String) (nowMs : UInt64) (system : System) : Action → Bool
  | .background timestamp =>
      (system.background timestamp).all
        (fun next =>
          readAt (next.engine.version key) nowMs = readAt (system.engine.version key) nowMs)
  | _ => true

/-- It does if it keeps the newest version of the key in front. -/
theorem InFront.flushKeeps {written : Writes} {since nowMs : UInt64} {timestamp : Nat}
    (front : system.InFront written since key) (formed : system.Formed)
    (merged : since ≤ nowMs)
    (keeps : system.keepsInFront key (.background timestamp) = true)
    : system.flushKeeps key nowMs (.background timestamp) = true := by
  simp only [System.flushKeeps]
  cases ran : system.background timestamp with
  | none => rfl
  | some next =>
      have timely : (Action.background timestamp).Timely since := trivial
      have later : next.InFront written since key :=
        front.moves formed timely keeps (.of_background ran)
      rw [Option.all_some, decide_eq_true_eq, later.stands.read merged,
        front.stands.read merged]

/-- A point read of the key returns the value. -/
structure Live (key : String) (nowMs : UInt64) (value : String) (system : System) : Prop where
  formed : system.Formed
  reads : readAt (system.engine.version key) nowMs = some value

/-- The steps of other calls leave it too. -/
theorem Live.step {nowMs : UInt64} {value : String} (live : Live key nowMs value system)
    (allowed : system.leaves key action = true)
    (keeps : system.flushKeeps key nowMs action = true)
    (taken : system.step action = some next)
    : Live key nowMs value next := by
  have moves := Leaves.of_step live.formed allowed taken
  refine ⟨live.formed.leaves allowed taken, ?_⟩
  rw [← live.reads]
  cases action with
  | background timestamp =>
      have ran : system.background timestamp = some next := taken
      simpa [flushKeeps, ran] using keeps
  | _ =>
      generalize next.engine = engine at moves ⊢
      cases moves with
      | same => rfl
      | wrote differs => rw [LsmEngine.version_write, if_neg differs]
      | swapped _ _ empty => rw [LsmEngine.version_swap empty]
      | added is => cases is
      | cleared is => cases is

end System

-----------------------------------------------------------------------------------------
-- A call among other steps
-----------------------------------------------------------------------------------------

/-- A `range` call: the systems that it begins in and that its three sections meet, with the
steps in between. They leave one key alone.
-/
structure RangeRun (key : String) where
  begun : System
  toTables : List Action
  atTables : System
  toImmutable : List Action
  atImmutable : System
  toActive : List Action
  atActive : System
  reachesTables : steps System.step (System.leaves key) toTables begun = some atTables
  strategyFree : atTables.strategyFree = true
  reachesImmutable
    : steps System.step (System.leaves key) toImmutable atTables = some atImmutable
  reachesActive : steps System.step (System.leaves key) toActive atImmutable = some atActive

namespace RangeRun

variable {key : String}

def result (run : RangeRun key) (start end_ : String) (nowMs : UInt64)
    : Except IoError (List (String × String)) :=
  LsmEngine.rangeAcross run.atTables.engine run.atImmutable.engine run.atActive.engine
    start end_ nowMs

/-- What the first section passes of the key: the last table in the list that holds it. -/
def passedTable (run : RangeRun key) : Option MemtableEntry :=
  versionIn run.atTables.engine.strategy.iterAll.reverse key

/-- What the first two sections pass of the key. -/
def passedSlot (run : RangeRun key) : Option MemtableEntry :=
  (run.atImmutable.slotEntry key).or run.passedTable

/-- The key stays ahead of the scan. At the first section the table listed last reads as the
one listed first, unless a memtable holds the key; then the slot is cleared, and the
memtables are swapped, only behind the scan.
-/
structure StaysAhead (run : RangeRun key) (nowMs : UInt64) : Prop where
  listed
    : run.atTables.engine.active.entry key = none
      → run.atTables.slotEntry key = none
      → readAt run.passedTable nowMs
        = readAt (run.atTables.engine.strategy.version key) nowMs
  cleared
    : along System.step (System.clearsBehind key nowMs run.passedTable) run.toImmutable
        run.atTables
      = true
  swapped
    : along System.step (System.swapsBehind key nowMs run.passedSlot) run.toActive
        run.atImmutable
      = true

variable {run : RangeRun key} {nowMs : UInt64} {value : String}

theorem result_eq (formed : run.atTables.Formed) {start end_ : String} (low : start ≤ key)
    (high : key ≤ end_) (nowMs : UInt64)
    : ∃ pairs,
        run.result start end_ nowMs = .ok pairs
        ∧ ∀ value,
            (key, value) ∈ pairs
            ↔ readAt ((run.atActive.activeEntry key).or run.passedSlot) nowMs
              = some value := by
  obtain ⟨found, scans, tables⟩ := formed.healthy.rangeTables_reads low high nowMs
  have immutable : (run.atImmutable.engine.rangeImmutable start end_ nowMs found)[key]?
      = readAt run.passedSlot nowMs := by
    unfold LsmEngine.rangeImmutable passedSlot System.slotEntry
    cases run.atImmutable.engine.immutable with
    | none => exact tables
    | some memtable => exact LsmEngine.scanMemtable_reads low high tables
  have active : (run.atActive.engine.rangeActive start end_ nowMs
        (run.atImmutable.engine.rangeImmutable start end_ nowMs found))[key]?
      = readAt ((run.atActive.activeEntry key).or run.passedSlot) nowMs :=
    LsmEngine.scanMemtable_reads low high immutable
  refine ⟨(run.atActive.engine.rangeActive start end_ nowMs
    (run.atImmutable.engine.rangeImmutable start end_ nowMs found)).toList, ?_,
    fun value => ?_⟩
  · rw [result, LsmEngine.rangeAcross, if_neg (not_lt.mpr (le_trans low high)), scans]
    rfl
  · rw [SortedMap.mem_toList, active]

/-- With no entry in a memtable a point read finds the first table in the list. -/
theorem version_eq_tables (active : run.atTables.engine.active.entry key = none)
    (slot : run.atTables.slotEntry key = none)
    : run.atTables.engine.version key = run.atTables.engine.strategy.version key := by
  change (run.atTables.engine.active.entry key).or ((run.atTables.slotEntry key).or
    (run.atTables.engine.strategy.version key)) = _
  rw [active, slot, Option.none_or, Option.none_or]

/-- A live key is ahead of the scan at the first section unless its tables hide it. -/
theorem ahead_atTables (formed : run.atTables.Formed)
    (live : readAt (run.atTables.engine.version key) nowMs = some value)
    (listed
      : run.atTables.engine.active.entry key = none
        → run.atTables.slotEntry key = none
        → readAt run.passedTable nowMs
          = readAt (run.atTables.engine.strategy.version key) nowMs)
    : System.Ahead (System.pendingEntry key) run.passedTable nowMs value run.atTables := by
  refine ⟨formed, ?_⟩
  change readAt ((run.atTables.engine.active.entry key).or ((run.atTables.slotEntry key).or
    (run.atTables.engine.strategy.version key))) nowMs = some value at live
  unfold System.pendingEntry
  cases active : run.atTables.engine.active.entry key with
  | some entry => simpa [active] using live
  | none =>
      cases slot : run.atTables.slotEntry key with
      | some entry => simpa [active, slot] using live
      | none =>
          rw [active, slot, Option.none_or, Option.none_or] at live
          exact (listed active slot).trans live

/-- From the second section on, with what it has passed. -/
theorem sections_after_immutable
    (ahead
      : System.Ahead (System.pendingEntry key) run.passedTable nowMs value run.atImmutable)
    : if along System.step (System.swapsBehind key nowMs run.passedSlot) run.toActive
          run.atImmutable then
        System.Ahead (System.activeEntry key) run.passedSlot nowMs value run.atActive
      else System.Missed (System.activeEntry key) run.passedSlot nowMs value run.atActive :=
  ahead.pass_slot.immutable run.reachesActive

/-- The three sections find the value exactly if it stays ahead of the scan. -/
theorem staysAhead_iff (formed : run.atTables.Formed)
    (live : readAt (run.atTables.engine.version key) nowMs = some value)
    : readAt ((run.atActive.activeEntry key).or run.passedSlot) nowMs = some value
      ↔ run.StaysAhead nowMs := by
  constructor
  · intro reads
    have found : ¬ System.Missed (System.activeEntry key) run.passedSlot nowMs value
        run.atActive := by
      intro missed
      rw [missed.absent, Option.none_or] at reads
      exact missed.unread reads
    have slotFound : ¬ System.Missed (System.pendingEntry key) run.passedTable nowMs value
        run.atImmutable :=
      fun missed => found (missed.pass_slot.immutable run.reachesActive)
    have tableFound : ¬ System.Missed (System.pendingEntry key) run.passedTable nowMs value
        run.atTables :=
      fun missed => slotFound (missed.tables run.reachesImmutable)
    have listed (active : run.atTables.engine.active.entry key = none)
        (slot : run.atTables.slotEntry key = none)
        : readAt run.passedTable nowMs
          = readAt (run.atTables.engine.strategy.version key) nowMs := by
      rw [version_eq_tables active slot] at live
      by_contra differs
      rw [live] at differs
      exact tableFound ⟨formed, by simp [System.pendingEntry, active, slot], differs⟩
    have tables := (ahead_atTables formed live listed).tables run.reachesImmutable
    split at tables
    next cleared =>
      have swaps := sections_after_immutable tables
      split at swaps
      next swapped => exact ⟨listed, cleared, swapped⟩
      next => exact absurd swaps found
    next => exact absurd tables slotFound
  · intro stays
    have tables := (ahead_atTables formed live stays.listed).tables run.reachesImmutable
    rw [if_pos stays.cleared] at tables
    have swaps := sections_after_immutable tables
    rw [if_pos stays.swapped] at swaps
    exact swaps.reads

end RangeRun

/-- A range call in any state that calls which fit lead to, among steps of a background flush
and of calls that write other keys. A key of the range is live, and until the first section
the flush thread does not change what a point read of it returns: then the key is in the
result with its value exactly if it stays ahead of the scan.
-/
theorem range_finds_live_key_iff {strategy : StorageStrategy} (new : strategy.New)
    (maxMemtableBytes : Nat) (settings : BlockSettings) {key : String} (run : RangeRun key)
    {written : Writes} {since : UInt64}
    (reached
      : Interleaves (fun _ action => action.fits)
          (LsmEngine.new maxMemtableBytes strategy settings) run.begun written since)
    {start end_ value : String} {nowMs : UInt64} (low : start ≤ key) (high : key ≤ end_)
    (live : run.begun.engine.get key (fun _ => nowMs) = .ok (some (key, value)))
    (kept : along System.step (System.flushKeeps key nowMs) run.toTables run.begun = true)
    : (∃ pairs, run.result start end_ nowMs = .ok pairs ∧ (key, value) ∈ pairs)
      ↔ run.StaysAhead nowMs := by
  have begun := reached.formed (LsmEngine.healthy_new new.sound maxMemtableBytes settings)
    rfl (fun _ _ allowed => allowed)
  have started : System.Live key nowMs value run.begun :=
    ⟨begun, begun.healthy.get_eq_some.mp live⟩
  obtain ⟨formed, live⟩ := steps_keeps_along started
    (fun _ _ _ allowed keeps taken live => live.step allowed keeps taken) run.reachesTables
    kept
  obtain ⟨pairs, ranged, members⟩ := RangeRun.result_eq formed low high nowMs
  rw [← RangeRun.staysAhead_iff formed live, ← members value]
  constructor
  · rintro ⟨others, again, member⟩
    obtain rfl := Except.ok.inj (ranged.symm.trans again)
    exact member
  · exact fun member => ⟨pairs, ranged, member⟩

/-- A write that triggers a flush, up to the start of the flush thread. -/
def setAndSpawn : List Action :=
  [.invoke 0 (.set "k" "v") 10, turn 0 0, turn 0 0, turn 0 0, turn 0 0]

def flushSteps (count : Nat) : List Action :=
  List.replicate count (.background 1)

/-- Witness: the flush thread creates its file before the first section, finishes it before
the second, and then adds its table and clears the slot.
-/
theorem range_finds_live_key_during_flush
    : ∃ (run : RangeRun "k") (written : Writes) (since : UInt64),
        Interleaves (fun _ action => action.fits)
          (LsmEngine.new 1 (.leveled (Leveled.new 2 4 1000 smallBlocks)) smallBlocks)
          run.begun written since
        ∧ run.atActive.quiescent = true
        ∧ ∃ pairs, run.result "a" "z" 10 = .ok pairs ∧ ("k", "v") ∈ pairs := by
  have computed : (interleave (fun _ action => action.fits) setAndSpawn
      (System.start
        (LsmEngine.new 1 (.leveled (Leveled.new 2 4 1000 smallBlocks)) smallBlocks))
      Writes.none).any
      (fun begun =>
        (begun.1.engine.get "k" (fun _ => 10)).toOption = some (some ("k", "v"))
        && along System.step (System.flushKeeps "k" 10) (flushSteps 1) begun.1
        && (steps System.step (System.leaves "k") (flushSteps 1) begun.1).any
          (fun created =>
            let table := versionIn created.engine.strategy.iterAll.reverse "k"
            created.strategyFree
            && created.slotEntry "k" ≠ none
            && along System.step (System.clearsBehind "k" 10 table) (flushSteps 2) created
            && (steps System.step (System.leaves "k") (flushSteps 2) created).any
              (fun built =>
                along System.step
                  (System.swapsBehind "k" 10 ((built.slotEntry "k").or table)) (flushSteps 2)
                  built
                && (steps System.step (System.leaves "k") (flushSteps 2) built).any
                  System.quiescent))) = true := by
    decide +kernel
  simp only [Option.any_eq_true, toOption_eq_some, Bool.and_eq_true, decide_eq_true_eq]
    at computed
  obtain ⟨⟨begun, written⟩, ran, ⟨live, kept⟩, created, creates, ⟨⟨free, full⟩, cleared⟩,
    built, builds, swapped, last, ends, quiescent⟩ := computed
  obtain ⟨since, reached, -⟩ := Interleaves.start.interleave 10 (by decide)
    (by simp [setAndSpawn, turn, Action.At]) ran
  let run : RangeRun "k" := {
    begun
    toTables := flushSteps 1
    atTables := created
    toImmutable := flushSteps 2
    atImmutable := built
    toActive := flushSteps 2
    atActive := last
    reachesTables := creates
    strategyFree := free
    reachesImmutable := builds
    reachesActive := ends
  }
  have stays : run.StaysAhead 10 := ⟨fun _ slot => absurd slot full, cleared, swapped⟩
  exact ⟨run, written, since, reached, quiescent,
    (range_finds_live_key_iff (.leveled 2 4 1000 smallBlocks) 1 smallBlocks run reached
      (by decide) (by decide) live kept).mpr stays⟩

/-- The flush thread runs from its start to its end between the first two sections. -/
theorem range_misses_flushed_key
    : ∃ (run : RangeRun "k") (written : Writes) (since : UInt64),
        Interleaves (fun _ action => action.fits)
          (LsmEngine.new 1 (.leveled (Leveled.new 2 4 1000 smallBlocks)) smallBlocks)
          run.begun written since
        ∧ run.begun.engine.get "k" (fun _ => 10) = .ok (some ("k", "v"))
        ∧ run.atActive.engine.get "k" (fun _ => 10) = .ok (some ("k", "v"))
        ∧ run.result "a" "z" 10 = .ok [] := by
  have computed : (interleave (fun _ action => action.fits) setAndSpawn
      (System.start
        (LsmEngine.new 1 (.leveled (Leveled.new 2 4 1000 smallBlocks)) smallBlocks))
      Writes.none).any
      (fun begun =>
        begun.1.strategyFree
        && (begun.1.engine.get "k" (fun _ => 10)).toOption = some (some ("k", "v"))
        && (steps System.step (System.leaves "k") (flushSteps 5) begun.1).any
          (fun flushed =>
            (flushed.engine.get "k" (fun _ => 10)).toOption = some (some ("k", "v"))
            && (LsmEngine.rangeAcross begun.1.engine flushed.engine flushed.engine "a" "z"
                10).toOption = some [])) = true := by
    decide +kernel
  simp only [Option.any_eq_true, toOption_eq_some, Bool.and_eq_true, decide_eq_true_eq]
    at computed
  obtain ⟨⟨begun, written⟩, ran, ⟨free, before⟩, flushed, flushes, after, ranged⟩ := computed
  obtain ⟨since, reached, -⟩ := Interleaves.start.interleave 10 (by decide)
    (by simp [setAndSpawn, turn, Action.At]) ran
  exact ⟨
    {
      begun
      toTables := []
      atTables := begun
      toImmutable := flushSteps 5
      atImmutable := flushed
      toActive := []
      atActive := flushed
      reachesTables := rfl
      strategyFree := free
      reachesImmutable := flushes
      reachesActive := rfl
    },
    written, since, reached, before, after, ranged⟩

end Rustikv.Lsm

import Rustikv.Format.MemtableSize
import Rustikv.Lsm.Provenance

/-! Back pressure: a call that fills the memtable returns only when it has swapped it, and it
swaps it only when the flush before has ended. So the memtables stay bounded, however slow the
flush thread is and however the calls overlap.
-/

namespace Rustikv.Lsm

open Library

/-- The most that one write adds to a memtable. -/
def maxEntryBytes : Nat := maxKeySize + maxValueSize + ttlLen

theorem sizeBytes_write_le (engine : LsmEngine) {key : String} {value : Option String}
    (fits : Record.Fits key (value.getD "")) (expiryMs : Option UInt64)
    : (engine.write key value expiryMs).active.sizeBytes
      ≤ engine.active.sizeBytes + maxEntryBytes := by
  obtain ⟨keyFits, valueFits⟩ := fits
  cases value with
  | none =>
      change (engine.active.remove key).sizeBytes ≤ _
      rw [Memtable.sizeBytes_remove, maxEntryBytes]
      cases engine.active.entry key <;> simp only [Option.elim_none, Option.elim_some]
        <;> omega
  | some text =>
      change (engine.active.insert key text expiryMs).sizeBytes ≤ _
      rw [Option.getD_some] at valueFits
      have expiry : Memtable.expiryLen expiryMs ≤ ttlLen := by
        unfold Memtable.expiryLen
        split <;> simp
      rw [Memtable.sizeBytes_insert, maxEntryBytes]
      cases engine.active.entry key <;> simp only [Option.elim_none, Option.elim_some]
        <;> omega

-----------------------------------------------------------------------------------------
-- Calls that wait for a flush
-----------------------------------------------------------------------------------------

def Task.flushes : Task → Nat
  | .flush _ => 1
  | _ => 0

theorem Task.flushes_le (task : Task) : task.flushes ≤ 1 := by
  cases task <;> simp [Task.flushes]

namespace System

/-- The calls that are inside `flush_memtable_async`. -/
def flushing (system : System) : Nat :=
  SortedMap.total (fun _ task => Task.flushes task) system.threads

/-- The threads that have made a call. -/
def callers (system : System) : Nat :=
  SortedMap.total (fun _ _ => 1) system.threads

/-- One of the calls has swapped the memtables and is about to return. -/
def swapped (system : System) : Nat :=
  match system.flushLock with
  | some (_, .swapped) => 1
  | _ => 0

/-- What the task of a thread counts. -/
def flushesOf (system : System) (thread : Nat) : Nat :=
  system.threads[thread]?.elim 0 Task.flushes

theorem flushing_setTask (system : System) (thread : Nat) (task : Task)
    : (system.setTask thread task).flushing + system.flushesOf thread
      = system.flushing + task.flushes :=
  SortedMap.total_insert (fun _ task => Task.flushes task) system.threads thread task

theorem callers_setTask (system : System) (thread : Nat) (task : Task)
    : system.callers ≤ (system.setTask thread task).callers := by
  have inserted := SortedMap.total_insert (fun (_ : Nat) (_ : Task) => 1) system.threads thread
    task
  have single
      : SortedMap.weightAt (fun (_ : Nat) (_ : Task) => 1) system.threads thread ≤ 1 := by
    unfold SortedMap.weightAt
    cases system.threads[thread]? <;> simp
  change _ ≤ SortedMap.total _ (system.threads.insert thread task)
  unfold callers
  omega

theorem flushesOf_le_flushing (system : System) (thread : Nat)
    : system.flushesOf thread ≤ system.flushing := by
  have erased := SortedMap.total_erase (fun _ task => Task.flushes task) system.threads thread
  change _ + system.flushesOf thread = system.flushing at erased
  omega

theorem flushing_le_callers (system : System) : system.flushing ≤ system.callers := by
  obtain ⟨keys, covers, -⟩ := SortedMap.exists_covering system.threads system.threads
  rw [flushing, callers, SortedMap.total_eq_sum _ _ covers, SortedMap.total_eq_sum _ _ covers]
  refine Finset.sum_le_sum fun thread _ => ?_
  unfold SortedMap.weightAt
  cases system.threads[thread]? with
  | none => exact Nat.le_refl 0
  | some task => exact task.flushes_le

-----------------------------------------------------------------------------------------
-- Steps
-----------------------------------------------------------------------------------------

/-- A memtable has outgrown the limit by one entry for each call in `flush_memtable_async` at
most. A call that has swapped the memtables counts no longer.
-/
structure Bounded (limit : Nat) (system : System) : Prop where
  limited : system.engine.maxMemtableBytes = limit
  locked
    : ∀ thread stage,
        system.flushLock = some (thread, stage)
        → ∃ reply, system.threads[thread]? = some (.flush reply)
  active
    : system.engine.active.sizeBytes + system.swapped * maxEntryBytes
      < limit + system.flushing * maxEntryBytes
  slot
    : ∀ memtable,
        system.engine.immutable = some memtable
        → memtable.sizeBytes < limit + system.callers * maxEntryBytes

variable {limit : Nat} {system next : System} {thread : Nat} {task : Task}

theorem flushesOf_eq {old : Task} (was : system.threads[thread]? = some old)
    : system.flushesOf thread = old.flushes := by
  rw [flushesOf, was, Option.elim_some]

theorem flushesOf_of_isFree (free : system.isFree thread = true)
    : system.flushesOf thread = 0 := by
  unfold isFree at free
  split at free
  next none => rw [flushesOf, none, Option.elim_none]
  next result was => exact flushesOf_eq was
  next => cases free

/-- A thread outside of `flush_memtable_async` makes a step, which may begin a flush. -/
theorem Bounded.turn (bounded : system.Bounded limit) (outside : system.flushesOf thread = 0)
    (engine : LsmEngine) (limited : engine.maxMemtableBytes = limit)
    (active
      : engine.active.sizeBytes + system.swapped * maxEntryBytes
        < limit + (system.flushing + task.flushes) * maxEntryBytes)
    (slot : ∀ memtable,
      engine.immutable = some memtable → system.engine.immutable = some memtable)
    (merging : Option Nat)
    : ({ system with engine, merging }.setTask thread task).Bounded limit where
  limited := limited
  locked holder stage held := by
    obtain ⟨reply, was⟩ := bounded.locked holder stage held
    refine ⟨reply, ?_⟩
    have other : thread ≠ holder := by
      rintro rfl
      rw [flushesOf_eq was] at outside
      cases outside
    simp only [setTask, SortedMap.getElem?_insert, other, if_false, was]
  active := by
    have moved := flushing_setTask system thread task
    rw [outside, Nat.add_zero] at moved
    change _ < limit + (system.setTask thread task).flushing * maxEntryBytes
    rwa [moved]
  slot memtable held := by
    have grown := callers_setTask system thread task
    have small := bounded.slot memtable (slot memtable held)
    have scaled := Nat.mul_le_mul_right maxEntryBytes grown
    change _ < limit + (system.setTask thread task).callers * maxEntryBytes
    omega

/-- The memtables stay as they are. -/
theorem Bounded.setTask (bounded : system.Bounded limit)
    (outside : system.flushesOf thread = 0) (task : Task)
    : (system.setTask thread task).Bounded limit := by
  refine bounded.turn outside system.engine bounded.limited ?_ (fun _ held => held)
    system.merging
  have scaled := Nat.mul_le_mul_right maxEntryBytes
    (Nat.le_add_right system.flushing task.flushes)
  have before := bounded.active
  omega

/-- The call that holds the lock is one of those inside. -/
theorem Bounded.swapped_le_flushing (bounded : system.Bounded limit)
    : system.swapped ≤ system.flushing := by
  unfold swapped
  split
  next holder held =>
    obtain ⟨reply, was⟩ := bounded.locked holder .swapped held
    have inside := flushesOf_le_flushing system holder
    rwa [flushesOf_eq was] at inside
  next => exact Nat.zero_le _

/-- A write that fills the memtable begins a flush. -/
theorem Bounded.writeSection (bounded : system.Bounded limit)
    (outside : system.flushesOf thread = 0) {key : String} {value : Option String}
    {expiryMs : Option UInt64} {reply : Reply} (fits : Record.Fits key (value.getD ""))
    (taken : system.writeSection thread key value expiryMs reply = some next)
    : next.Bounded limit := by
  obtain rfl := Option.some.inj taken
  have grown := sizeBytes_write_le system.engine fits expiryMs
  have before := bounded.active
  refine bounded.turn outside (system.engine.write key value expiryMs) bounded.limited ?_
    (fun _ held => held) system.merging
  unfold afterWrite
  split
  next full =>
    rw [Task.flushes, Nat.add_mul, Nat.one_mul]
    omega
  next room =>
    have below : (system.engine.write key value expiryMs).active.sizeBytes < limit := by
      rw [← bounded.limited]
      exact Nat.lt_of_not_le fun full => room (decide_eq_true full)
    have holds : system.swapped ≤ system.flushing := bounded.swapped_le_flushing
    have scaled := Nat.mul_le_mul_right maxEntryBytes holds
    change _ < limit + (system.flushing + 0) * maxEntryBytes
    rw [Nat.add_zero]
    omega

theorem Bounded.strategy (bounded : system.Bounded limit)
    (outside : system.flushesOf thread = 0) (strategy : StorageStrategy) (task : Task)
    (merging : Option Nat)
    : ({
        system with
        engine := { system.engine with strategy }
        merging
      }.setTask thread task).Bounded limit := by
  refine bounded.turn outside { system.engine with strategy } bounded.limited ?_
    (fun _ held => held) merging
  have scaled := Nat.mul_le_mul_right maxEntryBytes
    (Nat.le_add_right system.flushing task.flushes)
  have before := bounded.active
  simp only
  omega

/-- The memtable is swapped by one of the calls inside, when it holds `flush_handle`. -/
theorem Bounded.flushSection (bounded : system.Bounded limit) (positive : 0 < limit)
    {reply reply' : Reply} (was : system.threads[thread]? = some (.flush reply'))
    (taken : system.flushSection thread reply = some next)
    : next.Bounded limit := by
  have inside : system.flushesOf thread = 1 := flushesOf_eq was
  have counted := flushesOf_le_flushing system thread
  have before := bounded.active
  unfold System.flushSection at taken
  split at taken
  next free =>
    split at taken
    next can =>
      obtain rfl := Option.some.inj taken
      exact {
        limited := bounded.limited
        locked := by
          rintro holder stage ⟨⟩
          exact ⟨reply', was⟩
        active := by
          simp only [swapped, free] at before
          exact before
        slot := bounded.slot
      }
    next => cases taken
  next holder held =>
    split at taken
    next both =>
      obtain rfl := Option.some.inj taken
      simp only [swapped, held, Nat.zero_mul, Nat.add_zero] at before
      exact {
        limited := bounded.limited
        locked := by
          rintro holder stage ⟨⟩
          exact ⟨reply', was⟩
        active := by
          have scaled := Nat.mul_le_mul_right maxEntryBytes (inside ▸ counted)
          change 0 + 1 * maxEntryBytes < limit + system.flushing * maxEntryBytes
          omega
        slot := by
          rintro memtable ⟨⟩
          have scaled := Nat.mul_le_mul_right maxEntryBytes (flushing_le_callers system)
          change _ < limit + system.callers * maxEntryBytes
          omega
      }
    next => cases taken
  next holder held =>
    split at taken
    next same =>
      obtain rfl := Option.some.inj taken
      simp only [swapped, held, Nat.one_mul] at before
      have moved
          : (system.setTask thread (.returned (.ok reply))).flushing + 1
            = system.flushing := by
        have inserted := flushing_setTask system thread (.returned (.ok reply))
        rwa [inside] at inserted
      have grown := callers_setTask system thread (.returned (.ok reply))
      exact {
        limited := bounded.limited
        locked := nofun
        active := by
          change system.engine.active.sizeBytes + 0 * maxEntryBytes
            < limit + (system.setTask thread (.returned (.ok reply))).flushing * maxEntryBytes
          rw [← moved, Nat.add_mul] at before
          omega
        slot := fun memtable slot => by
          have scaled := Nat.mul_le_mul_right maxEntryBytes grown
          have small := bounded.slot memtable slot
          change _ < limit
            + (system.setTask thread (.returned (.ok reply))).callers * maxEntryBytes
          omega
      }
    next => cases taken

/-- The flush thread leaves the active memtable alone and clears the slot. -/
theorem Bounded.background (bounded : system.Bounded limit) {timestamp : Nat}
    (taken : system.background timestamp = some next)
    : next.Bounded limit := by
  have moves : Moves system Writes.none 0 (.background timestamp) next Writes.none 0 :=
    .of_background taken
  cases moves with
  | cleared state => exact { bounded with slot := nofun }
  | created | refused | skipped | wroteBlock | finished | added | poisoned =>
      exact { bounded with }

theorem Bounded.installSection (bounded : system.Bounded limit) (positive : 0 < limit)
    (outside : system.flushesOf thread = 0) {timestamp : Nat}
    (taken : system.installSection thread timestamp = some next)
    : next.Bounded limit := by
  unfold System.installSection at taken
  split at taken
  next =>
    split at taken
    next engine installs =>
      split at taken
      next =>
        obtain rfl := Option.some.inj taken
        obtain ⟨sst, flushed, installs⟩ := bind_eq_ok.mp installs
        obtain ⟨strategy, added, installs⟩ := bind_eq_ok.mp installs
        obtain rfl := Except.ok.inj installs
        refine bounded.turn outside
          { system.engine with
            active := Memtable.new, immutable := none, wal := [], strategy }
          bounded.limited ?_ nofun (some thread)
        have scaled := Nat.mul_le_mul_right maxEntryBytes bounded.swapped_le_flushing
        change 0 + system.swapped * maxEntryBytes
          < limit + (system.flushing + 0) * maxEntryBytes
        rw [Nat.add_zero]
        omega
      next => cases taken
    next => cases taken
  next => cases taken

/-- Every step keeps the bound. Witness: one case for each section of a call, and the flush
thread.
-/
theorem Bounded.step (bounded : system.Bounded limit) (positive : 0 < limit)
    (formed : system.Formed) {action : Action} (taken : system.step action = some next)
    : next.Bounded limit := by
  cases action with
  | invoke thread call nowMs =>
      simp only [System.step] at taken
      split at taken
      next free =>
        obtain ⟨task, begins, rfl⟩ := Option.map_eq_some_iff.mp taken
        exact bounded.setTask (flushesOf_of_isFree free) task
      next => cases taken
  | background timestamp => exact bounded.background taken
  | advance thread clock stamp finishMs =>
      obtain ⟨task, was, taken⟩ := Option.bind_eq_some_iff.mp taken
      have counted := flushesOf_eq was
      cases task with
      | get key nowMs =>
          simp only [advance, getSection] at taken
          split at taken
          · split at taken <;> exact Option.some.inj taken ▸ bounded.setTask counted _
          · cases taken
      | delete key nowMs =>
          simp only [advance, deleteSection] at taken
          split at taken
          · split at taken <;> exact Option.some.inj taken ▸ bounded.setTask counted _
          · cases taken
      | write key value expiryMs reply =>
          have fits := formed.fits _ _ was
          exact bounded.writeSection counted (of_decide_eq_true fits) taken
      | ttl key expiryMs nowMs =>
          simp only [advance, ttlSection] at taken
          split at taken
          next =>
            split at taken
            next value found =>
              have fits : Record.Fits key ((some value).getD "") :=
                formed.healthy.fits_of_find found
              exact bounded.writeSection counted fits taken
            next => exact Option.some.inj taken ▸ bounded.setTask counted _
            next => exact Option.some.inj taken ▸ bounded.setTask counted _
          next => cases taken
      | flush reply => exact bounded.flushSection positive was taken
      | compact =>
          simp only [advance, joinSection] at taken
          split at taken
          next can =>
            obtain rfl := Option.some.inj taken
            have released : { system with handle := false }.Bounded limit :=
              { bounded with }
            exact released.setTask counted .install
          next => cases taken
      | install => exact bounded.installSection positive counted taken
      | merge =>
          simp only [advance, mergeSection] at taken
          split at taken
          next =>
            split at taken
            next strategy compacts =>
              split at taken
              next => exact Option.some.inj taken ▸ bounded.strategy counted strategy _ none
              next => cases taken
            next => cases taken
          next => cases taken
      | compactStep =>
          simp only [advance, compactStepSection] at taken
          split at taken
          next =>
            split at taken
            next ran strategy compacts =>
              split at taken
              next =>
                exact Option.some.inj taken
                  ▸ bounded.strategy counted strategy _ system.merging
              next => cases taken
            next => cases taken
          next => cases taken
      | returned result => cases taken

/-- Witness: what every step keeps. -/
theorem Bounded.runs (bounded : system.Bounded limit) (positive : 0 < limit)
    (formed : system.Formed) {actions : List Action} {last : System}
    (ran : system.runs actions = some last)
    : last.Formed ∧ last.Bounded limit := by
  refine @steps_keeps _ _ System.step (fun _ action => action.fits) system last actions
    (fun state => state.Formed ∧ state.Bounded limit) ⟨formed, bounded⟩ ?_ ran
  rintro state action next fits taken ⟨formed, bounded⟩
  have moves := Moves.of_step Writes.none 0 taken
  exact ⟨formed.moves fits moves, bounded.step positive formed taken⟩

theorem bounded_start {engine : LsmEngine} (positive : 0 < engine.maxMemtableBytes)
    (emptyActive : engine.active = Memtable.new) (emptySlot : engine.immutable = none)
    : (start engine).Bounded engine.maxMemtableBytes where
  limited := rfl
  locked := nofun
  active := by
    have empty : (start engine).engine.active.sizeBytes = 0 := by
      change engine.active.sizeBytes = 0
      rw [emptyActive]
      rfl
    rw [empty]
    change 0 + 0 * maxEntryBytes < _
    omega
  slot memtable held := by
    change engine.immutable = some memtable at held
    rw [emptySlot] at held
    cases held

end System

/-- A slow flush stops the writers: in every run from a new engine, of any calls and with
compactions, the active memtable has outgrown its limit by at most one entry for each call
that waits in `flush_memtable_async`, and a memtable being flushed by one for each thread.
-/
theorem back_pressure_bounds_memtables {strategy : StorageStrategy} (new : strategy.New)
    {limit : Nat} (positive : 0 < limit) (settings : BlockSettings) {actions : List Action}
    {last : System}
    (reached
      : (System.start (LsmEngine.new limit strategy settings)).runs actions = some last)
    : last.engine.active.sizeBytes < limit + last.flushing * maxEntryBytes
      ∧ ∀ memtable,
          last.engine.immutable = some memtable
          → memtable.sizeBytes < limit + last.callers * maxEntryBytes := by
  have begun : (System.start (LsmEngine.new limit strategy settings)).Bounded limit :=
    @System.bounded_start (LsmEngine.new limit strategy settings) positive rfl rfl
  have formed := System.formed_start (LsmEngine.healthy_new new.sound limit settings) rfl
  obtain ⟨-, bounded⟩ := begun.runs positive formed reached
  refine ⟨?_, bounded.slot⟩
  have active := bounded.active
  omega

/-- Two writers fill the memtable again, while the flush before has not begun. -/
def waitingWriters : List Action :=
  setAndSpawn
  ++ [.invoke 1 (.set "k" "v") 10, turn 1 0, .invoke 2 (.set "l" "v") 10, turn 2 0]

/-- Witness: both wait, with a memtable to be flushed behind theirs. -/
theorem back_pressure_bounds_memtables_waiting
    : ∃ last,
        (System.start (LsmEngine.new 1 (.leveled (Leveled.new 2 4 1000 smallBlocks))
            smallBlocks)).runs waitingWriters
          = some last
        ∧ last.flushing = 2
        ∧ last.engine.immutable.isSome = true
        ∧ last.engine.active.sizeBytes < 1 + last.flushing * maxEntryBytes
        ∧ ∀ memtable,
            last.engine.immutable = some memtable
            → memtable.sizeBytes < 1 + last.callers * maxEntryBytes := by
  have computed : ((System.start (LsmEngine.new 1
      (.leveled (Leveled.new 2 4 1000 smallBlocks)) smallBlocks)).runs waitingWriters).any
      (fun last => last.flushing == 2 && last.engine.immutable.isSome)
      = true := by
    decide +kernel
  simp only [Option.any_eq_true, Bool.and_eq_true, beq_iff_eq] at computed
  obtain ⟨last, reached, waiting, held⟩ := computed
  have bounds := back_pressure_bounds_memtables (.leveled 2 4 1000 smallBlocks)
    Nat.one_pos smallBlocks reached
  exact ⟨last, reached, waiting, held, bounds.1, bounds.2⟩

end Rustikv.Lsm

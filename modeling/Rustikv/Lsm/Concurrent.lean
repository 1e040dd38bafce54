import Rustikv.Lsm.Moves

/-! The invariants of the concurrent engine: what every interleaving keeps, and what it
takes for the newest version of a key to stay in front.
-/

namespace Rustikv.Lsm

open Library

/-- Keys and values within the limits of the record format. -/
def Task.fits : Task → Bool
  | .delete key _ => key.utf8ByteSize ≤ maxKeySize
  | .write key value _ _ => Record.Fits key (value.getD "")
  | _ => true

/-- Calls begin with keys and values that fit. -/
def Action.fits : Action → Bool
  | .invoke _ call _ => call.fits
  | _ => true

theorem Call.fits_begin {call : Call} {nowMs : UInt64} {task : Task}
    (fits : call.fits = true) (begins : call.begin nowMs = some task)
    : task.fits = true := by
  cases call <;> simp only [Call.begin, Option.some.injEq, reduceCtorEq] at begins
  all_goals
    subst begins
    first | rfl | simpa [Task.fits, Call.fits] using fits

namespace System

-----------------------------------------------------------------------------------------
-- Every interleaving
-----------------------------------------------------------------------------------------

/-- What every interleaving of calls that fit keeps. A flush thread that has not ended is
the one in `flush_handle`, and the slot it empties is empty until the next swap.
-/
structure Formed (system : System) : Prop where
  healthy : system.engine.Healthy
  fits
    : ∀ (thread : Nat) (task : Task),
        system.threads[thread]? = some task → task.fits = true
  table
    : ∀ sst,
        system.flusher.table = some sst
        → sst.Valid ∧ sst.path ∉ system.engine.strategy.paths
  owned : system.flusher.isIdle = false → system.handle = true ∧ system.flushLock = none
  emptied
    : system.flusher.isIdle = true
      → (∀ thread, system.flushLock ≠ some (thread, .swapped))
      → system.engine.immutable = none
  reads
    : ∀ sst count,
        system.flusher = .writing sst count
        → ∃ memtable path,
            system.engine.immutable = some memtable
            ∧ sst = SSTable.fromMemtable system.engine.settings path memtable

theorem formed_start {engine : LsmEngine} (healthy : engine.Healthy)
    (empty : engine.immutable = none)
    : (start engine).Formed where
  healthy := healthy
  fits := by simp [start]
  table := by simp [start, Flusher.table]
  owned := by simp [start, Flusher.isIdle]
  emptied := fun _ _ => empty
  reads := by simp [start]

variable {system next : System} {written last : Writes} {since until_ : UInt64}
  {action : Action}

/-- A task that fits may take the place of any other. -/
theorem Formed.fits_insert (formed : system.Formed) {thread : Nat} {task : Task}
    (new : task.fits = true)
    : ∀ (other : Nat) (held : Task),
        (system.threads.insert thread task)[other]? = some held → held.fits = true := by
  intro other held found
  rw [SortedMap.getElem?_insert] at found
  split at found
  · exact Option.some.inj found ▸ new
  · exact formed.fits other held found

theorem fits_afterWrite (engine : LsmEngine) (reply : Reply)
    : (afterWrite engine reply).fits = true := by
  unfold afterWrite
  split <;> rfl

theorem Formed.setTask (formed : system.Formed) {thread : Nat} (task : Task)
    (fits : task.fits = true)
    : (system.setTask thread task).Formed :=
  { formed with fits := formed.fits_insert fits }

theorem Formed.write (formed : system.Formed) {key : String} (value : Option String)
    (fits : Record.Fits key (value.getD "")) (expiryMs : Option UInt64)
    : { system with engine := system.engine.write key value expiryMs }.Formed :=
  { formed with healthy := formed.healthy.write fits expiryMs }

theorem Formed.idle_of_canJoin (formed : system.Formed) (can : system.canJoin = true)
    : system.flusher.isIdle = true ∧ system.flushLock = none := by
  simp only [canJoin, Bool.and_eq_true, Option.isNone_iff_eq_none, Bool.or_eq_true,
    Bool.not_eq_true'] at can
  refine ⟨?_, can.1⟩
  by_contra running
  have handle := (formed.owned (by simpa using running)).1
  simp [handle, running] at can

theorem Formed.idle_of_locked (formed : system.Formed) {holder : Nat × FlushStage}
    (holds : system.flushLock = some holder)
    : system.flusher.isIdle = true := by
  by_contra running
  have free := (formed.owned (by simpa using running)).2
  rw [holds] at free
  cases free

theorem Formed.merging (formed : system.Formed) (merging : Option Nat)
    : { system with merging }.Formed :=
  { formed with }

/-- Only the strategy changes, and its tables keep clear of the flush thread's file. -/
theorem Formed.strategy (formed : system.Formed) {strategy : StorageStrategy}
    (sound : strategy.Sound) (apart : system.namesApart strategy = true)
    : { system with engine := { system.engine with strategy } }.Formed :=
  {
    formed with
    healthy := ⟨sound, formed.healthy.active, formed.healthy.immutable⟩
    table := by
      intro sst held
      simp only [namesApart, show system.flusher.table = some sst from held,
        Option.all_some, decide_eq_true_eq] at apart
      exact ⟨(formed.table sst held).1, apart⟩
  }

/-- Every step keeps the system well formed. Witness: one case for each way it can go. -/
theorem Formed.moves (formed : system.Formed) (fits : action.fits = true)
    (moves : Moves system written since action next last until_)
    : next.Formed := by
  cases moves with
  | invoked begins => exact formed.setTask _ (Call.fits_begin fits begins)
  | answered result => exact formed.setTask _ rfl
  | checked found was =>
      have limit := formed.fits _ _ was
      exact formed.setTask _ (by simpa [Task.fits, Record.Fits, maxValueSize] using limit)
  | wrote was =>
      have limit := formed.fits _ _ was
      exact (formed.write _ (by simpa [Task.fits] using limit) _).setTask _
        (fits_afterWrite _ _)
  | retimed reply was found =>
      exact (formed.write (some _) (formed.healthy.fits_of_find found) _).setTask _
        (fits_afterWrite _ _)
  | joined can =>
      obtain ⟨idle, free⟩ := formed.idle_of_canJoin can
      exact {
        formed with
        owned := by simp [idle]
        emptied := fun _ _ => formed.emptied idle (by simp [free])
      }
  | swapped holds =>
      have idle := formed.idle_of_locked holds
      exact {
        formed with
        healthy := formed.healthy.swap
        owned := by simp [idle]
        emptied := fun _ unswapped => absurd rfl (unswapped _)
        reads := by
          intro sst count state
          simp [show system.flusher = _ from state, Flusher.isIdle] at idle
      }
  | spawned reply holds =>
      refine Formed.setTask ?_ (.returned (.ok reply)) rfl
      exact {
        formed with
        table := by simp [Flusher.table]
        owned := fun _ => ⟨rfl, rfl⟩
        emptied := by simp [Flusher.isIdle]
        reads := by simp
      }
  | released was can =>
      obtain ⟨idle, free⟩ := formed.idle_of_canJoin can
      refine Formed.setTask ?_ .install rfl
      exact { formed with owned := by simp [idle] }
  | installed was free installs apart =>
      obtain ⟨healthy, empty, -⟩ := formed.healthy.install installs
      refine Formed.setTask ?_ .merge rfl
      exact {
        formed with
        healthy
        table := by
          intro sst held
          simp only [namesApart, show system.flusher.table = some sst from held,
            Option.all_some, decide_eq_true_eq] at apart
          exact ⟨(formed.table sst held).1, apart⟩
        emptied := fun _ _ => empty
        reads := by
          intro sst count state
          simp [immutableFree, show system.flusher = _ from state] at free
      }
  | merged was compacts apart =>
      obtain ⟨sound, -⟩ := formed.healthy.sound.compactAll compacts
      exact ((formed.strategy sound apart).merging none).setTask _ rfl
  | stepped was compacts apart =>
      exact (formed.strategy (formed.healthy.sound.compactIfNeeded compacts) apart).setTask
        _ rfl
  | created state slot creates =>
      obtain ⟨fresh, rfl⟩ := LsmEngine.flushTable_eq_ok.mp creates
      have storable := formed.healthy.immutable _ slot
      exact {
        formed with
        table := by
          rintro _ ⟨⟩
          refine ⟨SSTable.valid_fromMemtable _ _ storable, ?_⟩
          simpa [LsmEngine.tableFor, SSTable.path_fromMemtable] using fresh
        owned := fun _ => formed.owned (by rw [state]; rfl)
        emptied := by simp [Flusher.isIdle]
        reads := by
          rintro _ _ ⟨⟩
          exact ⟨_, _, slot, rfl⟩
      }
  | refused state slot fails =>
      exact {
        formed with
        table := by simp [Flusher.table]
        owned := fun _ => formed.owned (by rw [state]; rfl)
        emptied := by simp [Flusher.isIdle]
        reads := by simp
      }
  | skipped state slot =>
      exact {
        formed with
        table := by simp [Flusher.table]
        owned := fun _ => formed.owned (by rw [state]; rfl)
        emptied := by simp [Flusher.isIdle]
        reads := by simp
      }
  | wroteBlock state more =>
      exact {
        formed with
        table := by
          rintro _ ⟨⟩
          exact formed.table _ (by rw [state]; rfl)
        owned := fun _ => formed.owned (by rw [state]; rfl)
        emptied := by simp [Flusher.isIdle]
        reads := by
          rintro _ _ ⟨⟩
          exact formed.reads _ _ state
      }
  | finished state all =>
      exact {
        formed with
        table := by
          rintro _ ⟨⟩
          exact formed.table _ (by rw [state]; rfl)
        owned := fun _ => formed.owned (by rw [state]; rfl)
        emptied := by simp [Flusher.isIdle]
        reads := by simp
      }
  | added state adds =>
      obtain ⟨valid, fresh⟩ := formed.table _ (by rw [state]; rfl)
      obtain ⟨sound, -⟩ := formed.healthy.sound.addSstable valid fresh adds
      exact {
        formed with
        healthy := ⟨sound, formed.healthy.active, formed.healthy.immutable⟩
        table := by simp [Flusher.table]
        owned := fun _ => formed.owned (by rw [state]; rfl)
        emptied := by simp [Flusher.isIdle]
        reads := by simp
      }
  | poisoned state fails =>
      exact {
        formed with
        table := by simp [Flusher.table]
        owned := fun _ => formed.owned (by rw [state]; rfl)
        emptied := by simp [Flusher.isIdle]
        reads := by simp
      }
  | cleared state =>
      exact {
        formed with
        healthy := ⟨formed.healthy.sound, formed.healthy.active, by simp⟩
        table := by simp [Flusher.table]
        owned := by simp [Flusher.isIdle]
        emptied := fun _ _ => rfl
        reads := by simp
      }

-----------------------------------------------------------------------------------------
-- One key
-----------------------------------------------------------------------------------------

/-- For one key: the engine stands for its last write, the table being flushed says what the
immutable memtable says, and once it is added the slot is no longer needed.
-/
structure InFront (system : System) (written : Writes) (since : UInt64) (key : String)
    : Prop where
  stands : StandsFor since (system.engine.version key) (written key)
  building
    : ∀ sst,
        system.flusher.table = some sst
        → ∃ memtable,
            system.engine.immutable = some memtable
            ∧ sst.version key = memtable.entry key
  behind
    : system.flusher = .clearing
      → StandsFor since (system.engine.strategy.version key)
          ((system.engine.immutable.bind (fun memtable => memtable.entry key)).or
            (system.engine.strategy.version key))

/-- What a step needs in order to keep the newest version of a key in front. `compact` takes
its locks with the immutable slot empty or its table already added, every new table is
added in front, and merges drop safely.
-/
def keepsInFront (system : System) (key : String) : Action → Bool
  | .advance thread clock stamp _ =>
      match system.threads[thread]? with
      | some .install =>
          (system.engine.immutable.isNone || system.flusher matches .clearing)
          && system.engine.strategy.addsInFront
            (system.engine.tableFor system.engine.active (stamp 0)) key
      | some .merge => system.engine.strategy.safeAll clock stamp
      | some .compactStep =>
          match system.engine.strategy with
          | .leveled strategy => strategy.safeStep (clock 0)
          | .sizeTiered _ => false
      | _ => true
  | .background _ =>
      match system.flusher with
      | .built sst => system.engine.strategy.addsInFront sst key
      | _ => true
  | .invoke _ _ _ => true

theorem inFront_start {engine : LsmEngine} {key : String} (empty : engine.version key = none)
    : (start engine).InFront Writes.none 0 key where
  stands := by
    rw [start, empty]
    exact .refl
  building := by simp [start, Flusher.table]
  behind := by simp [start]

variable {key : String}

/-- What is behind the slot stands for the whole engine once the slot is not needed. -/
theorem InFront.without_slot (front : system.InFront written since key)
    (state : system.flusher = .clearing)
    : StandsFor since
        ((system.engine.active.entry key).or (system.engine.strategy.version key))
        (written key) :=
  ((front.behind state).behind _).trans front.stands

/-- A write of the engine, with the same write among the last ones. -/
theorem InFront.write (front : system.InFront written since key) (target : String)
    (value : Option String) (expiryMs : Option UInt64)
    (same : last key = written.write target value expiryMs key)
    : InFront { system with engine := system.engine.write target value expiryMs } last
        since key where
  stands := by
    rw [same]
    exact LsmEngine.standsFor_write front.stands target value expiryMs
  building := front.building
  behind := front.behind

theorem InFront.setTask (front : system.InFront written since key) (thread : Nat)
    (task : Task)
    : (system.setTask thread task).InFront written since key :=
  { front with }

/-- A strategy that keeps what the key reads as may replace the old one. -/
theorem InFront.strategy (front : system.InFront written since key) {later : UInt64}
    (order : since ≤ later) {strategy : StorageStrategy}
    (keeps : StandsFor later (strategy.version key) (system.engine.strategy.version key))
    : InFront { system with engine := { system.engine with strategy } } written later
        key where
  stands := LsmEngine.standsFor_strategy (front.stands.mono order) keeps
  building := front.building
  behind := by
    intro state
    have whole := keeps.trans ((front.behind state).mono order)
    cases slot : system.engine.immutable.bind (fun memtable => memtable.entry key) with
    | none => exact .refl
    | some entry => simpa [slot] using whole

/-- The active memtable becomes a table while nothing is on its way from the slot. -/
theorem InFront.install (front : system.InFront written since key)
    (formed : system.Formed) {timestamp : Nat} {engine : LsmEngine}
    (installs : system.engine.install timestamp = .ok engine)
    (ready : system.engine.immutable = none ∨ system.flusher = .clearing)
    (filed
      : system.engine.strategy.addsInFront
          (system.engine.tableFor system.engine.active timestamp) key
        = true)
    : InFront { system with engine } written since key := by
  obtain ⟨-, empty, versions⟩ := formed.healthy.install installs
  refine ⟨?_, ?_, ?_⟩
  · simp only [versions key filed]
    rcases ready with slot | state
    · simpa [LsmEngine.version, slot] using front.stands
    · exact front.without_slot state
  · intro sst held
    obtain ⟨memtable, slot, -⟩ := front.building sst held
    rcases ready with none | state
    · rw [none] at slot
      cases slot
    · rw [state] at held
      cases held
  · intro state
    rw [empty]
    exact .refl

/-- The flush thread adds its table in front of the others. -/
theorem InFront.add (front : system.InFront written since key) (formed : system.Formed)
    {sst : SSTable} {strategy : StorageStrategy} (state : system.flusher = .built sst)
    (adds : system.engine.strategy.addSstable sst = .ok strategy)
    (filed : system.engine.strategy.addsInFront sst key = true)
    : InFront
        { system with engine := { system.engine with strategy }, flusher := .clearing }
        written since key := by
  have table : system.flusher.table = some sst := by
    rw [state]
    rfl
  obtain ⟨valid, fresh⟩ := formed.table sst table
  obtain ⟨memtable, slot, same⟩ := front.building sst table
  obtain ⟨-, versions⟩ := formed.healthy.sound.addSstable valid fresh adds
  have version := versions key filed
  rw [same] at version
  have twice (first rest : Option MemtableEntry) : first.or (first.or rest) = first.or rest := by
    cases first <;> rfl
  refine ⟨?_, by simp [Flusher.table], fun _ => ?_⟩
  · simpa [LsmEngine.version, slot, version, twice] using front.stands
  · simp only [slot, version, Option.bind_some, twice]
    exact .refl

/-- Every step that keeps newer versions in front does so. -/
theorem InFront.moves (front : system.InFront written since key) (formed : system.Formed)
    (timely : action.Timely since) (keeps : system.keepsInFront key action = true)
    (moves : Moves system written since action next last until_)
    : next.InFront last until_ key := by
  cases moves with
  | invoked begins => exact front.setTask _ _
  | answered result => exact front.setTask _ _
  | checked found was => exact front.setTask _ _
  | wrote was => exact (front.write _ _ _ rfl).setTask _ _
  | retimed reply was found =>
      exact (front.write _ _ _
        (formed.healthy.retime_apply_of_find front.stands found _)).setTask _ _
  | joined can => exact { front with }
  | swapped holds =>
      have idle := formed.idle_of_locked holds
      have empty := formed.emptied idle (by simp [holds])
      refine ⟨?_, ?_, ?_⟩
      · rw [LsmEngine.version_swap empty]
        exact front.stands
      · intro sst held
        obtain ⟨memtable, slot, -⟩ := front.building sst held
        rw [empty] at slot
        cases slot
      · intro state
        simp [show system.flusher = _ from state, Flusher.isIdle] at idle
  | spawned reply holds =>
      exact ⟨front.stands, by simp [System.setTask, Flusher.table],
        by simp [System.setTask]⟩
  | released was can => exact { front with }
  | installed was free installs apart =>
      simp only [keepsInFront, was, Bool.and_eq_true, Bool.or_eq_true,
        Option.isNone_iff_eq_none] at keeps
      obtain ⟨ready, filed⟩ := keeps
      have clearing : system.engine.immutable = none ∨ system.flusher = .clearing := by
        refine ready.imp_right (fun state => ?_)
        cases flusher : system.flusher <;> simp_all
      exact { front.install formed installs clearing filed with }
  | merged was compacts apart =>
      simp only [keepsInFront, was] at keeps
      obtain ⟨-, stands⟩ := formed.healthy.sound.compactAll compacts
      exact { front.strategy timely.1 (stands _ keeps timely.2 key) with }
  | stepped was compacts apart =>
      simp only [keepsInFront, was] at keeps
      have sound := formed.healthy.sound
      refine (front.strategy timely.1 ?_).setTask _ _
      cases kind : system.engine.strategy with
      | sizeTiered strategy => simp [kind] at keeps
      | leveled strategy =>
          simp only [kind] at keeps sound compacts
          obtain ⟨⟨_, _⟩, merged, rest⟩ := bind_eq_ok.mp compacts
          obtain ⟨rfl, rfl⟩ := Prod.mk.inj (Except.ok.inj rest)
          exact (Leveled.Sound.compactIfNeeded_standsFor sound keeps merged key).mono
            (timely.2 0)
  | created state slot creates =>
      obtain ⟨fresh, rfl⟩ := LsmEngine.flushTable_eq_ok.mp creates
      refine ⟨front.stands, ?_, by simp⟩
      rintro _ ⟨⟩
      exact ⟨_, slot, SSTable.version_fromMemtable _ _ (formed.healthy.immutable _ slot) key⟩
  | refused state slot fails => exact ⟨front.stands, by simp [Flusher.table], by simp⟩
  | skipped state slot =>
      refine ⟨front.stands, by simp [Flusher.table], fun _ => ?_⟩
      rw [slot]
      exact .refl
  | wroteBlock state more =>
      refine ⟨front.stands, ?_, by simp⟩
      rintro _ ⟨⟩
      exact front.building _ (by rw [state]; rfl)
  | finished state all =>
      refine ⟨front.stands, ?_, by simp⟩
      rintro _ ⟨⟩
      exact front.building _ (by rw [state]; rfl)
  | added state adds =>
      simp only [keepsInFront, state] at keeps
      exact front.add formed state adds keeps
  | poisoned state fails => exact ⟨front.stands, by simp [Flusher.table], by simp⟩
  | cleared state => exact ⟨front.without_slot state, by simp [Flusher.table], by simp⟩

end System

-----------------------------------------------------------------------------------------
-- Whole interleavings
-----------------------------------------------------------------------------------------

section Interleavings

variable {permitted : System → Action → Bool} {engine : LsmEngine} {system : System}
  {written : Writes} {since : UInt64}

/-- Every interleaving of calls that fit is well formed. -/
theorem Interleaves.formed (reached : Interleaves permitted engine system written since)
    (healthy : engine.Healthy) (empty : engine.immutable = none)
    (fits : ∀ system action, permitted system action = true → action.fits = true)
    : system.Formed := by
  induction reached with
  | start => exact System.formed_start healthy empty
  | step reached timely allowed taken ih =>
      exact ih.moves (fits _ _ allowed) (.of_step Writes.none 0 taken)

/-- A key that every step keeps in front stands for its last write. -/
theorem Interleaves.inFront (reached : Interleaves permitted engine system written since)
    (healthy : engine.Healthy) (empty : engine.immutable = none) {key : String}
    (new : engine.version key = none)
    (fits : ∀ system action, permitted system action = true → action.fits = true)
    (keeps
      : ∀ system written since action,
          Interleaves permitted engine system written since
          → permitted system action = true
          → system.keepsInFront key action = true)
    : system.InFront written since key := by
  induction reached with
  | start => exact System.inFront_start new
  | step reached timely allowed taken ih =>
      exact ih.moves (reached.formed healthy empty fits) timely
        (keeps _ _ _ _ reached allowed) (.of_step _ _ taken)

end Interleavings

end Rustikv.Lsm

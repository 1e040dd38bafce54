import Rustikv.Lsm.Concurrent
import Rustikv.Lsm.ReadLatest

/-! Reads of a leveled engine that never compacts: the lock section of a `get` returns what
the last write section before it wrote, wherever the flush thread is.
-/

namespace Rustikv.Lsm

open Library

-----------------------------------------------------------------------------------------
-- Interleavings without compaction
-----------------------------------------------------------------------------------------

def Task.compacts : Task → Bool
  | .compact => true
  | .install => true
  | .merge => true
  | .compactStep => true
  | _ => false

def Call.compacts : Call → Bool
  | .compact => true
  | .compactStep => true
  | _ => false

def Action.compacts : Action → Bool
  | .invoke _ call _ => call.compacts
  | _ => false

theorem Call.compacts_begin {call : Call} {nowMs : UInt64} {task : Task}
    (plain : call.compacts = false) (begins : call.begin nowMs = some task)
    : task.compacts = false := by
  cases call <;> simp only [Call.begin, Option.some.injEq, reduceCtorEq] at begins
  all_goals
    subst begins
    first | rfl | cases plain

namespace System

/-- No thread is about to compact. -/
structure Uncompacted (system : System) : Prop where
  tasks
    : ∀ (thread : Nat) (task : Task),
        system.threads[thread]? = some task → task.compacts = false
  merging : system.merging = none

variable {system next : System} {written last : Writes} {since until_ : UInt64}
  {action : Action}

theorem uncompacted_start (engine : LsmEngine) : (start engine).Uncompacted where
  tasks := by simp [start]
  merging := rfl

theorem Uncompacted.setTask (plain : system.Uncompacted) {thread : Nat} {task : Task}
    (new : task.compacts = false)
    : (system.setTask thread task).Uncompacted where
  tasks := by
    intro other held found
    rw [System.setTask, SortedMap.getElem?_insert] at found
    split at found
    · exact Option.some.inj found ▸ new
    · exact plain.tasks other held found
  merging := plain.merging

theorem compacts_afterWrite (engine : LsmEngine) (reply : Reply)
    : (afterWrite engine reply).compacts = false := by
  unfold afterWrite
  split <;> rfl

/-- Without compaction the flush thread alone changes the strategy, and no merge is made. -/
theorem Uncompacted.moves (plain : system.Uncompacted) (calls : action.compacts = false)
    (moves : Moves system written since action next last until_)
    : next.Uncompacted
      ∧ until_ = since
      ∧ (next.engine.strategy = system.engine.strategy
        ∨ ∃ sst,
            system.flusher = .built sst
            ∧ system.engine.strategy.addSstable sst = .ok next.engine.strategy) := by
  cases moves with
  | invoked begins => exact ⟨plain.setTask (Call.compacts_begin calls begins), rfl, .inl rfl⟩
  | answered result => exact ⟨plain.setTask rfl, rfl, .inl rfl⟩
  | checked found was => exact ⟨plain.setTask rfl, rfl, .inl rfl⟩
  | wrote was =>
      refine ⟨Uncompacted.setTask ?_ (compacts_afterWrite _ _), rfl, .inl rfl⟩
      exact { plain with }
  | retimed reply was found =>
      refine ⟨Uncompacted.setTask ?_ (compacts_afterWrite _ _), rfl, .inl rfl⟩
      exact { plain with }
  | joined can => exact ⟨{ plain with }, rfl, .inl rfl⟩
  | swapped holds => exact ⟨{ plain with }, rfl, .inl rfl⟩
  | spawned reply holds =>
      refine ⟨Uncompacted.setTask ?_ rfl, rfl, .inl rfl⟩
      exact { plain with }
  | released was can => cases plain.tasks _ _ was
  | installed was free installs apart => cases plain.tasks _ _ was
  | merged was compacts apart => cases plain.tasks _ _ was
  | stepped was compacts apart => cases plain.tasks _ _ was
  | created state slot creates => exact ⟨{ plain with }, rfl, .inl rfl⟩
  | refused state slot fails => exact ⟨{ plain with }, rfl, .inl rfl⟩
  | skipped state slot => exact ⟨{ plain with }, rfl, .inl rfl⟩
  | wroteBlock state more => exact ⟨{ plain with }, rfl, .inl rfl⟩
  | finished state all => exact ⟨{ plain with }, rfl, .inl rfl⟩
  | added state adds => exact ⟨{ plain with }, rfl, .inr ⟨_, state, adds⟩⟩
  | poisoned state fails => exact ⟨{ plain with }, rfl, .inl rfl⟩
  | cleared state => exact ⟨{ plain with }, rfl, .inl rfl⟩

/-- A leveled strategy with a level to add tables to, and no flush that failed to do so. -/
structure Leveling (system : System) : Prop where
  uncompacted : system.Uncompacted
  leveled
    : ∃ strategy l0 rest,
        system.engine.strategy = .leveled strategy ∧ strategy.levels = l0 :: rest
  sane : system.flusher ≠ .poisoned

theorem Leveling.moves (leveling : system.Leveling) (calls : action.compacts = false)
    (moves : Moves system written since action next last until_)
    : next.Leveling := by
  obtain ⟨strategy, l0, rest, kind, levels⟩ := leveling.leveled
  obtain ⟨uncompacted, -, strategies⟩ := leveling.uncompacted.moves calls moves
  refine ⟨uncompacted, ?_, ?_⟩
  · rcases strategies with same | ⟨sst, -, adds⟩
    · exact ⟨strategy, l0, rest, same.trans kind, levels⟩
    · rw [kind] at adds
      simp only [StorageStrategy.addSstable, Leveled.addSstable, levels, ok_bind] at adds
      exact ⟨_, _, rest, (Except.ok.inj adds).symm, rfl⟩
  · cases moves with
    | poisoned state fails =>
        rw [kind] at fails
        simp [StorageStrategy.addSstable, Leveled.addSstable, levels, pure, Except.pure]
          at fails
    | swapped holds => exact leveling.sane
    | joined can => exact leveling.sane
    | _ => first | exact leveling.sane | simp [System.setTask]

/-- A new table of a leveled engine is always read first. -/
theorem Leveling.keepsInFront (leveling : system.Leveling) (key : String) (action : Action)
    : system.keepsInFront key action = true := by
  obtain ⟨strategy, _, _, kind, -⟩ := leveling.leveled
  cases action with
  | invoke thread call nowMs => rfl
  | background timestamp =>
      cases state : system.flusher <;>
        simp [System.keepsInFront, state, kind, StorageStrategy.addsInFront]
  | advance thread clock stamp finishMs =>
      cases was : system.threads[thread]? with
      | none => simp [System.keepsInFront, was]
      | some task =>
          have plain := leveling.uncompacted.tasks _ _ was
          cases task <;> simp [System.keepsInFront, was, Task.compacts] at plain ⊢

theorem Leveling.strategyFree (leveling : system.Leveling)
    : system.strategyFree = true := by
  have sane := leveling.sane
  cases state : system.flusher <;>
    simp_all [System.strategyFree, leveling.uncompacted.merging]

end System

/-- Without compaction no merge is ever made. -/
theorem Interleaves.leveling {permitted : System → Action → Bool} {engine : LsmEngine}
    {system : System} {written : Writes} {since : UInt64}
    (reached : Interleaves permitted engine system written since)
    (leveled
      : ∃ strategy l0 rest,
          engine.strategy = .leveled strategy ∧ strategy.levels = l0 :: rest)
    (plain : ∀ system action, permitted system action = true → action.compacts = false)
    : system.Leveling ∧ since = 0 := by
  induction reached with
  | start => exact ⟨⟨System.uncompacted_start _, leveled, by simp [System.start]⟩, rfl⟩
  | step reached timely allowed taken ih =>
      obtain ⟨leveling, rfl⟩ := ih
      have moves := System.Moves.of_step Writes.none 0 taken
      obtain ⟨-, unmerged, -⟩ := leveling.uncompacted.moves (plain _ _ allowed) moves
      exact ⟨leveling.moves (plain _ _ allowed) moves, unmerged⟩

/-- The calls that write and read, with keys and values within the limits of the format. -/
def Action.readsAndWrites (action : Action) : Bool :=
  !action.compacts && action.fits

/-- In every interleaving on a leveled engine of calls that fit, the lock section of a `get`
can be executed and returns what was last written to its key, as it reads at one of the two
clock readings of the call.
-/
theorem leveled_get_linearizable (numLevels l0Threshold l1MaxBytes maxMemtableBytes : Nat)
    (settings tableSettings : BlockSettings) (levels : 1 ≤ numLevels) {system : System}
    {written : Writes} {since : UInt64}
    (reached
      : Interleaves (fun _ action => action.readsAndWrites)
          (LsmEngine.new maxMemtableBytes
            (.leveled (Leveled.new numLevels l0Threshold l1MaxBytes tableSettings)) settings)
          system written since)
    {thread : Nat} {key : String} {nowMs : UInt64}
    (reading : system.threads[thread]? = some (.get key nowMs)) (clock : Nat → UInt64)
    (stamp : Nat → Nat) (finishMs : UInt64)
    : ∃ next readMs,
        (readMs = nowMs ∨ readMs = clock 0)
        ∧ system.step (.advance thread clock stamp finishMs) = some next
        ∧ next.threads[thread]?
          = some (.returned (.ok (.value
              ((readAt (written key) readMs).map (fun value => (key, value)))))) := by
  have plain (system : System) (action : Action) (allowed : action.readsAndWrites = true)
      : action.compacts = false := by
    simp only [Action.readsAndWrites, Bool.and_eq_true, Bool.not_eq_true'] at allowed
    exact allowed.1
  have fits (system : System) (action : Action) (allowed : action.readsAndWrites = true)
      : action.fits = true := (Bool.and_eq_true_iff.mp allowed).2
  have new := StorageStrategy.New.leveled numLevels l0Threshold l1MaxBytes tableSettings
  have healthy := LsmEngine.healthy_new new.sound maxMemtableBytes settings
  have leveled : ∃ strategy l0 rest,
      (LsmEngine.new maxMemtableBytes
        (.leveled (Leveled.new numLevels l0Threshold l1MaxBytes tableSettings))
        settings).strategy = .leveled strategy
      ∧ strategy.levels = l0 :: rest := by
    have filled : (Leveled.new numLevels l0Threshold l1MaxBytes tableSettings).levels ≠ [] := by
      simpa [Leveled.new] using Nat.pos_iff_ne_zero.mp levels
    obtain ⟨l0, rest, split⟩ := List.exists_cons_of_ne_nil filled
    exact ⟨_, l0, rest, rfl, split⟩
  obtain ⟨leveling, rfl⟩ := reached.leveling leveled plain
  have front := reached.inFront healthy rfl
    (LsmEngine.version_new new.iterAll _ _ key) fits
    (fun _ _ _ _ earlier _ => (earlier.leveling leveled plain).1.keepsInFront key _)
  obtain ⟨readMs, either, found⟩ := LsmEngine.find_eq
    (reached.formed healthy rfl fits).healthy.sound.valid key nowMs (clock 0)
  rw [front.stands.read UInt64.zero_le] at found
  refine ⟨system.setTask thread (.returned (.ok (.value
    ((readAt (written key) readMs).map (fun value => (key, value)))))), readMs, either, ?_,
    ?_⟩
  · simp only [System.step, reading, Option.bind_some, System.advance, System.getSection,
      leveling.strategyFree, if_true, found]
  · simp [System.setTask]

/-- The next section of a thread, at time 10. -/
def turn (thread timestamp : Nat) : Action :=
  .advance thread (fun _ => 10) (fun i => timestamp + i) 10

/-- A write that fills the memtable, and the flush it triggers. -/
def setAndFinish (key value : String) (timestamp : Nat) : List Action :=
  [.invoke 0 (.set key value) 10, turn 0 0, turn 0 0, turn 0 0, turn 0 0,
    .background timestamp, .background timestamp, .background timestamp,
    .background timestamp, .background timestamp]

/-- Witness: a key is read while its table has been written and not yet added. -/
theorem leveled_get_linearizable_during_flush
    : ∃ system written since next,
        Interleaves (fun _ action => action.readsAndWrites)
          (LsmEngine.new 1 (.leveled (Leveled.new 2 4 1000 smallBlocks)) smallBlocks)
          system written since
        ∧ system.step (turn 1 0) = some next
        ∧ next.threads[1]?
          = some (.returned (.ok (.value
              ((readAt (written "k") 10).map (fun value => ("k", value)))))) := by
  let actions : List Action := [.invoke 0 (.set "k" "v") 10, turn 0 0, turn 0 0, turn 0 0,
    turn 0 0, .background 1, .background 1, .background 1, .invoke 1 (.get "k") 10]
  have computed : (interleave (fun _ action => action.readsAndWrites) actions
      (System.start
        (LsmEngine.new 1 (.leveled (Leveled.new 2 4 1000 smallBlocks)) smallBlocks))
      Writes.none).any (fun final => final.1.threads[1]? = some (.get "k" 10)) = true := by
    decide +kernel
  simp only [Option.any_eq_true, decide_eq_true_eq] at computed
  obtain ⟨⟨system, written⟩, ran, reading⟩ := computed
  obtain ⟨since, reached, -⟩ := Interleaves.start.interleave 10 (by decide)
    (by simp [actions, turn, Action.At]) ran
  obtain ⟨next, readMs, rfl | rfl, taken, answer⟩ :=
    leveled_get_linearizable 2 4 1000 1 smallBlocks smallBlocks (by decide) reached reading
      (fun _ => 10) (fun i => 0 + i) 10
  · exact ⟨system, written, since, next, reached, taken, answer⟩
  · exact ⟨system, written, since, next, reached, taken, answer⟩

-----------------------------------------------------------------------------------------
-- A value over the limit
-----------------------------------------------------------------------------------------

/-- The error of every reader that meets a record over the limits. -/
def oversizedError : IoError :=
  { kind := .invalidInput, message := "key or value exceeds maximum allowed size" }

/-- One byte more than a record may have. -/
def oversizedValue : String :=
  String.ofList (List.replicate (maxValueSize + 1) 'a')

/-- A memtable with one key is flushed as one block. -/
theorem groups_singleton {groups : List (List Record)} {record : Record}
    (filled : ∀ group ∈ groups, group ≠ []) (single : groups.flatten = [record])
    : groups = [[record]] := by
  cases groups with
  | nil => cases single
  | cons group rest =>
      obtain ⟨first, others, rfl⟩ := List.exists_cons_of_ne_nil (filled group (by simp))
      simp only [List.flatten_cons, List.cons_append, List.cons.injEq,
        List.append_eq_nil_iff] at single
      obtain ⟨rfl, rfl, empty⟩ := single
      cases rest with
      | nil => rfl
      | cons second rest =>
          have nonempty := filled second (by simp)
          simp [nonempty] at empty

theorem fromMemtable_single (settings : BlockSettings) (path : TablePath) (value : String)
    : SSTable.fromMemtable settings path (Memtable.new.insert "k" value none)
      = SSTable.ofGroups settings path
          [[(Record.make "k" value (Record.flagsOf false none) none).sealed]] := by
  obtain ⟨groups, same, filled, built⟩ := SSTable.fromMemtable_eq settings path
    (Memtable.new.insert "k" value none)
  rw [built, groups_singleton filled same]
  rfl

/-- A flushed value over the limit cannot be read. -/
theorem get_oversized (settings : BlockSettings) (path : TablePath) {value : String}
    (oversized : maxValueSize < value.utf8ByteSize) (small : value.utf8ByteSize < 2 ^ 64)
    (nowMs : UInt64)
    : (SSTable.fromMemtable settings path (Memtable.new.insert "k" value none)).get "k" nowMs
      = .error oversizedError := by
  let record := Record.make "k" value (Record.flagsOf false none) none
  have refused : Record.readNext (record.toBeBytes ++ []) = .error oversizedError := by
    refine Record.readNext_oversized (Record.hasExpiry_flagsOf false none) (.inr ?_) []
    simp only [record, Record.make, UInt64.toNat_ofNat', Nat.mod_eq_of_lt small]
    exact oversized
  have unread : iterBlocks [blockOf settings [record.sealed]] = [.error oversizedError] := by
    have data : (blockOf settings [record.sealed]).data = record.toBeBytes ++ [] := rfl
    obtain ⟨size, positive⟩ : ∃ size, (record.toBeBytes ++ []).length = size + 1 := by
      refine Nat.exists_eq_succ_of_ne_zero ?_
      simpa using record.toBeBytes_ne_nil
    have items : blockRecords (blockOf settings [record.sealed]).data.length
        (blockOf settings [record.sealed]).data = [.error oversizedError] := by
      have nonempty : (record.toBeBytes ++ []).isEmpty = false := by
        simpa using record.toBeBytes_ne_nil
      rw [data, positive, blockRecords, nonempty, refused]
      rfl
    rw [iterBlocks, items]
    rfl
  have held : (SSTable.ofGroups settings path [[record.sealed]]).bloom.mightContain "k"
      = true :=
    BloomFilter.mightContain_of_mem (List.mem_singleton.mpr rfl)
      (by simp [newBloom, BloomFilter.new])
  rw [fromMemtable_single, SSTable.get, held]
  have start : offsetIn (SSTable.ofGroups settings path [[record.sealed]]).sparseIndex "k"
      = 0 := by
    simp [SSTable.ofGroups, indexOf, offsetIn, record, Record.make, Record.sealed]
  simp only [Bool.not_true, Bool.false_eq_true, if_false]
  rw [start]
  exact congrArg (scanFor "k" nowMs) unread

/-- The flush thread takes a step. -/
theorem Interleaves.background {permitted : System → Action → Bool} {engine : LsmEngine}
    {system : System} {written : Writes} {since : UInt64}
    (reached : Interleaves permitted engine system written since) (next : System)
    (timestamp : Nat) (allowed : permitted system (.background timestamp) = true)
    (taken : system.background timestamp = some next)
    : Interleaves permitted engine next written since := by
  have timely : (Action.background timestamp).Timely since := trivial
  have stepped : system.step (.background timestamp) = some next := taken
  exact reached.step timely allowed stepped

/-- A write that triggers a flush, up to the creation of the table's file. -/
def setAndFlush (value : String) : List Action :=
  [.invoke 0 (.set "k" value) 10, turn 0 0, turn 0 0, turn 0 0, turn 0 0, .background 1]

/-- A leveled engine that flushes after every write. -/
def tinyEngine : LsmEngine :=
  LsmEngine.new 0 (.leveled (Leveled.new 2 4 1000 smallBlocks)) smallBlocks

theorem setAndFlush_runs (value : String)
    : ∃ system written,
        interleave (fun _ action => !action.compacts) (setAndFlush value)
          (System.start tinyEngine) Writes.none = some (system, written)
        ∧ system.flusher
          = .writing (tinyEngine.tableFor (Memtable.new.insert "k" value none) 1) 0
        ∧ system.merging = none
        ∧ system.engine.active = Memtable.new
        ∧ system.threads[1]? = none
        ∧ system.engine.strategy = tinyEngine.strategy
        ∧ written "k" = some { value := some value, expiryMs := none } :=
  ⟨_, _, rfl, rfl, rfl, rfl, rfl, rfl, rfl⟩

/-- The flush thread writes the one block of its table, adds it and clears the slot, and then
the key is looked up.
-/
theorem Interleaves.reads_flushed {engine : LsmEngine} {system : System} {written : Writes}
    {since : UInt64} {table : SSTable} {filled : StorageStrategy} {error : IoError}
    (reached : Interleaves (fun _ action => !action.compacts) engine system written since)
    (state : system.flusher = .writing table 0) (blocks : table.blocks.length = 1)
    (free : system.merging = none) (empty : system.engine.active = Memtable.new)
    (threads : system.threads[1]? = none)
    (adds : system.engine.strategy.addSstable table = .ok filled)
    (tables : filled.iterAll = [table]) (unread : table.get "k" 10 = .error error)
    : ∃ final next,
        Interleaves (fun _ action => !action.compacts) engine final written since
        ∧ final.threads[1]? = some (.get "k" 10)
        ∧ final.step (turn 1 0) = some next
        ∧ next.threads[1]? = some (.returned (.error error)) := by
  have held : table.bloom.mightContain "k" = true := by
    by_contra absent
    rw [SSTable.get, if_pos (by simpa using absent)] at unread
    cases unread
  have full := reached.background { system with flusher := .writing table 1 } 1 rfl
    (by simp [System.background, state, blocks])
  have built := full.background { system with flusher := .built table } 1 rfl
    (by simp [System.background, blocks])
  have added := built.background
    {
      system with
      engine := { system.engine with strategy := filled }
      flusher := .clearing
    } 1 rfl (by simp [System.background, free, adds])
  let cleared : System := {
    system with
    engine := { system.engine with strategy := filled, immutable := none }
    flusher := .idle
  }
  have clears := added.background cleared 1 rfl (by simp [System.background, cleared])
  have invoked : cleared.step (.invoke 1 (.get "k") 10)
      = some (cleared.setTask 1 (.get "k" 10)) := by
    simp [System.step, System.isFree, cleared, threads, Call.begin]
  have timely : (Action.invoke 1 (.get "k") 10).Timely since := trivial
  have reading := clears.step timely rfl invoked
  have fails : cleared.engine.find "k" 10 10 = .error error := by
    simp [LsmEngine.find, lookup, cleared, empty, StorageStrategy.iterForKey, tables, held,
      lookupTables, unread]
  have waiting : (cleared.setTask 1 (.get "k" 10)).threads[1]? = some (.get "k" 10) := by
    simp [System.setTask]
  refine ⟨_, (cleared.setTask 1 (.get "k" 10)).setTask 1 (.returned (.error error)), reading,
    waiting, ?_, by simp [System.setTask]⟩
  have searched : (cleared.setTask 1 (.get "k" 10)).engine.find "k" 10 10 = .error error := fails
  have unlocked : (cleared.setTask 1 (.get "k" 10)).strategyFree = true := by
    simp [System.strategyFree, System.setTask, cleared, free]
  simp only [System.step, turn, waiting, Option.bind_some, System.advance, System.getSection,
    unlocked, if_true, searched]

/-- The engine accepts a value over the limit and cannot read it back once it is flushed. -/
theorem leveled_get_fails_on_oversized_value
    : ∃ system written since next,
        Interleaves (fun _ action => !action.compacts)
          (LsmEngine.new 0 (.leveled (Leveled.new 2 4 1000 smallBlocks)) smallBlocks)
          system written since
        ∧ readAt (written "k") 10 = some oversizedValue
        ∧ system.threads[1]? = some (.get "k" 10)
        ∧ system.step (turn 1 0) = some next
        ∧ next.threads[1]? = some (.returned (.error oversizedError)) := by
  have size : oversizedValue.utf8ByteSize = maxValueSize + 1 := utf8ByteSize_replicate _
  generalize oversizedValue = value at size ⊢
  obtain ⟨created, written, ran, state, free, empty, threads, strategy, last⟩ :=
    setAndFlush_runs value
  obtain ⟨since, reached, -⟩ := Interleaves.start.interleave 10 (by decide)
    (by simp [setAndFlush, turn, Action.At]) ran
  have blocks
      : (tinyEngine.tableFor (Memtable.new.insert "k" value none) 1).blocks.length = 1 := by
    rw [LsmEngine.tableFor, fromMemtable_single]
    rfl
  have unread : (tinyEngine.tableFor (Memtable.new.insert "k" value none) 1).get "k" 10
      = .error oversizedError :=
    get_oversized _ _ (by omega) (by simp [size, maxValueSize]) 10
  generalize tinyEngine.tableFor (Memtable.new.insert "k" value none) 1 = table
    at state blocks unread
  obtain ⟨final, next, reading, waits, taken, answer⟩ := reached.reads_flushed state blocks
    free empty threads (by rw [strategy]; rfl) rfl unread
  refine ⟨final, written, since, next, reading, ?_, waits, taken, answer⟩
  rw [last]
  rfl

end Rustikv.Lsm

import Rustikv.Lsm.MergedReads
import Rustikv.Lsm.ReadLatest
import Rustikv.Lsm.Trigger

/-! What is true of an engine whatever was written to it, texts over the limits included:
its tables were written from memtables, into levels as they are made.
-/

namespace Rustikv.Lsm

open Library

-----------------------------------------------------------------------------------------
-- Compacted levels
-----------------------------------------------------------------------------------------

theorem written_fromMemtable (settings : BlockSettings) (path : TablePath)
    {memtable : Memtable} (addressable : Addressable memtable)
    : (SSTable.fromMemtable settings path memtable).Written :=
  SSTable.valid_or_unreadable settings path addressable

/-- A squash that succeeds has read valid tables and leaves one. -/
theorem Level.squash_eq {level rest : Level} {settings : BlockSettings}
    {others : List TablePath} {nowMs : UInt64} {timestamp : Nat} {sst : SSTable}
    (written : ∀ table ∈ level.sstables, table.Written)
    (done : level.squash settings others nowMs timestamp = .ok (some sst, rest))
    : (∀ table ∈ level.sstables, table.Valid)
      ∧ level.sstables ≠ []
      ∧ sst
        = mergedTable settings { level := some level.levelNum, timestamp } level.isTerminal
          nowMs (level.iter.flatMap SSTable.records)
      ∧ rest = level.bare := by
  unfold squash at done
  split at done
  · cases done
  · next nonempty =>
      obtain ⟨memtable, merged, done⟩ := bind_eq_ok.mp done
      obtain ⟨new, created, done⟩ := bind_eq_ok.mp done
      obtain ⟨same, rfl⟩ := Prod.mk.inj (Except.ok.inj done)
      obtain rfl := Option.some.inj same
      have valid : ∀ table ∈ level.iter, table.Valid := valid_of_mergeTables merged
        (fun table member => written table (List.mem_reverse.mp member))
      rw [mergeTables_eq _ _ valid] at merged
      obtain rfl := Except.ok.inj merged
      obtain ⟨-, built⟩ := createTable_eq_ok.mp created
      refine ⟨fun table member => valid table (List.mem_reverse.mpr member),
        by simpa using nonempty, built.symm, rfl⟩

namespace Leveled

variable {strategy next : Leveled} {i : Nat} {nowMs : UInt64} {timestamp : Nat}

/-- Merging two levels leaves the first without keys and writes every table of the second. -/
theorem mergeLevels_written {settings : BlockSettings} {files : List TablePath}
    {source target source' target' : Level}
    (done : mergeLevels settings files source target nowMs timestamp = .ok (source', target'))
    : source'.keyRange = none
      ∧ ((∀ table ∈ source.sstables ++ target.sstables, table.Written)
        → ∀ table ∈ source'.sstables ++ target'.sstables, table.Written) := by
  unfold mergeLevels at done
  split at done
  next start end_ range =>
    obtain ⟨first, mergedFirst, done⟩ := bind_eq_ok.mp done
    obtain ⟨memtable, merged, done⟩ := bind_eq_ok.mp done
    obtain ⟨sst, created, done⟩ := bind_eq_ok.mp done
    obtain ⟨rfl, rfl⟩ := Prod.mk.inj (Except.ok.inj done)
    refine ⟨rfl, fun written table member => ?_⟩
    simp only [List.nil_append, Level.append, List.mem_append, List.mem_singleton] at member
    rcases member with kept | rfl
    · exact written table (List.mem_append_right _ (List.mem_of_mem_filter kept))
    · have validSource := valid_of_mergeTables mergedFirst (fun table inside =>
        written table (List.mem_append_left _ (List.mem_reverse.mp inside)))
      have validOverlap := valid_of_mergeTables merged (fun table inside =>
        written table (List.mem_append_right _ (List.mem_of_mem_filter inside)))
      rw [mergeTables_eq _ _ validSource] at mergedFirst
      obtain rfl := Except.ok.inj mergedFirst
      rw [mergeTables_eq _ _ validOverlap] at merged
      obtain rfl := Except.ok.inj merged
      obtain ⟨-, rfl⟩ := createTable_eq_ok.mp created
      refine .inl (SSTable.valid_fromMemtable _ _ ?_)
      exact storableTable_merge _ _ (valid_flatMap_records validOverlap)
        (storableTable_merge _ _ (valid_flatMap_records validSource) storableTable_new)
  next empty =>
    obtain ⟨rfl, rfl⟩ := Prod.mk.inj (Except.ok.inj done)
    exact ⟨empty, fun written => written⟩

theorem compactLevel_written (written : ∀ table ∈ strategy.iterAll, table.Written)
    (done : strategy.compactLevel i nowMs timestamp = .ok next)
    : ∀ table ∈ next.iterAll, table.Written := by
  have held : ∀ level ∈ strategy.levels, ∀ table ∈ level.sstables, table.Written :=
    fun level member table inside => written table (mem_iterAll.mpr ⟨level, member, inside⟩)
  rcases compactLevel_split done with ⟨rfl, -⟩
    | ⟨front, level, back, rest, sst, split, rfl, -, squashed, rfl⟩
    | ⟨front, source, target, back, source', target', split, rfl, -, merged, rfl⟩
  · exact written
  · obtain ⟨valid, -, rfl, rfl⟩ := Level.squash_eq (held level (by simp [split])) squashed
    intro table member
    obtain ⟨other, among, inside⟩ := mem_iterAll.mp member
    simp only [List.mem_append, List.mem_cons] at among
    rcases among with early | rfl | late
    · exact held other (by simp [split, early]) table inside
    · rw [List.mem_singleton.mp inside]
      refine .inl (valid_mergedTable _ _ _ _ (valid_flatMap_records ?_))
      exact fun one inIter => valid one (List.mem_reverse.mp inIter)
    · exact held other (by simp [split, late]) table inside
  · have both := (mergeLevels_written merged).2 (by
      intro table member
      rcases List.mem_append.mp member with fromSource | fromTarget
      · exact held source (by simp [split]) table fromSource
      · exact held target (by simp [split]) table fromTarget)
    intro table member
    obtain ⟨other, among, inside⟩ := mem_iterAll.mp member
    simp only [List.mem_append, List.mem_cons] at among
    rcases among with early | rfl | rfl | late
    · exact held other (by simp [split, early]) table inside
    · exact both table (List.mem_append_left _ inside)
    · exact both table (List.mem_append_right _ inside)
    · exact held other (by simp [split, late]) table inside

theorem compactAll_written {clock : Nat → UInt64} {stamp : Nat → Nat}
    (written : ∀ table ∈ strategy.iterAll, table.Written)
    (done : strategy.compactAll clock stamp = .ok next)
    : ∀ table ∈ next.iterAll, table.Written := by
  rw [compactAll_eq] at done
  exact compactFrom_invariant (fun after => ∀ table ∈ after.iterAll, table.Written) done
    written (fun _ _ _ _ before compacted => compactLevel_written before compacted)

end Leveled

-----------------------------------------------------------------------------------------
-- What lookups find
-----------------------------------------------------------------------------------------

theorem read_eq_some {entry : MemtableEntry} {nowMs : UInt64} {value : String}
    (read : entry.read nowMs = some value)
    : entry.value = some value := by
  unfold MemtableEntry.read at read
  split at read
  · next ms stored _ =>
      split at read
      · cases read
      · rw [stored, read]
  · next stored _ => rw [stored, read]
  · cases read

/-- A reader passes no value over the limit. -/
theorem value_of_mem_blockRecords {fuel : Nat} {bytes : Bytes} {record : Record}
    (member : .ok record ∈ blockRecords fuel bytes)
    : record.value.utf8ByteSize ≤ maxValueSize := by
  induction fuel generalizing bytes with
  | zero => cases member
  | succ fuel ih =>
      unfold blockRecords at member
      split at member
      · cases member
      · split at member
        next first rest read =>
          rcases List.mem_cons.mp member with here | later
          · obtain rfl := Except.ok.inj here
            obtain ⟨-, -, -, -, limit, value⟩ := Record.readNext_ok read
            have size := congrArg List.length value
            rw [length_asBytes, List.length_take] at size
            omega
          · exact ih later
        · split at member <;> simp at member

theorem value_of_mem_iterBlocks {blocks : List Block} {record : Record}
    (member : .ok record ∈ iterBlocks blocks)
    : record.value.utf8ByteSize ≤ maxValueSize := by
  induction blocks with
  | nil => cases member
  | cons block rest ih =>
      simp only [iterBlocks] at member
      split at member
      · rcases List.mem_append.mp member with here | later
        · exact value_of_mem_blockRecords here
        · exact ih later
      · exact value_of_mem_blockRecords member

theorem value_of_scanFor {key value : String} {nowMs : UInt64}
    {items : List (Except IoError Record)}
    (limited : ∀ record, .ok record ∈ items → record.value.utf8ByteSize ≤ maxValueSize)
    (found : scanFor key nowMs items = .ok (some (some value)))
    : value.utf8ByteSize ≤ maxValueSize := by
  induction items with
  | nil => cases found
  | cons item rest ih =>
      cases item with
      | error error => cases found
      | ok record =>
          unfold scanFor at found
          split at found
          · cases found
          · have stored := read_eq_some (Option.some.inj (Except.ok.inj found))
            have same : record.value = value := by
              unfold Record.entry at stored
              split at stored
              · cases stored
              · exact Option.some.inj stored
            rw [← same]
            exact limited record (by simp)
          · exact ih (fun other inside => limited other (List.mem_cons_of_mem _ inside)) found

/-- A value found in a table is within the limit. -/
theorem value_of_lookupTables {key value : String} {nowMs : UInt64} {tables : List SSTable}
    (found : lookupTables key nowMs tables = .ok (some value))
    : value.utf8ByteSize ≤ maxValueSize := by
  induction tables with
  | nil => cases found
  | cons table rest ih =>
      unfold lookupTables at found
      split at found
      · cases found
      · next here =>
          obtain rfl := Except.ok.inj found
          unfold SSTable.get at here
          split at here
          · cases here
          · exact value_of_scanFor (fun record => value_of_mem_iterBlocks) here
      · exact ih found

theorem maxValueSize_lt : maxValueSize < uintBound := by decide

theorem Addressable.insert {memtable : Memtable} (addressable : Addressable memtable)
    {key value : String} (keyBound : key.utf8ByteSize < uintBound)
    (valueBound : value.utf8ByteSize < uintBound) (expiryMs : Option UInt64)
    : Addressable (memtable.insert key value expiryMs) := by
  intro other entry found
  rw [Memtable.entry_insert] at found
  split at found
  · next same =>
      obtain rfl := Option.some.inj found
      exact ⟨same ▸ keyBound, valueBound⟩
  · exact addressable other entry found

theorem Addressable.remove {memtable : Memtable} (addressable : Addressable memtable)
    {key : String} (keyBound : key.utf8ByteSize < uintBound)
    : Addressable (memtable.remove key) := by
  intro other entry found
  rw [Memtable.entry_remove] at found
  split at found
  · next same =>
      obtain rfl := Option.some.inj found
      exact ⟨same ▸ keyBound, by decide⟩
  · exact addressable other entry found

/-- The texts are shorter than a machine integer can count. -/
def Call.addressable : Call → Bool
  | .set key value => key.utf8ByteSize < uintBound && value.utf8ByteSize < uintBound
  | .setWithTtl key value _ => key.utf8ByteSize < uintBound && value.utf8ByteSize < uintBound
  | .delete key => key.utf8ByteSize < uintBound
  | .ttl key _ => key.utf8ByteSize < uintBound
  | _ => true

namespace StorageStrategy

/-- Tables written from memtables, in levels as they are made. -/
structure Written (strategy : StorageStrategy) : Prop where
  tables : ∀ table ∈ strategy.iterAll, table.Written
  made : ∀ inner, strategy = .leveled inner → inner.Made

variable {strategy next : StorageStrategy}

theorem New.written (new : strategy.New) : strategy.Written where
  tables := by simp [new.iterAll]
  made := by
    rintro inner rfl
    cases new with
    | leveled numLevels l0Threshold l1MaxBytes settings => exact Leveled.made_new _ _ _ _

theorem Written.addSstable (written : strategy.Written) {sst : SSTable} (new : sst.Written)
    (done : strategy.addSstable sst = .ok next)
    : next.Written := by
  cases strategy with
  | leveled inner =>
      obtain ⟨other, added, done⟩ := bind_eq_ok.mp done
      obtain rfl := Except.ok.inj done
      refine ⟨fun table member => ?_, ?_⟩
      · unfold Leveled.addSstable at added
        split at added
        next l0 rest shape =>
          obtain rfl := Except.ok.inj added
          have old := written.tables
          simp only [StorageStrategy.iterAll, Leveled.iterAll, shape, List.flatMap_cons,
            Level.iter, Level.append, List.reverse_append, List.reverse_singleton,
            List.cons_append, List.mem_cons] at member old
          rcases member with rfl | inside
          · exact new
          · exact old table inside
        next => cases added
      · rintro _ ⟨⟩
        have made : inner.Made := written.made inner rfl
        have step : inner.operate (.addSstable sst) = .ok other := added
        exact made.operate step
  | sizeTiered inner =>
      obtain rfl := Except.ok.inj done
      refine ⟨fun table member => ?_, by simp⟩
      rcases List.mem_append.mp ((SizeTiered.flatten_addSstable _ _).mem_iff.mp
        (List.mem_reverse.mp member)) with old | here
      · exact written.tables table (List.mem_reverse.mpr old)
      · rwa [List.mem_singleton.mp here]

theorem Written.compactIfNeeded (written : strategy.Written) {nowMs : UInt64}
    {timestamp : Nat} {ran : Bool}
    (done : strategy.compactIfNeeded nowMs timestamp = .ok (ran, next))
    : next.Written := by
  cases strategy with
  | leveled inner =>
      obtain ⟨⟨_, other⟩, compacted, done⟩ := bind_eq_ok.mp done
      obtain ⟨rfl, rfl⟩ := Prod.mk.inj (Except.ok.inj done)
      refine ⟨Leveled.compactIfNeeded_invariant compacted written.tables
        (fun _ _ => Leveled.compactLevel_written written.tables), ?_⟩
      rintro _ ⟨⟩
      have made : inner.Made := written.made inner rfl
      have step : inner.operate (.compactIfNeeded nowMs timestamp) = .ok other := by
        rw [Leveled.operate, compacted]
        rfl
      exact made.operate step
  | sizeTiered inner =>
      obtain ⟨⟨_, other⟩, compacted, done⟩ := bind_eq_ok.mp done
      obtain ⟨rfl, rfl⟩ := Prod.mk.inj (Except.ok.inj done)
      have held : ∀ table ∈ inner.sstables.flatten, table.Written :=
        fun table inside => written.tables table (List.mem_reverse.mpr inside)
      refine ⟨fun table member => ?_, by simp⟩
      have readable := SizeTiered.readable_of_compactIfNeeded held compacted
      rcases SizeTiered.compactIfNeeded_cases readable compacted with
        ⟨-, -, rfl⟩ | ⟨front, bucket, back, split, full, -, -, rfl⟩
      · exact written.tables table member
      · have chosen : inner.sstables.getD front.length [] = bucket := by simp [split]
        have valid : ∀ table ∈ bucket, table.Valid := chosen ▸ readable _ full
        simp only [StorageStrategy.iterAll, SizeTiered.iterAll, List.mem_reverse,
          List.mem_flatten, List.mem_append, List.mem_cons] at member
        obtain ⟨other, among, inside⟩ := member
        rcases among with early | rfl | late
        · exact held table (by
            rw [split]
            exact List.mem_flatten.mpr ⟨other, by simp [early], inside⟩)
        · rw [List.mem_singleton.mp inside]
          exact .inl (valid_mergedTable _ _ _ _ (valid_flatMap_records valid))
        · exact held table (by
            rw [split]
            exact List.mem_flatten.mpr ⟨other, by simp [late], inside⟩)

theorem Written.compactAll (written : strategy.Written) {clock : Nat → UInt64}
    {stamp : Nat → Nat} (done : strategy.compactAll clock stamp = .ok next)
    : next.Written := by
  cases strategy with
  | leveled inner =>
      obtain ⟨other, compacted, done⟩ := bind_eq_ok.mp done
      obtain rfl := Except.ok.inj done
      refine ⟨Leveled.compactAll_written written.tables compacted, ?_⟩
      rintro _ ⟨⟩
      have made : inner.Made := written.made inner rfl
      have step : inner.operate (.compactAll clock stamp) = .ok other := compacted
      exact made.operate step
  | sizeTiered inner =>
      obtain ⟨other, compacted, done⟩ := bind_eq_ok.mp done
      obtain rfl := Except.ok.inj done
      obtain ⟨-, sst, single, valid, -⟩ := SizeTiered.compactAll_reads
        (fun table inside => written.tables table (List.mem_reverse.mpr inside)) compacted
      refine ⟨fun table member => ?_, by simp⟩
      simp only [StorageStrategy.iterAll, SizeTiered.iterAll, single, List.flatten_cons,
        List.flatten_nil, List.append_nil, List.reverse_singleton, List.mem_singleton]
        at member
      exact member ▸ .inl valid

end StorageStrategy

namespace LsmEngine

/-- What is true of every engine, whatever was written to it. -/
structure Written (engine : LsmEngine) : Prop where
  strategy : engine.strategy.Written
  active : Addressable engine.active
  immutable : ∀ memtable, engine.immutable = some memtable → Addressable memtable

variable {engine next : LsmEngine}

theorem addressable_new : Addressable Memtable.new :=
  storableTable_new.addressable

theorem written_new {strategy : StorageStrategy} (new : strategy.New)
    (maxMemtableBytes : Nat) (settings : BlockSettings)
    : (LsmEngine.new maxMemtableBytes strategy settings).Written :=
  ⟨new.written, addressable_new, by simp [LsmEngine.new]⟩

theorem Written.write (written : engine.Written) {key : String} {value : Option String}
    (keyBound : key.utf8ByteSize < uintBound)
    (valueBound : ∀ text, value = some text → text.utf8ByteSize < uintBound)
    (expiryMs : Option UInt64)
    : (engine.write key value expiryMs).Written where
  strategy := written.strategy
  active := by
    cases value with
    | none => exact written.active.remove keyBound
    | some text => exact written.active.insert keyBound (valueBound text rfl) expiryMs
  immutable := written.immutable

theorem Written.finishFlush (written : engine.Written) {timestamp : Nat}
    (done : engine.finishFlush timestamp = .ok next)
    : next.Written := by
  unfold LsmEngine.finishFlush at done
  split at done
  · next memtable slot =>
      obtain ⟨sst, flushed, done⟩ := bind_eq_ok.mp done
      obtain ⟨strategy, added, done⟩ := bind_eq_ok.mp done
      obtain rfl := Except.ok.inj done
      obtain ⟨-, rfl⟩ := flushTable_eq_ok.mp flushed
      exact ⟨written.strategy.addSstable
        (written_fromMemtable _ _ (written.immutable memtable slot)) added, written.active,
        by simp⟩
  · obtain rfl := Except.ok.inj done
    exact written

theorem Written.flushMemtableAsync (written : engine.Written) {timestamp : Nat}
    (done : engine.flushMemtableAsync timestamp = .ok next)
    : next.Written := by
  obtain ⟨flushed, finished, done⟩ := bind_eq_ok.mp done
  obtain rfl := Except.ok.inj done
  have before := written.finishFlush finished
  exact ⟨before.strategy, addressable_new, by
    rintro memtable ⟨⟩
    exact before.active⟩

theorem Written.finishWrite (written : engine.Written) {timestamp : Nat}
    (done : engine.finishWrite timestamp = .ok next)
    : next.Written := by
  unfold LsmEngine.finishWrite at done
  split at done
  · exact written.flushMemtableAsync done
  · obtain rfl := Except.ok.inj done
    exact written

theorem Written.install (written : engine.Written) {timestamp : Nat}
    (done : engine.install timestamp = .ok next)
    : next.Written := by
  obtain ⟨sst, flushed, done⟩ := bind_eq_ok.mp done
  obtain ⟨strategy, added, done⟩ := bind_eq_ok.mp done
  obtain rfl := Except.ok.inj done
  obtain ⟨-, rfl⟩ := flushTable_eq_ok.mp flushed
  exact ⟨written.strategy.addSstable (written_fromMemtable _ _ written.active) added,
    addressable_new, by simp⟩

theorem Written.compact (written : engine.Written) {clock : Nat → UInt64}
    {stamp : Nat → Nat} (done : engine.compact clock stamp = .ok next)
    : next.Written := by
  obtain ⟨flushed, finished, done⟩ := bind_eq_ok.mp done
  obtain ⟨installed, installs, done⟩ := bind_eq_ok.mp done
  obtain ⟨strategy, compacted, done⟩ := bind_eq_ok.mp done
  obtain rfl := Except.ok.inj done
  have before := (written.finishFlush finished).install installs
  exact ⟨before.strategy.compactAll compacted, before.active, before.immutable⟩

/-- A value that is found can be counted. -/
theorem Written.value_of_find (written : engine.Written) {key value : String}
    {nowMs tableMs : UInt64} (found : engine.find key nowMs tableMs = .ok (some value))
    : value.utf8ByteSize < uintBound := by
  unfold LsmEngine.find Lsm.lookup at found
  split at found
  · next entry held =>
      have stored := read_eq_some (Except.ok.inj found)
      simpa [stored] using (written.active key entry held).2
  · split at found
    · next entry slot =>
        obtain ⟨memtable, filled, held⟩ := Option.bind_eq_some_iff.mp slot
        have stored := read_eq_some (Except.ok.inj found)
        simpa [stored] using (written.immutable memtable filled key entry held).2
    · exact (value_of_lookupTables found).trans_lt maxValueSize_lt

theorem Written.handle (written : engine.Written) {event : Event} {reply : Reply}
    (addressable : event.call.addressable = true)
    (done : engine.handle event = .ok (reply, next))
    : next.Written := by
  obtain ⟨call, clock, stamp, finishMs⟩ := event
  cases call with
  | set key value =>
      obtain ⟨after, wrote, same⟩ := bind_eq_ok.mp done
      obtain ⟨-, rfl⟩ := Prod.mk.inj (Except.ok.inj same)
      simp only [Call.addressable, Bool.and_eq_true, decide_eq_true_eq] at addressable
      exact (written.write addressable.1 (by simp [addressable.2]) none).finishWrite wrote
  | setWithTtl key value expiryMs =>
      obtain ⟨after, wrote, same⟩ := bind_eq_ok.mp done
      obtain ⟨-, rfl⟩ := Prod.mk.inj (Except.ok.inj same)
      simp only [Call.addressable, Bool.and_eq_true, decide_eq_true_eq] at addressable
      exact (written.write addressable.1 (by simp [addressable.2]) expiryMs).finishWrite wrote
  | delete key =>
      obtain ⟨⟨found, after⟩, deleted, same⟩ := bind_eq_ok.mp done
      obtain ⟨-, rfl⟩ := Prod.mk.inj (Except.ok.inj same)
      obtain ⟨entry, -, deleted⟩ := bind_eq_ok.mp deleted
      obtain ⟨other, wrote, same⟩ := bind_eq_ok.mp deleted
      obtain ⟨-, rfl⟩ := Prod.mk.inj (Except.ok.inj same)
      simp only [Call.addressable, decide_eq_true_eq] at addressable
      exact (written.write addressable (by simp) none).finishWrite wrote
  | ttl key expiryMs =>
      obtain ⟨⟨outcome, after⟩, answered, same⟩ := bind_eq_ok.mp done
      obtain ⟨-, rfl⟩ := Prod.mk.inj (Except.ok.inj same)
      simp only [Call.addressable, decide_eq_true_eq] at addressable
      rcases ttl_cases answered with ⟨-, -, rfl⟩ | ⟨value, found, -, wrote⟩
      · exact written
      · refine (written.write addressable ?_ expiryMs).finishWrite wrote
        rintro _ ⟨⟩
        exact written.value_of_find found
  | get key =>
      obtain ⟨found, -, same⟩ := bind_eq_ok.mp done
      obtain ⟨-, rfl⟩ := Prod.mk.inj (Except.ok.inj same)
      exact written
  | flush =>
      obtain ⟨after, flushed, same⟩ := bind_eq_ok.mp done
      obtain ⟨-, rfl⟩ := Prod.mk.inj (Except.ok.inj same)
      exact written.flushMemtableAsync flushed
  | background =>
      obtain ⟨after, finished, same⟩ := bind_eq_ok.mp done
      obtain ⟨-, rfl⟩ := Prod.mk.inj (Except.ok.inj same)
      exact written.finishFlush finished
  | compactStep =>
      obtain ⟨⟨ran, after⟩, stepped, same⟩ := bind_eq_ok.mp done
      obtain ⟨-, rfl⟩ := Prod.mk.inj (Except.ok.inj same)
      obtain ⟨⟨again, strategy⟩, compacted, stepped⟩ := bind_eq_ok.mp stepped
      obtain ⟨-, rfl⟩ := Prod.mk.inj (Except.ok.inj stepped)
      exact ⟨written.strategy.compactIfNeeded compacted, written.active, written.immutable⟩
  | compact =>
      obtain ⟨after, compacted, same⟩ := bind_eq_ok.mp done
      obtain ⟨-, rfl⟩ := Prod.mk.inj (Except.ok.inj same)
      exact written.compact compacted

theorem written_of_runs {permitted : LsmEngine → Event → Bool} {start : LsmEngine}
    (sane : start.Written)
    (addressable
      : ∀ engine event, permitted engine event = true → event.call.addressable = true)
    {writes : Writes} {since : UInt64} (reached : Runs permitted start engine writes since)
    : engine.Written := by
  induction reached with
  | start => exact sane
  | step reached timely allowed done ih => exact ih.handle (addressable _ _ allowed) done

end LsmEngine

end Rustikv.Lsm

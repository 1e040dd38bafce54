import Rustikv.Lsm.RangeScan
import Rustikv.Lsm.Written

/-! Where values come from: whatever the interleaving, and whatever a merge brings back or
drops, a reader of the LSM engine sees only values that a call gave for that key.
-/

namespace Rustikv.Lsm

open Library

-----------------------------------------------------------------------------------------
-- Known values
-----------------------------------------------------------------------------------------

/-- Which values, with which expiry, a key may hold. Tombstones need not be known. -/
abbrev Known := String → MemtableEntry → Prop

def KnownMemtable (known : Known) (memtable : Memtable) : Prop :=
  ∀ key entry, memtable.entry key = some entry → entry.value ≠ none → known key entry

def KnownRecords (known : Known) (records : List Record) : Prop :=
  ∀ record ∈ records, record.entry.value ≠ none → known record.key record.entry

def KnownTables (known : Known) (tables : List SSTable) : Prop :=
  ∀ table ∈ tables, KnownRecords known table.records

section Known

variable {known more : Known} {memtable : Memtable} {tables : List SSTable}

theorem knownMemtable_new : KnownMemtable known Memtable.new := by
  intro key entry found
  rw [Memtable.entry_new] at found
  cases found

theorem KnownMemtable.mono (held : KnownMemtable known memtable)
    (wider : ∀ key entry, known key entry → more key entry)
    : KnownMemtable more memtable :=
  fun key entry found value => wider key entry (held key entry found value)

theorem KnownTables.mono (held : KnownTables known tables)
    (wider : ∀ key entry, known key entry → more key entry)
    : KnownTables more tables :=
  fun table member record inside value => wider _ _ (held table member record inside value)

theorem KnownMemtable.insert (held : KnownMemtable known memtable) {key value : String}
    {expiryMs : Option UInt64} (given : known key { value := some value, expiryMs })
    : KnownMemtable known (memtable.insert key value expiryMs) := by
  intro other entry found stored
  rw [Memtable.entry_insert] at found
  split at found
  next same =>
    obtain rfl := Option.some.inj found
    exact same ▸ given
  next => exact held other entry found stored

theorem KnownMemtable.remove (held : KnownMemtable known memtable) (key : String)
    : KnownMemtable known (memtable.remove key) := by
  intro other entry found stored
  rw [Memtable.entry_remove] at found
  split at found
  · obtain rfl := Option.some.inj found
    exact absurd rfl stored
  · exact held other entry found stored

theorem KnownMemtable.dropTombstones (held : KnownMemtable known memtable)
    : KnownMemtable known memtable.dropTombstones := by
  intro key entry found stored
  rw [Memtable.entry_dropTombstones] at found
  exact held key entry (Option.eq_some_of_filter_eq_some found) stored

/-- A merge keeps entries as they are, or leaves a tombstone for them. -/
theorem KnownMemtable.merge (held : KnownMemtable known memtable) {records : List Record}
    (inputs : KnownRecords known records) (dropDead : Bool) (nowMs : UInt64)
    : KnownMemtable known (records.foldl (mergeRecord dropDead nowMs) memtable) := by
  intro key entry found stored
  rw [entry_merge, Option.or_eq_some_iff] at found
  rcases found with old | ⟨-, new⟩
  · exact held key entry old stored
  · obtain ⟨record, member, kept⟩ := List.exists_of_findSome?_eq_some new
    by_cases same : record.key = key
    · subst same
      rw [if_pos rfl, mergedEntry] at kept
      split at kept
      · split at kept
        · cases kept
        · obtain rfl := Option.some.inj kept
          exact absurd rfl stored
      · obtain rfl := Option.some.inj kept
        exact inputs record member stored
    · rw [if_neg same] at kept
      cases kept

theorem knownRecords_fromMemtable (settings : BlockSettings) (path : TablePath)
    (storable : StorableTable memtable) (held : KnownMemtable known memtable)
    : KnownRecords known (SSTable.fromMemtable settings path memtable).records := by
  intro record member stored
  rw [SSTable.records_fromMemtable settings path storable] at member
  obtain ⟨key, entry, found, rfl⟩ := mem_memtableRecords.mp member
  rw [key_sealed_tableRecord, entry_sealed_tableRecord (storable key entry found)] at *
  exact held key entry found stored

theorem KnownTables.records (held : KnownTables known tables)
    : KnownRecords known (tables.flatMap SSTable.records) := by
  intro record member
  obtain ⟨table, inside, among⟩ := List.mem_flatMap.mp member
  exact held table inside record among

end Known

-----------------------------------------------------------------------------------------
-- Strategies
-----------------------------------------------------------------------------------------

section Strategies

variable {known : Known} {nowMs : UInt64} {timestamp : Nat}

theorem knownRecords_mergedTable {records : List Record} (held : KnownRecords known records)
    (valid : ∀ record ∈ records, Record.codec.Valid record) (settings : BlockSettings)
    (path : TablePath) (dropDead : Bool) (nowMs : UInt64)
    : KnownRecords known (mergedTable settings path dropDead nowMs records).records :=
  knownRecords_fromMemtable settings path (storableTable_merge _ _ valid storableTable_new)
    (knownMemtable_new.merge held dropDead nowMs)

theorem Leveled.mergeLevels_known {settings : BlockSettings} {files : List TablePath}
    {source target source' target' : Level}
    (valid : ∀ table ∈ source.sstables ++ target.sstables, table.Valid)
    (held : KnownTables known (source.sstables ++ target.sstables))
    (done : mergeLevels settings files source target nowMs timestamp = .ok (source', target'))
    : KnownTables known (source'.sstables ++ target'.sstables) := by
  unfold mergeLevels at done
  split at done
  next start end_ range =>
    obtain ⟨first, mergedFirst, done⟩ := bind_eq_ok.mp done
    obtain ⟨memtable, merged, done⟩ := bind_eq_ok.mp done
    obtain ⟨sst, created, done⟩ := bind_eq_ok.mp done
    obtain ⟨rfl, rfl⟩ := Prod.mk.inj (Except.ok.inj done)
    intro table member
    simp only [List.nil_append, Level.append, List.mem_append, List.mem_singleton] at member
    rcases member with kept | rfl
    · exact held table (List.mem_append_right _ (List.mem_of_mem_filter kept))
    · have validSource : ∀ table ∈ source.iter, table.Valid := fun table inside =>
        valid table (List.mem_append_left _ (List.mem_reverse.mp inside))
      have validOverlap : ∀ table ∈ target.overlappingFiles start end_, table.Valid :=
        fun table inside =>
          valid table (List.mem_append_right _ (List.mem_of_mem_filter inside))
      have heldSource : KnownTables known source.iter := fun table inside =>
        held table (List.mem_append_left _ (List.mem_reverse.mp inside))
      have heldOverlap : KnownTables known (target.overlappingFiles start end_) :=
        fun table inside =>
          held table (List.mem_append_right _ (List.mem_of_mem_filter inside))
      rw [mergeTables_eq _ _ validSource] at mergedFirst
      obtain rfl := Except.ok.inj mergedFirst
      rw [mergeTables_eq _ _ validOverlap] at merged
      obtain rfl := Except.ok.inj merged
      obtain ⟨-, rfl⟩ := createTable_eq_ok.mp created
      refine knownRecords_fromMemtable _ _ ?_ ?_
      · exact storableTable_merge _ _ (valid_flatMap_records validOverlap)
          (storableTable_merge _ _ (valid_flatMap_records validSource) storableTable_new)
      · exact (knownMemtable_new.merge heldSource.records _ _).merge heldOverlap.records _ _
  next empty =>
    obtain ⟨rfl, rfl⟩ := Prod.mk.inj (Except.ok.inj done)
    exact held

theorem Leveled.compactLevel_known {strategy next : Leveled} {i : Nat}
    (valid : ∀ table ∈ strategy.iterAll, table.Valid)
    (held : KnownTables known strategy.iterAll)
    (done : strategy.compactLevel i nowMs timestamp = .ok next)
    : KnownTables known next.iterAll := by
  have among
      : ∀ level ∈ strategy.levels, ∀ table ∈ level.sstables, table ∈ strategy.iterAll :=
    fun level member table inside => mem_iterAll.mpr ⟨level, member, inside⟩
  rcases compactLevel_split done with ⟨rfl, -⟩
    | ⟨front, level, back, rest, sst, split, rfl, -, squashed, rfl⟩
    | ⟨front, source, target, back, source', target', split, rfl, -, merged, rfl⟩
  · exact held
  · have inLevel := among level (by simp [split])
    obtain ⟨-, -, rfl, rfl⟩ := Level.squash_eq
      (fun table inside => .inl (valid table (inLevel table inside))) squashed
    intro table member
    obtain ⟨other, position, inside⟩ := mem_iterAll.mp member
    simp only [List.mem_append, List.mem_cons] at position
    rcases position with early | rfl | late
    · exact held table (among other (by simp [split, early]) table inside)
    · rw [List.mem_singleton.mp inside]
      have inputs : KnownTables known level.iter := fun one inIter =>
        held one (inLevel one (List.mem_reverse.mp inIter))
      refine knownRecords_mergedTable inputs.records (valid_flatMap_records ?_) _ _ _ _
      exact fun one inIter => valid one (inLevel one (List.mem_reverse.mp inIter))
    · exact held table (among other (by simp [split, late]) table inside)
  · have inBoth
        : ∀ table ∈ source.sstables ++ target.sstables, table ∈ strategy.iterAll := by
      intro table member
      rcases List.mem_append.mp member with fromSource | fromTarget
      · exact among source (by simp [split]) table fromSource
      · exact among target (by simp [split]) table fromTarget
    have both := mergeLevels_known (fun table inside => valid table (inBoth table inside))
      (fun table inside => held table (inBoth table inside)) merged
    intro table member
    obtain ⟨other, position, inside⟩ := mem_iterAll.mp member
    simp only [List.mem_append, List.mem_cons] at position
    rcases position with early | rfl | rfl | late
    · exact held table (among other (by simp [split, early]) table inside)
    · exact both table (List.mem_append_left _ inside)
    · exact both table (List.mem_append_right _ inside)
    · exact held table (among other (by simp [split, late]) table inside)

namespace StorageStrategy

variable {strategy next : StorageStrategy}

theorem known_addSstable (held : KnownTables known strategy.iterAll) {sst : SSTable}
    (new : KnownRecords known sst.records) (done : strategy.addSstable sst = .ok next)
    : KnownTables known next.iterAll := by
  cases strategy with
  | leveled inner =>
      obtain ⟨other, added, done⟩ := bind_eq_ok.mp done
      obtain rfl := Except.ok.inj done
      unfold Leveled.addSstable at added
      split at added
      next l0 rest shape =>
        obtain rfl := Except.ok.inj added
        intro table member
        simp only [KnownTables, StorageStrategy.iterAll, Leveled.iterAll, shape,
          List.flatMap_cons, Level.iter, Level.append, List.reverse_append,
          List.reverse_singleton, List.cons_append, List.mem_cons] at member held
        rcases member with rfl | inside
        · exact new
        · exact held table inside
      next => cases added
  | sizeTiered inner =>
      obtain rfl := Except.ok.inj done
      intro table member
      rcases List.mem_append.mp ((SizeTiered.flatten_addSstable _ _).mem_iff.mp
        (List.mem_reverse.mp member)) with old | here
      · exact held table (List.mem_reverse.mpr old)
      · rwa [List.mem_singleton.mp here]

theorem known_compactIfNeeded (sound : strategy.Sound)
    (held : KnownTables known strategy.iterAll) {ran : Bool}
    (done : strategy.compactIfNeeded nowMs timestamp = .ok (ran, next))
    : KnownTables known next.iterAll := by
  have valid := sound.valid
  cases strategy with
  | leveled inner =>
      obtain ⟨⟨_, other⟩, compacted, done⟩ := bind_eq_ok.mp done
      obtain ⟨rfl, rfl⟩ := Prod.mk.inj (Except.ok.inj done)
      exact Leveled.compactIfNeeded_invariant compacted held
        (fun _ _ => Leveled.compactLevel_known valid held)
  | sizeTiered inner =>
      obtain ⟨⟨_, other⟩, compacted, done⟩ := bind_eq_ok.mp done
      obtain ⟨rfl, rfl⟩ := Prod.mk.inj (Except.ok.inj done)
      have among : ∀ bucket ∈ inner.sstables, ∀ table ∈ bucket,
          table ∈ (StorageStrategy.sizeTiered inner).iterAll :=
        fun bucket position table inside =>
          List.mem_reverse.mpr (List.mem_flatten.mpr ⟨bucket, position, inside⟩)
      have readable := SizeTiered.readable_of_compactIfNeeded
        (fun table inside => .inl (valid table (List.mem_reverse.mpr inside))) compacted
      rcases SizeTiered.compactIfNeeded_cases readable compacted with
        ⟨-, -, rfl⟩ | ⟨front, bucket, back, split, -, -, -, rfl⟩
      · exact held
      · have inBucket := among bucket (by simp [split])
        have inputs : KnownTables known bucket :=
          fun table inside => held table (inBucket table inside)
        intro table member
        simp only [StorageStrategy.iterAll, SizeTiered.iterAll, List.mem_reverse,
          List.mem_flatten, List.mem_append, List.mem_cons] at member
        obtain ⟨other, position, inside⟩ := member
        rcases position with early | rfl | late
        · exact held table (among other (by simp [split, early]) table inside)
        · rw [List.mem_singleton.mp inside]
          refine knownRecords_mergedTable inputs.records (valid_flatMap_records ?_) _ _ _ _
          exact fun one inIn => valid one (inBucket one inIn)
        · exact held table (among other (by simp [split, late]) table inside)

theorem known_compactAll (sound : strategy.Sound) (held : KnownTables known strategy.iterAll)
    {clock : Nat → UInt64} {stamp : Nat → Nat}
    (done : strategy.compactAll clock stamp = .ok next)
    : KnownTables known next.iterAll := by
  have valid := sound.valid
  cases strategy with
  | leveled inner =>
      obtain ⟨other, compacted, done⟩ := bind_eq_ok.mp done
      obtain rfl := Except.ok.inj done
      rw [Leveled.compactAll_eq] at compacted
      refine (Leveled.compactFrom_invariant
        (fun after => after.Sound ∧ KnownTables known after.iterAll) compacted
        ⟨sound, held⟩ ?_).2
      rintro i - before after ⟨soundBefore, heldBefore⟩ done
      exact ⟨(soundBefore.compactLevel done).1, Leveled.compactLevel_known
        (@StorageStrategy.Sound.valid (.leveled before) soundBefore) heldBefore done⟩
  | sizeTiered inner =>
      obtain ⟨other, compacted, done⟩ := bind_eq_ok.mp done
      obtain rfl := Except.ok.inj done
      rw [SizeTiered.compactAll_eq valid] at compacted
      obtain rfl := Except.ok.inj compacted
      intro table member
      obtain rfl : table = _ := by
        simpa only [StorageStrategy.iterAll, SizeTiered.iterAll, List.flatten_cons,
          List.flatten_nil, List.append_nil, List.reverse_singleton, List.mem_singleton]
          using member
      refine knownRecords_fromMemtable _ _ ?_
        (knownMemtable_new.merge held.records _ _).dropTombstones
      exact (storableTable_merge _ _ (valid_flatMap_records valid)
        storableTable_new).dropTombstones

end StorageStrategy

end Strategies

-----------------------------------------------------------------------------------------
-- Readers
-----------------------------------------------------------------------------------------

section Readers

variable {known : Known} {engine : LsmEngine} {nowMs : UInt64}

/-- An engine that holds only known values. -/
structure LsmEngine.Knows (known : Known) (engine : LsmEngine) : Prop where
  active : KnownMemtable known engine.active
  immutable : ∀ memtable, engine.immutable = some memtable → KnownMemtable known memtable
  tables : KnownTables known engine.strategy.iterAll

theorem knownSlot_none (memtable : Memtable) (held : none = some memtable)
    : KnownMemtable known memtable := by
  cases held

/-- A value that a key holds at this time. -/
def Known.Shows (known : Known) (nowMs : UInt64) (key value : String) : Prop :=
  ∃ entry, known key entry ∧ entry.read nowMs = some value

theorem KnownTables.versionIn {tables : List SSTable} (held : KnownTables known tables)
    {key : String} {entry : MemtableEntry} (found : versionIn tables key = some entry)
    (stored : entry.value ≠ none)
    : known key entry := by
  rw [versionIn_eq_earliest] at found
  obtain ⟨record, first, rfl⟩ := Option.map_eq_some_iff.mp found
  obtain ⟨member, rfl⟩ := earliest_some Record.key first
  exact held.records record member stored

theorem LsmEngine.Knows.version (knows : engine.Knows known) {key : String}
    {entry : MemtableEntry} (found : engine.version key = some entry)
    (stored : entry.value ≠ none)
    : known key entry := by
  rw [LsmEngine.version, Option.or_eq_some_iff, Option.or_eq_some_iff] at found
  rcases found with inActive | ⟨-, inSlot | ⟨-, inTables⟩⟩
  · exact knows.active key entry inActive stored
  · obtain ⟨memtable, slot, held⟩ := Option.bind_eq_some_iff.mp inSlot
    exact knows.immutable memtable slot key entry held stored
  · exact knows.tables.versionIn inTables stored

/-- A version that is read is known. -/
theorem shows_of_readAt {version : Option MemtableEntry} {key value : String}
    (given : ∀ entry, version = some entry → entry.value ≠ none → known key entry)
    (read : readAt version nowMs = some value)
    : known.Shows nowMs key value := by
  obtain ⟨entry, found, read⟩ := Option.bind_eq_some_iff.mp read
  exact ⟨entry, given entry found (by rw [read_eq_some read]; nofun), read⟩

theorem LsmEngine.Knows.find (knows : engine.Knows known) (healthy : engine.Healthy)
    {key value : String} {tableMs : UInt64}
    (found : engine.find key nowMs tableMs = .ok (some value))
    : known.Shows nowMs key value ∨ known.Shows tableMs key value := by
  obtain ⟨readMs, times, same⟩ := LsmEngine.find_eq healthy.sound.valid key nowMs tableMs
  have shows : known.Shows readMs key value :=
    shows_of_readAt (fun _ => knows.version) (Except.ok.inj (same.symm.trans found))
  rcases times with rfl | rfl
  · exact .inl shows
  · exact .inr shows

/-- What a scan has found. -/
def ScansKnown (known : Known) (nowMs : UInt64) (keep : String → Bool)
    (found : SortedMap String String)
    : Prop :=
  ∀ key value, found[key]? = some value → keep key = true ∧ known.Shows nowMs key value

variable {keep : String → Bool} {found : SortedMap String String}

theorem ScansKnown.mono {more : Known} (scans : ScansKnown known nowMs keep found)
    (wider : ∀ key entry, known key entry → more key entry)
    : ScansKnown more nowMs keep found := by
  intro key value held
  obtain ⟨kept, entry, given, read⟩ := scans key value held
  exact ⟨kept, entry, wider key entry given, read⟩

theorem scansKnown_tables {tables : List SSTable} (valid : ∀ table ∈ tables, table.Valid)
    (held : KnownTables known tables)
    (scanned : LsmEngine.scanTables id nowMs keep tables ∅ = .ok found)
    : ScansKnown known nowMs keep found := by
  obtain ⟨same, scans, reads⟩ := scanTables_reads id nowMs keep valid
  obtain rfl := Except.ok.inj (scans.symm.trans scanned)
  intro key value shown
  rw [reads] at shown
  split at shown
  next kept =>
    rw [Option.map_id, id] at shown
    have listed : KnownTables known tables.reverse :=
      fun table member => held table (List.mem_reverse.mp member)
    exact ⟨kept, shows_of_readAt (fun _ => listed.versionIn) shown⟩
  next => cases shown

theorem ScansKnown.memtable (scans : ScansKnown known nowMs keep found) {memtable : Memtable}
    (held : KnownMemtable known memtable)
    : ScansKnown known nowMs keep (LsmEngine.scanMemtable id nowMs keep memtable found) := by
  intro key value shown
  rw [getElem?_scanMemtable] at shown
  split at shown
  next kept =>
    cases entry : memtable.entry key with
    | none =>
        rw [entry] at shown
        exact scans key value shown
    | some stored =>
        rw [entry, Option.elim_some, Option.map_id, id] at shown
        exact ⟨kept, stored, held key stored entry (by rw [read_eq_some shown]; nofun), shown⟩
  next => exact scans key value shown

/-- A range that meets three engines shows only values that one of them knows. -/
theorem knows_rangeAcross {tables slot active : LsmEngine} (healthy : tables.Healthy)
    (inTables : tables.Knows known) (inSlot : slot.Knows known) (inActive : active.Knows known)
    {start end_ : String} {pairs : List (String × String)}
    (ranged : LsmEngine.rangeAcross tables slot active start end_ nowMs = .ok pairs)
    : ∀ pair ∈ pairs,
        start ≤ pair.1 ∧ pair.1 ≤ end_ ∧ known.Shows nowMs pair.1 pair.2 := by
  unfold LsmEngine.rangeAcross at ranged
  split at ranged
  · obtain rfl := Except.ok.inj ranged
    nofun
  · obtain ⟨found, scanned, ranged⟩ := bind_eq_ok.mp ranged
    obtain rfl := Except.ok.inj ranged
    have first := scansKnown_tables
      (fun table member => healthy.sound.valid table (List.mem_of_mem_filter member))
      (fun table member => inTables.tables table (List.mem_of_mem_filter member)) scanned
    have second : ScansKnown known nowMs (fun key => start ≤ key && key ≤ end_)
        (slot.rangeImmutable start end_ nowMs found) := by
      unfold LsmEngine.rangeImmutable
      split
      next memtable held => exact first.memtable (inSlot.immutable memtable held)
      next => exact first
    rintro ⟨key, value⟩ member
    have last := second.memtable inActive.active key value
      ((SortedMap.mem_toList _ key value).mp member)
    obtain ⟨kept, shows⟩ := last
    rw [Bool.and_eq_true, decide_eq_true_eq, decide_eq_true_eq] at kept
    exact ⟨kept.1, kept.2, shows⟩

end Readers

-----------------------------------------------------------------------------------------
-- Runs
-----------------------------------------------------------------------------------------

/-- A call gave the key this value. The expiry came with it, or with a later `ttl`. -/
inductive Given (calls : List Call) (key : String) : MemtableEntry → Prop
  | set {value : String} (called : .set key value ∈ calls)
    : Given calls key { value := some value, expiryMs := none }
  | setWithTtl {value : String} {expiryMs : Option UInt64}
      (called : .setWithTtl key value expiryMs ∈ calls)
    : Given calls key { value := some value, expiryMs }
  | ttl {value : String} {earlier expiryMs : Option UInt64}
      (given : Given calls key { value := some value, expiryMs := earlier })
      (called : .ttl key expiryMs ∈ calls)
    : Given calls key { value := some value, expiryMs }

theorem Given.mono {calls more : List Call} (wider : calls ⊆ more) {key : String}
    {entry : MemtableEntry} (given : Given calls key entry)
    : Given more key entry := by
  induction given with
  | set called => exact .set (wider called)
  | setWithTtl called => exact .setWithTtl (wider called)
  | ttl given called ih => exact .ttl ih (wider called)

/-- A `ttl` writes the value that it found. -/
theorem Known.Shows.retimed {calls : List Call} {nowMs : UInt64} {key value : String}
    (shows : Known.Shows (Given calls) nowMs key value) {expiryMs : Option UInt64}
    (called : .ttl key expiryMs ∈ calls)
    : Given calls key { value := some value, expiryMs } := by
  obtain ⟨⟨stored, earlier⟩, given, read⟩ := shows
  obtain rfl : stored = some value := read_eq_some read
  exact .ttl given called

def Action.call? : Action → Option Call
  | .invoke _ call _ => some call
  | _ => none

def callsOf (actions : List Action) : List Call :=
  actions.filterMap Action.call?

/-- What a call under way may still write. -/
def Task.Traced (calls : List Call) : Task → Prop
  | .write key value expiryMs _ =>
      ∀ text, value = some text → Given calls key { value := some text, expiryMs }
  | .ttl key expiryMs _ => .ttl key expiryMs ∈ calls
  | _ => True

theorem Task.Traced.mono {calls more : List Call} (wider : calls ⊆ more) {task : Task}
    (traced : task.Traced calls)
    : task.Traced more := by
  cases task with
  | write key value expiryMs reply => exact fun text same => (traced text same).mono wider
  | ttl key expiryMs nowMs => exact wider traced
  | _ => trivial

theorem Task.traced_remove {calls : List Call} (key : String) (reply : Reply)
    : (Task.write key none none reply).Traced calls := by
  intro text same
  cases same

theorem Call.traced_begin {calls : List Call} {call : Call} (called : call ∈ calls)
    {nowMs : UInt64} {task : Task} (begins : call.begin nowMs = some task)
    : task.Traced calls := by
  cases call with
  | set key value =>
      obtain rfl := Option.some.inj begins
      rintro _ ⟨⟩
      exact .set called
  | setWithTtl key value expiryMs =>
      obtain rfl := Option.some.inj begins
      rintro _ ⟨⟩
      exact .setWithTtl called
  | ttl key expiryMs =>
      obtain rfl := Option.some.inj begins
      exact called
  | delete | get | compactStep | compact =>
      obtain rfl := Option.some.inj begins
      trivial
  | flush | background => cases begins

namespace System

/-- Nothing in the engine, the flush thread or the calls under way was made up. -/
structure Traced (calls : List Call) (system : System) : Prop where
  knows : system.engine.Knows (Given calls)
  flushing
    : ∀ sst, system.flusher.table = some sst → KnownRecords (Given calls) sst.records
  tasks
    : ∀ (thread : Nat) (task : Task),
        system.threads[thread]? = some task → task.Traced calls

variable {calls : List Call} {system next : System} {action : Action}

theorem traced_start {engine : LsmEngine} (knows : engine.Knows (Given calls))
    : (start engine).Traced calls where
  knows := knows
  flushing := by simp [start, Flusher.table]
  tasks := by simp [start]

theorem Traced.mono {more : List Call} (traced : system.Traced calls) (wider : calls ⊆ more)
    : system.Traced more where
  knows :=
    {
      active := traced.knows.active.mono fun _ _ given => given.mono wider
      immutable := fun memtable held =>
        (traced.knows.immutable memtable held).mono fun _ _ given => given.mono wider
      tables := traced.knows.tables.mono fun _ _ given => given.mono wider
    }
  flushing sst held record member stored :=
    (traced.flushing sst held record member stored).mono wider
  tasks thread task held := (traced.tasks thread task held).mono wider

theorem Traced.setTask (traced : system.Traced calls) (thread : Nat) {task : Task}
    (new : task.Traced calls)
    : (system.setTask thread task).Traced calls where
  knows := traced.knows
  flushing := traced.flushing
  tasks other held found := by
    rw [System.setTask, SortedMap.getElem?_insert] at found
    split at found
    · exact Option.some.inj found ▸ new
    · exact traced.tasks other held found

theorem traced_afterWrite (engine : LsmEngine) (reply : Reply)
    : (afterWrite engine reply).Traced calls := by
  unfold afterWrite
  split <;> trivial

theorem Traced.write (traced : system.Traced calls) {key : String} {value : Option String}
    {expiryMs : Option UInt64}
    (given : ∀ text, value = some text → Given calls key { value := some text, expiryMs })
    : { system with engine := system.engine.write key value expiryMs }.Traced calls where
  knows :=
    {
      active := by
        cases value with
        | some text => exact traced.knows.active.insert (given text rfl)
        | none => exact traced.knows.active.remove key
      immutable := traced.knows.immutable
      tables := traced.knows.tables
    }
  flushing := traced.flushing
  tasks := traced.tasks

theorem Traced.strategy (traced : system.Traced calls) {strategy : StorageStrategy}
    (held : KnownTables (Given calls) strategy.iterAll)
    : { system with engine := { system.engine with strategy } }.Traced calls :=
  { traced with knows := { traced.knows with tables := held } }

/-- Every step moves, merges or drops what is there, or writes what a call gave. Witness: one
case for each way it can go.
-/
theorem Traced.moves (traced : system.Traced calls) (formed : system.Formed)
    (called : ∀ call ∈ action.call?, call ∈ calls) {written last : Writes}
    {since until_ : UInt64} (moves : Moves system written since action next last until_)
    : next.Traced calls := by
  cases moves with
  | invoked begins => exact traced.setTask _ (Call.traced_begin (called _ rfl) begins)
  | answered result => exact @Traced.setTask _ _ traced _ (.returned result) trivial
  | checked found was => exact traced.setTask _ (Task.traced_remove _ _)
  | wrote was =>
      exact (traced.write (traced.tasks _ _ was)).setTask _ (traced_afterWrite _ _)
  | retimed reply was found =>
      refine (traced.write ?_).setTask _ (traced_afterWrite _ _)
      rintro _ ⟨⟩
      rcases traced.knows.find formed.healthy found with shows | shows
      · exact shows.retimed (traced.tasks _ _ was)
      · exact shows.retimed (traced.tasks _ _ was)
  | joined can => exact { traced with }
  | swapped holds =>
      exact {
        traced with
        knows := {
          active := knownMemtable_new
          immutable := by
            rintro _ ⟨⟩
            exact traced.knows.active
          tables := traced.knows.tables
        }
      }
  | spawned reply holds =>
      refine Traced.setTask ?_ _ trivial
      exact { traced with flushing := by simp [Flusher.table] }
  | released was can =>
      refine Traced.setTask ?_ _ trivial
      exact { traced with }
  | installed was free installs apart =>
      refine Traced.setTask ?_ _ trivial
      obtain ⟨sst, flushed, installs⟩ := bind_eq_ok.mp installs
      obtain ⟨strategy, added, installs⟩ := bind_eq_ok.mp installs
      obtain rfl := Except.ok.inj installs
      obtain ⟨-, rfl⟩ := LsmEngine.flushTable_eq_ok.mp flushed
      have new (settings : BlockSettings) (path : TablePath) :=
        knownRecords_fromMemtable settings path formed.healthy.active traced.knows.active
      exact {
        traced with
        knows := {
          active := knownMemtable_new
          immutable := knownSlot_none
          tables := StorageStrategy.known_addSstable traced.knows.tables (new _ _) added
        }
      }
  | merged was compacts apart =>
      refine Traced.setTask ?_ _ trivial
      have held := StorageStrategy.known_compactAll formed.healthy.sound traced.knows.tables
        compacts
      exact { traced.strategy held with }
  | stepped was compacts apart =>
      refine Traced.setTask ?_ _ trivial
      exact traced.strategy
        (StorageStrategy.known_compactIfNeeded formed.healthy.sound traced.knows.tables compacts)
  | created state slot creates =>
      obtain ⟨-, rfl⟩ := LsmEngine.flushTable_eq_ok.mp creates
      exact {
        traced with
        flushing := by
          rintro _ ⟨⟩
          exact knownRecords_fromMemtable _ _ (formed.healthy.immutable _ slot)
            (traced.knows.immutable _ slot)
      }
  | refused state slot fails => exact { traced with flushing := by simp [Flusher.table] }
  | skipped state slot => exact { traced with flushing := by simp [Flusher.table] }
  | wroteBlock state more =>
      exact {
        traced with
        flushing := by
          rintro _ ⟨⟩
          exact traced.flushing _ (by rw [state]; rfl)
      }
  | finished state all =>
      exact {
        traced with
        flushing := by
          rintro _ ⟨⟩
          exact traced.flushing _ (by rw [state]; rfl)
      }
  | added state adds =>
      have new := traced.flushing _ (by rw [state]; rfl)
      exact {
        traced with
        knows :=
          { traced.knows with
            tables := StorageStrategy.known_addSstable traced.knows.tables new adds }
        flushing := by simp [Flusher.table]
      }
  | poisoned state fails => exact { traced with flushing := by simp [Flusher.table] }
  | cleared state =>
      exact {
        traced with
        knows := { traced.knows with immutable := knownSlot_none }
        flushing := by simp [Flusher.table]
      }

/-- Steps of calls that begin with keys and values that fit. -/
def runs (actions : List Action) (system : System) : Option System :=
  steps System.step (fun _ action => action.fits) actions system

/-- Witness: induction over the steps. -/
theorem Traced.runs {before actions : List Action} {last : System}
    (traced : system.Traced (callsOf before)) (formed : system.Formed)
    (ran : system.runs actions = some last)
    : last.Formed ∧ last.Traced (callsOf (before ++ actions)) := by
  induction actions generalizing system before with
  | nil =>
      obtain rfl := Option.some.inj ran
      rw [List.append_nil]
      exact ⟨formed, traced⟩
  | cons action rest ih =>
      unfold System.runs steps at ran
      split at ran
      next fits =>
        obtain ⟨next, taken, ran⟩ := Option.bind_eq_some_iff.mp ran
        have moves := Moves.of_step Writes.none 0 taken
        have wider : callsOf before ⊆ callsOf (before ++ [action]) := by
          simp [callsOf, List.filterMap_append]
        have called : ∀ call ∈ action.call?, call ∈ callsOf (before ++ [action]) := by
          intro call held
          rw [callsOf, List.mem_filterMap]
          exact ⟨action, by simp, held⟩
        have stepped := (traced.mono wider).moves formed called moves
        have final := ih stepped (formed.moves fits moves) ran
        rwa [List.append_assoc, List.singleton_append] at final
      next => cases ran

end System

/-- Whatever the strategy, the calls and the order of their sections with the flush thread and
with compactions, a `get` shows only values that a call gave for its key and that have not
expired, and so does a `range` whose three sections meet the run at any three moments.
-/
theorem reads_were_given {strategy : StorageStrategy} (new : strategy.New)
    (maxMemtableBytes : Nat) (settings : BlockSettings) {front middle back : List Action}
    {tables slot active : System}
    (reached
      : (System.start (LsmEngine.new maxMemtableBytes strategy settings)).runs front
        = some tables)
    (onwards : tables.runs middle = some slot) (ahead : slot.runs back = some active)
    : (∀ key value nowMs tableMs,
          tables.engine.find key nowMs tableMs = .ok (some value)
          → Known.Shows (Given (callsOf front)) nowMs key value
            ∨ Known.Shows (Given (callsOf front)) tableMs key value)
      ∧ ∀ start end_ nowMs pairs,
          LsmEngine.rangeAcross tables.engine slot.engine active.engine start end_ nowMs
            = .ok pairs
          → ∀ pair ∈ pairs,
              start ≤ pair.1
              ∧ pair.1 ≤ end_
              ∧ Known.Shows (Given (callsOf (front ++ middle ++ back))) nowMs pair.1 pair.2 := by
  have begun : (System.start (LsmEngine.new maxMemtableBytes strategy settings)).Traced
      (callsOf []) := by
    refine System.traced_start ⟨knownMemtable_new, nofun, ?_⟩
    change KnownTables _ strategy.iterAll
    rw [new.iterAll]
    nofun
  have formed := System.formed_start
    (LsmEngine.healthy_new new.sound maxMemtableBytes settings) rfl
  obtain ⟨formedTables, tracedTables⟩ := begun.runs formed reached
  obtain ⟨formedSlot, tracedSlot⟩ := tracedTables.runs formedTables onwards
  obtain ⟨-, tracedActive⟩ := tracedSlot.runs formedSlot ahead
  rw [List.nil_append] at *
  refine ⟨fun key value nowMs tableMs => tracedTables.knows.find formedTables.healthy, ?_⟩
  intro start end_ nowMs pairs
  have sooner : callsOf front ⊆ callsOf (front ++ middle ++ back) := by
    simp [callsOf, List.filterMap_append]
  have later : callsOf (front ++ middle) ⊆ callsOf (front ++ middle ++ back) := by
    simp [callsOf, List.filterMap_append]
  exact knows_rangeAcross formedTables.healthy (tracedTables.mono sooner).knows
    (tracedSlot.mono later).knows tracedActive.knows

/-- The flush thread has written the second table, but not added it. -/
def secondFlush : List Action :=
  List.replicate 3 (.background 2)

/-- Witness: a range over two flushes of one key, the second of which is under way. -/
theorem reads_were_given_flushed
    : ∃ tables slot active,
        (System.start (LsmEngine.new 1 (.leveled (Leveled.new 2 4 1000 smallBlocks))
            smallBlocks)).runs (setAndSpawn ++ flushSteps 5)
          = some tables
        ∧ tables.runs setAndSpawn = some slot
        ∧ slot.runs secondFlush = some active
        ∧ ∀ pairs,
            LsmEngine.rangeAcross tables.engine slot.engine active.engine "a" "z" 10
              = .ok pairs
            → ∀ pair ∈ pairs,
                Known.Shows
                  (Given (callsOf (setAndSpawn ++ flushSteps 5 ++ setAndSpawn ++ secondFlush)))
                  10 pair.1 pair.2 := by
  have computed : ((System.start (LsmEngine.new 1
      (.leveled (Leveled.new 2 4 1000 smallBlocks)) smallBlocks)).runs
      (setAndSpawn ++ flushSteps 5)).any (fun tables =>
        (tables.runs setAndSpawn).any (fun slot => (slot.runs secondFlush).isSome))
      = true := by
    decide +kernel
  simp only [Option.any_eq_true, Option.isSome_iff_exists] at computed
  obtain ⟨tables, reached, slot, onwards, active, ahead⟩ := computed
  have given := (reads_were_given (.leveled 2 4 1000 smallBlocks) 1 smallBlocks reached onwards
    ahead).2 "a" "z" 10
  exact ⟨tables, slot, active, reached, onwards, ahead,
    fun pairs ranged pair member => (given pairs ranged pair member).2.2⟩

end Rustikv.Lsm

import Rustikv.Lsm.Engine
import Rustikv.Lsm.TableLayout

/-! The versions of a key in tables and memtables: what a lookup finds, and what a merge
keeps.
-/

namespace Rustikv.Lsm

open Library

-----------------------------------------------------------------------------------------
-- Versions that read alike
-----------------------------------------------------------------------------------------

/-- What a reader sees of a version that may be missing. -/
def readAt (version : Option MemtableEntry) (nowMs : UInt64) : Option String :=
  version.bind (fun entry => entry.read nowMs)

/-- `version` is what was `written`, or it reads as absent and from `since` on so does what
was written.
-/
def StandsFor (since : UInt64) (version written : Option MemtableEntry) : Prop :=
  version = written
  ∨ (∀ nowMs, readAt version nowMs = none)
    ∧ ∀ nowMs, since ≤ nowMs → readAt written nowMs = none

namespace StandsFor

variable {since later nowMs : UInt64} {version middle written : Option MemtableEntry}

theorem refl : StandsFor since written written :=
  .inl rfl

theorem read (stands : StandsFor since version written) (reached : since ≤ nowMs)
    : readAt version nowMs = readAt written nowMs := by
  rcases stands with rfl | ⟨absent, gone⟩
  · rfl
  · rw [absent nowMs, gone nowMs reached]

/-- A version that is read at all is the one written. -/
theorem eq_of_read (stands : StandsFor since version written) {value : String}
    (found : readAt version nowMs = some value)
    : version = written := by
  rcases stands with same | ⟨absent, -⟩
  · exact same
  · rw [absent nowMs] at found
    cases found

theorem mono (stands : StandsFor since version written) (order : since ≤ later)
    : StandsFor later version written := by
  rcases stands with same | ⟨absent, gone⟩
  · exact .inl same
  · exact .inr ⟨absent, fun nowMs reached => gone nowMs (UInt64.le_trans order reached)⟩

theorem trans (front : StandsFor since version middle)
    (back : StandsFor since middle written)
    : StandsFor since version written := by
  rcases front with rfl | ⟨absent, gone⟩
  · exact back
  · refine .inr ⟨absent, fun nowMs reached => ?_⟩
    rw [← back.read reached]
    exact gone nowMs reached

/-- Whatever shadows both sides may be put in front. -/
theorem behind (stands : StandsFor since version written) (front : Option MemtableEntry)
    : StandsFor since (front.or version) (front.or written) := by
  cases front with
  | none => simpa using stands
  | some entry => exact .inl rfl

/-- Older versions behind both sides do not matter when they stay shadowed or there are
none.
-/
theorem before (stands : StandsFor since version written) {rest : Option MemtableEntry}
    (shadowed : version.isSome = written.isSome ∨ rest = none)
    : StandsFor since (version.or rest) (written.or rest) := by
  rcases shadowed with same | rfl
  · cases version <;> cases written <;> simp_all [StandsFor]
  · simpa using stands

end StandsFor

/-- A tombstone never reads as anything. -/
theorem read_tombstone (nowMs : UInt64)
    : ({ value := none, expiryMs := none } : MemtableEntry).read nowMs = none := rfl

-----------------------------------------------------------------------------------------
-- Lookups
-----------------------------------------------------------------------------------------

/-- The first version of the key in a list of tables. -/
def versionIn (tables : List SSTable) (key : String) : Option MemtableEntry :=
  tables.findSome? (fun table => table.version key)

def StorageStrategy.version (strategy : StorageStrategy) (key : String)
    : Option MemtableEntry :=
  versionIn strategy.iterAll key

def LsmEngine.version (engine : LsmEngine) (key : String) : Option MemtableEntry :=
  (engine.active.entry key).or
    ((engine.immutable.bind (fun memtable => memtable.entry key)).or
      (engine.strategy.version key))

@[simp]
theorem versionIn_nil (key : String) : versionIn [] key = none := rfl

@[simp]
theorem versionIn_append (front back : List SSTable) (key : String)
    : versionIn (front ++ back) key = (versionIn front key).or (versionIn back key) := by
  simp [versionIn, List.findSome?_append]

theorem versionIn_cons (table : SSTable) (rest : List SSTable) (key : String)
    : versionIn (table :: rest) key = (table.version key).or (versionIn rest key) := by
  rw [versionIn, List.findSome?_cons, versionIn]
  cases table.version key <;> rfl

theorem versionIn_eq_none {tables : List SSTable} {key : String}
    : versionIn tables key = none ↔ ∀ table ∈ tables, table.version key = none := by
  simp [versionIn]

theorem SSTable.version_eq_none {table : SSTable} {key : String}
    : table.version key = none ↔ ∀ record ∈ table.records, record.key ≠ key := by
  rw [SSTable.version, Option.map_eq_none_iff, earliest_none]

theorem SSTable.exists_record {table : SSTable} {key : String}
    (held : (table.version key).isSome = true)
    : ∃ record ∈ table.records, record.key = key := by
  by_contra absent
  have missing : table.version key = none := by
    rw [SSTable.version_eq_none]
    exact fun record member same => absent ⟨record, member, same⟩
  rw [missing] at held
  cases held

/-- The first version in the tables is the first record of the key in them. -/
theorem versionIn_eq_earliest (tables : List SSTable) (key : String)
    : versionIn tables key
      = (earliest Record.key (tables.flatMap SSTable.records) key).map Record.entry := by
  induction tables with
  | nil => rfl
  | cons table rest ih =>
      rw [versionIn_cons, ih, List.flatMap_cons, earliest_append, SSTable.version]
      cases earliest Record.key table.records key <;> simp

/-- Tables the Bloom filter rules out do not matter to a lookup. -/
theorem lookupTables_filter {tables : List SSTable}
    (valid : ∀ table ∈ tables, table.Valid) (key : String) (nowMs : UInt64)
    : lookupTables key nowMs (tables.filter (fun sst => sst.bloom.mightContain key))
      = .ok (readAt (versionIn tables key) nowMs) := by
  induction tables with
  | nil => rfl
  | cons table rest ih =>
      have tail := ih (fun other member => valid other (List.mem_cons_of_mem _ member))
      have search := (valid table (by simp)).get key nowMs
      rw [versionIn_cons]
      by_cases maybe : table.bloom.mightContain key = true
      · rw [List.filter_cons_of_pos (by simpa using maybe), lookupTables, search]
        cases found : table.version key with
        | none => simpa using tail
        | some entry => rfl
      · have absent : table.version key = none := by
          rw [SSTable.version_eq_none]
          rintro record member rfl
          exact maybe ((valid table (by simp)).mightContain member)
        rw [List.filter_cons_of_neg (by simpa using maybe), tail, absent]
        rfl

/-- A lookup reads the first version of its key, a memtable's at the caller's time and a
table's at the time of the search.
-/
theorem LsmEngine.find_eq {engine : LsmEngine}
    (valid : ∀ table ∈ engine.strategy.iterAll, table.Valid) (key : String)
    (nowMs tableMs : UInt64)
    : ∃ readMs,
        (readMs = nowMs ∨ readMs = tableMs)
        ∧ engine.find key nowMs tableMs = .ok (readAt (engine.version key) readMs) := by
  have tables : lookupTables key tableMs (engine.strategy.iterForKey key)
      = .ok (readAt (engine.strategy.version key) tableMs) :=
    lookupTables_filter valid key tableMs
  unfold LsmEngine.find Lsm.lookup LsmEngine.version
  cases active : engine.active.entry key with
  | some entry => exact ⟨nowMs, .inl rfl, rfl⟩
  | none =>
      cases held : engine.immutable.bind (fun memtable => memtable.entry key) with
      | some entry => exact ⟨nowMs, .inl rfl, rfl⟩
      | none => exact ⟨tableMs, .inr rfl, by simpa using tables⟩

-----------------------------------------------------------------------------------------
-- Merges
-----------------------------------------------------------------------------------------

theorem isDead_eq (record : Record) (nowMs : UInt64)
    : isDead record nowMs = (record.entry.read nowMs).isNone := by
  unfold isDead Record.entry
  cases record.header.isTombstone with
  | true => rfl
  | false =>
      cases expiry : record.header.expiryMs with
      | none => simp [MemtableEntry.read]
      | some ms => by_cases expired : isExpired ms nowMs = true <;> simp [MemtableEntry.read,
          expired]

theorem isDead_mono {record : Record} {earlier later : UInt64} (order : earlier ≤ later)
    (dead : isDead record earlier = true)
    : isDead record later = true := by
  rw [isDead_eq, Option.isNone_iff_eq_none] at dead ⊢
  exact MemtableEntry.read_mono order dead

/-- What a merge keeps of a record it is the first to see of its key. -/
def mergedEntry (dropDead : Bool) (nowMs : UInt64) (record : Record)
    : Option MemtableEntry :=
  if isDead record nowMs then
    if dropDead then none else some { value := none, expiryMs := none }
  else
    some record.entry

theorem entry_mergeRecord (dropDead : Bool) (nowMs : UInt64) (memtable : Memtable)
    (record : Record) (key : String)
    : (mergeRecord dropDead nowMs memtable record).entry key
      = if record.key = key then
          (memtable.entry key).or (mergedEntry dropDead nowMs record)
        else memtable.entry key := by
  unfold mergeRecord mergedEntry
  by_cases same : record.key = key
  · subst same
    cases held : memtable.entry record.key with
    | some entry => simp [held]
    | none =>
        by_cases dead : isDead record nowMs = true
        · cases dropDead <;> simp [dead, held]
        · have plain : record.header.isTombstone = false := by
            simp only [isDead, Bool.or_eq_true, not_or, Bool.not_eq_true] at dead
            exact dead.1
          simp [dead, Record.entry, plain]
  · cases memtable.entry record.key <;> cases isDead record nowMs <;> cases dropDead <;>
      simp [same]

/-- Witness: the first record of a key that a merge keeps is never overwritten. -/
theorem entry_merge (dropDead : Bool) (nowMs : UInt64) (records : List Record)
    (memtable : Memtable) (key : String)
    : (records.foldl (mergeRecord dropDead nowMs) memtable).entry key
      = (memtable.entry key).or
          (records.findSome?
            (fun record =>
              if record.key = key then mergedEntry dropDead nowMs record else none)) :=
  lookup_foldl_earliest Record.key Memtable.entry (mergeRecord dropDead nowMs)
    (mergedEntry dropDead nowMs) (entry_mergeRecord dropDead nowMs) records memtable key

/-- No key has a live record behind a dead first one. -/
def SafeDrop (nowMs : UInt64) (records : List Record) : Prop :=
  ∀ record ∈ records,
    earliest Record.key records record.key = some record
    → isDead record nowMs = true
    → ∀ other ∈ records, other.key = record.key → isDead other nowMs = true

instance (nowMs : UInt64) (records : List Record) : Decidable (SafeDrop nowMs records) :=
  inferInstanceAs (Decidable (∀ _ ∈ _, _))

/-- The entry of a key after a merge, when dead records are dropped only if nothing live is
behind them.
-/
theorem entry_merge_new {dropDead : Bool} {nowMs : UInt64} {records : List Record}
    (safe : dropDead = true → SafeDrop nowMs records) (key : String)
    : (records.foldl (mergeRecord dropDead nowMs) Memtable.new).entry key
      = (earliest Record.key records key).bind (mergedEntry dropDead nowMs) := by
  rw [entry_merge, Memtable.entry_new, Option.none_or]
  cases found : earliest Record.key records key with
  | none =>
      rw [earliest_none] at found
      rw [Option.bind_none, List.findSome?_eq_none_iff]
      intro record member
      simp [found record member]
  | some record =>
      obtain ⟨member, rfl⟩ := earliest_some Record.key found
      rw [Option.bind_some]
      by_cases dropped : mergedEntry dropDead nowMs record = none
      · rw [dropped, List.findSome?_eq_none_iff]
        have terminal : dropDead = true ∧ isDead record nowMs = true := by
          unfold mergedEntry at dropped
          split at dropped
          next dead => exact ⟨by_contra (fun kept => by simp [kept] at dropped), dead⟩
          next => cases dropped
        intro other inside
        by_cases same : other.key = record.key
        · have dead := safe terminal.1 record member found terminal.2 other inside same
          simp [same, mergedEntry, dead, terminal.1]
        · simp [same]
      · obtain ⟨entry, kept⟩ := Option.ne_none_iff_exists'.mp dropped
        obtain ⟨-, front, back, split, others⟩ := List.find?_eq_some_iff_append.mp found
        have skipped : front.findSome?
            (fun other =>
              if other.key = record.key then mergedEntry dropDead nowMs other else none)
            = none := by
          rw [List.findSome?_eq_none_iff]
          intro other inside
          have differs := others other inside
          simp only [Bool.not_eq_eq_eq_not, Bool.not_true, decide_eq_false_iff_not] at differs
          simp [differs]
        rw [split, List.findSome?_append, skipped]
        simp [kept]

/-- A merged key reads as its first record did, from the time of the merge on. -/
theorem mergedEntry_standsFor (dropDead : Bool) (nowMs : UInt64) (record : Option Record)
    : StandsFor nowMs (record.bind (mergedEntry dropDead nowMs)) (record.map Record.entry)
    := by
  cases record with
  | none => exact .refl
  | some record =>
      rw [Option.bind_some, Option.map_some, mergedEntry]
      split
      next dead =>
        have absent : ∀ later, nowMs ≤ later → readAt (some record.entry) later = none := by
          intro later reached
          have gone := isDead_mono reached dead
          rwa [isDead_eq, Option.isNone_iff_eq_none] at gone
        cases dropDead with
        | true => exact .inr ⟨fun _ => rfl, absent⟩
        | false => exact .inr ⟨fun _ => rfl, absent⟩
      next => exact .refl

theorem storableTable_merge (dropDead : Bool) (nowMs : UInt64) {records : List Record}
    (valid : ∀ record ∈ records, Record.codec.Valid record) {memtable : Memtable}
    (storable : StorableTable memtable)
    : StorableTable (records.foldl (mergeRecord dropDead nowMs) memtable) := by
  induction records generalizing memtable with
  | nil => exact storable
  | cons record rest ih =>
      refine ih (fun other member => valid other (List.mem_cons_of_mem _ member)) ?_
      have formed := (valid record (by simp)).1
      unfold mergeRecord
      split
      · exact storable
      · split
        · split
          · exact storable
          · exact storable.remove formed.keyLimit
        · exact storable.insert ⟨formed.keyLimit, formed.valueLimit⟩ _

/-- Merging valid tables folds their records and meets no error. -/
theorem mergeTables_eq (dropDead : Bool) (nowMs : UInt64) {tables : List SSTable}
    (valid : ∀ table ∈ tables, table.Valid) (memtable : Memtable)
    : mergeTables dropDead nowMs tables memtable
      = .ok ((tables.flatMap SSTable.records).foldl (mergeRecord dropDead nowMs) memtable)
    := by
  induction tables generalizing memtable with
  | nil => rfl
  | cons table rest ih =>
      have tail := ih (fun other member => valid other (List.mem_cons_of_mem _ member))
        (table.records.foldl (mergeRecord dropDead nowMs) memtable)
      unfold mergeTables at tail ⊢
      rw [List.foldlM_cons, (valid table (by simp)).iter, mapM_ok]
      simp only [ok_bind, pure_bind, List.flatMap_cons, List.foldl_append]
      exact tail

theorem valid_flatMap_records {tables : List SSTable}
    (valid : ∀ table ∈ tables, table.Valid)
    : ∀ record ∈ tables.flatMap SSTable.records, Record.codec.Valid record := by
  intro record member
  obtain ⟨table, inside, held⟩ := List.mem_flatMap.mp member
  exact (valid table inside).readable held

/-- The table a merge of `records` creates. -/
def mergedTable (settings : BlockSettings) (path : TablePath) (dropDead : Bool)
    (nowMs : UInt64) (records : List Record)
    : SSTable :=
  SSTable.fromMemtable settings path
    (records.foldl (mergeRecord dropDead nowMs) Memtable.new)

section MergedTable

variable (settings : BlockSettings) (path : TablePath) (dropDead : Bool) (nowMs : UInt64)
  {records : List Record}

theorem valid_mergedTable (valid : ∀ record ∈ records, Record.codec.Valid record)
    : (mergedTable settings path dropDead nowMs records).Valid :=
  SSTable.valid_fromMemtable settings path (storableTable_merge _ _ valid storableTable_new)

/-- A merge that drops safely leaves each key the version its first record stands for. -/
theorem version_mergedTable (valid : ∀ record ∈ records, Record.codec.Valid record)
    (safe : dropDead = true → SafeDrop nowMs records) (key : String)
    : (mergedTable settings path dropDead nowMs records).version key
      = (earliest Record.key records key).bind (mergedEntry dropDead nowMs) := by
  rw [mergedTable, SSTable.version_fromMemtable settings path
    (storableTable_merge _ _ valid storableTable_new), entry_merge_new safe]

variable {settings path dropDead nowMs}

/-- A merge adds no key. -/
theorem key_of_mem_mergedTable (valid : ∀ record ∈ records, Record.codec.Valid record)
    {record : Record}
    (member : record ∈ (mergedTable settings path dropDead nowMs records).records)
    : ∃ other ∈ records, other.key = record.key := by
  rw [mergedTable, SSTable.records_fromMemtable settings path
    (storableTable_merge _ _ valid storableTable_new)] at member
  obtain ⟨key, entry, found, rfl⟩ := mem_memtableRecords.mp member
  rw [entry_merge, Memtable.entry_new, Option.none_or] at found
  obtain ⟨other, inside, kept⟩ := List.exists_of_findSome?_eq_some found
  by_cases same : other.key = key
  · exact ⟨other, inside, same⟩
  · simp [same] at kept

end MergedTable

/-- A list splits at any of its items. -/
theorem exists_split {α : Type} {items : List α} {i : Nat} {item : α}
    (found : items[i]? = some item)
    : ∃ front back, items = front ++ item :: back ∧ front.length = i := by
  obtain ⟨inside, held⟩ := List.getElem?_eq_some_iff.mp found
  refine ⟨items.take i, items.drop (i + 1), ?_, by simp; omega⟩
  rw [← held, ← List.drop_eq_getElem_cons inside, List.take_append_drop]

theorem createTable_eq_ok {settings : BlockSettings} {existing : List TablePath}
    {path : TablePath} {memtable : Memtable} {sst : SSTable}
    : createTable settings existing path memtable = .ok sst
      ↔ path ∉ existing ∧ SSTable.fromMemtable settings path memtable = sst := by
  unfold createTable
  split <;> simp [*]

end Rustikv.Lsm

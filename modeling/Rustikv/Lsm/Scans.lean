import Rustikv.Lsm.CompactRace

/-! Scans against point reads. A lookup takes the first table that holds its key, while
`list_keys` and `range` apply the tables in the same order and let the last one win.
-/

namespace Rustikv.Lsm

open Library

-----------------------------------------------------------------------------------------
-- What a scan collects
-----------------------------------------------------------------------------------------

section Overlay

variable {ν : Type} (view : String → ν) (nowMs : UInt64) (keep : String → Bool)

theorem getElem?_overlay (found : SortedMap String ν) (key other : String)
    (entry : MemtableEntry)
    : (overlay view nowMs found key entry)[other]?
      = if key = other then (entry.read nowMs).map view else found[other]? := by
  unfold overlay
  cases entry.read nowMs <;> simp

/-- A pass over a memtable replaces what was found of its keys. -/
theorem getElem?_scanMemtable (memtable : Memtable) (found : SortedMap String ν)
    (key : String)
    : (LsmEngine.scanMemtable view nowMs keep memtable found)[key]?
      = if keep key then
          (memtable.entry key).elim found[key]? (fun entry => (entry.read nowMs).map view)
        else found[key]? := by
  have reads := lookup_foldl_latest Prod.fst (fun found key => found[key]?)
    (fun found item => overlay view nowMs found item.1 item.2)
    (fun item => (MemtableEntry.read item.2 nowMs).map view)
    (fun state item k => getElem?_overlay view nowMs state item.1 k item.2)
    (memtable.entries.toList.filter (fun item => keep item.1)) found key
  rw [LsmEngine.scanMemtable, reads, latest_filter Prod.fst keep, SortedMap.latest_toList]
  cases keep key with
  | false => rfl
  | true => cases held : memtable.entries[key]? <;> simp [Memtable.entry, held]

/-- A pass over valid tables meets no error and applies their records one by one. -/
theorem scanTables_eq {tables : List SSTable} (valid : ∀ table ∈ tables, table.Valid)
    (found : SortedMap String ν)
    : LsmEngine.scanTables view nowMs keep tables found
      = .ok (((tables.flatMap SSTable.records).filter (fun record => keep record.key)).foldl
          (fun found record => overlay view nowMs found record.key record.entry) found) := by
  induction tables generalizing found with
  | nil => rfl
  | cons table rest ih =>
      have tail := ih (fun other member => valid other (List.mem_cons_of_mem _ member))
      unfold LsmEngine.scanTables at tail ⊢
      rw [List.foldlM_cons, (valid table (by simp)).iter, mapM_ok]
      simp only [ok_bind, pure_bind, List.flatMap_cons, List.filter_append,
        List.foldl_append]
      exact tail _

end Overlay

/-- The last version of a key in the tables, in the order they are listed. -/
theorem latest_flatMap_records {tables : List SSTable}
    (valid : ∀ table ∈ tables, table.Valid) (key : String)
    : (latest Record.key (tables.flatMap SSTable.records) key).map Record.entry
      = versionIn tables.reverse key := by
  induction tables with
  | nil => rfl
  | cons table rest ih =>
      have tail := ih (fun other member => valid other (List.mem_cons_of_mem _ member))
      have distinct : table.records.Pairwise (fun left right => left.key ≠ right.key) :=
        (valid table (by simp)).sorted.imp (fun before => before.ne)
      rw [List.flatMap_cons, latest_append, latest_eq_earliest Record.key distinct,
        List.reverse_cons, versionIn_append, ← tail, versionIn_cons, versionIn_nil,
        Option.or_none, SSTable.version]
      cases latest Record.key (rest.flatMap SSTable.records) key <;> simp

/-- A pass over valid tables finds the last version they list of every key it keeps. -/
theorem scanTables_reads {ν : Type} (view : String → ν) (nowMs : UInt64)
    (keep : String → Bool) {tables : List SSTable} (valid : ∀ table ∈ tables, table.Valid)
    : ∃ found,
        LsmEngine.scanTables view nowMs keep tables ∅ = .ok found
        ∧ ∀ key : String,
            found[key]?
            = if keep key then (readAt (versionIn tables.reverse key) nowMs).map view
              else none := by
  refine ⟨_, scanTables_eq view nowMs keep valid ∅, fun key => ?_⟩
  have reads := lookup_foldl_latest Record.key
    (fun (found : SortedMap String ν) key => found[key]?)
    (fun found record => overlay view nowMs found record.key record.entry)
    (fun record => (record.entry.read nowMs).map view)
    (fun state record k => getElem?_overlay view nowMs state record.key k record.entry)
    ((tables.flatMap SSTable.records).filter (fun record => keep record.key)) ∅ key
  rw [latest_filter Record.key keep] at reads
  rw [reads, ← latest_flatMap_records valid key]
  cases keep key with
  | false => simp
  | true =>
      cases latest Record.key (tables.flatMap SSTable.records) key <;> simp [readAt]

namespace LsmEngine

/-- What a scan over these tables resolves a key to. -/
def scanned (engine : LsmEngine) (tables : List SSTable) (key : String)
    : Option MemtableEntry :=
  (engine.active.entry key).or
    ((engine.immutable.bind (fun memtable => memtable.entry key)).or
      (versionIn tables.reverse key))

variable {engine : LsmEngine}

/-- A scan finds what the keys it keeps are resolved to. -/
theorem scan_eq (engine : LsmEngine) {ν : Type} (view : String → ν) (nowMs : UInt64)
    (keep : String → Bool) {tables : List SSTable} (valid : ∀ table ∈ tables, table.Valid)
    : ∃ found,
        engine.scan view nowMs keep tables = .ok found
        ∧ ∀ key : String,
            found[key]?
            = if keep key then (readAt (engine.scanned tables key) nowMs).map view
              else none := by
  obtain ⟨found, scans, reads⟩ := scanTables_reads view nowMs keep valid
  refine ⟨_, by rw [scan, scans]; rfl, fun key => ?_⟩
  have behind := reads key
  rw [getElem?_scanMemtable, scanned]
  cases kept : keep key with
  | false =>
      simp only [kept, Bool.false_eq_true, if_false] at behind ⊢
      cases engine.immutable with
      | none => exact behind
      | some memtable => simpa [getElem?_scanMemtable, kept] using behind
  | true =>
      simp only [kept, if_true] at behind ⊢
      cases engine.active.entry key with
      | some entry => rfl
      | none =>
          cases engine.immutable with
          | none => simpa using behind
          | some memtable =>
              simp only [getElem?_scanMemtable, kept, if_true, Option.elim_none,
                Option.none_or, Option.bind_some]
              cases memtable.entry key with
              | some entry => rfl
              | none => simpa using behind

/-- Tables outside a range do not hold its keys. -/
theorem versionIn_filter_overlaps {tables : List SSTable}
    (valid : ∀ table ∈ tables, table.Valid) {start end_ key : String} (low : start ≤ key)
    (high : key ≤ end_)
    : versionIn (tables.filter (fun sst => sst.overlaps start end_)) key
      = versionIn tables key := by
  induction tables with
  | nil => rfl
  | cons table rest ih =>
      have tail := ih (fun other member => valid other (List.mem_cons_of_mem _ member))
      by_cases meets : table.overlaps start end_ = true
      · rw [List.filter_cons, if_pos meets, versionIn_cons, versionIn_cons, tail]
      · have absent : table.version key = none := by
          rw [SSTable.version_eq_none]
          rintro record member rfl
          exact meets ((SSTable.overlaps_iff (valid table (by simp)) _ _).mpr
            ⟨⟨record, member, low⟩, record, member, high⟩)
        rw [List.filter_cons, if_neg meets, versionIn_cons, absent, Option.none_or, tail]

-----------------------------------------------------------------------------------------
-- Agreement with point reads
-----------------------------------------------------------------------------------------

/-- At one moment: a range returns the pairs that point reads return, in ascending order,
and the listed keys are those that a point read finds.
-/
structure ScansAgree (engine : LsmEngine) (order : IterOrder) (nowMs : UInt64) : Prop where
  range
    : ∀ start end_,
        ∃ pairs,
          engine.range start end_ nowMs = .ok pairs
          ∧ pairs.Pairwise (fun left right => left.1 < right.1)
          ∧ ∀ key value,
              (key, value) ∈ pairs
              ↔ start ≤ key
                ∧ key ≤ end_
                ∧ engine.get key (fun _ => nowMs) = .ok (some (key, value))
  listKeys
    : ∃ keys,
        engine.listKeys order nowMs = .ok keys
        ∧ keys.Nodup
        ∧ ∀ key,
            key ∈ keys
            ↔ ∃ value, engine.get key (fun _ => nowMs) = .ok (some (key, value))

/-- For every key in neither memtable, the first and the last table that hold it read alike.
-/
def TablesAgree (engine : LsmEngine) (nowMs : UInt64) : Prop :=
  ∀ key,
    engine.active.entry key = none
    → engine.immutable.bind (fun memtable => memtable.entry key) = none
    → readAt (versionIn engine.strategy.iterAll key) nowMs
      = readAt (versionIn engine.strategy.iterAll.reverse key) nowMs

theorem tablesAgree_iff (engine : LsmEngine) (nowMs : UInt64)
    : engine.TablesAgree nowMs
      ↔ ∀ key,
          readAt (engine.version key) nowMs
          = readAt (engine.scanned engine.strategy.iterAll key) nowMs := by
  refine forall_congr' (fun key => ?_)
  unfold version scanned StorageStrategy.version
  cases engine.active.entry key with
  | some entry => simp
  | none =>
      cases engine.immutable.bind (fun memtable => memtable.entry key) with
      | some entry => simp
      | none => simp

theorem Healthy.get_eq (healthy : engine.Healthy) (key : String) (nowMs : UInt64)
    : engine.get key (fun _ => nowMs)
      = .ok ((readAt (engine.version key) nowMs).map (fun value => (key, value))) := by
  have stands : StandsFor 0 (engine.version key) (engine.version key) := .refl
  obtain ⟨readMs, rfl | rfl, found⟩ := get_written healthy stands (fun _ => nowMs)
    UInt64.zero_le UInt64.le_rfl
  · exact found
  · exact found

theorem Healthy.get_eq_some (healthy : engine.Healthy) {key value : String}
    {nowMs : UInt64}
    : engine.get key (fun _ => nowMs) = .ok (some (key, value))
      ↔ readAt (engine.version key) nowMs = some value := by
  rw [healthy.get_eq]
  simp

/-- A range returns, in ascending order, what its keys are resolved to. -/
theorem Healthy.range_eq (healthy : engine.Healthy) (start end_ : String) (nowMs : UInt64)
    : ∃ pairs,
        engine.range start end_ nowMs = .ok pairs
        ∧ pairs.Pairwise (fun left right => left.1 < right.1)
        ∧ ∀ key value,
            (key, value) ∈ pairs
            ↔ start ≤ key
              ∧ key ≤ end_
              ∧ readAt (engine.scanned engine.strategy.iterAll key) nowMs = some value := by
  unfold range
  by_cases backwards : end_ < start
  · refine ⟨[], if_pos backwards, .nil, fun key value => ?_⟩
    simp only [List.not_mem_nil, false_iff, not_and]
    intro low high
    exact absurd (le_trans low high) (not_le.mpr backwards)
  · have valid : ∀ table ∈ engine.strategy.iterFilesForRange start end_, table.Valid :=
      fun table member => healthy.sound.valid table (List.mem_of_mem_filter member)
    obtain ⟨found, scans, reads⟩ := engine.scan_eq id nowMs
      (fun key => start ≤ key && key ≤ end_) valid
    refine ⟨found.toList, ?_, found.sorted_toList, fun key value => ?_⟩
    · rw [if_neg backwards, scans]
      rfl
    · rw [SortedMap.mem_toList, reads]
      by_cases inside : start ≤ key ∧ key ≤ end_
      · have same : versionIn (engine.strategy.iterFilesForRange start end_).reverse key
            = versionIn engine.strategy.iterAll.reverse key := by
          rw [StorageStrategy.iterFilesForRange, ← List.filter_reverse]
          exact versionIn_filter_overlaps
            (fun table member => healthy.sound.valid table (List.mem_reverse.mp member))
            inside.1 inside.2
        simp [inside, scanned, same]
      · have out : (decide (start ≤ key) && decide (key ≤ end_)) = false := by
          simpa using inside
        rw [if_neg (by simp [out]), ← and_assoc]
        simp [inside]

theorem Healthy.listKeys_eq (healthy : engine.Healthy) (order : IterOrder) (nowMs : UInt64)
    : ∃ keys,
        engine.listKeys order nowMs = .ok keys
        ∧ keys.Nodup
        ∧ ∀ key,
            key ∈ keys
            ↔ ∃ value,
                readAt (engine.scanned engine.strategy.iterAll key) nowMs = some value := by
  obtain ⟨found, scans, reads⟩ := engine.scan_eq (fun _ => ()) nowMs
    (fun _ => true) healthy.sound.valid
  refine ⟨order.order found.keys, ?_, ?_, fun key => ?_⟩
  · rw [listKeys, scans]
    rfl
  · rw [(order.perm _).nodup_iff]
    exact found.sorted_keys.imp (fun before => before.ne)
  · rw [(order.perm _).mem_iff, SortedMap.mem_keys, reads]
    cases readAt (engine.scanned engine.strategy.iterAll key) nowMs <;> simp

/-- Scans agree with point reads exactly if the tables do. Witness: a range of one key shows
what the scan resolves it to.
-/
theorem Healthy.scansAgree_iff (healthy : engine.Healthy) (order : IterOrder)
    (nowMs : UInt64)
    : engine.ScansAgree order nowMs ↔ engine.TablesAgree nowMs := by
  rw [tablesAgree_iff]
  constructor
  · intro agree key
    obtain ⟨pairs, ranged, -, members⟩ := agree.range key key
    obtain ⟨others, again, -, resolved⟩ := healthy.range_eq key key nowMs
    obtain rfl := Except.ok.inj (ranged.symm.trans again)
    refine Option.ext (fun value => ?_)
    have point := members key value
    rw [resolved, healthy.get_eq_some] at point
    simpa using point.symm
  · intro agree
    refine ⟨fun start end_ => ?_, ?_⟩
    · obtain ⟨pairs, ranged, sorted, members⟩ := healthy.range_eq start end_ nowMs
      refine ⟨pairs, ranged, sorted, fun key value => ?_⟩
      rw [members, healthy.get_eq_some, agree key]
    · obtain ⟨keys, listed, distinct, members⟩ := healthy.listKeys_eq order nowMs
      refine ⟨keys, listed, distinct, fun key => ?_⟩
      simp only [members, healthy.get_eq_some, agree key]

end LsmEngine

/-- In every state that calls which fit lead to, in any interleaving and with either
strategy, scans agree with point reads at a given time exactly if, for every key in neither
memtable, the first and the last table that hold it read alike at that time.
-/
theorem scans_agree_iff {strategy : StorageStrategy} (new : strategy.New)
    (maxMemtableBytes : Nat) (settings : BlockSettings) {system : System}
    {written : Writes} {since : UInt64}
    (reached
      : Interleaves (fun _ action => action.fits)
          (LsmEngine.new maxMemtableBytes strategy settings) system written since)
    (order : IterOrder) (nowMs : UInt64)
    : system.engine.ScansAgree order nowMs ↔ system.engine.TablesAgree nowMs := by
  have formed := reached.formed (LsmEngine.healthy_new new.sound maxMemtableBytes settings)
    rfl (fun _ _ allowed => allowed)
  exact formed.healthy.scansAgree_iff order nowMs

/-- The order of a sorted set. -/
def IterOrder.sorted : IterOrder :=
  { order := id, perm := fun keys => .refl keys }

/-- Witness: two flushed tables with different keys, on a quiescent engine. -/
theorem scans_agree_iff_disjoint
    : ∃ system written since,
        Interleaves (fun _ action => action.fits)
          (LsmEngine.new 1 (.sizeTiered (SizeTiered.new 4 32 smallBlocks)) smallBlocks)
          system written since
        ∧ system.quiescent = true
        ∧ (system.engine.ScansAgree IterOrder.sorted 10 ↔ system.engine.TablesAgree 10) := by
  let actions := setAndFinish "k" "v" 1 ++ setAndFinish "l" "w" 2
  have computed : (interleave (fun _ action => action.fits) actions
      (System.start
        (LsmEngine.new 1 (.sizeTiered (SizeTiered.new 4 32 smallBlocks)) smallBlocks))
      Writes.none).any (fun final => final.1.quiescent) = true := by
    decide +kernel
  simp only [Option.any_eq_true] at computed
  obtain ⟨⟨system, written⟩, ran, quiescent⟩ := computed
  obtain ⟨since, reached, -⟩ := Interleaves.start.interleave 10 (by decide)
    (by simp [actions, setAndFinish, turn, Action.At]) ran
  exact ⟨system, written, since, reached, quiescent,
    scans_agree_iff (.sizeTiered 4 32 smallBlocks) 1 smallBlocks reached _ 10⟩

/-- Two flushed versions of a key: a point read returns the newer one, a range the older.
-/
theorem range_returns_overwritten_value
    : ∃ system written since,
        Interleaves (fun _ action => action.fits)
          (LsmEngine.new 1 (.leveled (Leveled.new 2 4 1000 smallBlocks)) smallBlocks)
          system written since
        ∧ system.quiescent = true
        ∧ system.engine.get "k" (fun _ => 10) = .ok (some ("k", "w"))
        ∧ system.engine.range "a" "z" 10 = .ok [("k", "v")] := by
  have computed : (interleave (fun _ action => action.fits)
      (setAndFinish "k" "v" 1 ++ setAndFinish "k" "w" 2)
      (System.start
        (LsmEngine.new 1 (.leveled (Leveled.new 2 4 1000 smallBlocks)) smallBlocks))
      Writes.none).any
      (fun final =>
        final.1.quiescent
        && (final.1.engine.get "k" (fun _ => 10)).toOption = some (some ("k", "w"))
        && (final.1.engine.range "a" "z" 10).toOption = some [("k", "v")]) = true := by
    decide +kernel
  simp only [Option.any_eq_true, toOption_eq_some, Bool.and_eq_true, decide_eq_true_eq]
    at computed
  obtain ⟨⟨system, written⟩, ran, ⟨quiescent, point⟩, ranged⟩ := computed
  obtain ⟨since, reached, -⟩ := Interleaves.start.interleave 10 (by decide)
    (by simp [setAndFinish, turn, Action.At]) ran
  exact ⟨system, written, since, reached, quiescent, point, ranged⟩

end Rustikv.Lsm

import Rustikv.Lsm.Versions

/-! The size-tiered strategy: a new table joins a bucket of its size, and lookups walk the
buckets from the last to the first.
-/

namespace Rustikv.Lsm

open Library

namespace SizeTiered

def version (strategy : SizeTiered) (key : String) : Option MemtableEntry :=
  versionIn strategy.iterAll key

structure Sound (strategy : SizeTiered) : Prop where
  valid : ∀ table ∈ strategy.sstables.flatten, table.Valid
  distinct : (strategy.sstables.flatten.map SSTable.path).Nodup

theorem sound_new (minThreshold maxThreshold : Nat) (settings : BlockSettings)
    : (new minThreshold maxThreshold settings).Sound where
  valid := by simp [new]
  distinct := by simp [new]

-----------------------------------------------------------------------------------------
-- Filing a table
-----------------------------------------------------------------------------------------

theorem closestBucket_foldl {round : ℚ → ℚ} {newSize bound : Nat}
    {items : List (List SSTable × Nat)} (inside : ∀ item ∈ items, item.2 < bound)
    {start : Option (Nat × ℚ)} (held : ∀ best ∈ start, best.1 < bound)
    : ∀ best ∈ items.foldl (closestBucket round newSize) start, best.1 < bound := by
  induction items generalizing start with
  | nil => exact held
  | cons item rest ih =>
      refine ih (fun other member => inside other (List.mem_cons_of_mem _ member)) ?_
      have position := inside item (by simp)
      unfold closestBucket
      split
      · split
        · rintro best ⟨⟩
          exact position
        · exact held
      · exact held

/-- The chosen bucket exists. Witness: the loop only ever remembers positions it visits. -/
theorem targetIdx_lt {round : ℚ → ℚ} {newSize : Nat} {buckets : List (List SSTable)}
    {i : Nat} (chosen : targetIdx round newSize buckets = some i)
    : i < buckets.length := by
  obtain ⟨best, found, rfl⟩ := Option.map_eq_some_iff.mp chosen
  refine closestBucket_foldl ?_ (by simp) best found
  rintro ⟨bucket, position⟩ member
  exact (List.mem_zipIdx' member).1

/-- The `f64` arithmetic is exact for a bucket of tables that are as large as the new one. -/
theorem ratioDiff_same {size : Nat} (positive : size ≠ 0) {bucket : List SSTable}
    (inhabited : bucket ≠ []) (same : ∀ table ∈ bucket, table.sizeOnDisk = size)
    (small : bucket.length * size < 2 ^ 53)
    : ratioDiff roundBinary64 size bucket = some 0 := by
  have count : 0 < bucket.length := List.length_pos_iff.mpr inhabited
  have smallSize : size < 2 ^ 53 :=
    lt_of_le_of_lt (Nat.le_mul_of_pos_left size count) small
  have smallCount : bucket.length < 2 ^ 53 :=
    lt_of_le_of_lt (Nat.le_mul_of_pos_right _ (Nat.pos_of_ne_zero positive)) small
  have sum : (bucket.map SSTable.sizeOnDisk).sum = bucket.length * size := by
    rw [List.map_congr_left same, List.map_const', List.sum_replicate_nat]
  have avg : roundBinary64 (((bucket.length * size : Nat) : ℚ) / bucket.length) = size := by
    rw [Nat.cast_mul, mul_div_cancel_left₀ _ (Nat.cast_ne_zero.mpr count.ne'),
      roundBinary64_natCast smallSize]
  have one : roundBinary64 1 = 1 := by
    exact_mod_cast roundBinary64_natCast (by decide : 1 < 2 ^ 53)
  have zero : roundBinary64 0 = 0 := by
    exact_mod_cast roundBinary64_natCast (by decide : 0 < 2 ^ 53)
  have sizeNe : (size : ℚ) ≠ 0 := Nat.cast_ne_zero.mpr positive
  simp only [ratioDiff, sum, roundBinary64_natCast small, roundBinary64_natCast smallCount,
    roundBinary64_natCast smallSize, List.isEmpty_iff, inhabited, if_false, avg, ne_eq, sizeNe,
    not_false_eq_true, if_true, div_self sizeNe, one, sub_self, zero, abs_zero]
  norm_num [minTierCoefficient, maxTierCoefficient]

theorem isSome_closestBucket {round : ℚ → ℚ} {newSize : Nat} {best : Option (Nat × ℚ)}
    {item : List SSTable × Nat}
    (accepted : best.isSome = true ∨ (ratioDiff round newSize item.1).isSome = true)
    : (closestBucket round newSize best item).isSome = true := by
  unfold closestBucket
  split
  next diff found =>
    split
    · rfl
    · cases best with
      | none => contradiction
      | some held => rfl
  next refused => simpa [refused] using accepted

/-- A bucket that is accepted may be replaced by a closer one, never by none. -/
theorem isSome_foldl_closestBucket {round : ℚ → ℚ} {newSize : Nat}
    {items : List (List SSTable × Nat)} {start : Option (Nat × ℚ)}
    (accepted
      : start.isSome = true
        ∨ ∃ item ∈ items, (ratioDiff round newSize item.1).isSome = true)
    : (items.foldl (closestBucket round newSize) start).isSome = true := by
  induction items generalizing start with
  | nil => simpa using accepted
  | cons item rest ih =>
      refine ih ?_
      rcases accepted with held | ⟨other, member, accepted⟩
      · exact .inl (isSome_closestBucket (.inl held))
      · rcases List.mem_cons.mp member with rfl | later
        · exact .inl (isSome_closestBucket (.inr accepted))
        · exact .inr ⟨other, later, accepted⟩

/-- A table opens no new bucket beside one whose tables are as large. -/
theorem length_addSstable_same {strategy : SizeTiered} (rounds : strategy.round = roundBinary64)
    {sst : SSTable} (positive : sst.sizeOnDisk ≠ 0) {bucket : List SSTable}
    (member : bucket ∈ strategy.sstables) (inhabited : bucket ≠ [])
    (same : ∀ table ∈ bucket, table.sizeOnDisk = sst.sizeOnDisk)
    (small : bucket.length * sst.sizeOnDisk < 2 ^ 53)
    : (strategy.addSstable sst).sstables.length = strategy.sstables.length := by
  obtain ⟨i, inside, rfl⟩ := List.getElem_of_mem member
  have listed : (strategy.sstables[i], i) ∈ strategy.sstables.zipIdx :=
    List.mem_zipIdx_iff_getElem?.mpr (List.getElem?_eq_getElem inside)
  have accepted := ratioDiff_same positive inhabited same small
  have chosen : (targetIdx strategy.round sst.sizeOnDisk strategy.sstables).isSome = true := by
    rw [targetIdx, Option.isSome_map]
    refine isSome_foldl_closestBucket (.inr ⟨_, listed, ?_⟩)
    rw [rounds, accepted]
    rfl
  obtain ⟨place, found⟩ := Option.isSome_iff_exists.mp chosen
  simp only [addSstable, found, List.length_modify]

/-- The tables that are read before a table that is filed next. -/
def laterTables (strategy : SizeTiered) (sst : SSTable) : List SSTable :=
  match targetIdx strategy.round sst.sizeOnDisk strategy.sstables with
  | some i => (strategy.sstables.drop (i + 1)).flatten
  | none => []

/-- Filing puts the table behind those of the later buckets. -/
theorem addSstable_split (strategy : SizeTiered) (sst : SSTable)
    : ∃ front,
        strategy.sstables.flatten = front ++ strategy.laterTables sst
        ∧ (strategy.addSstable sst).sstables.flatten
          = front ++ sst :: strategy.laterTables sst := by
  unfold addSstable laterTables
  cases chosen : targetIdx strategy.round sst.sizeOnDisk strategy.sstables with
  | none => exact ⟨strategy.sstables.flatten, by simp, by simp⟩
  | some i =>
      have inside := targetIdx_lt chosen
      refine ⟨(strategy.sstables.take (i + 1)).flatten, ?_, ?_⟩
      · rw [← List.flatten_append, List.take_append_drop]
      · have front : (strategy.sstables.take (i + 1)).flatten
            = (strategy.sstables.take i).flatten ++ strategy.sstables[i] := by
          rw [List.take_succ_eq_append_getElem inside, List.flatten_append]
          simp only [List.flatten_cons, List.flatten_nil, List.append_nil]
        rw [front]
        simp [List.modify_eq_take_cons_drop inside]

theorem Sound.addSstable {strategy : SizeTiered} (sound : strategy.Sound) {sst : SSTable}
    (valid : sst.Valid) (fresh : sst.path ∉ strategy.sstables.flatten.map SSTable.path)
    : (strategy.addSstable sst).Sound := by
  obtain ⟨front, before, after⟩ := addSstable_split strategy sst
  constructor
  · intro table member
    rw [after, List.mem_append, List.mem_cons] at member
    rcases member with early | rfl | late
    · exact sound.valid table (by simp [before, early])
    · exact valid
    · exact sound.valid table (by simp [before, late])
  · have distinct := sound.distinct
    rw [before, List.map_append] at distinct fresh
    rw [after, List.map_append, List.map_cons]
    exact List.nodup_middle.mpr (List.nodup_cons.mpr ⟨fresh, distinct⟩)

/-- No table read before the new one holds the key, if the new one does. -/
def FiledInFront (strategy : SizeTiered) (sst : SSTable) (key : String) : Prop :=
  versionIn (strategy.laterTables sst).reverse key = none ∨ sst.version key = none

instance (strategy : SizeTiered) (sst : SSTable) (key : String)
    : Decidable (strategy.FiledInFront sst key) :=
  inferInstanceAs (Decidable (_ ∨ _))

theorem version_addSstable {strategy : SizeTiered} {sst : SSTable} {key : String}
    (filed : strategy.FiledInFront sst key)
    : (strategy.addSstable sst).version key
      = (sst.version key).or (strategy.version key) := by
  obtain ⟨front, before, after⟩ := addSstable_split strategy sst
  simp only [version, iterAll, before, after, List.reverse_append, List.reverse_cons,
    versionIn_append, versionIn_cons, versionIn_nil, Option.or_none]
  rcases filed with absent | absent <;> simp [absent]

-----------------------------------------------------------------------------------------
-- Compaction
-----------------------------------------------------------------------------------------

/-- A bucket that `compact_if_needed` does not pass over. -/
def isFull (strategy : SizeTiered) (bucket : List SSTable) : Bool :=
  !(bucket.length < strategy.minThreshold && bucket.length < strategy.maxThreshold)

/-- Everything that automatic compaction can do: nothing, or a merge of the first full
bucket, if that can be read.
-/
theorem compactIfNeeded_cases {strategy next : SizeTiered}
    (readable
      : ∀ i,
          strategy.sstables.findIdx? strategy.isFull = some i
          → ∀ table ∈ strategy.sstables.getD i [], table.Valid)
    {nowMs : UInt64} {timestamp : Nat} {ran : Bool}
    (done : strategy.compactIfNeeded nowMs timestamp = .ok (ran, next))
    : (strategy.sstables.findIdx? strategy.isFull = none ∧ ran = false ∧ next = strategy)
      ∨ ∃ front bucket back,
          strategy.sstables = front ++ bucket :: back
          ∧ strategy.sstables.findIdx? strategy.isFull = some front.length
          ∧ ({ level := none, timestamp } : TablePath)
            ∉ (front ++ back).flatten.map SSTable.path
          ∧ ran = true
          ∧ next = {
              strategy with
              sstables :=
                front
                ++ [mergedTable strategy.settings { level := none, timestamp } false nowMs
                  (bucket.flatMap SSTable.records)]
                :: back
            } := by
  unfold SizeTiered.compactIfNeeded at done
  simp only at done
  split at done
  next i found =>
    obtain ⟨inside, -⟩ := List.findIdx?_eq_some_iff_getElem.mp found
    obtain ⟨front, back, split, rfl⟩ := exists_split (List.getElem?_eq_getElem inside)
    generalize strategy.sstables[front.length] = bucket at split
    have chosen : strategy.sstables.getD front.length [] = bucket := by simp [split]
    have validBucket : ∀ table ∈ bucket, table.Valid := chosen ▸ readable _ found
    rw [chosen, mergeTables_eq _ _ validBucket, ok_bind] at done
    obtain ⟨sst, created, rest⟩ := bind_eq_ok.mp done
    obtain ⟨fresh, rfl⟩ := createTable_eq_ok.mp created
    obtain ⟨rfl, rfl⟩ := Prod.mk.inj (Except.ok.inj rest)
    have others : strategy.sstables.eraseIdx front.length = front ++ back := by
      simp [split, List.eraseIdx_append_of_length_le]
    refine .inr ⟨front, bucket, back, split, found, others ▸ fresh, rfl, ?_⟩
    simp only [split, List.set_append_right _ _ (le_refl _), Nat.sub_self, List.set_cons_zero]
    rfl
  next absent =>
    obtain ⟨rfl, rfl⟩ := Prod.mk.inj (Except.ok.inj done)
    exact .inl ⟨absent, rfl, rfl⟩

theorem Sound.compactIfNeeded_cases {strategy next : SizeTiered} (sound : strategy.Sound)
    {nowMs : UInt64} {timestamp : Nat} {ran : Bool}
    (done : strategy.compactIfNeeded nowMs timestamp = .ok (ran, next))
    : (strategy.sstables.findIdx? strategy.isFull = none ∧ next = strategy)
      ∨ ∃ front bucket back,
          strategy.sstables = front ++ bucket :: back
          ∧ strategy.sstables.findIdx? strategy.isFull = some front.length
          ∧ ({ level := none, timestamp } : TablePath)
            ∉ (front ++ back).flatten.map SSTable.path
          ∧ next = {
              strategy with
              sstables :=
                front
                ++ [mergedTable strategy.settings { level := none, timestamp } false nowMs
                  (bucket.flatMap SSTable.records)]
                :: back
            } := by
  have readable : ∀ i,
      strategy.sstables.findIdx? strategy.isFull = some i
      → ∀ table ∈ strategy.sstables.getD i [], table.Valid := by
    intro i found table member
    obtain ⟨inside, -⟩ := List.findIdx?_eq_some_iff_getElem.mp found
    rw [List.getD_eq_getElem?_getD, List.getElem?_eq_getElem inside, Option.getD_some]
      at member
    exact sound.valid table (List.mem_flatten.mpr ⟨_, List.getElem_mem inside, member⟩)
  rcases SizeTiered.compactIfNeeded_cases readable done with
    ⟨absent, -, same⟩ | ⟨front, bucket, back, split, found, fresh, -, same⟩
  · exact .inl ⟨absent, same⟩
  · exact .inr ⟨front, bucket, back, split, found, fresh, same⟩

theorem Sound.compactIfNeeded {strategy next : SizeTiered} (sound : strategy.Sound)
    {nowMs : UInt64} {timestamp : Nat} {ran : Bool}
    (done : strategy.compactIfNeeded nowMs timestamp = .ok (ran, next))
    : next.Sound := by
  rcases sound.compactIfNeeded_cases done with
    ⟨-, rfl⟩ | ⟨front, bucket, back, split, -, fresh, rfl⟩
  · exact sound
  · have validBucket : ∀ table ∈ bucket, table.Valid :=
      fun table member => sound.valid table (by simp [split, member])
    constructor
    · intro table member
      simp only [List.flatten_append, List.flatten_cons, List.mem_append,
        List.mem_singleton] at member
      rcases member with early | rfl | late
      · exact sound.valid table (by simp [split, early])
      · exact valid_mergedTable _ _ false nowMs (valid_flatMap_records validBucket)
      · exact sound.valid table (by simp [split, late])
    · have distinct := sound.distinct
      rw [List.flatten_append, List.map_append] at fresh
      rw [split, List.flatten_append, List.flatten_cons] at distinct
      simp only [List.flatten_append, List.flatten_cons, List.singleton_append,
        List.map_append, List.map_cons, mergedTable, SSTable.path_fromMemtable]
        at distinct ⊢
      refine List.nodup_middle.mpr (List.nodup_cons.mpr ⟨fresh, distinct.sublist ?_⟩)
      exact (List.Sublist.refl _).append (List.sublist_append_right _ _)

/-- In the bucket that would be merged, the first and the last table that hold the key agree.
A merge reads the bucket oldest first and a lookup newest first.
-/
def mergeAgrees (strategy : SizeTiered) (key : String) : Bool :=
  (strategy.sstables.findIdx? strategy.isFull).all
    (fun i =>
      let bucket := strategy.sstables.getD i []
      versionIn bucket key = versionIn bucket.reverse key)

/-- Such a merge keeps what the key reads as. -/
theorem Sound.compactIfNeeded_standsFor {strategy next : SizeTiered} (sound : strategy.Sound)
    {nowMs : UInt64} {timestamp : Nat} {ran : Bool}
    (done : strategy.compactIfNeeded nowMs timestamp = .ok (ran, next)) {key : String}
    (agrees : strategy.mergeAgrees key = true)
    : StandsFor nowMs (next.version key) (strategy.version key) := by
  rcases sound.compactIfNeeded_cases done with
    ⟨-, rfl⟩ | ⟨front, bucket, back, split, found, -, rfl⟩
  · exact .refl
  · have chosen : strategy.sstables.getD front.length [] = bucket := by simp [split]
    have same : versionIn bucket key = versionIn bucket.reverse key := by
      unfold mergeAgrees at agrees
      rw [found, Option.all_some, chosen, decide_eq_true_eq] at agrees
      exact agrees
    have valid : ∀ record ∈ bucket.flatMap SSTable.records, Record.codec.Valid record :=
      valid_flatMap_records (fun table member => sound.valid table (by simp [split, member]))
    have merged := mergedEntry_standsFor false nowMs
      (earliest Record.key (bucket.flatMap SSTable.records) key)
    rw [← version_mergedTable strategy.settings { level := none, timestamp } false nowMs valid
      (by simp), ← versionIn_eq_earliest, same] at merged
    simp only [version, iterAll, split, List.flatten_append, List.flatten_cons,
      List.reverse_append, versionIn_append, List.reverse_singleton, versionIn_cons,
      versionIn_nil, Option.or_none, Option.or_assoc]
    refine (merged.before (.inl ?_)).behind _
    rw [version_mergedTable _ _ _ _ valid (by simp), ← same, versionIn_eq_earliest]
    cases earliest Record.key (bucket.flatMap SSTable.records) key with
    | none => rfl
    | some record =>
        simp only [Option.bind_some, Option.map_some, Option.isSome_some, mergedEntry]
        split <;> rfl

theorem version_single (strategy : SizeTiered) (sst : SSTable) (key : String)
    : version { strategy with sstables := [[sst]] } key = sst.version key := by
  simp [version, iterAll, versionIn_cons]

/-- A full compaction of valid tables merges them all into one. -/
theorem compactAll_eq {strategy : SizeTiered} (valid : ∀ table ∈ strategy.iterAll, table.Valid)
    (nowMs : UInt64) (timestamp : Nat)
    : strategy.compactAll nowMs timestamp
      = .ok {
          strategy with
          sstables := [[SSTable.fromMemtable strategy.settings { level := none, timestamp }
            ((strategy.iterAll.flatMap SSTable.records).foldl (mergeRecord false nowMs)
              Memtable.new).dropTombstones]]
        } := by
  unfold SizeTiered.compactAll
  rw [mergeTables_eq _ _ valid, ok_bind]
  rfl

/-- Dropping the tombstones after a merge keeps the first record of a key if it is alive, and
nothing else.
-/
theorem entry_merge_dropTombstones (records : List Record) (nowMs : UInt64) (key : String)
    : ((records.foldl (mergeRecord false nowMs) Memtable.new).dropTombstones).entry key
      = (earliest Record.key records key).bind (mergedEntry true nowMs) := by
  rw [Memtable.entry_dropTombstones, entry_merge_new (by simp)]
  cases earliest Record.key records key with
  | none => rfl
  | some record =>
      rw [Option.bind_some, Option.bind_some, mergedEntry, mergedEntry]
      by_cases dead : isDead record nowMs = true
      · simp [dead, Option.filter_some]
      · have live : record.entry.value.isSome = true := by
          simp only [isDead, Bool.or_eq_true, not_or, Bool.not_eq_true] at dead
          simp [Record.entry, dead.1]
        simp [dead, Option.filter_some, live]

/-- A full compaction keeps what every key reads as. -/
theorem Sound.compactAll {strategy next : SizeTiered} (sound : strategy.Sound)
    {nowMs : UInt64} {timestamp : Nat}
    (done : strategy.compactAll nowMs timestamp = .ok next)
    : next.Sound ∧ ∀ key, StandsFor nowMs (next.version key) (strategy.version key) := by
  have validAll : ∀ table ∈ strategy.iterAll, table.Valid :=
    fun table member => sound.valid table (List.mem_reverse.mp member)
  rw [compactAll_eq validAll] at done
  obtain rfl := Except.ok.inj done
  have storable := (storableTable_merge false nowMs
    (valid_flatMap_records validAll) storableTable_new).dropTombstones
  refine ⟨⟨?_, by simp⟩, ?_⟩
  · intro table member
    simp only [List.flatten_cons, List.flatten_nil, List.append_nil,
      List.mem_singleton] at member
    rw [member]
    exact SSTable.valid_fromMemtable _ _ storable
  · intro key
    rw [version_single, SSTable.version_fromMemtable _ _ storable,
      entry_merge_dropTombstones, version, versionIn_eq_earliest]
    exact mergedEntry_standsFor true nowMs _

end SizeTiered

end Rustikv.Lsm

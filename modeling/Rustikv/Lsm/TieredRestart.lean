import Mathlib.Data.List.Induction
import Rustikv.Lsm.NonOverlap
import Rustikv.Lsm.Restores

/-! Restarts of a size-tiered strategy that compacts. A merge gives old data a new
timestamp, and loading files the tables by timestamp.
-/

namespace Rustikv.Lsm

open Library

namespace SizeTiered

-----------------------------------------------------------------------------------------
-- Filing without the last bucket
-----------------------------------------------------------------------------------------

/-- The search keeps its best bucket or moves on to a later one. -/
theorem closestBucket_foldl_later (round : ℚ → ℚ) (newSize : Nat) {bound : Nat}
    {items : List (List SSTable × Nat)} (later : ∀ item ∈ items, bound ≤ item.2) (start : Option (Nat × ℚ))
    : items.foldl (closestBucket round newSize) start = start
      ∨ ∃ best,
          items.foldl (closestBucket round newSize) start = some best ∧ bound ≤ best.1 := by
  induction items generalizing start with
  | nil => exact .inl rfl
  | cons item rest ih =>
      have position := later item (by simp)
      have tail := ih (fun other member => later other (List.mem_cons_of_mem _ member))
      rw [List.foldl_cons]
      have here : closestBucket round newSize start item = start
          ∨ ∃ diff, closestBucket round newSize start item = some (item.2, diff) := by
        unfold closestBucket
        split
        · split
          · exact .inr ⟨_, rfl⟩
          · exact .inl rfl
        · exact .inl rfl
      rcases here with same | ⟨diff, moved⟩
      · rw [same]
        exact tail start
      · rcases tail (closestBucket round newSize start item) with kept | further
        · exact .inr ⟨_, kept.trans moved, position⟩
        · exact .inr further

/-- A bucket chosen among all is chosen among the first ones, if it is one of them. -/
theorem targetIdx_take (round : ℚ → ℚ) (newSize : Nat) (buckets : List (List SSTable))
    (count : Nat)
    : (∀ i, targetIdx round newSize buckets = some i → i < count
        → targetIdx round newSize (buckets.take count) = some i)
      ∧ (targetIdx round newSize buckets = none
        → targetIdx round newSize (buckets.take count) = none) := by
  have split : buckets.zipIdx
      = (buckets.take count).zipIdx
        ++ (buckets.drop count).zipIdx (buckets.take count).length := by
    have whole : (buckets.take count ++ buckets.drop count).zipIdx
        = (buckets.take count).zipIdx
          ++ (buckets.drop count).zipIdx (0 + (buckets.take count).length) :=
      List.zipIdx_append
    rwa [List.take_append_drop, Nat.zero_add] at whole
  have later : ∀ item ∈ (buckets.drop count).zipIdx (buckets.take count).length,
      (buckets.take count).length ≤ item.2 := by
    rintro ⟨bucket, position⟩ member
    exact (List.mem_zipIdx member).1
  have search := closestBucket_foldl_later round newSize later
    ((buckets.take count).zipIdx.foldl (closestBucket round newSize) none)
  rw [← List.foldl_append, ← split] at search
  unfold targetIdx
  rcases search with same | ⟨best, found, beyond⟩
  · rw [same]
    exact ⟨fun i chosen _ => chosen, fun none => none⟩
  · rw [found]
    refine ⟨fun i chosen inside => ?_, fun none => by cases none⟩
    obtain rfl := Option.some.inj chosen
    have total : best.1 < buckets.length := targetIdx_lt (by rw [targetIdx, found]; rfl)
    rw [List.length_take] at beyond
    omega

/-- The first buckets of a strategy. -/
def firstBuckets (count : Nat) (strategy : SizeTiered) : SizeTiered :=
  { strategy with sstables := strategy.sstables.take count }

/-- One table is filed with and without the last bucket, number `count`: it goes there, or
it goes where it would go without that bucket.
-/
theorem addSstable_firstBuckets (strategy : SizeTiered) {sst : SSTable} {count : Nat}
    (fresh : sst ∉ strategy.sstables.flatten)
    (last : (strategy.addSstable sst).sstables.length ≤ count + 1)
    : (sst ∈ (strategy.addSstable sst).sstables.getD count []
        ∧ (strategy.addSstable sst).firstBuckets count = strategy.firstBuckets count)
      ∨ (sst ∉ (strategy.addSstable sst).sstables.getD count []
        ∧ (strategy.addSstable sst).firstBuckets count
          = (strategy.firstBuckets count).addSstable sst) := by
  have search := targetIdx_take strategy.round sst.sizeOnDisk strategy.sstables count
  have absent : sst ∉ strategy.sstables.getD count [] := by
    intro member
    refine fresh (List.mem_flatten.mpr ⟨_, ?_, member⟩)
    rw [List.getD_eq_getElem?_getD] at member ⊢
    cases found : strategy.sstables[count]? with
    | none =>
        rw [found] at member
        cases member
    | some bucket => exact List.mem_of_getElem? found
  cases chosen : targetIdx strategy.round sst.sizeOnDisk strategy.sstables with
  | none =>
      have after : strategy.addSstable sst
          = { strategy with sstables := strategy.sstables ++ [[sst]] } := by
        simp only [addSstable, chosen]
      rw [after] at last ⊢
      simp only [List.length_append, List.length_singleton] at last
      rcases Nat.lt_or_ge strategy.sstables.length count with short | full
      · right
        constructor
        · rw [List.getD_eq_getElem?_getD, List.getElem?_eq_none (by simp; omega)]
          simp
        · have kept : strategy.firstBuckets count = strategy := by
            rw [firstBuckets, List.take_of_length_le (by omega)]
          rw [kept, after, firstBuckets, List.take_of_length_le (by simp; omega)]
      · left
        obtain rfl : count = strategy.sstables.length := by omega
        exact ⟨by simp, by simp [firstBuckets]⟩
  | some i =>
      have after : strategy.addSstable sst
          = { strategy with sstables := strategy.sstables.modify i (· ++ [sst]) } := by
        simp only [addSstable, chosen]
      have inside := targetIdx_lt chosen
      rw [after] at last ⊢
      rw [List.length_modify] at last
      rcases Nat.lt_or_ge i count with early | late
      · right
        constructor
        · rwa [List.getD_eq_getElem?_getD, List.getElem?_modify_ne _ _ (by omega),
            ← List.getD_eq_getElem?_getD]
        · have again := search.1 i chosen early
          simp only [firstBuckets, addSstable, again, List.take_modify]
      · left
        obtain rfl : i = count := by omega
        constructor
        · simp [List.getD_eq_getElem?_getD, inside]
        · simp only [firstBuckets, List.take_modify]
          rw [List.modify_eq_self (by simp)]

/-- Filing a table changes the other members of no bucket. -/
theorem mem_getD_addSstable (strategy : SizeTiered) {sst table : SSTable}
    (differs : table ≠ sst) (count : Nat)
    : table ∈ (strategy.addSstable sst).sstables.getD count []
      ↔ table ∈ strategy.sstables.getD count [] := by
  unfold addSstable
  split
  next i chosen =>
    simp only [List.getD_eq_getElem?_getD, List.getElem?_modify]
    cases strategy.sstables[count]? with
    | none => simp
    | some bucket => by_cases here : i = count <;> simp [here, differs]
  next =>
    simp only [List.getD_eq_getElem?_getD, List.getElem?_append]
    split
    · rfl
    · rename_i beyond
      rw [List.getElem?_eq_none (Nat.not_lt.mp beyond)]
      cases found : [[sst]][count - strategy.sstables.length]? with
      | none => simp
      | some bucket =>
          have single := List.mem_singleton.mp (List.mem_of_getElem? found)
          simp [single, differs]

theorem length_addSstable (strategy : SizeTiered) (sst : SSTable)
    : strategy.sstables.length ≤ (strategy.addSstable sst).sstables.length := by
  unfold addSstable
  split <;> simp

/-- Without the tables of the last bucket the others are filed as before. Induction over the
tables, the newest one last.
-/
theorem foldl_addSstable_filter {strategy : SizeTiered} (empty : strategy.sstables = [])
    {tables : List SSTable} (distinct : tables.Nodup) {count : Nat}
    (last : (tables.foldl addSstable strategy).sstables.length ≤ count + 1)
    {removed : SSTable → Bool}
    (inLast
      : ∀ table ∈ tables,
          removed table = true
          ↔ table ∈ (tables.foldl addSstable strategy).sstables.getD count [])
    : (tables.filter (fun table => !removed table)).foldl addSstable strategy
      = (tables.foldl addSstable strategy).firstBuckets count := by
  induction tables using List.reverseRecOn with
  | nil =>
      cases strategy
      simp only at empty
      simp [firstBuckets, empty]
  | append_singleton tables sst ih =>
      obtain ⟨distinctTables, -, apart⟩ := List.nodup_append.mp distinct
      have fresh : sst ∉ (tables.foldl addSstable strategy).sstables.flatten := by
        intro member
        have held := (flatten_foldl_addSstable tables strategy).mem_iff.mp member
        rw [empty, List.flatten_nil, List.nil_append] at held
        exact apart sst held sst (by simp) rfl
      rw [List.foldl_append, List.foldl_cons, List.foldl_nil] at last inLast ⊢
      have others := ih distinctTables ((length_addSstable _ sst).trans last) (by
        intro table member
        have differs : table ≠ sst := apart table member sst (by simp)
        rw [inLast table (List.mem_append_left _ member), mem_getD_addSstable _ differs])
      rw [List.filter_append, List.foldl_append, others]
      have here := inLast sst (by simp)
      rcases addSstable_firstBuckets _ fresh last with ⟨joins, same⟩ | ⟨apartFrom, same⟩
      · simp [here.mpr joins, same]
      · have kept : removed sst = false := by
          rw [← Bool.not_eq_true]
          exact fun gone => apartFrom (here.mp gone)
        simp [kept, same]

-----------------------------------------------------------------------------------------
-- Runs
-----------------------------------------------------------------------------------------

/-- The bucket that is merged, if there is one, is the last one, and the merged table is of
no other bucket's size.
-/
def mergesLast (strategy next : SizeTiered) : Bool :=
  (strategy.sstables.findIdx? strategy.isFull).all
    (fun i =>
      i + 1 = strategy.sstables.length
      && (next.sstables.getD i []).all
        (fun sst =>
          (targetIdx strategy.round sst.sizeOnDisk strategy.sstables.dropLast).isNone))

def isNewest (timestamp : Nat) (strategy : SizeTiered) : Bool :=
  strategy.sstables.flatten.all (fun table => table.path.timestamp < timestamp)

/-- The strategies that flushes and compactions with increasing timestamps lead to. `aged`
says that since the last full compaction each merge was one of the last bucket.
-/
inductive Reachable (minThreshold maxThreshold : Nat) (settings : BlockSettings)
    : Bool → SizeTiered → Prop
  | new : Reachable minThreshold maxThreshold settings true
      (SizeTiered.new minThreshold maxThreshold settings)
  | flush {aged : Bool} {strategy : SizeTiered} {tableSettings : BlockSettings}
      {memtable : Memtable} {timestamp : Nat}
      (reached : Reachable minThreshold maxThreshold settings aged strategy)
      (storable : StorableTable memtable)
      (stamped : timestamp < uintBound)
      (newest : strategy.isNewest timestamp = true)
    : Reachable minThreshold maxThreshold settings aged
        (strategy.addSstable
          (SSTable.fromMemtable tableSettings { level := none, timestamp } memtable))
  | compactIfNeeded {aged ran : Bool} {strategy next : SizeTiered} {nowMs : UInt64}
      {timestamp : Nat}
      (reached : Reachable minThreshold maxThreshold settings aged strategy)
      (stamped : timestamp < uintBound)
      (newest : strategy.isNewest timestamp = true)
      (done : strategy.compactIfNeeded nowMs timestamp = .ok (ran, next))
    : Reachable minThreshold maxThreshold settings (aged && strategy.mergesLast next) next
  | compactAll {aged : Bool} {strategy next : SizeTiered} {nowMs : UInt64}
      {timestamp : Nat}
      (reached : Reachable minThreshold maxThreshold settings aged strategy)
      (stamped : timestamp < uintBound)
      (newest : strategy.isNewest timestamp = true)
      (done : strategy.compactAll nowMs timestamp = .ok next)
    : Reachable minThreshold maxThreshold settings true next

/-- What every run keeps. -/
structure Kept (minThreshold maxThreshold : Nat) (settings : BlockSettings) (aged : Bool)
    (strategy : SizeTiered)
    : Prop where
  sound : strategy.Sound
  bounded
    : ∀ table ∈ strategy.sstables.flatten,
        table.path.level = none ∧ table.path.timestamp < uintBound
  parameters
    : { strategy with sstables := [] } = SizeTiered.new minThreshold maxThreshold settings
  filed : aged = true → FiledByAge minThreshold maxThreshold settings strategy

variable {minThreshold maxThreshold : Nat} {settings : BlockSettings} {aged : Bool}
  {strategy next : SizeTiered} {nowMs : UInt64} {timestamp : Nat}

theorem before_of_isNewest (newest : strategy.isNewest timestamp = true) {sst : SSTable}
    (stamp : sst.path.timestamp = timestamp)
    : ∀ table ∈ strategy.sstables.flatten, table.Before sst := by
  simp only [isNewest, List.all_eq_true, decide_eq_true_eq] at newest
  intro table member
  rw [SSTable.Before, stamp]
  exact newest table member

theorem fresh_of_isNewest (newest : strategy.isNewest timestamp = true) {sst : SSTable}
    (stamp : sst.path.timestamp = timestamp)
    : sst.path ∉ strategy.sstables.flatten.map SSTable.path := by
  intro member
  obtain ⟨table, held, same⟩ := List.mem_map.mp member
  have older := before_of_isNewest newest stamp table held
  rw [SSTable.Before, same] at older
  exact Nat.lt_irrefl _ older

theorem kept_new (minThreshold maxThreshold : Nat) (settings : BlockSettings)
    : (SizeTiered.new minThreshold maxThreshold settings).Kept minThreshold maxThreshold
        settings true where
  sound := sound_new minThreshold maxThreshold settings
  bounded := by simp [SizeTiered.new]
  parameters := rfl
  filed _ := ⟨[], List.Pairwise.nil, rfl⟩

theorem Kept.addSstable (kept : strategy.Kept minThreshold maxThreshold settings aged)
    {sst : SSTable} (valid : sst.Valid)
    (path : sst.path = { level := none, timestamp }) (stamped : timestamp < uintBound)
    (newest : strategy.isNewest timestamp = true)
    : (strategy.addSstable sst).Kept minThreshold maxThreshold settings aged where
  sound := kept.sound.addSstable valid (fresh_of_isNewest newest (by rw [path]))
  bounded table member := by
    have held := (flatten_addSstable strategy sst).mem_iff.mp member
    rcases List.mem_append.mp held with old | new
    · exact kept.bounded table old
    · rw [List.mem_singleton.mp new, path]
      exact ⟨rfl, stamped⟩
  parameters := by
    rw [← kept.parameters]
    unfold SizeTiered.addSstable
    split <;> rfl
  filed isAged :=
    (kept.filed isAged).addSstable (before_of_isNewest newest (by rw [path]))

/-- The merged tables, oldest first, without those of the last bucket. -/
theorem FiledByAge.mergeLast
    (filed : FiledByAge minThreshold maxThreshold settings strategy)
    {front : List (List SSTable)} {bucket : List SSTable}
    (split : strategy.sstables = front ++ [bucket]) {sst : SSTable}
    (alone : targetIdx strategy.round sst.sizeOnDisk front = none)
    (newest : ∀ table ∈ strategy.sstables.flatten, table.Before sst)
    : FiledByAge minThreshold maxThreshold settings
        { strategy with sstables := front ++ [[sst]] } := by
  obtain ⟨tables, ascending, built⟩ := filed
  have distinct : tables.Nodup :=
    ascending.imp (fun before same => by
      rw [same] at before
      exact Nat.lt_irrefl _ before)
  have held : ∀ table ∈ tables, table ∈ strategy.sstables.flatten := by
    intro table member
    rw [built]
    exact (flatten_foldl_addSstable tables _).mem_iff.mpr (List.mem_append_right _ member)
  have last : (tables.foldl SizeTiered.addSstable
      (SizeTiered.new minThreshold maxThreshold settings)).sstables.length
      ≤ front.length + 1 := by
    rw [← built, split]
    simp
  have inLast : ∀ table ∈ tables, bucket.contains table = true
      ↔ table ∈ (tables.foldl SizeTiered.addSstable
        (SizeTiered.new minThreshold maxThreshold settings)).sstables.getD front.length [] := by
    intro table _
    rw [← built, split, List.getD_eq_getElem?_getD, List.getElem?_concat_length,
      Option.getD_some]
    exact List.contains_iff_mem
  have others := foldl_addSstable_filter rfl distinct last inLast
  rw [← built] at others
  refine ⟨tables.filter (fun table => !bucket.contains table) ++ [sst], ?_, ?_⟩
  · refine List.pairwise_append.mpr
      ⟨ascending.filter _, List.pairwise_singleton _ _, ?_⟩
    intro table member new isNew
    rw [List.mem_singleton.mp isNew]
    exact newest table (held table (List.mem_of_mem_filter member))
  · rw [List.foldl_append, others]
    simp [firstBuckets, SizeTiered.addSstable, split, alone]

/-- The tables that a merge leaves are old ones and a new one. -/
theorem Sound.mem_compactIfNeeded (sound : strategy.Sound) {ran : Bool}
    (done : strategy.compactIfNeeded nowMs timestamp = .ok (ran, next)) {table : SSTable}
    (member : table ∈ next.sstables.flatten)
    : table ∈ strategy.sstables.flatten ∨ table.path = { level := none, timestamp } := by
  rcases sound.compactIfNeeded_cases done with
    ⟨-, rfl⟩ | ⟨front, bucket, back, split, -, -, rfl⟩
  · exact .inl member
  · simp only [List.flatten_append, List.flatten_cons, List.mem_append,
      List.mem_singleton] at member
    rcases member with early | rfl | late
    · exact .inl (by simp [split, early])
    · exact .inr (SSTable.path_fromMemtable _ _ _)
    · exact .inl (by simp [split, late])

/-- A merge of the last bucket keeps the order in which loading files the tables. -/
theorem FiledByAge.compactIfNeeded
    (filed : FiledByAge minThreshold maxThreshold settings strategy)
    (sound : strategy.Sound) (newest : strategy.isNewest timestamp = true) {ran : Bool}
    (done : strategy.compactIfNeeded nowMs timestamp = .ok (ran, next))
    (merges : strategy.mergesLast next = true)
    : FiledByAge minThreshold maxThreshold settings next := by
  rcases sound.compactIfNeeded_cases done with
    ⟨-, rfl⟩ | ⟨front, bucket, back, split, found, -, rfl⟩
  · exact filed
  · simp only [mergesLast, found, Option.all_some, Bool.and_eq_true, decide_eq_true_eq]
      at merges
    obtain ⟨isLast, alone⟩ := merges
    obtain rfl : back = [] := by
      rw [split, List.length_append, List.length_cons] at isLast
      exact List.length_eq_zero_iff.mp (by omega)
    refine filed.mergeLast split ?_ (before_of_isNewest newest ?_)
    · simpa [split] using alone
    · rw [mergedTable, SSTable.path_fromMemtable]

/-- A full compaction leaves one table, with the name it is given. -/
theorem compactAll_single (done : strategy.compactAll nowMs timestamp = .ok next)
    : ∃ table : SSTable,
        table.path = { level := none, timestamp }
        ∧ next = { strategy with sstables := [[table]] } := by
  obtain ⟨memtable, -, rest⟩ := bind_eq_ok.mp done
  obtain ⟨sst, created, same⟩ := bind_eq_ok.mp rest
  obtain ⟨-, rfl⟩ := createTable_eq_ok.mp created
  exact ⟨_, SSTable.path_fromMemtable _ _ _, (Except.ok.inj same).symm⟩

theorem filedByAge_single {table : SSTable}
    (parameters
      : { strategy with sstables := [] } = SizeTiered.new minThreshold maxThreshold settings)
    : FiledByAge minThreshold maxThreshold settings
        { strategy with sstables := [[table]] } := by
  refine ⟨[table], List.pairwise_singleton _ _, ?_⟩
  rw [← parameters]
  rfl

theorem Kept.compactIfNeeded (kept : strategy.Kept minThreshold maxThreshold settings aged)
    (stamped : timestamp < uintBound) (newest : strategy.isNewest timestamp = true)
    {ran : Bool} (done : strategy.compactIfNeeded nowMs timestamp = .ok (ran, next))
    : next.Kept minThreshold maxThreshold settings (aged && strategy.mergesLast next) where
  sound := kept.sound.compactIfNeeded done
  bounded table member := by
    rcases kept.sound.mem_compactIfNeeded done member with old | path
    · exact kept.bounded table old
    · rw [path]
      exact ⟨rfl, stamped⟩
  parameters := by
    rw [← kept.parameters]
    rcases kept.sound.compactIfNeeded_cases done with
      ⟨-, rfl⟩ | ⟨front, bucket, back, split, -, -, rfl⟩ <;> rfl
  filed isAged := by
    obtain ⟨wasAged, merges⟩ := Bool.and_eq_true_iff.mp isAged
    exact (kept.filed wasAged).compactIfNeeded kept.sound newest done merges

theorem Kept.compactAll (kept : strategy.Kept minThreshold maxThreshold settings aged)
    (stamped : timestamp < uintBound)
    (done : strategy.compactAll nowMs timestamp = .ok next)
    : next.Kept minThreshold maxThreshold settings true := by
  obtain ⟨sound, -⟩ := kept.sound.compactAll done
  obtain ⟨table, path, rfl⟩ := compactAll_single done
  refine ⟨sound, ?_, kept.parameters, fun _ => filedByAge_single kept.parameters⟩
  intro other member
  simp only [List.flatten_cons, List.flatten_nil, List.append_nil, List.mem_singleton]
    at member
  rw [member, path]
  exact ⟨rfl, stamped⟩

theorem Reachable.kept
    (reached : Reachable minThreshold maxThreshold settings aged strategy)
    : strategy.Kept minThreshold maxThreshold settings aged := by
  induction reached with
  | new => exact kept_new minThreshold maxThreshold settings
  | flush reached storable stamped newest ih =>
      exact ih.addSstable (SSTable.valid_fromMemtable _ _ storable)
        (SSTable.path_fromMemtable _ _ _) stamped newest
  | compactIfNeeded reached stamped newest done ih =>
      exact ih.compactIfNeeded stamped newest done
  | compactAll reached stamped newest done ih => exact ih.compactAll stamped done

-----------------------------------------------------------------------------------------
-- Restarts
-----------------------------------------------------------------------------------------

/-- All tables that hold the key hold the same version of it. -/
def SameVersions (strategy : SizeTiered) (key : String) : Prop :=
  ∀ left ∈ strategy.iterAll,
    ∀ right ∈ strategy.iterAll,
      (left.version key).isSome = true
      → (right.version key).isSome = true
      → left.version key = right.version key

/-- Whatever the order, a key with one version reads as that. -/
theorem SameVersions.perm {key : String} (same : strategy.SameVersions key)
    (perm : next.iterAll.Perm strategy.iterAll)
    : next.version key = strategy.version key := by
  cases found : next.version key with
  | none =>
      symm
      rw [version, versionIn_eq_none] at found ⊢
      exact fun table member => found table (perm.mem_iff.mpr member)
  | some entry =>
      obtain ⟨table, member, held⟩ := List.exists_of_findSome?_eq_some found
      have inside := perm.mem_iff.mp member
      cases here : strategy.version key with
      | none =>
          rw [version, versionIn_eq_none] at here
          rw [here table inside] at held
          cases held
      | some other =>
          obtain ⟨first, isFirst, holds⟩ := List.exists_of_findSome?_eq_some here
          have equal := same table inside first isFirst (by simp [held]) (by simp [holds])
          rw [← held, ← holds, equal]

theorem Kept.known (kept : strategy.Kept minThreshold maxThreshold settings aged)
    {dbName : String} (safe : safeName dbName = true)
    : ∀ table ∈ strategy.iterAll, table.path.recognised dbName = true := by
  intro table member
  obtain ⟨unleveled, stamped⟩ := kept.bounded table (List.mem_reverse.mp member)
  exact TablePath.Bounded.recognised ⟨stamped, by simp [unleveled]⟩ safe

theorem Kept.valid (kept : strategy.Kept minThreshold maxThreshold settings aged)
    : ∀ table ∈ strategy.iterAll, table.Valid :=
  fun table member => kept.sound.valid table (List.mem_reverse.mp member)

/-- Loading the tables of a strategy files all of them and no other. -/
theorem Kept.loadFromDir (kept : strategy.Kept minThreshold maxThreshold settings aged)
    {dbName : String} (safe : safeName dbName = true) {directory : List TableFile}
    (lists : Lists dbName directory strategy.iterAll)
    : ∃ next,
        loadFromDir dbName directory minThreshold maxThreshold settings = .ok next
        ∧ next.iterAll.Perm strategy.iterAll
        ∧ (aged = true → next = strategy) := by
  have known := kept.known safe
  obtain ⟨sorted, perm, -, loaded⟩ := loadFromDir_eq lists
    (fun table member => kept.valid table (List.mem_of_mem_filter member)) minThreshold
    maxThreshold settings
  refine ⟨_, loaded, ?_, fun isAged => ?_⟩
  · rw [recognisedTables_eq known] at perm
    exact (iterAll_perm _).trans ((flatten_foldl_addSstable sorted _).trans perm)
  · have whole := (kept.filed isAged).loadFromDir kept.valid known lists
    exact Except.ok.inj (loaded.symm.trans whole)

/-- In every run a key reads the same after a restart if since the last full compaction each
merge was one of the last bucket, or if the key has one version only.
-/
theorem size_tiered_restart_transparent {dbName : String} (safe : safeName dbName = true)
    (reached : Reachable minThreshold maxThreshold settings aged strategy) {key : String}
    (unchanged : aged = true ∨ strategy.SameVersions key) {directory : List TableFile}
    (lists : Lists dbName directory strategy.iterAll)
    : ∃ next,
        loadFromDir dbName directory minThreshold maxThreshold settings = .ok next
        ∧ next.version key = strategy.version key := by
  obtain ⟨next, loaded, perm, same⟩ := reached.kept.loadFromDir safe lists
  refine ⟨next, loaded, ?_⟩
  rcases unchanged with isAged | oneVersion
  · rw [same isAged]
  · exact oneVersion.perm perm

/-- The table of a flush with small blocks. -/
def flushed (timestamp : Nat) (memtable : Memtable) : SSTable :=
  SSTable.fromMemtable smallBlocks { level := none, timestamp } memtable

def threeFlushes (first second third : Memtable) : SizeTiered :=
  [flushed 1 first, flushed 2 second, flushed 3 third].foldl addSstable
    (SizeTiered.new 2 4 smallBlocks)

theorem reachable_threeFlushes {first second third : Memtable} (storable : StorableTable first)
    (storableSecond : StorableTable second) (storableThird : StorableTable third)
    : Reachable 2 4 smallBlocks true (threeFlushes first second third) := by
  have older {timestamp limit : Nat} (memtable : Memtable) (under : timestamp < limit)
      : (flushed timestamp memtable).path.timestamp < limit := by
    rw [flushed, SSTable.path_fromMemtable]
    exact under
  have newest (strategy : SizeTiered) (sst : SSTable) (timestamp : Nat)
      (before : strategy.isNewest timestamp = true) (stamped : sst.path.timestamp < timestamp)
      : (strategy.addSstable sst).isNewest timestamp = true := by
    simp only [isNewest, List.all_eq_true, decide_eq_true_eq] at before ⊢
    intro table member
    rcases List.mem_append.mp ((flatten_addSstable strategy sst).mem_iff.mp member) with
      old | new
    · exact before table old
    · rw [List.mem_singleton.mp new]
      exact stamped
  refine .flush (.flush (.flush .new storable (by decide) rfl) storableSecond (by decide) ?_)
    storableThird (by decide) ?_
  · exact newest _ _ 2 rfl (older first (by decide))
  · exact newest _ _ 3 (newest _ _ 3 rfl (older first (by decide)))
      (older second (by decide))

/-- A memtable with two values. -/
def twoEntries (firstKey firstValue secondKey secondValue : String) : Memtable :=
  (Leveled.oneEntry firstKey firstValue).insert secondKey secondValue none

/-- Witness: two tables of the last bucket are merged. -/
theorem size_tiered_restart_transparent_last
    : ∃ strategy next,
        Reachable 2 4 smallBlocks true strategy
        ∧ loadFromDir "db" (strategy.iterAll.map (SSTable.file "db")) 2 4 smallBlocks
          = .ok next
        ∧ strategy.version "k" = some { value := some "v", expiryMs := none }
        ∧ next.version "k" = strategy.version "k" := by
  let start := threeFlushes (Leveled.oneEntry "a" "u") (twoEntries "k" "v" "l" "u")
    (twoEntries "m" "u" "n" "u")
  have computed : (start.compactIfNeeded 0 4).toOption.any
      (fun result =>
        start.isNewest 4
        && start.mergesLast result.2
        && result.2.version "k" = some { value := some "v", expiryMs := none })
      = true := by
    decide +kernel
  simp only [Option.any_eq_true, toOption_eq_some, Bool.and_eq_true, decide_eq_true_eq]
    at computed
  obtain ⟨⟨ran, strategy⟩, done, ⟨newest, last⟩, holds⟩ := computed
  have begun : Reachable 2 4 smallBlocks true start :=
    reachable_threeFlushes (storableTable_new.insert (by decide) _)
      ((storableTable_new.insert (by decide) _).insert (by decide) _)
      ((storableTable_new.insert (by decide) _).insert (by decide) _)
  have reached := begun.compactIfNeeded (by decide : 4 < uintBound) newest done
  rw [last, Bool.and_true] at reached
  obtain ⟨next, loaded, same⟩ := size_tiered_restart_transparent
    (by decide +kernel : safeName "db" = true) reached (.inl rfl)
    (show Lists "db" (strategy.iterAll.map (SSTable.file "db")) strategy.iterAll from
      ⟨[], by simp, by simp⟩)
  exact ⟨strategy, next, reached, loaded, holds, same⟩

/-- Counterexample: the first bucket is merged, and its old value gets the newest file. -/
theorem size_tiered_restart_reads_old_value
    : ∃ aged strategy next,
        Reachable 2 4 smallBlocks aged strategy
        ∧ loadFromDir "db" (strategy.iterAll.map (SSTable.file "db")) 2 4 smallBlocks
          = .ok next
        ∧ strategy.version "k" = some { value := some "v", expiryMs := none }
        ∧ next.version "k" = some { value := some "u", expiryMs := none } := by
  let start := threeFlushes (Leveled.oneEntry "k" "u") (twoEntries "k" "v" "l" "w")
    (Leveled.oneEntry "x" "u")
  have computed : (start.compactIfNeeded 0 4).toOption.any
      (fun result =>
        start.isNewest 4
        && (loadFromDir "db" (result.2.iterAll.map (SSTable.file "db")) 2 4
            smallBlocks).toOption.any
          (fun next =>
            result.2.version "k" = some { value := some "v", expiryMs := none }
            && next.version "k" = some { value := some "u", expiryMs := none }))
      = true := by
    decide +kernel
  simp only [Option.any_eq_true, toOption_eq_some, Bool.and_eq_true, decide_eq_true_eq]
    at computed
  obtain ⟨⟨ran, strategy⟩, done, newest, next, loaded, before, after⟩ := computed
  have begun : Reachable 2 4 smallBlocks true start :=
    reachable_threeFlushes (storableTable_new.insert (by decide) _)
      ((storableTable_new.insert (by decide) _).insert (by decide) _)
      (storableTable_new.insert (by decide) _)
  have reached := begun.compactIfNeeded (by decide : 4 < uintBound) newest done
  exact ⟨_, strategy, next, reached, loaded, before, after⟩

end SizeTiered

end Rustikv.Lsm

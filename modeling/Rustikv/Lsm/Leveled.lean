import Mathlib.Data.List.Pairwise
import Rustikv.Lsm.Versions

/-! The leveled strategy: below level 0 the tables of a level have disjoint key ranges, and
a compaction keeps what every key reads as, up to the dead records it may drop.
-/

namespace Rustikv.Lsm

open Library

-----------------------------------------------------------------------------------------
-- Key ranges
-----------------------------------------------------------------------------------------

/-- All keys of one table lie below all keys of the other. -/
def SSTable.Below (left right : SSTable) : Prop :=
  ∀ first ∈ left.records, ∀ second ∈ right.records, first.key < second.key

/-- The key ranges of two tables do not meet. -/
def SSTable.Apart (left right : SSTable) : Prop :=
  left.Below right ∨ right.Below left

namespace SSTable

instance : Std.Symm Apart :=
  ⟨fun _ _ apart => Or.symm apart⟩

theorem Apart.version {left right : SSTable} (apart : left.Apart right) (key : String)
    : left.version key = none ∨ right.version key = none := by
  rw [version_eq_none, version_eq_none]
  by_contra both
  simp only [not_or, not_forall, not_not] at both
  obtain ⟨⟨first, inLeft, rfl⟩, second, inRight, same⟩ := both
  rcases apart with below | below
  · exact (below first inLeft second inRight).ne same.symm
  · exact (below second inRight first inLeft).ne same

/-- A valid table's fields bound its keys. -/
theorem Valid.bounds {table : SSTable} (valid : table.Valid) {record : Record}
    (member : record ∈ table.records)
    : ∃ min max,
        table.min.map Prod.fst = some min
        ∧ table.max.map Prod.fst = some max
        ∧ min ≤ record.key
        ∧ record.key ≤ max
        ∧ (∃ first ∈ table.records, first.key = min)
        ∧ ∃ last ∈ table.records, last.key = max := by
  have sorted := valid.sorted
  rw [valid.min, valid.max]
  obtain ⟨first, rest, shape⟩ := List.exists_cons_of_ne_nil (List.ne_nil_of_mem member)
  obtain ⟨front, last, ending⟩ := List.eq_nil_or_concat table.records |>.resolve_left
    (List.ne_nil_of_mem member)
  rw [List.concat_eq_append] at ending
  refine ⟨first.key, last.key, by simp [shape], by simp [ending], ?_, ?_,
    ⟨first, by simp [shape], rfl⟩, ⟨last, by simp [ending], rfl⟩⟩
  · rw [shape] at member sorted
    rcases List.mem_cons.mp member with rfl | later
    · exact le_refl _
    · exact ((List.pairwise_cons.mp sorted).1 record later).le
  · rw [ending] at member sorted
    rcases List.mem_append.mp member with early | late
    · exact ((List.pairwise_append.mp sorted).2.2 record early last (by simp)).le
    · rw [List.mem_singleton.mp late]

theorem overlaps_iff {table : SSTable} (valid : table.Valid) (start end_ : String)
    : table.overlaps start end_ = true
      ↔ (∃ record ∈ table.records, start ≤ record.key)
        ∧ ∃ record ∈ table.records, record.key ≤ end_ := by
  constructor
  · intro meets
    unfold overlaps at meets
    cases min : table.min with
    | none => simp [min] at meets
    | some low =>
        cases max : table.max with
        | none => simp [min, max] at meets
        | some high =>
            simp only [min, max, Bool.and_eq_true, decide_eq_true_eq] at meets
            have first := valid.min
            rw [min, Option.map_some] at first
            obtain ⟨record, found, -⟩ := Option.map_eq_some_iff.mp first.symm
            obtain ⟨low', high', lowEq, highEq, -, -, ⟨lowest, inLow, lowKey⟩, highest,
              inHigh, highKey⟩ := valid.bounds (List.mem_of_mem_head? found)
            rw [min, Option.map_some, Option.some.injEq] at lowEq
            rw [max, Option.map_some, Option.some.injEq] at highEq
            refine ⟨⟨highest, inHigh, ?_⟩, lowest, inLow, ?_⟩
            · rw [highKey, ← highEq]
              exact meets.1
            · rw [lowKey, ← lowEq]
              exact meets.2
  · rintro ⟨⟨above, inAbove, reaches⟩, below, inBelow, starts⟩
    obtain ⟨low, high, lowEq, highEq, -, upper, -⟩ := valid.bounds inAbove
    obtain ⟨low', -, lowEq', -, lower, -⟩ := valid.bounds inBelow
    obtain ⟨min, found, rfl⟩ := Option.map_eq_some_iff.mp lowEq
    obtain ⟨max, found', rfl⟩ := Option.map_eq_some_iff.mp highEq
    obtain rfl : min.1 = low' := Option.some.inj (lowEq.symm.trans lowEq')
    simp only [overlaps, found, found', Bool.and_eq_true, decide_eq_true_eq]
    exact ⟨le_trans reaches upper, le_trans lower starts⟩

end SSTable

namespace Level

/-- The key range of a level covers every record in it. -/
theorem keyRange_some {level : Level} (valid : ∀ table ∈ level.sstables, table.Valid)
    {start end_ : String} (range : level.keyRange = some (start, end_)) {table : SSTable}
    (member : table ∈ level.sstables) {record : Record} (held : record ∈ table.records)
    : start ≤ record.key ∧ record.key ≤ end_ := by
  obtain ⟨min, max, minEq, maxEq, lower, upper, -⟩ := (valid table member).bounds held
  simp only [keyRange, Option.bind_eq_bind, Option.bind_eq_some_iff, Option.pure_def,
    Option.some.injEq, Prod.mk.injEq] at range
  obtain ⟨low, lowEq, high, highEq, rfl, rfl⟩ := range
  have inMins : min ∈ level.sstables.filterMap (fun sst => sst.min.map Prod.fst) :=
    List.mem_filterMap.mpr ⟨table, member, minEq⟩
  have inMaxs : max ∈ level.sstables.filterMap (fun sst => sst.max.map Prod.fst) :=
    List.mem_filterMap.mpr ⟨table, member, maxEq⟩
  refine ⟨le_trans ?_ lower, le_trans upper ?_⟩
  · exact (List.min?_eq_some_iff.mp lowEq).2 min inMins
  · exact (List.max?_eq_some_iff.mp highEq).2 max inMaxs

/-- A level without a key range holds no record. -/
theorem keyRange_none {level : Level} (valid : ∀ table ∈ level.sstables, table.Valid)
    (range : level.keyRange = none) {table : SSTable} (member : table ∈ level.sstables)
    : table.records = [] := by
  by_contra nonempty
  obtain ⟨record, held⟩ := List.exists_mem_of_ne_nil _ nonempty
  obtain ⟨min, max, minEq, maxEq, -⟩ := (valid table member).bounds held
  have inMins : min ∈ level.sstables.filterMap (fun sst => sst.min.map Prod.fst) :=
    List.mem_filterMap.mpr ⟨table, member, minEq⟩
  have inMaxs : max ∈ level.sstables.filterMap (fun sst => sst.max.map Prod.fst) :=
    List.mem_filterMap.mpr ⟨table, member, maxEq⟩
  obtain ⟨low, lowEq⟩ := Option.ne_none_iff_exists'.mp
    (fun none => List.ne_nil_of_mem inMins (List.min?_eq_none_iff.mp none))
  obtain ⟨high, highEq⟩ := Option.ne_none_iff_exists'.mp
    (fun none => List.ne_nil_of_mem inMaxs (List.max?_eq_none_iff.mp none))
  simp [keyRange, lowEq, highEq] at range

end Level

-----------------------------------------------------------------------------------------
-- One merge
-----------------------------------------------------------------------------------------

theorem mergeLevels_cases {settings : BlockSettings} {files : List TablePath}
    {source target source' target' : Level} {nowMs : UInt64} {timestamp : Nat}
    (validSource : ∀ table ∈ source.sstables, table.Valid)
    (validTarget : ∀ table ∈ target.sstables, table.Valid)
    (done
      : Leveled.mergeLevels settings files source target nowMs timestamp
        = .ok (source', target'))
    : source.keyRange = none ∧ source' = source ∧ target' = target
      ∨ ∃ start end_,
          source.keyRange = some (start, end_)
          ∧ ({ level := some target.levelNum, timestamp } : TablePath) ∉ files
          ∧ source' = { source with sstables := [] }
          ∧ target' = {
              target with
              sstables :=
                target.sstables.filter
                  (fun sst =>
                    !((target.overlappingFiles start end_).map SSTable.path).contains
                      sst.path)
                ++ [mergedTable settings { level := some target.levelNum, timestamp }
                  target.isTerminal nowMs
                  ((source.iter ++ target.overlappingFiles start end_).flatMap
                    SSTable.records)]
            } := by
  unfold Leveled.mergeLevels at done
  cases range : source.keyRange with
  | none =>
      simp only [range, Except.ok.injEq, Prod.mk.injEq] at done
      exact .inl ⟨rfl, done.1.symm, done.2.symm⟩
  | some bounds =>
      obtain ⟨start, end_⟩ := bounds
      have validIter : ∀ table ∈ source.iter, table.Valid :=
        fun table member => validSource table (List.mem_reverse.mp member)
      have validOverlap : ∀ table ∈ target.overlappingFiles start end_, table.Valid :=
        fun table member => validTarget table (List.mem_of_mem_filter member)
      simp only [range, mergeTables_eq target.isTerminal nowMs validIter, ok_bind,
        mergeTables_eq target.isTerminal nowMs validOverlap, ← List.foldl_append,
        ← List.flatMap_append] at done
      obtain ⟨sst, created, rest⟩ := bind_eq_ok.mp done
      obtain ⟨fresh, rfl⟩ := createTable_eq_ok.mp created
      simp only [pure, Except.pure, Except.ok.injEq, Prod.mk.injEq] at rest
      refine .inr ⟨start, end_, rfl, fresh, rest.1.symm, ?_⟩
      rw [← rest.2]
      rfl

/-- Removing the overlapping tables by path removes exactly those. -/
theorem filter_paths_eq {tables : List SSTable} (distinct : (tables.map SSTable.path).Nodup)
    (chosen : SSTable → Bool)
    : tables.filter
        (fun sst => !((tables.filter chosen).map SSTable.path).contains sst.path)
      = tables.filter (fun sst => !chosen sst) := by
  refine List.filter_congr (fun table member => ?_)
  congr 1
  rw [Bool.eq_iff_iff, List.contains_iff_mem, List.mem_map]
  constructor
  · rintro ⟨other, inside, same⟩
    obtain ⟨held, picked⟩ := List.mem_filter.mp inside
    rwa [← List.inj_on_of_nodup_map distinct held member same]
  · exact fun picked => ⟨table, List.mem_filter.mpr ⟨member, picked⟩, rfl⟩

section Merge

variable {source target : Level} {start end_ : String}

/-- The target's tables that a merge leaves alone. -/
def Level.untouched (target : Level) (start end_ : String) : List SSTable :=
  target.sstables.filter (fun sst => !sst.overlaps start end_)

/-- The records a merge reads, in its order. -/
def Level.mergeInput (source target : Level) (start end_ : String) : List Record :=
  (source.iter ++ target.overlappingFiles start end_).flatMap SSTable.records

theorem versionIn_perm {tables others : List SSTable}
    (apart : tables.Pairwise SSTable.Apart) (perm : tables.Perm others) (key : String)
    : versionIn tables key = versionIn others key :=
  findSome?_perm (apart.imp (fun pair => pair.version key)) perm

/-- In a level of disjoint tables the merged ones and the others can be read in turn. -/
theorem versionIn_target (apart : target.sstables.Pairwise SSTable.Apart) (key : String)
    : versionIn target.iter key
      = (versionIn (target.overlappingFiles start end_) key).or
          (versionIn (target.untouched start end_) key) := by
  have split := List.filter_append_perm (fun sst => sst.overlaps start end_) target.sstables
  rw [← versionIn_append, Level.iter,
    ← versionIn_perm apart (List.reverse_perm _).symm,
    versionIn_perm apart split.symm]
  rfl

/-- A table left alone lies wholly on one side of everything that is merged. -/
theorem untouched_apart (validSource : ∀ table ∈ source.sstables, table.Valid)
    (validTarget : ∀ table ∈ target.sstables, table.Valid)
    (apart : target.sstables.Pairwise SSTable.Apart)
    (range : source.keyRange = some (start, end_)) {table : SSTable}
    (member : table ∈ target.untouched start end_)
    : (∀ held ∈ table.records, ∀ record ∈ source.mergeInput target start end_,
        held.key < record.key)
      ∨ ∀ held ∈ table.records, ∀ record ∈ source.mergeInput target start end_,
        record.key < held.key := by
  obtain ⟨inTarget, misses⟩ := List.mem_filter.mp member
  simp only [Bool.not_eq_eq_eq_not, Bool.not_true] at misses
  have outside : ¬ ((∃ record ∈ table.records, start ≤ record.key)
      ∧ ∃ record ∈ table.records, record.key ≤ end_) := by
    rw [← SSTable.overlaps_iff (validTarget table inTarget), misses]
    simp
  have others : ∀ other ∈ target.overlappingFiles start end_, table.Apart other := by
    intro other inside
    obtain ⟨otherIn, meets⟩ := List.mem_filter.mp inside
    refine apart.forall inTarget otherIn ?_
    rintro rfl
    rw [misses] at meets
    cases meets
  rcases not_and_or.mp outside with low | high
  · left
    intro held inside record merged
    have before : held.key < start := not_le.mp (fun reach => low ⟨held, inside, reach⟩)
    obtain ⟨other, among, isHeld⟩ := List.mem_flatMap.mp merged
    rcases List.mem_append.mp among with fromSource | fromTarget
    · have inSource := List.mem_reverse.mp fromSource
      exact lt_of_lt_of_le before
        (Level.keyRange_some validSource range inSource isHeld).1
    · obtain ⟨otherIn, meets⟩ := List.mem_filter.mp fromTarget
      rw [SSTable.overlaps_iff (validTarget other otherIn)] at meets
      obtain ⟨⟨reaching, isReaching, reach⟩, -⟩ := meets
      rcases others other fromTarget with below | above
      · exact below held inside record isHeld
      · have after := above reaching isReaching held inside
        exact absurd (lt_trans after before) (not_lt.mpr reach)
  · right
    intro held inside record merged
    have after : end_ < held.key := not_le.mp (fun reach => high ⟨held, inside, reach⟩)
    obtain ⟨other, among, isHeld⟩ := List.mem_flatMap.mp merged
    rcases List.mem_append.mp among with fromSource | fromTarget
    · have inSource := List.mem_reverse.mp fromSource
      exact lt_of_le_of_lt
        (Level.keyRange_some validSource range inSource isHeld).2 after
    · obtain ⟨otherIn, meets⟩ := List.mem_filter.mp fromTarget
      rw [SSTable.overlaps_iff (validTarget other otherIn)] at meets
      obtain ⟨-, starting, isStarting, starts⟩ := meets
      rcases others other fromTarget with below | above
      · have before := below held inside starting isStarting
        exact absurd (lt_trans after before) (not_lt.mpr starts)
      · exact above record isHeld held inside

/-- A table left alone holds no key that is merged. -/
theorem version_untouched (validSource : ∀ table ∈ source.sstables, table.Valid)
    (validTarget : ∀ table ∈ target.sstables, table.Valid)
    (apart : target.sstables.Pairwise SSTable.Apart)
    (range : source.keyRange = some (start, end_)) {table : SSTable}
    (member : table ∈ target.untouched start end_) {record : Record}
    (merged : record ∈ source.mergeInput target start end_)
    : table.version record.key = none := by
  rw [SSTable.version_eq_none]
  intro held inside clash
  rcases untouched_apart validSource validTarget apart range member with below | above
  · exact (below held inside record merged).ne clash
  · exact (above held inside record merged).ne clash.symm

theorem valid_mergeInput (start end_ : String)
    (validSource : ∀ table ∈ source.sstables, table.Valid)
    (validTarget : ∀ table ∈ target.sstables, table.Valid)
    : ∀ record ∈ source.mergeInput target start end_, Record.codec.Valid record := by
  refine valid_flatMap_records (fun table member => ?_)
  rcases List.mem_append.mp member with fromSource | fromTarget
  · exact validSource table (List.mem_reverse.mp fromSource)
  · exact validTarget table (List.mem_of_mem_filter fromTarget)

variable (settings : BlockSettings) (path : TablePath) (nowMs : UInt64)

/-- The target level stays disjoint. -/
theorem merge_apart (validSource : ∀ table ∈ source.sstables, table.Valid)
    (validTarget : ∀ table ∈ target.sstables, table.Valid)
    (apart : target.sstables.Pairwise SSTable.Apart)
    (range : source.keyRange = some (start, end_))
    : (target.untouched start end_
        ++ [mergedTable settings path target.isTerminal nowMs
          (source.mergeInput target start end_)]).Pairwise SSTable.Apart := by
  rw [List.pairwise_append]
  refine ⟨apart.sublist List.filter_sublist, List.pairwise_singleton _ _, ?_⟩
  intro table member new isNew
  rw [List.mem_singleton.mp isNew]
  have sides := untouched_apart validSource validTarget apart range member
  have merged := valid_mergeInput start end_ validSource validTarget
  rcases sides with below | above
  · left
    intro held inside record among
    obtain ⟨other, isInput, same⟩ := key_of_mem_mergedTable merged among
    rw [← same]
    exact below held inside other isInput
  · right
    intro record among held inside
    obtain ⟨other, isInput, same⟩ := key_of_mem_mergedTable merged among
    rw [← same]
    exact above held inside other isInput

/-- The first record of a key that a merge reads is its version in the merged tables. -/
theorem versionIn_mergeInput (source target : Level) (start end_ key : String)
    : (versionIn source.iter key).or (versionIn (target.overlappingFiles start end_) key)
      = (earliest Record.key (source.mergeInput target start end_) key).map
          Record.entry := by
  rw [← versionIn_append, versionIn_eq_earliest]
  rfl

/-- A merge keeps what every key reads as. Witness: a key of the merged records is in no
table left alone, and its first merged record is its newest version.
-/
theorem merge_standsFor (validSource : ∀ table ∈ source.sstables, table.Valid)
    (validTarget : ∀ table ∈ target.sstables, table.Valid)
    (apart : target.sstables.Pairwise SSTable.Apart)
    (range : source.keyRange = some (start, end_))
    (safe
      : target.isTerminal = true → SafeDrop nowMs (source.mergeInput target start end_))
    (key : String) {rest : Option MemtableEntry}
    (last : target.isTerminal = true → rest = none)
    : StandsFor nowMs
        ((versionIn
          (target.untouched start end_
            ++ [mergedTable settings path target.isTerminal nowMs
              (source.mergeInput target start end_)]).reverse key).or rest)
        ((versionIn source.iter key).or ((versionIn target.iter key).or rest)) := by
  have merged := valid_mergeInput start end_ validSource validTarget
  have version := version_mergedTable settings path _ nowMs merged safe key
  have input := versionIn_mergeInput source target start end_ key
  have kept : versionIn (target.untouched start end_).reverse key
      = versionIn (target.untouched start end_) key :=
    (versionIn_perm (apart.sublist List.filter_sublist) (List.reverse_perm _).symm key).symm
  rw [List.reverse_append, List.reverse_singleton, versionIn_append, versionIn_cons,
    versionIn_nil, Option.or_none, version, kept, versionIn_target apart,
    ← Option.or_assoc, ← Option.or_assoc, input, Option.or_assoc, Option.or_assoc]
  cases found : earliest Record.key (source.mergeInput target start end_) key with
  | none => exact .refl
  | some record =>
      obtain ⟨isInput, same⟩ := earliest_some Record.key found
      have absent : versionIn (target.untouched start end_) key = none := by
        rw [versionIn_eq_none]
        intro table member
        exact same ▸ version_untouched validSource validTarget apart range member isInput
      rw [absent, Option.none_or]
      refine (mergedEntry_standsFor target.isTerminal nowMs (some record)).before ?_
      cases terminal : target.isTerminal with
      | true => exact .inr (last terminal)
      | false =>
          left
          simp [mergedEntry]
          split <;> rfl

end Merge

-----------------------------------------------------------------------------------------
-- The levels
-----------------------------------------------------------------------------------------

namespace Leveled

def version (strategy : Leveled) (key : String) : Option MemtableEntry :=
  versionIn strategy.iterAll key

/-- The records that compacting level `i` reads, in its order. -/
def inputAt (strategy : Leveled) (i : Nat) : List Record :=
  match strategy.levels[i]? with
  | some level =>
      if level.isTerminal then
        level.iter.flatMap SSTable.records
      else
        match strategy.levels[i + 1]?, level.keyRange with
        | some target, some (start, end_) => level.mergeInput target start end_
        | _, _ => []
  | none => []

/-- Compacting level `i` writes to the last level, where dead records are dropped. -/
def dropsAt (strategy : Leveled) (i : Nat) : Bool :=
  strategy.levels[i]?.any Level.isTerminal || strategy.levels[i + 1]?.any Level.isTerminal

/-- Compacting level `i` drops no dead record that shadows a live one it also reads. -/
def SafeAt (strategy : Leveled) (i : Nat) (nowMs : UInt64) : Prop :=
  strategy.dropsAt i = true → SafeDrop nowMs (strategy.inputAt i)

instance (strategy : Leveled) (i : Nat) (nowMs : UInt64)
    : Decidable (strategy.SafeAt i nowMs) :=
  inferInstanceAs (Decidable (_ → _))

/-- What every operation keeps: valid tables, disjoint ranges below level 0, the last level
marked as such, and distinct files.
-/
structure Sound (strategy : Leveled) : Prop where
  valid : ∀ level ∈ strategy.levels, ∀ table ∈ level.sstables, table.Valid
  apart : ∀ level ∈ strategy.levels.tail, level.sstables.Pairwise SSTable.Apart
  terminal
    : ∀ front level back,
        strategy.levels = front ++ level :: back
        → (level.isTerminal = true ↔ back = [])
  distinct : (paths strategy.levels).Nodup

/-- What is kept even if some tables of level 0 cannot be read: valid tables with disjoint
ranges below level 0, the last level marked as such, and distinct files.
-/
structure Layered (strategy : Leveled) : Prop where
  valid : ∀ level ∈ strategy.levels.tail, ∀ table ∈ level.sstables, table.Valid
  apart : ∀ level ∈ strategy.levels.tail, level.sstables.Pairwise SSTable.Apart
  terminal
    : ∀ front level back,
        strategy.levels = front ++ level :: back
        → (level.isTerminal = true ↔ back = [])
  distinct : (paths strategy.levels).Nodup

theorem Sound.layered {strategy : Leveled} (sound : strategy.Sound) : strategy.Layered where
  valid level member := sound.valid level (List.mem_of_mem_tail member)
  apart := sound.apart
  terminal := sound.terminal
  distinct := sound.distinct

theorem Sound.readable {strategy : Leveled} (sound : strategy.Sound) {i : Nat} (level : Level)
    (found : strategy.levels[i]? = some level)
    : ∀ table ∈ level.sstables, table.Valid :=
  sound.valid level (List.mem_of_getElem? found)

/-- Below a level that is not the last, there is a next one. -/
theorem Layered.exists_next {strategy : Leveled} (layered : strategy.Layered)
    {front back : List Level} {level : Level} (split : strategy.levels = front ++ level :: back)
    (inner : level.isTerminal = false)
    : ∃ target more, back = target :: more := by
  refine List.exists_cons_of_ne_nil (fun last => ?_)
  rw [(layered.terminal front level back split).mpr last] at inner
  cases inner

/-- The files of one level have distinct names. -/
theorem Layered.nodup_level {strategy : Leveled} (layered : strategy.Layered) {level : Level}
    (inLevels : level ∈ strategy.levels)
    : (level.sstables.map SSTable.path).Nodup :=
  (List.nodup_flatMap.mp layered.distinct).1 level inLevels

theorem Layered.sound {strategy : Leveled} (layered : strategy.Layered)
    (valid : ∀ level ∈ strategy.levels, ∀ table ∈ level.sstables, table.Valid)
    : strategy.Sound where
  valid := valid
  apart := layered.apart
  terminal := layered.terminal
  distinct := layered.distinct

theorem sound_new (numLevels l0Threshold l1MaxBytes : Nat) (settings : BlockSettings)
    : (new numLevels l0Threshold l1MaxBytes settings).Sound where
  valid level member := by
    obtain ⟨i, -, rfl⟩ := List.mem_map.mp member
    simp
  apart level member := by
    obtain ⟨i, -, rfl⟩ := List.mem_map.mp (List.mem_of_mem_tail member)
    exact List.Pairwise.nil
  terminal front level back split := by
    have count : front.length + 1 + back.length = numLevels := by
      have length := congrArg List.length split
      simp [new] at length
      omega
    have found : (new numLevels l0Threshold l1MaxBytes settings).levels[front.length]?
        = some level := by
      simp [split]
    simp only [new, List.getElem?_map, Option.map_eq_some_iff] at found
    obtain ⟨i, position, rfl⟩ := found
    have index : i = front.length := by
      rw [List.getElem?_range (by omega)] at position
      exact (Option.some.inj position).symm
    simp only [index, beq_iff_eq, ← List.length_eq_zero_iff]
    omega
  distinct := by
    have empty : paths (new numLevels l0Threshold l1MaxBytes settings).levels = [] := by
      simp [paths, new, Level.paths, List.flatMap_eq_nil_iff]
    rw [empty]
    exact List.nodup_nil

theorem iterAll_new (numLevels l0Threshold l1MaxBytes : Nat) (settings : BlockSettings)
    : (new numLevels l0Threshold l1MaxBytes settings).iterAll = [] := by
  simp [iterAll, new, Level.iter, List.flatMap_eq_nil_iff]

theorem mem_iterAll {strategy : Leveled} {table : SSTable}
    : table ∈ strategy.iterAll ↔ ∃ level ∈ strategy.levels, table ∈ level.sstables := by
  simp [iterAll, Level.iter]

theorem paths_append (front back : List Level)
    : paths (front ++ back) = paths front ++ paths back := by
  simp [paths]

theorem paths_cons (level : Level) (rest : List Level)
    : paths (level :: rest) = level.paths ++ paths rest := by
  simp [paths]

/-- Flushed tables are read before all others. -/
theorem Sound.addSstable {strategy next : Leveled} (sound : strategy.Sound) {sst : SSTable}
    (valid : sst.Valid) (fresh : sst.path ∉ paths strategy.levels)
    (done : strategy.addSstable sst = .ok next)
    : next.Sound
      ∧ next.levels.length = strategy.levels.length
      ∧ ∀ key, next.version key = (sst.version key).or (strategy.version key) := by
  obtain ⟨levels, settings⟩ := strategy
  unfold Leveled.addSstable at done
  cases levels with
  | nil => cases done
  | cons l0 rest =>
      obtain rfl := Except.ok.inj done
      refine ⟨?_, rfl, ?_⟩
      · exact {
          valid := by
            intro level member table inside
            rcases List.mem_cons.mp member with rfl | deeper
            · rcases List.mem_append.mp inside with old | new
              · exact sound.valid l0 (by simp) table old
              · rwa [List.mem_singleton.mp new]
            · exact sound.valid level (List.mem_cons_of_mem _ deeper) table inside
          apart := sound.apart
          terminal := by
            intro front level back split
            cases front with
            | nil =>
                obtain ⟨rfl, rfl⟩ := List.cons.inj split
                exact sound.terminal [] l0 rest rfl
            | cons first front =>
                obtain ⟨-, split⟩ := List.cons.inj split
                exact sound.terminal (l0 :: front) level back (by simp [split])
          distinct := by
            have distinct := sound.distinct
            simp only [paths_cons, Level.paths, Level.append, List.map_append,
              List.map_cons, List.map_nil] at distinct fresh ⊢
            rw [List.append_assoc]
            refine (List.nodup_middle).mpr (List.nodup_cons.mpr ⟨fresh, distinct⟩)
        }
      · intro key
        simp only [version, iterAll, List.flatMap_cons, Level.iter, Level.append,
          List.reverse_append, List.reverse_singleton, List.nil_append, List.cons_append,
          versionIn_cons]

/-- Neighbouring levels pass the checks of their indices. -/
theorem compactLevels_eq {strategy : Leveled} {front back : List Level}
    {source target : Level} (split : strategy.levels = front ++ source :: target :: back)
    (nowMs : UInt64) (timestamp : Nat)
    : strategy.compactLevels front.length (front.length + 1) nowMs timestamp
      = (do
          let (source, target) ←
            mergeLevels strategy.settings (paths strategy.levels) source target nowMs
              timestamp
          return { strategy with levels := front ++ source :: target :: back }) := by
  have inside : ¬ (strategy.levels.length ≤ front.length
      ∨ strategy.levels.length ≤ front.length + 1) := by
    simp [split]
  have ordered : ¬ front.length + 1 ≤ front.length := by omega
  have right : strategy.levels.drop front.length = source :: target :: back := by
    simp [split]
  have left : strategy.levels.take front.length = front := by
    simp [split]
  have next_ : front.length + 1 - front.length - 1 = 0 := by omega
  simp only [compactLevels, if_neg inside, if_neg ordered, right, left, next_,
    List.getElem?_cons_zero]
  rfl

theorem compactLevels_next {strategy next : Leveled} {front back : List Level}
    {source target : Level} (split : strategy.levels = front ++ source :: target :: back)
    {nowMs : UInt64} {timestamp : Nat}
    (done
      : strategy.compactLevels front.length (front.length + 1) nowMs timestamp = .ok next)
    : ∃ source' target',
        mergeLevels strategy.settings (paths strategy.levels) source target nowMs timestamp
          = .ok (source', target')
        ∧ next = { strategy with levels := front ++ source' :: target' :: back } := by
  rw [compactLevels_eq split] at done
  obtain ⟨⟨source', target'⟩, merged, rest⟩ := bind_eq_ok.mp done
  exact ⟨source', target', merged, (Except.ok.inj rest).symm⟩

/-- Everything that compacting one level can do: nothing, a merge of the last level's
tables, or a merge into the next level.
-/
theorem Layered.compactLevel_cases {strategy next : Leveled} (layered : strategy.Layered)
    {i : Nat}
    (readable
      : ∀ level, strategy.levels[i]? = some level → ∀ table ∈ level.sstables, table.Valid)
    {nowMs : UInt64} {timestamp : Nat}
    (done : strategy.compactLevel i nowMs timestamp = .ok next)
    : next = strategy
      ∨ (∃ front level,
          strategy.levels = front ++ [level]
          ∧ front.length = i
          ∧ level.isTerminal = true
          ∧ ({ level := some level.levelNum, timestamp } : TablePath) ∉ paths front
          ∧ next = {
              strategy with
              levels :=
                front ++ [{
                  level with
                  sstables := [mergedTable strategy.settings
                    { level := some level.levelNum, timestamp } level.isTerminal nowMs
                    (level.iter.flatMap SSTable.records)]
                }]
            })
      ∨ ∃ front source target back start end_,
          strategy.levels = front ++ source :: target :: back
          ∧ front.length = i
          ∧ source.isTerminal = false
          ∧ source.keyRange = some (start, end_)
          ∧ ({ level := some target.levelNum, timestamp } : TablePath)
            ∉ paths strategy.levels
          ∧ next = {
              strategy with
              levels :=
                front
                ++ { source with sstables := [] }
                :: {
                  target with
                  sstables :=
                    target.untouched start end_
                    ++ [mergedTable strategy.settings
                      { level := some target.levelNum, timestamp } target.isTerminal nowMs
                      (source.mergeInput target start end_)]
                }
                :: back
            } := by
  unfold Leveled.compactLevel at done
  cases found : strategy.levels[i]? with
  | none =>
      simp only [found] at done
      exact .inl (Except.ok.inj done).symm
  | some level =>
      obtain ⟨front, back, split, count⟩ := exists_split found
      simp only [found] at done
      cases terminal : level.isTerminal with
      | true =>
          obtain rfl : back = [] := (layered.terminal front level back split).mp terminal
          have others : strategy.levels.eraseIdx i = front := by
            simp [split, ← count, List.eraseIdx_append_of_length_le]
          simp only [terminal, if_true, others, Level.squash] at done
          by_cases empty : level.sstables.isEmpty = true
          · simp only [empty, if_true, ok_bind] at done
            exact .inl (Except.ok.inj done).symm
          · have validIter : ∀ table ∈ level.iter, table.Valid :=
              fun table member => readable level found table (List.mem_reverse.mp member)
            rw [if_neg empty, mergeTables_eq _ _ validIter, ok_bind] at done
            obtain ⟨⟨sst, emptied⟩, squashed, rest⟩ := bind_eq_ok.mp done
            obtain ⟨new, created, same⟩ := bind_eq_ok.mp squashed
            obtain ⟨fresh, rfl⟩ := createTable_eq_ok.mp created
            obtain ⟨rfl, rfl⟩ := Prod.mk.inj (Except.ok.inj same)
            refine .inr (.inl ⟨front, level, split, count, terminal, fresh, ?_⟩)
            rw [← Except.ok.inj rest]
            simp [split, ← count, Level.append, mergedTable, terminal]
      | false =>
          simp only [terminal, Bool.false_eq_true, if_false] at done
          obtain ⟨target, more, rfl⟩ := layered.exists_next split terminal
          rw [← count] at done
          obtain ⟨source', target', merged, rfl⟩ := compactLevels_next split done
          have inTarget : target ∈ strategy.levels.tail := by
            cases front <;> simp [split]
          rcases mergeLevels_cases (readable level found)
              (layered.valid target inTarget) merged with
            ⟨-, rfl, rfl⟩ | ⟨start, end_, range, fresh, rfl, rfl⟩
          · left
            rw [← split]
          · have distinct := layered.nodup_level (List.mem_of_mem_tail inTarget)
            have kept := filter_paths_eq distinct (fun sst => sst.overlaps start end_)
            refine .inr (.inr ⟨front, level, target, more, start, end_, split, count,
              terminal, range, fresh, ?_⟩)
            simp only [Level.untouched, ← kept]
            rfl

/-- The shape of the levels survives replacing their tables. -/
theorem terminal_of_shape {levels others : List Level}
    (terminal
      : ∀ front level back,
          levels = front ++ level :: back → (level.isTerminal = true ↔ back = []))
    (shape : others.map Level.isTerminal = levels.map Level.isTerminal)
    : ∀ front level back,
        others = front ++ level :: back → (level.isTerminal = true ↔ back = []) := by
  intro front level back split
  rw [split, List.map_append, List.map_cons, eq_comm, List.map_eq_append_iff] at shape
  obtain ⟨front', rest, split', -, tail⟩ := shape
  obtain ⟨level', back', rfl, same, tails⟩ := List.map_eq_cons_iff.mp tail
  rw [← same, terminal front' level' back' split', ← List.map_eq_nil_iff, tails,
    List.map_eq_nil_iff]

/-- Adding a table changes level 0 only. -/
theorem Layered.addSstable {strategy next : Leveled} (layered : strategy.Layered)
    {sst : SSTable}
    (fresh : sst.path ∉ paths strategy.levels) (added : strategy.addSstable sst = .ok next)
    : next.Layered
      ∧ next.levels.length = strategy.levels.length
      ∧ ∀ level ∈ next.levels,
          ∀ table ∈ level.sstables,
            table = sst ∨ ∃ other ∈ strategy.levels, table ∈ other.sstables := by
  obtain ⟨levels, settings⟩ := strategy
  unfold Leveled.addSstable at added
  cases levels with
  | nil => cases added
  | cons l0 rest =>
      obtain rfl := Except.ok.inj added
      refine ⟨⟨layered.valid, layered.apart, ?_, ?_⟩, rfl, ?_⟩
      · exact terminal_of_shape layered.terminal rfl
      · have distinct := layered.distinct
        simp only [paths_cons, Level.paths, Level.append, List.map_append, List.map_cons,
          List.map_nil] at distinct fresh ⊢
        rw [List.append_assoc]
        exact List.nodup_middle.mpr (List.nodup_cons.mpr ⟨fresh, distinct⟩)
      · intro level member table inside
        rcases List.mem_cons.mp member with rfl | deeper
        · rcases List.mem_append.mp inside with old | last
          · exact .inr ⟨l0, by simp, old⟩
          · exact .inl (List.mem_singleton.mp last)
        · exact .inr ⟨level, List.mem_cons_of_mem _ deeper, inside⟩

/-- One new table in place of the last level's tables. -/
theorem Layered.replaceLast {strategy : Leveled} (layered : strategy.Layered)
    {front : List Level} {level : Level} (split : strategy.levels = front ++ [level])
    {sst : SSTable} (valid : sst.Valid) (fresh : sst.path ∉ paths front)
    : ({
        strategy with
        levels := front ++ [{ level with sstables := [sst] }]
      } : Leveled).Layered where
  valid other member table inside := by
    cases front with
    | nil => simp at member
    | cons first front =>
        rcases List.mem_append.mp member with early | late
        · exact layered.valid other (by simp [split, early]) table inside
        · rw [List.mem_singleton.mp late] at inside
          rwa [List.mem_singleton.mp inside]
  apart other member := by
    cases front with
    | nil => simp at member
    | cons first front =>
        rcases List.mem_append.mp member with early | late
        · exact layered.apart other (by simp [split, early])
        · rw [List.mem_singleton.mp late]
          exact List.pairwise_singleton _ _
  terminal := terminal_of_shape layered.terminal (by simp [split])
  distinct := by
    have distinct := layered.distinct
    rw [split, paths_append] at distinct
    rw [paths_append, paths_cons, Level.paths, List.map_singleton]
    simp only [paths, List.flatMap_nil, List.append_nil]
    rw [List.nodup_append]
    refine ⟨distinct.of_append_left, List.nodup_singleton _, ?_⟩
    rintro path member other isNew rfl
    rw [List.mem_singleton.mp isNew] at member
    exact fresh member

/-- A level emptied, and a new table behind the ones that the level below keeps. -/
theorem Layered.replaceTwo {strategy : Leveled} (layered : strategy.Layered)
    {front back : List Level} {source target : Level}
    (split : strategy.levels = front ++ source :: target :: back) {kept : List SSTable}
    (sublist : kept.Sublist target.sstables) {sst : SSTable} (valid : sst.Valid)
    (apart : (kept ++ [sst]).Pairwise SSTable.Apart) (fresh : sst.path ∉ paths strategy.levels)
    : ({
        strategy with
        levels :=
          front
          ++ { source with sstables := [] }
          :: { target with sstables := kept ++ [sst] }
          :: back
      } : Leveled).Layered := by
  have inTail : target ∈ strategy.levels.tail := by
    cases front <;> simp [split]
  have origin : ∀ other ∈ (front
        ++ { source with sstables := [] }
        :: { target with sstables := kept ++ [sst] }
        :: back).tail,
      other ∈ strategy.levels.tail
      ∨ other.sstables = []
      ∨ other.sstables = kept ++ [sst] := by
    intro other member
    cases front with
    | nil =>
        simp only [List.nil_append, List.tail_cons, List.mem_cons] at member
        rcases member with rfl | late
        · exact .inr (.inr rfl)
        · exact .inl (by simp [split, late])
    | cons first front =>
        simp only [List.cons_append, List.tail_cons, List.mem_append,
          List.mem_cons] at member
        rcases member with early | rfl | rfl | late
        · exact .inl (by simp [split, early])
        · exact .inr (.inl rfl)
        · exact .inr (.inr rfl)
        · exact .inl (by simp [split, late])
  exact {
    valid := by
      intro other member table inside
      rcases origin other member with old | empty | new
      · exact layered.valid other old table inside
      · simp [empty] at inside
      · rw [new] at inside
        rcases List.mem_append.mp inside with early | last
        · exact layered.valid target inTail table (sublist.subset early)
        · rwa [List.mem_singleton.mp last]
    apart := by
      intro other member
      rcases origin other member with old | empty | new
      · exact layered.apart other old
      · simp [empty]
      · rwa [new]
    terminal := terminal_of_shape layered.terminal (by simp [split])
    distinct := by
      have shorter
          : (paths front ++ (kept.map SSTable.path ++ paths back)).Sublist
            (paths strategy.levels) := by
        rw [split, paths_append, paths_cons, paths_cons]
        refine (List.Sublist.refl _).append (List.sublist_append_of_sublist_right ?_)
        exact (sublist.map _).append (List.Sublist.refl _)
      have inserted := List.nodup_cons.mpr
        ⟨fun member => fresh (shorter.subset member), layered.distinct.sublist shorter⟩
      rw [← List.append_assoc] at inserted
      simp only [paths_append, paths_cons, Level.paths, List.map_nil, List.nil_append,
        List.map_append, List.map_cons]
      rw [List.append_assoc, ← List.append_assoc]
      exact List.nodup_middle.mpr inserted
  }

/-- Compacting a level that can be read keeps the layers. A property of all valid tables
goes over from the old tables to the new ones.
-/
theorem Layered.compactLevel {strategy next : Leveled} (layered : strategy.Layered) {i : Nat}
    (readable
      : ∀ level, strategy.levels[i]? = some level → ∀ table ∈ level.sstables, table.Valid)
    {nowMs : UInt64} {timestamp : Nat}
    (done : strategy.compactLevel i nowMs timestamp = .ok next)
    : next.Layered
      ∧ next.levels.length = strategy.levels.length
      ∧ ∀ holds : SSTable → Prop,
          (∀ table, table.Valid → holds table)
          → (∀ level ∈ strategy.levels, ∀ table ∈ level.sstables, holds table)
          → ∀ level ∈ next.levels, ∀ table ∈ level.sstables, holds table := by
  rcases layered.compactLevel_cases readable done with
    rfl | ⟨front, level, split, rfl, -, fresh, rfl⟩
    | ⟨front, source, target, back, start, end_, split, rfl, -, range, fresh, rfl⟩
  · exact ⟨layered, rfl, fun _ _ all => all⟩
  · have validTables := readable level (by simp [split])
    have merged := valid_mergedTable strategy.settings
      { level := some level.levelNum, timestamp } level.isTerminal nowMs
      (valid_flatMap_records
        (fun table member => validTables table (List.mem_reverse.mp member)))
    refine ⟨layered.replaceLast split merged (by rwa [mergedTable, SSTable.path_fromMemtable]),
      by simp [split], ?_⟩
    intro holds ofValid all other member table inside
    rcases List.mem_append.mp member with early | late
    · exact all other (by simp [split, early]) table inside
    · rw [List.mem_singleton.mp late] at inside
      rw [List.mem_singleton.mp inside]
      exact ofValid _ merged
  · have validSource := readable source (by simp [split])
    have inTail : target ∈ strategy.levels.tail := by
      cases front <;> simp [split]
    have validTarget := layered.valid target inTail
    have merged := valid_mergedTable strategy.settings
      { level := some target.levelNum, timestamp } target.isTerminal nowMs
      (valid_mergeInput start end_ validSource validTarget)
    have apart := merge_apart strategy.settings { level := some target.levelNum, timestamp }
      nowMs validSource validTarget (layered.apart target inTail) range
    refine ⟨layered.replaceTwo split List.filter_sublist merged apart
      (by rwa [mergedTable, SSTable.path_fromMemtable]), by simp [split], ?_⟩
    intro holds ofValid all other member table inside
    simp only [List.mem_append, List.mem_cons] at member
    rcases member with early | rfl | rfl | late
    · exact all other (by simp [split, early]) table inside
    · simp at inside
    · rcases List.mem_append.mp inside with kept | last
      · exact ofValid table (validTarget table (List.mem_of_mem_filter kept))
      · rw [List.mem_singleton.mp last]
        exact ofValid _ merged
    · exact all other (by simp [split, late]) table inside

/-- Compacting a level keeps the strategy sound. -/
theorem Sound.compactLevel {strategy next : Leveled} (sound : strategy.Sound) {i : Nat}
    {nowMs : UInt64} {timestamp : Nat}
    (done : strategy.compactLevel i nowMs timestamp = .ok next)
    : next.Sound ∧ next.levels.length = strategy.levels.length := by
  obtain ⟨layered, count, carries⟩ := sound.layered.compactLevel sound.readable done
  exact ⟨layered.sound (carries _ (fun _ valid => valid) sound.valid), count⟩

/-- Compacting a level that drops safely keeps what every key reads as. -/
theorem Sound.compactLevel_standsFor {strategy next : Leveled} (sound : strategy.Sound)
    {i : Nat} {nowMs : UInt64} {timestamp : Nat} (safe : strategy.SafeAt i nowMs)
    (done : strategy.compactLevel i nowMs timestamp = .ok next) (key : String)
    : StandsFor nowMs (next.version key) (strategy.version key) := by
  rcases sound.layered.compactLevel_cases sound.readable done with
    rfl | ⟨front, level, split, rfl, terminal, -, rfl⟩
    | ⟨front, source, target, back, start, end_, split, rfl, inner, range, -, rfl⟩
  · exact .refl
  · have validTables := sound.valid level (by simp [split])
    have validInput
        : ∀ record ∈ level.iter.flatMap SSTable.records, Record.codec.Valid record :=
      valid_flatMap_records
        (fun table member => validTables table (List.mem_reverse.mp member))
    have drops : SafeDrop nowMs (level.iter.flatMap SSTable.records) := by
      have drops := safe (by simp [dropsAt, split, terminal])
      simpa [inputAt, split, terminal] using drops
    have merged := version_mergedTable strategy.settings
      { level := some level.levelNum, timestamp } level.isTerminal nowMs
      validInput (fun _ => drops) key
    simp only [version, iterAll, split, List.flatMap_append, List.flatMap_cons,
      List.flatMap_nil, List.append_nil, Level.iter, List.reverse_singleton,
      versionIn_append, versionIn_cons, versionIn_nil, Option.or_none]
    refine StandsFor.behind ?_ _
    rw [← Level.iter, merged, versionIn_eq_earliest]
    exact mergedEntry_standsFor level.isTerminal nowMs _
  · have validSource := sound.valid source (by simp [split])
    have validTarget := sound.valid target (by simp [split])
    have apart : target.sstables.Pairwise SSTable.Apart := by
      refine sound.apart target ?_
      cases front <;> simp [split]
    have drops : target.isTerminal = true
        → SafeDrop nowMs (source.mergeInput target start end_) := by
      intro terminal
      have drops := safe (by simp [dropsAt, split, terminal])
      simpa [inputAt, split, inner, range] using drops
    have last : target.isTerminal = true
        → versionIn (back.flatMap Level.iter) key = none := by
      intro terminal
      have empty := (sound.terminal (front ++ [source]) target back (by simp [split])).mp
        terminal
      simp [empty]
    simp only [version, iterAll, split, List.flatMap_append, List.flatMap_cons,
      versionIn_append]
    refine StandsFor.behind ?_ _
    have stands := merge_standsFor strategy.settings
      { level := some target.levelNum, timestamp } nowMs validSource validTarget apart range
      drops key last
    simpa [Level.iter] using stands

/-- What compacting a level keeps, a step of automatic compaction keeps. -/
theorem compactIfNeeded_invariant {strategy next : Leveled} {holds : Leveled → Prop}
    {nowMs : UInt64} {timestamp : Nat} {ran : Bool}
    (done : strategy.compactIfNeeded nowMs timestamp = .ok (ran, next))
    (start : holds strategy)
    (each
      : ∀ i after, strategy.compactLevel i nowMs timestamp = .ok after → holds after)
    : holds next := by
  unfold Leveled.compactIfNeeded at done
  split at done
  next i found =>
    obtain ⟨other, compacted, rest⟩ := bind_eq_ok.mp done
    obtain ⟨-, rfl⟩ := Prod.mk.inj (Except.ok.inj rest)
    exact each i other compacted
  next =>
    obtain ⟨-, rfl⟩ := Prod.mk.inj (Except.ok.inj done)
    exact start

/-- One step of automatic compaction keeps the strategy sound. -/
theorem Sound.compactIfNeeded {strategy next : Leveled} (sound : strategy.Sound)
    {nowMs : UInt64} {timestamp : Nat} {ran : Bool}
    (done : strategy.compactIfNeeded nowMs timestamp = .ok (ran, next))
    : next.Sound ∧ next.levels.length = strategy.levels.length :=
  compactIfNeeded_invariant done ⟨sound, rfl⟩
    (fun _ _ compacted => sound.compactLevel compacted)

/-- The step of automatic compaction that would run next drops safely. -/
def safeStep (strategy : Leveled) (nowMs : UInt64) : Bool :=
  (strategy.levels.findIdx? Level.needsCompaction).all (fun i => strategy.SafeAt i nowMs)

theorem Sound.compactIfNeeded_standsFor {strategy next : Leveled} (sound : strategy.Sound)
    {nowMs : UInt64} {timestamp : Nat} {ran : Bool} (safe : strategy.safeStep nowMs = true)
    (done : strategy.compactIfNeeded nowMs timestamp = .ok (ran, next)) (key : String)
    : StandsFor nowMs (next.version key) (strategy.version key) := by
  unfold Leveled.compactIfNeeded at done
  split at done
  next i found =>
    obtain ⟨other, compacted, rest⟩ := bind_eq_ok.mp done
    obtain ⟨-, rfl⟩ := Prod.mk.inj (Except.ok.inj rest)
    have drops : strategy.SafeAt i nowMs := by simpa [safeStep, found] using safe
    exact sound.compactLevel_standsFor drops compacted key
  next =>
    obtain ⟨-, rfl⟩ := Prod.mk.inj (Except.ok.inj done)
    exact .refl

/-- A full compaction, one level after the other. -/
def compactFrom (clock : Nat → UInt64) (stamp : Nat → Nat)
    : List Nat → Leveled → Except IoError Leveled
  | [], strategy => .ok strategy
  | i :: rest, strategy => do
      let strategy ← strategy.compactLevel i (clock i) (stamp i)
      compactFrom clock stamp rest strategy

theorem compactAll_eq (strategy : Leveled) (clock : Nat → UInt64) (stamp : Nat → Nat)
    : strategy.compactAll clock stamp
      = compactFrom clock stamp (List.range strategy.levels.length) strategy := by
  unfold Leveled.compactAll
  generalize List.range strategy.levels.length = levels
  induction levels generalizing strategy with
  | nil => rfl
  | cons i rest ih =>
      rw [List.foldlM_cons, compactFrom]
      congr 1
      funext other
      exact ih other

/-- Every merge of the compaction drops safely, in the state it starts from. -/
def safeFrom (clock : Nat → UInt64) (stamp : Nat → Nat) : List Nat → Leveled → Bool
  | [], _ => true
  | i :: rest, strategy =>
      strategy.SafeAt i (clock i)
      && match strategy.compactLevel i (clock i) (stamp i) with
        | .ok next => safeFrom clock stamp rest next
        | .error _ => true

/-- What compacting each level keeps, compacting one after the other keeps. -/
theorem compactFrom_invariant {strategy next : Leveled} (holds : Leveled → Prop)
    {clock : Nat → UInt64} {stamp : Nat → Nat} {levels : List Nat}
    (done : Leveled.compactFrom clock stamp levels strategy = .ok next)
    (start : holds strategy)
    (each
      : ∀ i ∈ levels,
          ∀ before after,
            holds before
            → before.compactLevel i (clock i) (stamp i) = .ok after
            → holds after)
    : holds next := by
  induction levels generalizing strategy with
  | nil =>
      obtain rfl := Except.ok.inj done
      exact start
  | cons i rest ih =>
      obtain ⟨middle, first, later⟩ := bind_eq_ok.mp done
      exact ih later (each i (by simp) strategy middle start first)
        (fun other member => each other (List.mem_cons_of_mem _ member))

theorem Sound.compactFrom {strategy next : Leveled} (sound : strategy.Sound)
    {clock : Nat → UInt64} {stamp : Nat → Nat} {levels : List Nat}
    (done : Leveled.compactFrom clock stamp levels strategy = .ok next)
    : next.Sound ∧ next.levels.length = strategy.levels.length := by
  refine compactFrom_invariant
    (fun after => after.Sound ∧ after.levels.length = strategy.levels.length) done
    ⟨sound, rfl⟩ ?_
  rintro i - before after ⟨soundBefore, count⟩ compacted
  obtain ⟨soundAfter, same⟩ := soundBefore.compactLevel compacted
  exact ⟨soundAfter, same.trans count⟩

theorem Sound.compactFrom_standsFor {strategy next : Leveled} (sound : strategy.Sound)
    {clock : Nat → UInt64} {stamp : Nat → Nat} {levels : List Nat} {bound : UInt64}
    (timely : ∀ i ∈ levels, clock i ≤ bound) (safe : safeFrom clock stamp levels strategy = true)
    (done : Leveled.compactFrom clock stamp levels strategy = .ok next) (key : String)
    : StandsFor bound (next.version key) (strategy.version key) := by
  induction levels generalizing strategy with
  | nil =>
      obtain rfl := Except.ok.inj done
      exact .refl
  | cons i rest ih =>
      obtain ⟨middle, first, later⟩ := bind_eq_ok.mp done
      simp only [safeFrom, first, Bool.and_eq_true, decide_eq_true_eq] at safe
      have front := (sound.compactLevel_standsFor safe.1 first key).mono
        (timely i (by simp))
      have back := ih (sound.compactLevel first).1
        (fun other member => timely other (List.mem_cons_of_mem _ member)) safe.2 later
      exact back.trans front

/-- Every merge of a full compaction drops safely. -/
def safeAll (strategy : Leveled) (clock : Nat → UInt64) (stamp : Nat → Nat) : Bool :=
  safeFrom clock stamp (List.range strategy.levels.length) strategy

end Leveled

end Rustikv.Lsm

import Rustikv.Lsm.TieredRestart
import Rustikv.Lsm.CleanRestart
import Rustikv.Lsm.Scans

/-! No call of an engine fails whose tables can be read and whose table names do not repeat:
every merge reads its tables, and every new file has a name of its own.
-/

namespace Rustikv.Lsm

open Library

-----------------------------------------------------------------------------------------
-- Strategies
-----------------------------------------------------------------------------------------

/-- Every table was named before the timestamp. -/
def OlderThan (timestamp : Nat) (tables : List SSTable) : Prop :=
  ∀ table ∈ tables, table.path.timestamp < timestamp

theorem OlderThan.fresh {timestamp : Nat} {tables : List SSTable}
    (older : OlderThan timestamp tables) (level : Option Nat)
    : ({ level, timestamp } : TablePath) ∉ tables.map SSTable.path := by
  intro member
  obtain ⟨table, held, same⟩ := List.mem_map.mp member
  have before := older table held
  rw [same] at before
  exact Nat.lt_irrefl _ before

theorem OlderThan.mono {earlier later : Nat} {tables : List SSTable}
    (older : OlderThan earlier tables) (order : earlier ≤ later)
    : OlderThan later tables :=
  fun table member => lt_of_lt_of_le (older table member) order

/-- A file with a new name is created. -/
theorem createTable_ok {settings : BlockSettings} {existing : List TablePath}
    {path : TablePath} (fresh : path ∉ existing) (memtable : Memtable)
    : createTable settings existing path memtable
      = .ok (SSTable.fromMemtable settings path memtable) :=
  createTable_eq_ok.mpr ⟨fresh, rfl⟩

namespace Leveled

variable {strategy : Leveled} {timestamp : Nat}

theorem OlderThan.paths (older : OlderThan timestamp strategy.iterAll)
    (level : Option Nat)
    : ({ level, timestamp } : TablePath) ∉ Leveled.paths strategy.levels :=
  fun member => older.fresh level (StorageStrategy.mem_paths_leveled.mpr member)

/-- Compacting a level succeeds. -/
theorem Sound.compactLevel_ok (sound : strategy.Sound)
    (older : OlderThan timestamp strategy.iterAll) (i : Nat) (nowMs : UInt64)
    : ∃ next, strategy.compactLevel i nowMs timestamp = .ok next := by
  have fresh (level : Option Nat)
      : ({ level, timestamp } : TablePath) ∉ paths strategy.levels :=
    OlderThan.paths older level
  unfold Leveled.compactLevel
  cases found : strategy.levels[i]? with
  | none => exact ⟨strategy, rfl⟩
  | some level =>
      obtain ⟨front, back, split, rfl⟩ := exists_split found
      have validIter : ∀ table ∈ level.iter, table.Valid :=
        fun table member => sound.readable level found table (List.mem_reverse.mp member)
      cases terminal : level.isTerminal with
      | true =>
          simp only [terminal, if_true, Level.squash]
          by_cases empty : level.sstables.isEmpty = true
          · rw [if_pos empty]
            exact ⟨strategy, rfl⟩
          · have other : ({ level := some level.levelNum, timestamp } : TablePath)
                ∉ paths (strategy.levels.eraseIdx front.length) := by
              intro member
              obtain ⟨kept, inLevels, held⟩ := List.mem_flatMap.mp member
              exact fresh _ (List.mem_flatMap.mpr
                ⟨kept, List.mem_of_mem_eraseIdx inLevels, held⟩)
            rw [if_neg empty, mergeTables_eq _ _ validIter, ok_bind, createTable_ok other]
            exact ⟨_, rfl⟩
      | false =>
          obtain ⟨target, more, rfl⟩ := sound.layered.exists_next split terminal
          simp only [terminal, Bool.false_eq_true, if_false, compactLevels_eq split,
            Leveled.mergeLevels]
          cases range : level.keyRange with
          | none => exact ⟨_, rfl⟩
          | some bounds =>
              obtain ⟨start, end_⟩ := bounds
              have validTarget : ∀ table ∈ target.overlappingFiles start end_, table.Valid :=
                fun table member => sound.valid target (by simp [split]) table
                  (List.mem_of_mem_filter member)
              simp only [mergeTables_eq _ _ validIter, ok_bind,
                mergeTables_eq _ _ validTarget, createTable_ok (fresh _)]
              exact ⟨_, rfl⟩

/-- The tables that compacting a level leaves are old ones and a new one. -/
theorem Sound.older_compactLevel {next : Leveled} {i later : Nat} {nowMs : UInt64} (sound : strategy.Sound)
    (older : OlderThan later strategy.iterAll) (order : timestamp < later)
    (done : strategy.compactLevel i nowMs timestamp = .ok next)
    : OlderThan later next.iterAll := by
  intro table member
  obtain ⟨level, inLevels, held⟩ := mem_iterAll.mp member
  rcases sound.layered.mem_compactLevel sound.readable done inLevels held with
    old | ⟨target, -, path⟩
  · exact older table old
  · rw [path]
    exact order

/-- One level after the other, each with a later name. -/
theorem Sound.compactFrom_ok (sound : strategy.Sound) (clock : Nat → UInt64)
    {stamp : Nat → Nat} {levels : List Nat}
    (older : ∀ i ∈ levels, OlderThan (stamp i) strategy.iterAll)
    (increasing : levels.Pairwise (fun i j => stamp i < stamp j))
    : ∃ next, Leveled.compactFrom clock stamp levels strategy = .ok next := by
  induction levels generalizing strategy with
  | nil => exact ⟨strategy, rfl⟩
  | cons i rest ih =>
      obtain ⟨first, others⟩ := List.pairwise_cons.mp increasing
      obtain ⟨middle, done⟩ := sound.compactLevel_ok (older i (by simp)) i (clock i)
      have later : ∀ j ∈ rest, OlderThan (stamp j) middle.iterAll :=
        fun j member => sound.older_compactLevel (older j (List.mem_cons_of_mem _ member))
          (first j member) done
      obtain ⟨next, after⟩ := ih (sound.compactLevel done).1 later others
      exact ⟨next, by rw [Leveled.compactFrom, done, ok_bind, after]⟩

end Leveled

/-- The names of the tables that a compaction may create, each later than the one before and
later than those of all tables.
-/
structure Stamped (tables : List SSTable) (stamp : Nat → Nat) (count : Nat) : Prop where
  older : OlderThan (stamp 0) tables
  increasing : ∀ i j, i < j → j ≤ count → stamp i < stamp j
  bounded : ∀ i ≤ count, stamp i < uintBound

theorem Stamped.olderAt {tables : List SSTable} {stamp : Nat → Nat} {count i : Nat}
    (stamped : Stamped tables stamp count) (within : i ≤ count)
    : OlderThan (stamp i) tables := by
  refine stamped.older.mono ?_
  rcases Nat.eq_zero_or_pos i with rfl | later
  · exact le_refl _
  · exact (stamped.increasing 0 i later within).le

namespace StorageStrategy

variable {strategy : StorageStrategy}

theorem Sound.compactIfNeeded_ok (sound : strategy.Sound) {timestamp : Nat}
    (older : OlderThan timestamp strategy.iterAll) (nowMs : UInt64)
    : ∃ ran next, strategy.compactIfNeeded nowMs timestamp = .ok (ran, next) := by
  cases strategy with
  | leveled strategy =>
      simp only [StorageStrategy.compactIfNeeded, Leveled.compactIfNeeded]
      split
      next i found =>
        obtain ⟨next, done⟩ := Leveled.Sound.compactLevel_ok sound older i nowMs
        rw [done]
        exact ⟨_, _, rfl⟩
      next => exact ⟨_, _, rfl⟩
  | sizeTiered strategy =>
      simp only [StorageStrategy.compactIfNeeded, SizeTiered.compactIfNeeded]
      split
      next i found =>
        obtain ⟨inside, -⟩ := List.findIdx?_eq_some_iff_getElem.mp found
        obtain ⟨front, back, split, rfl⟩ := exists_split (List.getElem?_eq_getElem inside)
        generalize strategy.sstables[front.length] = bucket at split
        have chosen : strategy.sstables.getD front.length [] = bucket := by simp [split]
        have valid : ∀ table ∈ bucket, table.Valid :=
          fun table member => SizeTiered.Sound.valid sound table (by simp [split, member])
        have others : strategy.sstables.eraseIdx front.length = front ++ back := by
          simp [split, List.eraseIdx_append_of_length_le]
        have fresh : ({ level := none, timestamp } : TablePath)
            ∉ (front ++ back).flatten.map SSTable.path := by
          refine OlderThan.fresh (fun table member => older table ?_) none
          refine List.mem_reverse.mpr ?_
          rw [split]
          simp only [List.flatten_append, List.flatten_cons, List.mem_append] at member ⊢
          exact member.imp_right .inr
        rw [chosen, mergeTables_eq _ _ valid, ok_bind, others, createTable_ok fresh]
        exact ⟨_, _, rfl⟩
      next => exact ⟨_, _, rfl⟩

theorem Sound.compactAll_ok (sound : strategy.Sound) (clock : Nat → UInt64)
    {stamp : Nat → Nat} {count : Nat} (stamped : Stamped strategy.iterAll stamp count)
    (enough : strategy.mergeCount ≤ count + 1)
    : ∃ next, strategy.compactAll clock stamp = .ok next := by
  cases strategy with
  | leveled strategy =>
      have within : ∀ i ∈ List.range strategy.levels.length, i ≤ count := by
        intro i member
        have bound : strategy.levels.length ≤ count + 1 := enough
        have position := List.mem_range.mp member
        omega
      have increasing : (List.range strategy.levels.length).Pairwise
          (fun i j => stamp i < stamp j) := by
        refine List.pairwise_lt_range.imp_of_mem ?_
        exact fun _ inside order => stamped.increasing _ _ order (within _ inside)
      obtain ⟨next, done⟩ := Leveled.Sound.compactFrom_ok sound clock
        (fun i member => stamped.olderAt (within i member)) increasing
      rw [StorageStrategy.compactAll, Leveled.compactAll_eq, done]
      exact ⟨_, rfl⟩
  | sizeTiered strategy =>
      have valid : ∀ table ∈ strategy.iterAll, table.Valid := Sound.valid sound
      simp only [StorageStrategy.compactAll, SizeTiered.compactAll, mergeTables_eq _ _ valid,
        ok_bind, createTable_ok (List.not_mem_nil)]
      exact ⟨_, rfl⟩

end StorageStrategy

end Rustikv.Lsm

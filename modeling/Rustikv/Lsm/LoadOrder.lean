import Rustikv.Library.FirstFound
import Rustikv.Lsm.Reload

/-! The order in which a loaded leveled strategy reads its tables, for any number of
levels.
-/

namespace Rustikv.Lsm

open Library

/-- With this many levels the first table is read before the second one: its level comes
first, or it is in the same level and not older.
-/
def SSTable.LoadedBefore (numLevels : Nat) (left right : SSTable) : Prop :=
  left.slot numLevels < right.slot numLevels
  ∨ left.slot numLevels = right.slot numLevels
    ∧ right.path.timestamp ≤ left.path.timestamp

/-- Of the tables that hold the key this one may be read first after loading. -/
structure SSTable.LoadedFirst (numLevels : Nat) (tables : List SSTable) (key : String)
    (table : SSTable)
    : Prop where
  member : table ∈ tables
  holds : (table.version key).isSome = true
  first
    : ∀ other ∈ tables,
        (other.version key).isSome = true → table.LoadedBefore numLevels other

/-- Files that are listed in the order of their timestamps are loaded in this order. -/
theorem getSstables_ascending {dbName : String} {tables : List SSTable}
    (ascending : tables.Pairwise SSTable.Until)
    (known : ∀ table ∈ tables, table.path.recognised dbName = true)
    (valid : ∀ table ∈ tables, table.Valid)
    : getSstables dbName (tables.map (SSTable.file dbName)) = .ok tables := by
  have listed : databaseFiles dbName (tables.map (SSTable.file dbName))
      = tables.map (fun table => (table.path, table.blocks)) := by
    clear ascending valid
    induction tables with
    | nil => rfl
    | cons table rest ih =>
        have later := ih (fun other member => known other (List.mem_cons_of_mem _ member))
        rw [databaseFiles] at later ⊢
        rw [List.map_cons, List.filterMap_cons, pathIn_file, known table (by simp)]
        simp [later, SSTable.file]
  have sorted : (tables.map (fun table => (table.path, table.blocks))).Pairwise
      (fun left right => left.1.timestamp ≤ right.1.timestamp) :=
    List.pairwise_map.mpr ascending
  simp only [getSstables, listed, sorted.insertionSort_eq]
  clear listed sorted ascending known
  induction tables with
  | nil => rfl
  | cons table rest ih =>
      simp only [List.map_cons, List.mapM_cons, (valid table (by simp)).rebuildIndex,
        ok_bind]
      rw [ih (fun other member => valid other (List.mem_cons_of_mem _ member))]
      rfl

theorem SSTable.slot_lt {numLevels : Nat} (inhabited : 0 < numLevels) (table : SSTable)
    : table.slot numLevels < numLevels := by
  unfold SSTable.slot
  split
  next inside => exact inside
  next => exact Nat.sub_lt inhabited Nat.one_pos

/-- Sorting items into numbered groups loses none of those with a number. -/
theorem perm_flatMap_range {α : Type} (group : α → Nat) (list : List α) (count : Nat)
    : ((List.range count).flatMap (fun i => list.filter (fun item => group item = i))).Perm
        (list.filter (fun item => group item < count)) := by
  induction count with
  | zero => simp
  | succ count ih =>
      have split := List.filter_append_perm (fun item => decide (group item < count))
        (list.filter (fun item => group item < count + 1))
      rw [List.range_succ, List.flatMap_append, List.flatMap_singleton]
      refine List.Perm.trans ?_ split
      rw [List.filter_filter, List.filter_filter]
      refine (ih.trans (List.Perm.of_eq ?_)).append (List.Perm.of_eq ?_)
      · refine List.filter_congr (fun item _ => ?_)
        rw [← Bool.decide_and, decide_eq_decide]
        omega
      · refine List.filter_congr (fun item _ => ?_)
        rw [← decide_not, ← Bool.decide_and, decide_eq_decide]
        omega

namespace Leveled

/-- Tables listed in the order of a rank are read level by level, by descending rank. -/
theorem iterAll_loaded {dbName : String} {directory : List TableFile}
    {sorted : List SSTable} (listed : getSstables dbName directory = .ok sorted)
    (valid : ∀ table ∈ sorted, table.Valid) {rank : SSTable → Nat}
    (ascending : sorted.Pairwise (fun left right => rank left ≤ rank right))
    {numLevels : Nat} (inhabited : 0 < numLevels) (l0Threshold l1MaxBytes : Nat)
    (settings : BlockSettings)
    : ∃ next : Leveled,
        loadFromDir dbName directory numLevels l0Threshold l1MaxBytes settings = .ok next
        ∧ next.iterAll.Perm sorted
        ∧ next.iterAll.Pairwise
            (fun left right =>
              left.slot numLevels < right.slot numLevels
              ∨ left.slot numLevels = right.slot numLevels ∧ rank right ≤ rank left) := by
  obtain ⟨next, loaded, -, levels⟩ := loadFromDir_listed listed valid (.inl inhabited)
    l0Threshold l1MaxBytes settings
  have all : next.iterAll
      = (List.range numLevels).flatMap
        (fun i => (sorted.filter (fun sst => sst.slot numLevels = i)).reverse) := by
    rw [iterAll, levels_loaded levels, List.flatMap_map]
    rfl
  refine ⟨next, loaded, ?_, ?_⟩
  · rw [all]
    refine (List.Perm.flatMap_left _ (fun i _ => List.reverse_perm _)).trans ?_
    refine (perm_flatMap_range (SSTable.slot numLevels) sorted numLevels).trans ?_
    refine List.Perm.of_eq (List.filter_eq_self.mpr ?_)
    intro table _
    exact decide_eq_true (SSTable.slot_lt inhabited table)
  · rw [all, List.pairwise_flatMap]
    refine ⟨fun i _ => ?_, ?_⟩
    · rw [List.pairwise_reverse]
      refine (ascending.filter _).imp_of_mem ?_
      intro left right inLeft inRight order
      have leftSlot := (List.mem_filter.mp inLeft).2
      have rightSlot := (List.mem_filter.mp inRight).2
      rw [decide_eq_true_eq] at leftSlot rightSlot
      exact .inr ⟨rightSlot.trans leftSlot.symm, order⟩
    · refine List.pairwise_lt_range.imp ?_
      intro i j order left inLeft right inRight
      rw [List.mem_reverse, List.mem_filter, decide_eq_true_eq] at inLeft inRight
      left
      rw [inLeft.2, inRight.2]
      exact order

variable {dbName : String} {tables : List SSTable} {numLevels : Nat}

/-- A loaded strategy reads a key in a table that comes first. -/
theorem loadFromDir_first {directory : List TableFile} (lists : Lists dbName directory tables)
    (known : ∀ table ∈ tables, table.path.recognised dbName = true)
    (valid : ∀ table ∈ tables, table.Valid) (inhabited : 0 < numLevels)
    (l0Threshold l1MaxBytes : Nat) (settings : BlockSettings)
    : ∃ next : Leveled,
        loadFromDir dbName directory numLevels l0Threshold l1MaxBytes settings = .ok next
        ∧ next.iterAll.Perm tables
        ∧ ∀ key,
            (next.version key = none ∧ ∀ table ∈ tables, table.version key = none)
            ∨ ∃ table : SSTable,
                table.LoadedFirst numLevels tables key
                ∧ next.version key = table.version key := by
  have all := recognisedTables_eq known
  obtain ⟨sorted, listed, perm, ascending⟩ := getSstables_eq lists (by rwa [all])
  rw [all] at perm
  obtain ⟨next, loaded, same, order⟩ := iterAll_loaded listed
    (fun table member => valid table (perm.mem_iff.mp member)) ascending inhabited
    l0Threshold l1MaxBytes settings
  have tablesOf := same.trans perm
  refine ⟨next, loaded, tablesOf, fun key => ?_⟩
  cases found : next.version key with
  | none =>
      refine .inl ⟨rfl, fun table member => ?_⟩
      exact List.findSome?_eq_none_iff.mp found table (tablesOf.mem_iff.mpr member)
  | some entry =>
      obtain ⟨table, member, holds, first⟩ := findSome?_first order found
      refine .inr ⟨table, ⟨tablesOf.mem_iff.mp member, by rw [holds]; rfl, ?_⟩, holds.symm⟩
      intro other inside some
      rcases first other (tablesOf.mem_iff.mpr inside) some with rfl | before
      · exact .inr ⟨rfl, Nat.le_refl _⟩
      · exact before

/-- Each table that may be read first is, if the directory lists it late enough. -/
theorem loadFromDir_chooses {key : String} {table : SSTable}
    (first : table.LoadedFirst numLevels tables key)
    (known : ∀ table ∈ tables, table.path.recognised dbName = true)
    (valid : ∀ table ∈ tables, table.Valid) (inhabited : 0 < numLevels)
    (l0Threshold l1MaxBytes : Nat) (settings : BlockSettings)
    : ∃ directory,
        ∃ next : Leveled,
          Lists dbName directory tables
          ∧ loadFromDir dbName directory numLevels l0Threshold l1MaxBytes settings = .ok next
          ∧ next.iterAll.Perm tables
          ∧ next.version key = table.version key := by
  -- Of the tables of one timestamp the chosen one is listed last.
  let rank (other : SSTable) : Nat :=
    2 * other.path.timestamp + if other = table then 1 else 0
  let sorted := tables.insertionSort (fun left right => rank left ≤ rank right)
  have perm : sorted.Perm tables := List.perm_insertionSort _ _
  have ascending : sorted.Pairwise (fun left right => rank left ≤ rank right) :=
    List.pairwise_insertionSort _ _
  have byTime : sorted.Pairwise SSTable.Until := by
    refine ascending.imp ?_
    intro left right order
    simp only [rank] at order
    unfold SSTable.Until
    split at order <;> split at order <;> omega
  have validSorted : ∀ table ∈ sorted, table.Valid :=
    fun table member => valid table (perm.mem_iff.mp member)
  have listed := getSstables_ascending byTime
    (fun table member => known table (perm.mem_iff.mp member)) validSorted
  obtain ⟨next, loaded, same, order⟩ := iterAll_loaded listed validSorted ascending inhabited
    l0Threshold l1MaxBytes settings
  have tablesOf := same.trans perm
  refine ⟨_, next, ⟨[], by simpa using perm.map _, by simp⟩, loaded, tablesOf, ?_⟩
  obtain ⟨entry, holds⟩ := Option.isSome_iff_exists.mp first.holds
  rw [holds]
  refine findSome?_eq_of_first order (tablesOf.mem_iff.mpr first.member) holds ?_
  intro other member some before
  by_contra differs
  have least := first.first other (tablesOf.mem_iff.mp member) some
  simp only [rank, if_neg differs, if_true] at before
  unfold SSTable.LoadedBefore at least
  omega

end Leveled

end Rustikv.Lsm

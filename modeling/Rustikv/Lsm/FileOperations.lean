import Rustikv.Lsm.Directory

/-! The file operations of a compaction, one by one, and the tables that are left when it
stops between two of them.
-/

namespace Rustikv.Lsm

open Library

inductive FileOperation
  | create (sst : SSTable)
  | remove (path : TablePath)

def FileOperation.apply (tables : List SSTable) : FileOperation → List SSTable
  | .create sst => tables ++ [sst]
  | .remove path => tables.filter (fun sst => sst.path ≠ path)

/-- The tables in the directory after these operations. -/
def afterOperations (operations : List FileOperation) (tables : List SSTable)
    : List SSTable :=
  operations.foldl FileOperation.apply tables

@[simp]
theorem afterOperations_nil (tables : List SSTable) : afterOperations [] tables = tables := rfl

@[simp]
theorem afterOperations_cons (operation : FileOperation) (rest : List FileOperation)
    (tables : List SSTable)
    : afterOperations (operation :: rest) tables
      = afterOperations rest (operation.apply tables) :=
  rfl

theorem afterOperations_append (first later : List FileOperation) (tables : List SSTable)
    : afterOperations (first ++ later) tables
      = afterOperations later (afterOperations first tables) :=
  List.foldl_append

/-- Removing files in turn leaves those that are not among them. -/
theorem mem_afterOperations_remove {paths : List TablePath} {tables : List SSTable}
    {table : SSTable}
    : table ∈ afterOperations (paths.map .remove) tables
      ↔ table ∈ tables ∧ table.path ∉ paths := by
  induction paths generalizing tables with
  | nil => simp
  | cons path rest ih =>
      rw [List.map_cons, afterOperations_cons, ih, FileOperation.apply, List.mem_filter,
        List.mem_cons, decide_eq_true_eq, not_or, and_assoc]

/-- Every table that is left was there before or has been created. -/
theorem mem_afterOperations {operations : List FileOperation} {tables : List SSTable}
    {table : SSTable} (member : table ∈ afterOperations operations tables)
    : table ∈ tables ∨ .create table ∈ operations := by
  induction operations generalizing tables with
  | nil => exact .inl member
  | cons operation rest ih =>
      rcases ih member with before | later
      · cases operation with
        | create sst =>
            rcases List.mem_append.mp before with old | new
            · exact .inl old
            · rw [List.mem_singleton.mp new]
              exact .inr (by simp)
        | remove path => exact .inl (List.mem_of_mem_filter before)
      · exact .inr (List.mem_cons_of_mem _ later)

end Rustikv.Lsm

import Mathlib.Data.List.Infix
import Rustikv.Format.Memtable
import Rustikv.Library.MapTotal

/-! The size counter of a memtable. Inserting and removing adjust it by what they replace;
removing leaves the bytes of an expiry counted.
-/

namespace Rustikv.Memtable

open Library

-----------------------------------------------------------------------------------------
-- Operations
-----------------------------------------------------------------------------------------

def clear (_ : Memtable) : Memtable :=
  new

inductive Operation
  | insert (key value : String) (expiryMs : Option UInt64)
  | remove (key : String)
  | dropTombstones
  | clear
  deriving DecidableEq, Repr

def apply (table : Memtable) : Operation → Memtable
  | .insert key value expiryMs => table.insert key value expiryMs
  | .remove key => table.remove key
  | .dropTombstones => table.dropTombstones
  | .clear => table.clear

/-- What the operation subtracts from the counter. -/
def subtracted (table : Memtable) : Operation → Nat
  | .insert key _ _ =>
      (table.entry key).elim 0 (fun old => valueLen old + expiryLen old.expiryMs)
  | .remove key => (table.entry key).elim 0 valueLen
  | .dropTombstones => 0
  | .clear => 0

def run (operations : List Operation) : Memtable :=
  operations.foldl apply new

theorem run_concat (operations : List Operation) (operation : Operation)
    : run (operations ++ [operation]) = (run operations).apply operation := by
  rw [run, List.foldl_append]
  rfl

-----------------------------------------------------------------------------------------
-- What the counter should be
-----------------------------------------------------------------------------------------

def entrySize (key : String) (entry : MemtableEntry) : Nat :=
  key.utf8ByteSize + valueLen entry + expiryLen entry.expiryMs

/-- The bytes of the keys, the values and the expiries of all entries. -/
def accountedBytes (table : Memtable) : Nat :=
  SortedMap.total entrySize table.entries

theorem weightAt_entries (table : Memtable) (key : String)
    : SortedMap.weightAt entrySize table.entries key
      = (table.entry key).elim 0 (entrySize key) := rfl

theorem entrySize_le_accountedBytes {table : Memtable} {key : String} {old : MemtableEntry}
    (held : table.entry key = some old)
    : entrySize key old ≤ table.accountedBytes := by
  have erased := SortedMap.total_erase entrySize table.entries key
  rw [weightAt_entries, held, Option.elim_some] at erased
  rw [accountedBytes, ← erased]
  exact Nat.le_add_left _ _

/-- Nothing is subtracted that was not counted. -/
theorem subtracted_le_accountedBytes (table : Memtable) (operation : Operation)
    : table.subtracted operation ≤ table.accountedBytes := by
  cases operation with
  | insert key value expiryMs =>
      cases held : table.entry key with
      | none => simp [subtracted, held]
      | some old =>
          have size := entrySize_le_accountedBytes held
          simp only [subtracted, held, Option.elim_some, entrySize] at size ⊢
          omega
  | remove key =>
      cases held : table.entry key with
      | none => simp [subtracted, held]
      | some old =>
          have size := entrySize_le_accountedBytes held
          simp only [subtracted, held, Option.elim_some, entrySize] at size ⊢
          omega
  | dropTombstones => exact Nat.zero_le _
  | clear => exact Nat.zero_le _

-----------------------------------------------------------------------------------------
-- What the operations do to the counter
-----------------------------------------------------------------------------------------

/-- The expiry bytes that stay counted when their entry becomes a tombstone. -/
def leaves (table : Memtable) (key : String) : Nat :=
  (table.entry key).elim 0 (fun old => expiryLen old.expiryMs)

/-- What the counter has too much after an operation. -/
def excessAfter (table : Memtable) (excess : Nat) : Operation → Nat
  | .insert _ _ _ => excess
  | .remove key => excess + table.leaves key
  | .dropTombstones => 0
  | .clear => 0

theorem sizeBytes_insert (table : Memtable) (key value : String) (expiryMs : Option UInt64)
    : (table.insert key value expiryMs).sizeBytes
      = (table.entry key).elim (table.sizeBytes + key.utf8ByteSize)
          (fun old => table.sizeBytes - valueLen old - expiryLen old.expiryMs)
        + (key.utf8ByteSize + value.utf8ByteSize + expiryLen expiryMs - key.utf8ByteSize) := by
  cases held : table.entry key <;> simp only [insert, held] <;> rfl

theorem sizeBytes_remove (table : Memtable) (key : String)
    : (table.remove key).sizeBytes
      = (table.entry key).elim (table.sizeBytes + key.utf8ByteSize)
          (fun old => table.sizeBytes - valueLen old) := by
  cases held : table.entry key <;> simp only [remove, held] <;> rfl

theorem insert_excess {table : Memtable} {excess : Nat}
    (before : table.sizeBytes = table.accountedBytes + excess) (key value : String)
    (expiryMs : Option UInt64)
    : (table.insert key value expiryMs).sizeBytes
      = (table.insert key value expiryMs).accountedBytes + excess := by
  have total := SortedMap.total_insert entrySize table.entries key
    { value := some value, expiryMs }
  rw [weightAt_entries] at total
  have size : (table.insert key value expiryMs).accountedBytes
      = SortedMap.total entrySize
          (table.entries.insert key { value := some value, expiryMs }) := rfl
  rw [size]
  rw [accountedBytes] at before
  cases held : table.entry key with
  | none =>
      simp only [held, Option.elim_none, entrySize, valueLen, Option.map_some,
        Option.getD_some] at total
      simp only [sizeBytes_insert, held, Option.elim_none]
      omega
  | some old =>
      have counted := entrySize_le_accountedBytes held
      rw [accountedBytes] at counted
      simp only [held, Option.elim_some, entrySize, valueLen, Option.map_some,
        Option.getD_some] at total counted
      simp only [sizeBytes_insert, held, Option.elim_some, valueLen]
      omega

theorem remove_excess {table : Memtable} {excess : Nat}
    (before : table.sizeBytes = table.accountedBytes + excess) (key : String)
    : (table.remove key).sizeBytes
      = (table.remove key).accountedBytes + (excess + table.leaves key) := by
  have total := SortedMap.total_insert entrySize table.entries key
    { value := none, expiryMs := none }
  rw [weightAt_entries] at total
  have size : (table.remove key).accountedBytes
      = SortedMap.total entrySize
          (table.entries.insert key { value := none, expiryMs := none }) := rfl
  rw [size, leaves]
  rw [accountedBytes] at before
  cases held : table.entry key with
  | none =>
      simp [held, entrySize, valueLen, expiryLen] at total
      simp only [sizeBytes_remove, held, Option.elim_none]
      omega
  | some old =>
      have counted := entrySize_le_accountedBytes held
      rw [accountedBytes] at counted
      have tombstone : expiryLen none = 0 := rfl
      simp only [held, Option.elim_some, entrySize, valueLen, Option.map_none,
        Option.getD_none, tombstone] at total counted
      simp only [sizeBytes_remove, held, Option.elim_some, valueLen]
      omega

theorem apply_excess {table : Memtable} (excess : Nat)
    (before : table.sizeBytes = table.accountedBytes + excess) (operation : Operation)
    : (table.apply operation).sizeBytes
      = (table.apply operation).accountedBytes + table.excessAfter excess operation := by
  cases operation with
  | insert key value expiryMs => exact insert_excess before key value expiryMs
  | remove key => exact remove_excess before key
  | dropTombstones => rfl
  | clear => rfl

-----------------------------------------------------------------------------------------
-- Runs
-----------------------------------------------------------------------------------------

/-- The counter is never too small. Witness: induction over the operations. -/
theorem exists_excess (operations : List Operation)
    : ∃ excess, (run operations).sizeBytes = (run operations).accountedBytes + excess := by
  induction operations using List.reverseRecOn with
  | nil => exact ⟨0, rfl⟩
  | append_singleton operations operation ih =>
      obtain ⟨excess, counted⟩ := ih
      rw [run_concat]
      exact ⟨_, apply_excess excess counted operation⟩

/-- No subtraction underflows, whatever the counter has too much. -/
theorem subtracted_le_sizeBytes (operations : List Operation) (operation : Operation)
    : (run operations).subtracted operation ≤ (run operations).sizeBytes := by
  obtain ⟨excess, counted⟩ := exists_excess operations
  have inside := subtracted_le_accountedBytes (run operations) operation
  omega

theorem leaves_eq_zero {table : Memtable} {key : String}
    : table.leaves key = 0
      ↔ ∀ old, table.entry key = some old → old.expiryMs = none := by
  cases held : table.entry key with
  | none => simp [leaves, held]
  | some old => cases expiry : old.expiryMs <;> simp [leaves, held, expiry, expiryLen, ttlLen]

/-- In a run the counter is right in every memtable reached, and no subtraction underflows,
exactly if no step removes a key whose entry has an expiry. Witness: induction over the
steps.
-/
theorem sizeBytes_iff (operations : List Operation)
    : ((∀ before,
          before <+: operations → (run before).sizeBytes = (run before).accountedBytes)
        ∧ ∀ before operation,
            before ++ [operation] <+: operations
            → (run before).subtracted operation ≤ (run before).sizeBytes)
      ↔ ∀ before key,
          before ++ [.remove key] <+: operations
          → ∀ old, (run before).entry key = some old → old.expiryMs = none := by
  constructor
  · rintro ⟨right, -⟩ before key reached
    have start := right before ((List.prefix_append _ _).trans reached)
    have after := right _ reached
    have left := apply_excess 0 start (.remove key)
    rw [run_concat] at after
    refine leaves_eq_zero.mp ?_
    simp only [excessAfter] at left
    omega
  · intro spared
    refine ⟨fun before => ?_, fun before operation _ => subtracted_le_sizeBytes before _⟩
    induction before using List.reverseRecOn with
    | nil => exact fun _ => rfl
    | append_singleton before operation ih =>
        intro reached
        have start := ih ((List.prefix_append _ _).trans reached)
        have after := apply_excess 0 start operation
        have kept : (run before).excessAfter 0 operation = 0 := by
          cases operation with
          | insert key value expiryMs => rfl
          | remove key =>
              rw [excessAfter, Nat.zero_add]
              exact leaves_eq_zero.mpr (spared before key reached)
          | dropTombstones => rfl
          | clear => rfl
        rw [run_concat]
        omega

/-- Counterexample: the expiry of a removed key stays counted. -/
theorem removed_expiry_counted
    : (run [.insert "k" "v" (some 1), .remove "k"]).sizeBytes = 9
      ∧ (run [.insert "k" "v" (some 1), .remove "k"]).accountedBytes = 1 := by
  decide +kernel

end Rustikv.Memtable

import Mathlib.Algebra.BigOperators.Group.Finset.Basic
import Mathlib.Algebra.Order.BigOperators.Group.Finset
import Rustikv.Library.SortedMap

/-! Sums of a weight over the entries of a map, and how updates of the map change them. -/

namespace Rustikv.Library.SortedMap

open Std

variable {κ ν ν' : Type} [LinearOrder κ]

def total (weight : κ → ν → Nat) (entries : SortedMap κ ν) : Nat :=
  (entries.toList.map (fun entry => weight entry.1 entry.2)).sum

/-- What one key adds to the total. -/
def weightAt (weight : κ → ν → Nat) (entries : SortedMap κ ν) (key : κ) : Nat :=
  (entries[key]?).elim 0 (weight key)

/-- The total may be taken over any set of keys that has all those of the map. -/
theorem total_eq_sum (weight : κ → ν → Nat) (entries : SortedMap κ ν) {keys : Finset κ}
    (covers : ∀ key ∈ entries, key ∈ keys)
    : total weight entries = ∑ key ∈ keys, weightAt weight entries key := by
  have listed : entries.toList.map (fun entry => weight entry.1 entry.2)
      = entries.keys.map (weightAt weight entries) := by
    rw [← TreeMap.map_fst_toList_eq_keys, List.map_map]
    refine List.map_congr_left (fun entry member => ?_)
    have found := (entries.mem_toList entry.1 entry.2).mp member
    simp [weightAt, found]
  have distinct : entries.keys.Nodup := entries.sorted_keys.imp (fun before => before.ne)
  have subset : entries.keys.toFinset ⊆ keys := by
    intro key member
    exact covers key ((mem_iff _ _).mpr
      ((entries.mem_keys key).mp (List.mem_toFinset.mp member)))
  rw [total, listed, ← List.sum_toFinset _ distinct]
  refine Finset.sum_subset subset (fun key _ outside => ?_)
  have missing : entries[key]? = none := by
    cases found : entries[key]? with
    | none => rfl
    | some value =>
        exact absurd (List.mem_toFinset.mpr ((entries.mem_keys key).mpr ⟨value, found⟩))
          outside
  simp [weightAt, missing]

theorem exists_covering (entries : SortedMap κ ν) (entries' : SortedMap κ ν')
    : ∃ keys : Finset κ, (∀ key ∈ entries, key ∈ keys) ∧ ∀ key ∈ entries', key ∈ keys := by
  refine ⟨entries.keys.toFinset ∪ entries'.keys.toFinset, ?_, ?_⟩
  · intro key present
    exact Finset.mem_union_left _ (List.mem_toFinset.mpr
      ((entries.mem_keys key).mpr ((mem_iff _ _).mp present)))
  · intro key present
    exact Finset.mem_union_right _ (List.mem_toFinset.mpr
      ((entries'.mem_keys key).mpr ((mem_iff _ _).mp present)))

variable {weight : κ → ν → Nat} {entries : SortedMap κ ν} {weight' : κ → ν' → Nat}
  {entries' : SortedMap κ ν'}

/-- Maps that give every key the same weight have the same total. -/
theorem total_congr
    (same : ∀ key, weightAt weight entries key = weightAt weight' entries' key)
    : total weight entries = total weight' entries' := by
  obtain ⟨keys, covers, covers'⟩ := exists_covering entries entries'
  rw [total_eq_sum weight entries covers, total_eq_sum weight' entries' covers']
  exact Finset.sum_congr rfl (fun key _ => same key)

/-- Lowering weights, one of them strictly, lowers the total. -/
theorem total_lt
    (lower : ∀ key, weightAt weight' entries' key ≤ weightAt weight entries key) {key : κ}
    (strict : weightAt weight' entries' key < weightAt weight entries key)
    : total weight' entries' < total weight entries := by
  obtain ⟨keys, covers, covers'⟩ := exists_covering entries entries'
  rw [total_eq_sum weight entries covers, total_eq_sum weight' entries' covers']
  have present : key ∈ entries := by
    refine (mem_iff _ _).mpr ?_
    cases found : entries[key]? with
    | none => simp [weightAt, found] at strict
    | some value => exact ⟨value, rfl⟩
  exact Finset.sum_lt_sum (fun other _ => lower other) ⟨key, covers key present, strict⟩

/-- Changing the weight of one key changes the total by as much. -/
theorem total_changed {key : κ}
    (same
      : ∀ other, key ≠ other
          → weightAt weight' entries' other = weightAt weight entries other)
    : total weight' entries' + weightAt weight entries key
      = total weight entries + weightAt weight' entries' key := by
  obtain ⟨keys, covers, covers'⟩ := exists_covering entries entries'
  have member : key ∈ insert key keys := Finset.mem_insert_self key keys
  rw [total_eq_sum weight entries (fun other present =>
      Finset.mem_insert_of_mem (covers other present)),
    total_eq_sum weight' entries' (fun other present =>
      Finset.mem_insert_of_mem (covers' other present)),
    ← Finset.add_sum_erase _ _ member, ← Finset.add_sum_erase _ _ member]
  have rest : ∑ other ∈ (insert key keys).erase key, weightAt weight' entries' other
      = ∑ other ∈ (insert key keys).erase key, weightAt weight entries other :=
    Finset.sum_congr rfl
      (fun other present => same other (Finset.ne_of_mem_erase present).symm)
  omega

theorem total_insert (weight : κ → ν → Nat) (entries : SortedMap κ ν) (key : κ) (value : ν)
    : total weight (entries.insert key value) + weightAt weight entries key
      = total weight entries + weight key value := by
  have changed : total weight (entries.insert key value) + weightAt weight entries key
      = total weight entries + weightAt weight (entries.insert key value) key :=
    total_changed (fun other different => by simp [weightAt, different])
  simpa [weightAt] using changed

theorem total_erase (weight : κ → ν → Nat) (entries : SortedMap κ ν) (key : κ)
    : total weight (entries.erase key) + weightAt weight entries key
      = total weight entries := by
  have changed : total weight (entries.erase key) + weightAt weight entries key
      = total weight entries + weightAt weight (entries.erase key) key :=
    total_changed (fun other different => by simp [weightAt, different])
  simpa [weightAt] using changed

end Rustikv.Library.SortedMap

import Mathlib.Tactic.Linarith
import Mathlib.Data.String.Basic
import Mathlib.Data.List.Sort
import Rustikv.Library.KeyedFold

/-! Ordered maps over a linear order: `Std.TreeMap` lookups and sorted entry lists. -/

namespace Rustikv.Library

open Std

abbrev SortedMap (κ ν : Type) [LinearOrder κ] := TreeMap κ ν compare

variable {κ ν : Type} [LinearOrder κ]

namespace SortedMap

@[simp]
theorem getElem?_insert (entries : SortedMap κ ν) (key other : κ) (value : ν)
    : (entries.insert key value)[other]?
      = if key = other then some value else entries[other]? := by
  simp [TreeMap.getElem?_insert]

@[simp]
theorem getElem?_erase (entries : SortedMap κ ν) (key other : κ)
    : (entries.erase key)[other]? = if key = other then none else entries[other]? := by
  simp [TreeMap.getElem?_erase]

theorem sorted_toList (entries : SortedMap κ ν)
    : entries.toList.Pairwise (fun left right => left.1 < right.1) := by
  have ordered := TreeMap.ordered_keys_toList (t := entries)
  exact ordered.imp (fun before => compare_lt_iff_lt.mp before)

theorem distinct_toList (entries : SortedMap κ ν)
    : entries.toList.Pairwise (fun left right => left.1 ≠ right.1) :=
  entries.sorted_toList.imp (fun before => before.ne)

theorem sorted_keys (entries : SortedMap κ ν) : entries.keys.Pairwise (· < ·) := by
  rw [← TreeMap.map_fst_toList_eq_keys, List.pairwise_map]
  exact entries.sorted_toList

@[simp]
theorem mem_toList (entries : SortedMap κ ν) (key : κ) (value : ν)
    : (key, value) ∈ entries.toList ↔ entries[key]? = some value :=
  TreeMap.mem_toList_iff_getElem?_eq_some

theorem mem_iff (entries : SortedMap κ ν) (key : κ)
    : key ∈ entries ↔ ∃ value, entries[key]? = some value := by
  rw [TreeMap.mem_iff_isSome_getElem?, Option.isSome_iff_exists]

theorem mem_keys (entries : SortedMap κ ν) (key : κ)
    : key ∈ entries.keys ↔ ∃ value, entries[key]? = some value := by
  simp only [← TreeMap.map_fst_toList_eq_keys, List.mem_map, Prod.exists, mem_toList,
    exists_and_right, exists_eq_right]

/-- A list sorted by strictly increasing keys that holds exactly the map's entries is the
map's entry list. Witness: strictly sorted lists are determined by their members.
-/
theorem toList_eq {entries : SortedMap κ ν} {items : List (κ × ν)}
    (sorted : items.Pairwise (fun left right => left.1 < right.1))
    (same : ∀ key value, (key, value) ∈ items ↔ entries[key]? = some value)
    : entries.toList = items := by
  have irreflexive : Std.Irrefl (fun left right : κ × ν => left.1 < right.1) :=
    ⟨fun item => lt_irrefl item.1⟩
  have antisymmetric : Std.Antisymm (fun left right : κ × ν => left.1 < right.1) :=
    ⟨fun left right before after => absurd after (lt_asymm before)⟩
  refine List.Pairwise.eq_of_mem_iff entries.sorted_toList sorted ?_
  rintro ⟨key, value⟩
  rw [mem_toList, same]

/-- Searching the entry list by key is a lookup. -/
theorem earliest_toList (entries : SortedMap κ ν) (key : κ)
    : earliest Prod.fst entries.toList key
      = entries[key]?.map (fun value => (key, value)) := by
  cases found : entries[key]? with
  | some value =>
      have member := (entries.mem_toList key value).mpr found
      exact earliest_of_distinct Prod.fst entries.distinct_toList member
  | none =>
      simp only [Option.map_none, earliest_none]
      rintro ⟨other, value⟩ member rfl
      rw [mem_toList, found] at member
      cases member

theorem latest_toList (entries : SortedMap κ ν) (key : κ)
    : latest Prod.fst entries.toList key
      = entries[key]?.map (fun value => (key, value)) := by
  rw [latest_eq_earliest Prod.fst entries.distinct_toList, earliest_toList]

end SortedMap

end Rustikv.Library

import Mathlib.Data.List.Basic

/-! Keyed lists read through a fold: the last update of a key wins, or the first one does. -/

namespace Rustikv.Library

variable {α β κ σ : Type} [DecidableEq κ] (key : α → κ)

/-- The last item carrying the key `k`. -/
def latest (items : List α) (k : κ) : Option α :=
  items.reverse.find? (fun item => key item = k)

/-- The first item carrying the key `k`. -/
def earliest (items : List α) (k : κ) : Option α :=
  items.find? (fun item => key item = k)

@[simp]
theorem latest_nil (k : κ) : latest key [] k = none := rfl

theorem latest_append (front back : List α) (k : κ)
    : latest key (front ++ back) k = (latest key back k).or (latest key front k) := by
  simp [latest, List.find?_append]

@[simp]
theorem latest_concat (items : List α) (item : α) (k : κ)
    : latest key (items ++ [item]) k
      = if key item = k then some item else latest key items k := by
  by_cases same : key item = k <;> simp [latest, same]

theorem latest_cons (item : α) (items : List α) (k : κ)
    : latest key (item :: items) k
      = (latest key items k).or (if key item = k then some item else none) := by
  by_cases same : key item = k <;> simp [latest, List.find?_append, same]

theorem latest_some {items : List α} {k : κ} {item : α}
    (found : latest key items k = some item)
    : item ∈ items ∧ key item = k := by
  have member := List.mem_of_find?_eq_some found
  have accepted := List.find?_some found
  exact ⟨List.mem_reverse.mp member, by simpa using accepted⟩

theorem latest_none {items : List α} {k : κ}
    : latest key items k = none ↔ ∀ item ∈ items, key item ≠ k := by
  simp [latest]

/-- Mapping items through a key-preserving function maps the latest item. -/
theorem latest_map {γ : Type} (f : γ → α) (items : List γ) (k : κ)
    : latest key (items.map f) k = (latest (fun item => key (f item)) items k).map f := by
  simp only [latest, ← List.map_reverse, List.find?_map]
  rfl

/-- Keeping the items of some keys keeps the latest item of each such key. -/
theorem latest_filter (keep : κ → Bool) (items : List α) (k : κ)
    : latest key (items.filter (fun item => keep (key item))) k
      = if keep k then latest key items k else none := by
  induction items with
  | nil => simp
  | cons item rest ih =>
      rw [List.filter_cons, latest_cons]
      by_cases same : key item = k
      · subst same
        cases kept : keep (key item) <;> simp [latest_cons, ih, kept]
      · by_cases kept : keep (key item) = true <;> simp [latest_cons, ih, kept, same]

@[simp]
theorem earliest_nil (k : κ) : earliest key [] k = none := rfl

theorem earliest_cons (item : α) (items : List α) (k : κ)
    : earliest key (item :: items) k
      = if key item = k then some item else earliest key items k := by
  by_cases same : key item = k <;> simp [earliest, same]

theorem earliest_append (front back : List α) (k : κ)
    : earliest key (front ++ back) k = (earliest key front k).or (earliest key back k) := by
  simp [earliest, List.find?_append]

theorem earliest_map {γ : Type} (f : γ → α) (items : List γ) (k : κ)
    : earliest key (items.map f) k
      = (earliest (fun item => key (f item)) items k).map f := by
  simp only [earliest, List.find?_map]
  rfl

theorem earliest_some {items : List α} {k : κ} {item : α}
    (found : earliest key items k = some item)
    : item ∈ items ∧ key item = k := by
  have accepted := List.find?_some found
  exact ⟨List.mem_of_find?_eq_some found, by simpa using accepted⟩

theorem earliest_none {items : List α} {k : κ}
    : earliest key items k = none ↔ ∀ item ∈ items, key item ≠ k := by
  simp [earliest]

/-- Among items with distinct keys, membership determines the item found. -/
theorem earliest_of_distinct {items : List α}
    (distinct : items.Pairwise (fun left right => key left ≠ key right)) {item : α}
    (member : item ∈ items)
    : earliest key items (key item) = some item := by
  induction items with
  | nil => simp at member
  | cons first rest ih =>
      obtain ⟨other, tail⟩ := List.pairwise_cons.mp distinct
      rw [earliest_cons]
      rcases List.mem_cons.mp member with rfl | later
      · simp
      · rw [if_neg (other item later), ih tail later]

theorem latest_eq_earliest {items : List α}
    (distinct : items.Pairwise (fun left right => key left ≠ key right)) (k : κ)
    : latest key items k = earliest key items k := by
  cases found : latest key items k with
  | none => exact (earliest_none key |>.mpr (latest_none key |>.mp found)).symm
  | some item =>
      obtain ⟨member, rfl⟩ := latest_some key found
      exact (earliest_of_distinct key distinct member).symm

/-- When each update overwrites its own key, the fold reads as its latest update.
Witness: induction over the updates.
-/
theorem lookup_foldl_latest (lookup : σ → κ → Option β) (step : σ → α → σ)
    (view : α → Option β)
    (overwrites
      : ∀ state item k,
          lookup (step state item) k = if key item = k then view item else lookup state k)
    (items : List α) (state : σ) (k : κ)
    : lookup (items.foldl step state) k
      = (latest key items k).elim (lookup state k) view := by
  induction items generalizing state with
  | nil => rfl
  | cons item rest ih =>
      rw [List.foldl_cons, ih, latest_cons, overwrites]
      by_cases same : key item = k <;> cases latest key rest k <;> simp [same]

/-- When an update only fills an absent key, the fold reads as its first visible update.
Witness: induction over the updates.
-/
theorem lookup_foldl_earliest (lookup : σ → κ → Option β) (step : σ → α → σ)
    (view : α → Option β)
    (fills
      : ∀ state item k,
          lookup (step state item) k
          = if key item = k then (lookup state k).or (view item) else lookup state k)
    (items : List α) (state : σ) (k : κ)
    : lookup (items.foldl step state) k
      = (lookup state k).or
          (items.findSome? (fun item => if key item = k then view item else none)) := by
  induction items generalizing state with
  | nil => simp
  | cons item rest ih =>
      rw [List.foldl_cons, ih, fills, List.findSome?_cons]
      by_cases same : key item = k
      · cases lookup state k <;> cases view item <;> simp [same]
      · simp [same]

/-- Where at most one item answers, the order of the items does not matter. Witness:
induction over the permutation.
-/
theorem findSome?_perm {f : α → Option β} {items others : List α}
    (exclusive : items.Pairwise (fun left right => f left = none ∨ f right = none))
    (perm : items.Perm others)
    : items.findSome? f = others.findSome? f := by
  induction perm with
  | nil => rfl
  | cons item _ ih =>
      rw [List.findSome?_cons, List.findSome?_cons, ih (List.pairwise_cons.mp exclusive).2]
  | swap first second rest =>
      have one := (List.pairwise_cons.mp exclusive).1 first (by simp)
      rcases one with absent | absent <;> simp only [List.findSome?_cons, absent]
  | trans before _ ihBefore ihAfter =>
      rw [ihBefore exclusive]
      refine ihAfter ((before.pairwise_iff ?_).mp exclusive)
      exact fun one => one.symm

end Rustikv.Library

import Mathlib.Data.List.TakeDrop

/-! Sequences written with references to what was written before. A reference may reach into
the elements it produces itself.
-/

namespace Rustikv.Library

variable {α : Type}

/-- Appends `count` elements of the output, read one by one from `source` on. -/
def copyWithin : Nat → Nat → List α → Option (List α)
  | 0, _, output => some output
  | count + 1, source, output => do
      let item ← output[source]?
      copyWithin count (source + 1) (output ++ [item])

/-- A reference that begins inside the output finds all its elements. -/
theorem copyWithin_inside {source : Nat} {output : List α} (count : Nat)
    (inside : source < output.length)
    : ∃ result,
        copyWithin count source output = some result
        ∧ result.length = output.length + count := by
  induction count generalizing source output with
  | zero => exact ⟨output, rfl, rfl⟩
  | succ count ih =>
      have longer : source + 1 < (output ++ [output[source]]).length := by
        rw [List.length_append, List.length_singleton]
        omega
      obtain ⟨result, copied, length⟩ := ih longer
      refine ⟨result, ?_, ?_⟩
      · rw [copyWithin, List.getElem?_eq_getElem inside]
        exact copied
      · rw [length, List.length_append, List.length_singleton]
        omega

/-- A reference to nothing is empty. -/
theorem copyWithin_outside {count source : Nat} {output result : List α}
    (outside : output.length ≤ source) (copied : copyWithin count source output = some result)
    : count = 0 := by
  cases count with
  | zero => rfl
  | succ count =>
      rw [copyWithin, List.getElem?_eq_none outside] at copied
      cases copied

/-- A reference to equal elements extends a prefix of the sequence. Witness: induction on the
length of the reference.
-/
theorem copyWithin_take {data : List α} {source pos count : Nat} (before : source < pos)
    (inside : pos + count ≤ data.length)
    (agree : ∀ i < count, data[source + i]? = data[pos + i]?)
    : copyWithin count source (data.take pos) = some (data.take (pos + count)) := by
  induction count generalizing source pos with
  | zero => rfl
  | succ count ih =>
      have here : data[source]? = data[pos]? := agree 0 (Nat.succ_pos _)
      have held : data[pos]? = some data[pos] := List.getElem?_eq_getElem (by omega)
      have read : (data.take pos)[source]? = some data[pos] := by
        rw [List.getElem?_take_of_lt before, here, held]
      have longer : data.take pos ++ [data[pos]] = data.take (pos + 1) :=
        (List.take_succ_eq_append_getElem (by omega)).symm
      have later : ∀ i < count, data[source + 1 + i]? = data[pos + 1 + i]? := by
        intro i small
        have next := agree (i + 1) (by omega)
        rwa [Nat.add_right_comm source, Nat.add_right_comm pos]
      have rest : copyWithin count (source + 1) (data.take (pos + 1))
          = some (data.take (pos + 1 + count)) :=
        ih (by omega) (by omega) later
      rw [copyWithin, read]
      simp only [Option.bind_eq_bind, Option.bind_some, longer, rest]
      congr 2
      omega

/-- How many elements two sequences share before they first differ. -/
def commonLength [DecidableEq α] : List α → List α → Nat
  | left :: lefts, right :: rights =>
      if left = right then commonLength lefts rights + 1 else 0
  | _, _ => 0

theorem commonLength_le [DecidableEq α] (left right : List α)
    : commonLength left right ≤ right.length := by
  induction left generalizing right with
  | nil => simp [commonLength]
  | cons head left ih =>
      cases right with
      | nil => simp [commonLength]
      | cons other right =>
          have rest := ih right
          simp only [commonLength, List.length_cons]
          split <;> omega

theorem getElem?_of_lt_commonLength [DecidableEq α] {left right : List α} {i : Nat}
    (small : i < commonLength left right)
    : left[i]? = right[i]? := by
  induction left generalizing right i with
  | nil => simp [commonLength] at small
  | cons head left ih =>
      cases right with
      | nil => simp [commonLength] at small
      | cons other right =>
          rw [commonLength] at small
          split at small
          · rename_i same
            cases i with
            | zero => simp [same]
            | succ i =>
                rw [List.getElem?_cons_succ, List.getElem?_cons_succ]
                exact ih (by omega)
          · omega

end Rustikv.Library

import Mathlib.Data.List.Basic

/-! The first item of an ordered list for which a partial function has a result. -/

namespace Rustikv.Library

variable {α β : Type} {rel : α → α → Prop} {list : List α} {f : α → Option β} {result : β}

/-- The item found first comes before the others that have a result. -/
theorem findSome?_first (order : list.Pairwise rel) (found : list.findSome? f = some result)
    : ∃ first ∈ list,
        f first = some result
        ∧ ∀ other ∈ list, (f other).isSome = true → other = first ∨ rel first other := by
  induction list with
  | nil => cases found
  | cons head rest ih =>
      obtain ⟨before, order⟩ := List.pairwise_cons.mp order
      rw [List.findSome?_cons] at found
      cases here : f head with
      | some value =>
          rw [here] at found
          refine ⟨head, by simp, by rw [here]; exact found, ?_⟩
          intro other member _
          rcases List.mem_cons.mp member with rfl | later
          · exact .inl rfl
          · exact .inr (before other later)
      | none =>
          rw [here] at found
          obtain ⟨first, member, holds, least⟩ := ih order found
          refine ⟨first, List.mem_cons_of_mem _ member, holds, ?_⟩
          intro other inside some
          rcases List.mem_cons.mp inside with rfl | later
          · rw [here] at some
            cases some
          · exact least other later some

/-- An item with a result that no other such item comes before is the one found. -/
theorem findSome?_eq_of_first (order : list.Pairwise rel) {first : α} (member : first ∈ list)
    (holds : f first = some result)
    (least : ∀ other ∈ list, (f other).isSome = true → rel other first → other = first)
    : list.findSome? f = some result := by
  induction list with
  | nil => cases member
  | cons head rest ih =>
      obtain ⟨before, order⟩ := List.pairwise_cons.mp order
      rw [List.findSome?_cons]
      rcases List.mem_cons.mp member with rfl | later
      · rw [holds]
      · cases here : f head with
        | some value =>
            have same := least head (by simp) (by simp [here]) (before first later)
            rw [← same, here] at holds
            exact holds
        | none =>
            exact ih order later
              (fun other inside => least other (List.mem_cons_of_mem _ inside))

end Rustikv.Library

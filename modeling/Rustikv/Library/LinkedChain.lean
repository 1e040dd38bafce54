import Mathlib.Data.List.Basic

/-! Chains of items, each linked to the one before it. -/

namespace Rustikv.Library

variable {α : Type} {link other : α → Option α} {first : Option α} {items : List α}

/-- From a first item on the links lead through these items and end. -/
def Follows (link : α → Option α) : Option α → List α → Prop
  | first, [] => first = none
  | first, item :: rest => first = some item ∧ Follows link (link item) rest

/-- An item that the links lead to. -/
inductive Linked (link : α → Option α) : Option α → α → Prop
  | here (item : α) : Linked link (some item) item
  | next {item later : α} (linked : Linked link (link item) later)
    : Linked link (some item) later

/-- Links of other items do not matter. -/
theorem Follows.congr (follows : Follows link first items)
    (same : ∀ item ∈ items, link item = other item)
    : Follows other first items := by
  induction items generalizing first with
  | nil => exact follows
  | cons item rest ih =>
      obtain ⟨here, behind⟩ := follows
      obtain ⟨agree, agreeRest⟩ := List.forall_mem_cons.mp same
      refine ⟨here, ?_⟩
      rw [← agree]
      exact ih behind agreeRest

theorem Follows.linked (follows : Follows link first items) {item : α} (member : item ∈ items)
    : Linked link first item := by
  induction items generalizing first with
  | nil => cases member
  | cons head rest ih =>
      obtain ⟨rfl, behind⟩ := follows
      rcases List.mem_cons.mp member with rfl | later
      · exact .here item
      · exact .next (ih behind later)

/-- What no first item and no link gives is not linked. -/
theorem not_linked {first : Option α} {item : α} (notFirst : first ≠ some item)
    (never : ∀ earlier, link earlier ≠ some item)
    : ¬ Linked link first item := by
  intro linked
  induction linked with
  | here item => exact notFirst rfl
  | @next earlier later linked ih => exact ih (never earlier) never

end Rustikv.Library

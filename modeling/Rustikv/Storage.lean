import Mathlib.Data.List.Basic

/-! What the two engines share: outcomes of the storage trait, and hash iteration. -/

namespace Rustikv

inductive TtlOutcome
  | set
  | persisted
  | notFound
  deriving DecidableEq, Repr

/-- An iteration order of the source's hash maps and hash sets. -/
structure IterOrder where
  order : List String → List String
  perm : ∀ keys, (order keys).Perm keys

/-- The keys as they are stored. -/
def IterOrder.stored : IterOrder :=
  ⟨id, fun _ => .refl _⟩

end Rustikv

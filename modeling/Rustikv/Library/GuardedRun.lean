import Mathlib.Data.Option.Basic

/-! Runs of a step function: what every step keeps, what is kept exactly as long as each step
meets a condition, and when a call that is made again and again has nothing left to do.
-/

namespace Rustikv.Library

section Runs

variable {σ α : Type} (step : σ → α → Option σ)

/-- Takes one permitted step after the other. -/
def steps (permitted : σ → α → Bool) : List α → σ → Option σ
  | [], state => some state
  | action :: rest, state =>
      if permitted state action then (step state action).bind (steps permitted rest)
      else none

/-- Every step of the run starts in a state that meets the condition. -/
def along (condition : σ → α → Bool) : List α → σ → Bool
  | [], _ => true
  | action :: rest, state =>
      condition state action && (step state action).all (along condition rest)

variable {step} {permitted condition : σ → α → Bool} {state last : σ} {actions : List α}

/-- Witness: induction over the steps, each permitted and taken. -/
theorem steps_induction {motive : List α → σ → Prop} (nil : motive [] last)
    (cons
      : ∀ action rest state next,
          permitted state action = true
          → step state action = some next
          → motive rest next
          → motive (action :: rest) state)
    (ran : steps step permitted actions state = some last)
    : motive actions state := by
  induction actions generalizing state with
  | nil => exact Option.some.inj ran ▸ nil
  | cons action rest ih =>
      unfold steps at ran
      split at ran
      next allowed =>
        obtain ⟨next, taken, ran⟩ := Option.bind_eq_some_iff.mp ran
        exact cons action rest state next allowed taken (ih ran)
      next => cases ran

/-- What every permitted step keeps, a run keeps. -/
theorem steps_keeps {Kept : σ → Prop} (start : Kept state)
    (keeps
      : ∀ state action next,
          permitted state action = true
          → step state action = some next
          → Kept state
          → Kept next)
    (ran : steps step permitted actions state = some last)
    : Kept last := by
  refine steps_induction (motive := fun _ state => Kept state → Kept last) id ?_ ran start
  intro action rest state next allowed taken later kept
  exact later (keeps state action next allowed taken kept)

/-- What every permitted step that meets the condition keeps, so does a run of them. -/
theorem steps_keeps_along {Kept : σ → Prop} (start : Kept state)
    (keeps
      : ∀ state action next,
          permitted state action = true
          → condition state action = true
          → step state action = some next
          → Kept state
          → Kept next)
    (ran : steps step permitted actions state = some last)
    (meets : along step condition actions state = true)
    : Kept last := by
  refine steps_induction
    (motive := fun actions state =>
      along step condition actions state = true → Kept state → Kept last)
    (fun _ kept => kept) ?_ ran meets start
  intro action rest state next allowed taken later meets kept
  rw [along, taken, Option.all_some, Bool.and_eq_true] at meets
  exact later meets.2 (keeps state action next allowed meets.1 taken kept)

/-- Where a step that fails the condition loses for good what the others keep, a run has
kept it as long as all its steps met the condition, and lost it otherwise.
-/
theorem steps_intact_or_lost {Intact Lost : σ → Prop} (start : Intact state)
    (keeps
      : ∀ state action next,
          permitted state action = true
          → step state action = some next
          → Intact state
          → if condition state action then Intact next else Lost next)
    (stays
      : ∀ state action next,
          permitted state action = true
          → step state action = some next
          → Lost state
          → Lost next)
    (ran : steps step permitted actions state = some last)
    : if along step condition actions state then Intact last else Lost last := by
  refine (steps_induction
    (motive := fun actions state =>
      (Intact state → if along step condition actions state then Intact last else Lost last)
      ∧ (Lost state → Lost last))
    ⟨id, id⟩ ?_ ran).1 start
  rintro action rest state next allowed taken ⟨intactLater, lostLater⟩
  refine ⟨fun intact => ?_, fun lost => lostLater (stays _ _ _ allowed taken lost)⟩
  have stepped := keeps state action next allowed taken intact
  rw [along, taken, Option.all_some]
  cases meets : condition state action with
  | true =>
      rw [meets, if_pos rfl] at stepped
      exact intactLater stepped
  | false =>
      rw [meets, if_neg Bool.false_ne_true] at stepped
      exact lostLater stepped

end Runs

/-- What every step of a fold that succeeds keeps, given the items still to come, its end
has. Witness: induction over the items.
-/
theorem foldlM_induction {σ α ε : Type} {step : σ → α → Except ε σ}
    {motive : List α → σ → Prop}
    (cons
      : ∀ item rest state next,
          motive (item :: rest) state → step state item = .ok next → motive rest next)
    {items : List α} {state last : σ} (start : motive items state)
    (ran : items.foldlM step state = .ok last)
    : motive [] last := by
  induction items generalizing state with
  | nil => exact Except.ok.inj ran ▸ start
  | cons item rest ih =>
      rw [List.foldlM_cons] at ran
      cases taken : step state item with
      | error error =>
          rw [taken] at ran
          cases ran
      | ok next =>
          rw [taken] at ran
          exact ih (cons item rest state next start taken) ran

section Repeated

variable {σ : Type} (call : Nat → σ → Option (Bool × σ))

/-- The state after so many calls that each reported to have found something to do. A call
may depend on the number of calls before it, and fails with `none`.
-/
def repeated (start : σ) : Nat → Option σ
  | 0 => some start
  | count + 1 =>
      (repeated start count).bind
        (fun state =>
          match call count state with
          | some (true, next) => some next
          | _ => none)

/-- After finitely many calls there is nothing left to do. -/
def Quiesces (start : σ) : Prop :=
  ∃ count state next,
    repeated call start count = some state ∧ call count state = some (false, next)

variable {call} {start state next : σ} {count : Nat}

theorem repeated_succ
    : repeated call start (count + 1) = some next
      ↔ ∃ state, repeated call start count = some state ∧ call count state = some (true, next)
    := by
  rw [repeated, Option.bind_eq_some_iff]
  refine exists_congr (fun state => and_congr_right (fun _ => ?_))
  split
  next other called => simp [called]
  next differs =>
    simp only [reduceCtorEq, false_iff]
    exact differs next

/-- What every call that finds something to do keeps, any number of them keeps. -/
theorem repeated_keeps (Kept : Nat → σ → Prop) (first : Kept 0 start)
    (keeps
      : ∀ count state next,
          Kept count state → call count state = some (true, next) → Kept (count + 1) next)
    (ran : repeated call start count = some state)
    : Kept count state := by
  induction count generalizing state with
  | zero => exact Option.some.inj ran ▸ first
  | succ count ih =>
      obtain ⟨before, earlier, called⟩ := repeated_succ.mp ran
      exact keeps count before state (ih earlier) called

/-- The calls before the last one have been made. -/
theorem repeated_earlier {earlier : Nat} (ran : repeated call start count = some state)
    (order : earlier < count)
    : ∃ before after,
        repeated call start earlier = some before
        ∧ call earlier before = some (true, after) := by
  induction order generalizing state with
  | refl =>
      obtain ⟨before, reached, called⟩ := repeated_succ.mp ran
      exact ⟨before, state, reached, called⟩
  | step _ ih =>
      obtain ⟨before, reached, -⟩ := repeated_succ.mp ran
      exact ih reached

/-- Calls that descend as long as they meet a condition, and that find something to do at
every further call once they fail it.
-/
structure Settling (call : Nat → σ → Option (Bool × σ)) (Kept : σ → Prop)
    (condition : Nat → σ → Prop) (rank : σ → Nat)
    : Prop where
  keeps
    : ∀ count state next, Kept state → call count state = some (true, next) → Kept next
  runs
    : ∀ count state,
        Kept state → condition count state → ∃ ran next, call count state = some (ran, next)
  descends
    : ∀ count state next,
        Kept state
        → condition count state
        → call count state = some (true, next)
        → condition (count + 1) next
        → rank next < rank state
  persists
    : ∀ count state next ran,
        Kept state
        → ¬ condition count state
        → call count state = some (ran, next)
        → ran = true ∧ ¬ condition (count + 1) next

namespace Settling

variable {Kept : σ → Prop} {condition : Nat → σ → Prop} {rank : σ → Nat}
  (settling : Settling call Kept condition rank) (first : Kept start)
include settling first

theorem kept (ran : repeated call start count = some state) : Kept state :=
  repeated_keeps (fun _ => Kept) first settling.keeps ran

/-- Once a call fails the condition, all later ones do. Witness: induction over their
number.
-/
theorem stuck (ran : repeated call start count = some state)
    (fails : ¬ condition count state) {more : Nat}
    (further : repeated call start (count + more) = some next)
    : ¬ condition (count + more) next := by
  induction more generalizing next with
  | zero =>
      obtain rfl := Option.some.inj (ran.symm.trans further)
      exact fails
  | succ more ih =>
      obtain ⟨middle, reached, called⟩ := repeated_succ.mp further
      have before := settling.kept first reached
      exact (settling.persists _ middle next true before (ih reached) called).2

/-- Before the call that finds nothing to do, no call fails the condition. -/
theorem meets_of_quiesces (quiesces : Quiesces call start)
    (ran : repeated call start count = some state)
    : condition count state := by
  obtain ⟨last, final, rest, reached, ends⟩ := quiesces
  by_contra fails
  have before : count ≤ last := by
    by_contra after
    obtain ⟨other, next, same, called⟩ := repeated_earlier ran (Nat.lt_of_not_le after)
    obtain rfl := Option.some.inj (reached.symm.trans same)
    rw [ends] at called
    cases called
  obtain ⟨more, rfl⟩ := Nat.exists_eq_add_of_le before
  have failsLast := settling.stuck first ran fails reached
  have found := settling.persists _ final rest false (settling.kept first reached) failsLast
    ends
  cases found.1

/-- Where every call meets the condition, one of them finds nothing to do. Witness:
induction over a bound on the rank.
-/
theorem quiesces_of_meets
    (meets : ∀ count state, repeated call start count = some state → condition count state)
    {bound : Nat} (low : rank state < bound)
    (reached : repeated call start count = some state)
    : Quiesces call start := by
  induction bound generalizing count state with
  | zero => exact absurd low (Nat.not_lt_zero _)
  | succ bound ih =>
      have kept := settling.kept first reached
      have met := meets count state reached
      obtain ⟨ran, next, called⟩ := settling.runs count state kept met
      cases ran with
      | false => exact ⟨count, state, next, reached, called⟩
      | true =>
          have further := repeated_succ.mpr ⟨state, reached, called⟩
          have lower := settling.descends count state next kept met called
            (meets _ _ further)
          exact ih (by omega) further

/-- The calls end exactly if each of them meets the condition. -/
theorem quiesces_iff
    : Quiesces call start
      ↔ ∀ count state, repeated call start count = some state → condition count state := by
  constructor
  · exact fun quiesces _ _ ran => settling.meets_of_quiesces first quiesces ran
  · intro meets
    have reached : repeated call start 0 = some start := rfl
    exact settling.quiesces_of_meets first meets (Nat.lt_succ_self _) reached

end Settling

end Repeated

end Rustikv.Library

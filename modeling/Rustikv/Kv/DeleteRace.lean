import Rustikv.Kv.CrashRecovery
import Rustikv.Kv.Interleaving
import Rustikv.Kv.Restart

/-! Deletes on several threads beside value writes. A delete logs its tombstone, removes the
index entry and appends to the segment in three lock sections; a value write holds all locks
at once. Memory and files stay in step as long as no value write comes between the sections
of a delete of its key.
-/

namespace Rustikv.Kv

open Library

-----------------------------------------------------------------------------------------
-- Runs of writers only
-----------------------------------------------------------------------------------------

/-- Sections of writing calls, and the passing of time. -/
def Action.writes : Action → Bool
  | .tick _ => true
  | .append _ _ _ _ => true
  | .ttl _ _ _ _ => true
  | .finish _ => true
  | .deleteWal _ _ => true
  | .deleteIndex _ => true
  | .deleteRecord _ => true
  | _ => false

/-- The systems that permitted sections of writing calls lead to. -/
inductive Races (clock : Nat → Nat) (permitted : System → Action → Bool) (start : System)
    : System → Prop
  | start : Races clock permitted start start
  | step {system next : System} {action : Action}
      (reached : Races clock permitted start system) (writes : action.writes = true)
      (allowed : permitted system action = true)
      (taken : system.step clock action = .ok next)
    : Races clock permitted start next

/-- An append of this record rolls the active segment first. -/
def KVEngine.rolls (db : KVEngine) (world : World) (key value : String)
    (expiryMs : Option UInt64)
    : Bool :=
  db.maxSegmentBytes.toNat
  < world.disk.segmentSize db.activeSegment + (valueRecord key value expiryMs).sizeOnDisk

namespace System

/-- A delete of the key is between its log record and its index removal. -/
def logging (system : System) (key : String) : Bool :=
  system.threads.toList.any
    (fun item =>
      match item.2 with
      | .deleteLogged other => other = key
      | _ => false)

/-- A delete of the key is between its index removal and its segment record. -/
def unindexing (system : System) (key : String) : Bool :=
  system.threads.toList.any
    (fun item =>
      match item.2 with
      | .deleteUnindexed other _ => other = key
      | _ => false)

/-- The value write does not come between the sections of a delete of its key, unless the
only section before it is the log record and the write empties the log.
-/
def separate (system : System) (key value : String) (expiryMs : Option UInt64) : Bool :=
  !system.unindexing key
  && (!system.logging key || system.db.rolls system.world key value expiryMs)

def apart (system : System) : Action → Bool
  | .append _ key value expiryMs => system.separate key value expiryMs
  | .ttl _ key expiryMs nowMs =>
      match system.lookup key nowMs with
      | .ok (some value) => system.separate key value expiryMs
      | _ => true
  | _ => true

-----------------------------------------------------------------------------------------
-- Which deletes are under way
-----------------------------------------------------------------------------------------

theorem logging_iff (system : System) (key : String)
    : system.logging key = true
      ↔ ∃ thread : Nat, system.threads[thread]? = some (.deleteLogged key) := by
  simp only [logging, List.any_eq_true, Prod.exists, SortedMap.mem_toList]
  constructor
  · rintro ⟨thread, state, present, same⟩
    cases state with
    | deleteLogged other =>
        obtain rfl : other = key := by simpa using same
        exact ⟨thread, present⟩
    | _ => cases same
  · rintro ⟨thread, present⟩
    exact ⟨thread, _, present, by simp⟩

theorem unindexing_iff (system : System) (key : String)
    : system.unindexing key = true
      ↔ ∃ (thread : Nat) (old : IndexEntry),
          system.threads[thread]? = some (.deleteUnindexed key old) := by
  simp only [unindexing, List.any_eq_true, Prod.exists, SortedMap.mem_toList]
  constructor
  · rintro ⟨thread, state, present, same⟩
    cases state with
    | deleteUnindexed other old =>
        obtain rfl : other = key := by simpa using same
        exact ⟨thread, old, present⟩
    | _ => cases same
  · rintro ⟨thread, old, present⟩
    exact ⟨thread, _, present, by simp⟩

/-- The step put one thread in a new state, or ended its call. -/
def Moves (system next : System) (thread : Nat) (state : Option Thread) : Prop :=
  ∀ other, next.threads[other]? = if thread = other then state else system.threads[other]?

theorem moves_setThread (system : System) (thread : Nat) (state : Thread)
    : Moves system (system.setThread thread state) thread (some state) := by
  intro other
  simp [setThread]

theorem moves_endCall (system : System) (thread : Nat)
    : Moves system (system.endCall thread) thread none := by
  intro other
  simp [endCall]

namespace Moves

variable {system next : System} {thread : Nat} {state : Option Thread}

theorem found (moves : Moves system next thread state) {other : Nat} {held : Thread}
    (present : next.threads[other]? = some held)
    : state = some held ∨ system.threads[other]? = some held := by
  rw [moves other] at present
  split at present
  · exact Or.inl present
  · exact Or.inr present

theorem logging (moves : Moves system next thread state) {key : String}
    (elsewhere : system.threads[thread]? ≠ some (.deleteLogged key))
    (logging : system.logging key = true)
    : next.logging key = true := by
  rw [logging_iff] at logging ⊢
  obtain ⟨other, present⟩ := logging
  have different : thread ≠ other := by
    rintro rfl
    exact elsewhere present
  exact ⟨other, by rw [moves other, if_neg different, present]⟩

theorem unindexing (moves : Moves system next thread state) {key : String}
    (elsewhere : ∀ old, system.threads[thread]? ≠ some (.deleteUnindexed key old))
    (unindexing : system.unindexing key = true)
    : next.unindexing key = true := by
  rw [unindexing_iff] at unindexing ⊢
  obtain ⟨other, old, present⟩ := unindexing
  have different : thread ≠ other := by
    rintro rfl
    exact elsewhere old present
  exact ⟨other, old, by rw [moves other, if_neg different, present]⟩

end Moves

end System

-----------------------------------------------------------------------------------------
-- Memory and files in step
-----------------------------------------------------------------------------------------

/-- The keys of deletes under way are within the limit. -/
def Thread.Fits : Thread → Prop
  | .deleteLogged key => key.utf8ByteSize ≤ maxKeySize
  | .deleteUnindexed key _ => key.utf8ByteSize ≤ maxKeySize
  | _ => True

/-- The index holds `live`. So do the segments, deletes that have still to append their
record aside; and the log disagrees only where a delete has still to remove its entry.
-/
structure InStep (clock : Nat → Nat) (system : System) (logs : List Log)
    (updates wal : List Update) (live : Contents)
    : Prop where
  stored : Stored system.world.disk (logs ++ [(system.db.activeSegment, updates)]) wal
  bound : system.db.activeSegment ≤ clock system.world.ticks
  hints : ∀ segment : Nat, system.world.disk.hints[segment]? = none
  represents : Represents system.db.index system.world.disk live
  segments
    : ∀ key,
        Contents.replay (updatesOf (logs ++ [(system.db.activeSegment, updates)])) key
          = live key
        ∨ system.unindexing key = true
  removed
    : ∀ (thread : Nat) key old,
        system.threads[thread]? = some (.deleteUnindexed key old) → live key = none
  logged
    : ∀ key update,
        latest Update.key wal key = some update
        → update.item = live key ∨ system.logging key = true
  tombstones
    : ∀ (thread : Nat) key update,
        system.threads[thread]? = some (.deleteLogged key)
        → latest Update.key wal key = some update
        → update.item = none
  fits : ∀ (thread : Nat) state, system.threads[thread]? = some state → state.Fits

/-- The update a delete logs and appends. -/
def removal (key : String) : Update :=
  { key, item := none }

theorem deleteWal_eq (world : World) (key : String)
    : KVEngine.deleteWal world key
      = world.perform (.walAppend (removal key).record.toBeBytes) := rfl

theorem deleteRecord_eq (db : KVEngine) (world : World) (key : String)
    : db.deleteRecord world key
      = world.perform (.segmentAppend db.activeSegment (removal key).record.toBeBytes) := rfl

/-- Some logs and some map make the system agree with its files. -/
def System.Agrees (clock : Nat → Nat) (system : System) : Prop :=
  ∃ logs updates wal live, InStep clock system logs updates wal live

theorem KVEngine.wal_of_rolls {db : KVEngine} {world : World} {key value : String}
    {expiryMs : Option UInt64} (rolls : db.rolls world key value expiryMs = true)
    (clock : Nat → Nat)
    : (db.kvAppend clock world key value expiryMs).2.2.disk.wal = [] := by
  have large : db.maxSegmentBytes.toNat
      < (world.perform
          (.walAppend (Wal.record key value false expiryMs).toBeBytes)).disk.segmentSize
            db.activeSegment
        + (KVEngine.valueRecord key value expiryMs).sizeOnDisk :=
    of_decide_eq_true rolls
  rw [kvAppend_eq]
  dsimp only
  rw [appendTarget, if_pos large]
  rfl

theorem System.Moves.fits {system next : System} {thread : Nat} {state : Option Thread}
    (moves : Moves system next thread state)
    (before : ∀ (other : Nat) held, system.threads[other]? = some held → held.Fits)
    (new : ∀ held, state = some held → held.Fits) (other : Nat) (held : Thread)
    (present : next.threads[other]? = some held)
    : held.Fits := by
  rcases moves.found present with same | old
  · exact new held same
  · exact before other held old

namespace InStep

variable {clock : Nat → Nat} {system next : System} {logs : List Log}
  {updates wal : List Update} {live : Contents} {thread : Nat}

theorem active (inStep : InStep clock system logs updates wal live)
    : system.db.activeSegment ∈ system.world.disk.segments :=
  (inStep.stored.filed.mem_iff _).mpr ⟨updates, by simp⟩

/-- A value write that keeps apart from the deletes of its key. -/
theorem write (inStep : InStep clock system logs updates wal live) {key value : String}
    {expiryMs : Option UInt64} (separate : system.separate key value expiryMs = true)
    (free : system.threads[thread]? = none) {newSize : Nat} {replaced : Option Nat}
    (moves : System.Moves system next thread (some (.appended newSize replaced)))
    {more : List Log} {last newWal : List Update} {added : List Place}
    {operations : List FileOp}
    (effect : KVEngine.WriteEffect clock (KVEngine.valueUpdate key value expiryMs) system.db
      next.db system.world next.world logs more updates last wal newWal added operations)
    (represents
      : Represents next.db.index next.world.disk (live.set key value expiryMs))
    (emptied
      : system.db.rolls system.world key value expiryMs = true → next.world.disk.wal = [])
    : next.Agrees clock := by
  simp only [System.separate, Bool.and_eq_true, Bool.not_eq_true', Bool.or_eq_true]
    at separate
  obtain ⟨indexed, unlogged⟩ := separate
  obtain ⟨placed, newLog⟩ := effect.written.resolve_right (by simp)
  refine ⟨logs ++ more, last, newWal, live.set key value expiryMs, {
    stored := effect.stored
    bound := effect.bound
    hints := effect.hints ▸ inStep.hints
    represents
    segments := fun other => ?_
    removed := fun other otherKey old present => ?_
    logged := fun other update found => ?_
    tombstones := fun other otherKey update present found => ?_
    fits := moves.fits inStep.fits (by simp [Thread.Fits])
  }⟩
  · rw [effect.updatesOf_eq, placed, Contents.replay_concat]
    by_cases same : key = other
    · left
      simp [Contents.apply, same]
    · rcases inStep.segments other with agree | waiting
      · left
        simpa [Contents.apply, same, Ne.symm same] using agree
      · exact Or.inr (moves.unindexing (by simp [free]) waiting)
  · rcases moves.found present with new | held
    · cases new
    · have different : key ≠ otherKey := by
        rintro rfl
        have waiting := (system.unindexing_iff key).mpr ⟨other, old, held⟩
        simp [indexed] at waiting
      simpa [different] using inStep.removed other otherKey old held
  · rcases newLog with rfl | rfl
    · by_cases same : key = other
      · left
        obtain rfl : KVEngine.valueUpdate key value expiryMs = update := by
          simpa [same] using found
        simp [same]
      · rcases inStep.logged other update (by simpa [same] using found) with agree | waiting
        · left
          simpa [same] using agree
        · exact Or.inr (moves.logging (by simp [free]) waiting)
    · simp at found
  · have held : system.threads[other]? = some (.deleteLogged otherKey) :=
      (moves.found present).resolve_left (by simp)
    rcases newLog with grown | rfl
    · by_cases same : key = otherKey
      · -- a delete of the key is logged, so the write has rolled and the log is empty
        subst same
        have waiting := (system.logging_iff key).mpr ⟨other, held⟩
        have empty := emptied (unlogged.resolve_left (by simp [waiting]))
        rw [effect.stored.logged, grown] at empty
        simp [Record.toBeBytes_ne_nil] at empty
      · refine inStep.tombstones other otherKey update held ?_
        simpa [grown, same] using found
    · simp at found

theorem append (monotone : Monotone clock)
    (inStep : InStep clock system logs updates wal live) {key value : String}
    (fits : Record.Fits key value) {expiryMs : Option UInt64}
    (separate : system.separate key value expiryMs = true)
    (free : system.threads[thread]? = none)
    : (system.appendValue clock thread key value expiryMs).Agrees clock := by
  obtain ⟨more, last, newWal, added, operations, effect⟩ :=
    KVEngine.kvAppend_effect monotone inStep.stored inStep.bound fits expiryMs
  exact inStep.write separate free (System.moves_setThread _ thread _) effect
    (KVEngine.kvAppend_represents clock inStep.represents inStep.active fits expiryMs)
    (fun rolls => KVEngine.wal_of_rolls rolls clock)

/-- The first section of a delete: only the log changes. -/
theorem deleteWal (inStep : InStep clock system logs updates wal live) {key : String}
    (fits : key.utf8ByteSize ≤ maxKeySize) (free : system.threads[thread]? = none)
    (moves : System.Moves system next thread (some (.deleteLogged key)))
    (sameDb : next.db = system.db)
    (performed : next.world = KVEngine.deleteWal system.world key)
    : next.Agrees clock := by
  have updateFits : (removal key).Fits := ⟨fits, Nat.zero_le _⟩
  refine ⟨logs, updates, wal ++ [removal key], live, {
    stored := ?_
    bound := ?_
    hints := ?_
    represents := ?_
    segments := fun other => ?_
    removed := fun other otherKey old present => ?_
    logged := fun other update found => ?_
    tombstones := fun other otherKey update present found => ?_
    fits := moves.fits inStep.fits (by simpa [Thread.Fits] using fits)
  }⟩
  · rw [sameDb, performed, deleteWal_eq]
    exact inStep.stored.walAppend updateFits
  · rw [sameDb, performed]
    exact inStep.bound
  · rw [performed]
    exact inStep.hints
  · rw [sameDb, performed]
    exact inStep.represents.keeps (keeps_apply _ (.walAppend _) (by simp))
  · rw [sameDb]
    rcases inStep.segments other with agree | waiting
    · exact Or.inl agree
    · exact Or.inr (moves.unindexing (by simp [free]) waiting)
  · exact inStep.removed other otherKey old ((moves.found present).resolve_left (by simp))
  · by_cases same : key = other
    · right
      subst same
      exact (next.logging_iff key).mpr ⟨thread, by simp [moves thread]⟩
    · rcases inStep.logged other update (by simpa [removal, same] using found) with
        agree | waiting
      · exact Or.inl agree
      · exact Or.inr (moves.logging (by simp [free]) waiting)
  · by_cases same : key = otherKey
    · obtain rfl : removal key = update := by simpa [removal, same] using found
      rfl
    · refine inStep.tombstones other otherKey update
        ((moves.found present).resolve_left ?_) (by simpa [removal, same] using found)
      simpa using same

/-- The second section: the index entry goes, whether there was one or not. -/
theorem deleteIndex (inStep : InStep clock system logs updates wal live) {key : String}
    (logged : system.threads[thread]? = some (.deleteLogged key)) {state : Option Thread}
    (moves : System.Moves system next thread state)
    (continues
      : (∃ old, state = some (.deleteUnindexed key old))
        ∨ (state = none ∧ system.db.index.get key = none))
    (sameDb : next.db = (system.db.deleteIndex key).2)
    (sameWorld : next.world = system.world)
    : next.Agrees clock := by
  have held (other : Nat) {held : Thread} (present : next.threads[other]? = some held)
      : (∃ old, held = .deleteUnindexed key old) ∨ system.threads[other]? = some held := by
    rcases moves.found present with new | before
    · rcases continues with ⟨old, shape⟩ | ⟨shape, -⟩
      · exact Or.inl ⟨old, (Option.some.inj (shape.symm.trans new)).symm⟩
      · rw [shape] at new
        cases new
    · exact Or.inr before
  refine ⟨logs, updates, wal, live.delete key, {
    stored := ?_
    bound := ?_
    hints := ?_
    represents := ?_
    segments := fun other => ?_
    removed := fun other otherKey old present => ?_
    logged := fun other update found => ?_
    tombstones := fun other otherKey update present found => ?_
    fits := moves.fits inStep.fits (fun held same => ?_)
  }⟩
  · rw [sameDb, sameWorld]
    exact inStep.stored
  · rw [sameDb, sameWorld]
    exact inStep.bound
  · rw [sameWorld]
    exact inStep.hints
  · rw [sameDb, sameWorld]
    exact inStep.represents.delete key
  · rw [sameDb]
    have kept (waiting : system.unindexing other = true) : next.unindexing other = true :=
      moves.unindexing (by simp [logged]) waiting
    by_cases same : key = other
    · subst same
      rcases continues with ⟨old, shape⟩ | ⟨-, absent⟩
      · exact Or.inr ((next.unindexing_iff key).mpr
          ⟨thread, old, by simp [moves thread, shape]⟩)
      · rcases inStep.segments key with agree | waiting
        · left
          rw [Contents.delete_apply, if_pos rfl, ← inStep.represents.absent key absent]
          exact agree
        · exact Or.inr (kept waiting)
    · rcases inStep.segments other with agree | waiting
      · left
        simpa [same] using agree
      · exact Or.inr (kept waiting)
  · by_cases same : key = otherKey
    · simp [same]
    · rcases held other present with ⟨entry, new⟩ | before
      · simp only [Thread.deleteUnindexed.injEq] at new
        exact absurd new.1.symm same
      · simpa [same] using inStep.removed other otherKey old before
  · by_cases same : key = other
    · left
      subst same
      simpa using inStep.tombstones thread key update logged found
    · rcases inStep.logged other update found with agree | waiting
      · left
        simpa [same] using agree
      · refine Or.inr (moves.logging ?_ waiting)
        simpa [logged] using same
  · rcases held other present with ⟨old, new⟩ | before
    · cases new
    · exact inStep.tombstones other otherKey update before found
  · rcases continues with ⟨old, shape⟩ | ⟨shape, -⟩
    · obtain rfl := Option.some.inj (shape.symm.trans same)
      have short : key.utf8ByteSize ≤ maxKeySize := inStep.fits thread _ logged
      exact short
    · rw [shape] at same
      cases same

/-- The third section: the tombstone reaches the active segment. -/
theorem deleteRecord (inStep : InStep clock system logs updates wal live) {key : String}
    {old : IndexEntry}
    (unindexed : system.threads[thread]? = some (.deleteUnindexed key old))
    (moves : System.Moves system next thread (some (.deleteAppended key old)))
    (sameDb : next.db = system.db)
    (performed : next.world = system.db.deleteRecord system.world key)
    : next.Agrees clock := by
  have updateFits : (removal key).Fits := ⟨inStep.fits thread _ unindexed, Nat.zero_le _⟩
  refine ⟨logs, updates ++ [removal key], wal, live, {
    stored := ?_
    bound := ?_
    hints := ?_
    represents := ?_
    segments := fun other => ?_
    removed := fun other otherKey entry present => ?_
    logged := fun other update found => ?_
    tombstones := fun other otherKey update present found => ?_
    fits := moves.fits inStep.fits (by simp [Thread.Fits])
  }⟩
  · rw [sameDb, performed, deleteRecord_eq]
    exact inStep.stored.segmentAppend updateFits
  · rw [sameDb, performed]
    exact inStep.bound
  · rw [performed]
    exact inStep.hints
  · rw [sameDb, performed]
    exact inStep.represents.keeps (keeps_apply _ (.segmentAppend _ _) (by simp))
  · have grown : updatesOf (logs ++ [(next.db.activeSegment, updates ++ [removal key])])
        = updatesOf (logs ++ [(system.db.activeSegment, updates)]) ++ [removal key] := by
      simp
    rw [grown, Contents.replay_concat]
    by_cases same : key = other
    · left
      subst same
      simp [Contents.apply, removal, inStep.removed thread key old unindexed]
    · rcases inStep.segments other with agree | waiting
      · left
        simpa [Contents.apply, removal, Ne.symm same] using agree
      · refine Or.inr (moves.unindexing (fun entry => ?_) waiting)
        simp [unindexed, same]
  · exact inStep.removed other otherKey entry ((moves.found present).resolve_left (by simp))
  · rcases inStep.logged other update found with agree | waiting
    · exact Or.inl agree
    · exact Or.inr (moves.logging (by simp [unindexed]) waiting)
  · exact inStep.tombstones other otherKey update
      ((moves.found present).resolve_left (by simp)) found

/-- The end of a call: counters and a sync. -/
theorem settle (inStep : InStep clock system logs updates wal live) {held : Thread}
    (present : system.threads[thread]? = some held)
    (past : ∀ key, held ≠ .deleteLogged key ∧ ∀ old, held ≠ .deleteUnindexed key old)
    (moves : System.Moves system next thread none)
    (settled : KVEngine.Settled system.db next.db system.world next.world)
    : next.Agrees clock := by
  refine ⟨logs, updates, wal, live, {
    stored := ?_
    bound := ?_
    hints := ?_
    represents := ?_
    segments := fun other => ?_
    removed := fun other otherKey old found =>
      inStep.removed other otherKey old ((moves.found found).resolve_left (by simp))
    logged := fun other update found => ?_
    tombstones := fun other otherKey update found last =>
      inStep.tombstones other otherKey update ((moves.found found).resolve_left (by simp))
        last
    fits := moves.fits inStep.fits (by simp)
  }⟩
  · rw [settled.disk, settled.activeSegment]
    exact inStep.stored
  · rw [settled.activeSegment, settled.ticks]
    exact inStep.bound
  · rw [settled.disk]
    exact inStep.hints
  · rw [settled.index, settled.disk]
    exact inStep.represents
  · rw [settled.activeSegment]
    rcases inStep.segments other with agree | waiting
    · exact Or.inl agree
    · exact Or.inr (moves.unindexing (by simp [present, (past other).2]) waiting)
  · rcases inStep.logged other update found with agree | waiting
    · exact Or.inl agree
    · exact Or.inr (moves.logging (by simp [present, (past other).1]) waiting)

end InStep

/-- Every permitted section keeps memory and files in step. -/
theorem System.Agrees.step {clock : Nat → Nat} (monotone : Monotone clock)
    {system next : System} {action : Action} (agrees : system.Agrees clock)
    (writes : action.writes = true) (apart : system.apart action = true)
    (taken : system.step clock action = .ok next)
    : next.Agrees clock := by
  obtain ⟨logs, updates, wal, live, inStep⟩ := agrees
  cases action with
  | tick later =>
      simp only [System.step] at taken
      split at taken
      · obtain rfl := Except.ok.inj taken
        exact ⟨logs, updates, wal, live, { inStep with }⟩
      · cases taken
  | append thread key value expiryMs =>
      simp only [System.step] at taken
      split at taken
      · rename_i free
        split at taken
        · cases taken
        · rename_i limits
          obtain rfl := Except.ok.inj taken
          refine inStep.append monotone ?_ apart free
          simp only [Record.Fits]
          omega
      · cases taken
  | ttl thread key expiryMs nowMs =>
      have found : system.lookup key nowMs = .ok (live.read key nowMs) :=
        inStep.represents.kvLookup system.db.activeSegment key nowMs
      simp only [System.step] at taken
      split at taken
      · rename_i free
        split at taken
        · cases held : live.read key nowMs with
          | none =>
              rw [found, held] at taken
              obtain rfl := Except.ok.inj taken
              exact ⟨logs, updates, wal, live, inStep⟩
          | some value =>
              rw [found, held] at taken
              obtain rfl := Except.ok.inj taken
              simp only [System.apart, found, held] at apart
              exact inStep.append monotone (inStep.represents.fits_of_read held) apart free
        · cases taken
      · cases taken
  | finish thread =>
      simp only [System.step] at taken
      split at taken
      · rename_i newSize replaced present
        obtain rfl := Except.ok.inj taken
        exact inStep.settle present (by simp) (moves_endCall _ thread)
          (KVEngine.finishWrite_settled _ _ newSize replaced)
      · rename_i key old present
        obtain rfl := Except.ok.inj taken
        exact inStep.settle present (by simp) (moves_endCall _ thread)
          (KVEngine.finishDelete_settled _ _ key old)
      · cases taken
  | deleteWal thread key =>
      simp only [System.step] at taken
      split at taken
      · rename_i free
        split at taken
        · cases taken
        · obtain rfl := Except.ok.inj taken
          exact inStep.deleteWal (by omega) free (moves_setThread _ thread _) rfl rfl
      · cases taken
  | deleteIndex thread =>
      simp only [System.step] at taken
      split at taken
      · rename_i key logged
        split at taken
        · rename_i entry found
          obtain rfl := Except.ok.inj taken
          exact inStep.deleteIndex logged (moves_setThread _ thread _)
            (Or.inl ⟨entry, rfl⟩) rfl rfl
        · rename_i absent
          obtain rfl := Except.ok.inj taken
          exact inStep.deleteIndex logged (moves_endCall _ thread)
            (Or.inr ⟨rfl, absent⟩) rfl rfl
      · cases taken
  | deleteRecord thread =>
      simp only [System.step] at taken
      split at taken
      · rename_i key old unindexed
        obtain rfl := Except.ok.inj taken
        exact inStep.deleteRecord unindexed (moves_setThread _ thread _) rfl rfl
      · cases taken
  | _ => cases writes

theorem Running.agrees {clock : Nat → Nat} {db : KVEngine} {world : World}
    {contents : Contents} (running : Running clock db world contents)
    : (System.start db world).Agrees clock := by
  obtain ⟨logs, updates, wal, running⟩ := running
  refine ⟨logs, updates, wal, contents, {
    stored := running.stored
    bound := running.bound
    hints := running.hints
    represents := running.represents
    segments := fun key => Or.inl (congrFun running.mirrors.alone key)
    removed := by simp [System.start]
    logged := fun key update found => Or.inl ?_
    tombstones := by simp [System.start]
    fits := by simp [System.start]
  }⟩
  have overlaid := congrFun running.mirrors.overlaid key
  simpa [Contents.replay, latest_append, found] using overlaid

/-- Once all calls have returned, the segments under the log hold what the index does. -/
theorem InStep.durable {clock : Nat → Nat} {system : System} {logs : List Log}
    {updates wal : List Update} {live : Contents}
    (inStep : InStep clock system logs updates wal live)
    (quiescent : system.quiescent = true)
    : Durable (clock system.world.ticks) live system.world.disk := by
  have none (thread : Nat) : system.threads[thread]? = none := by
    simp only [System.quiescent, Bool.and_eq_true] at quiescent
    exact Std.TreeMap.getElem?_of_isEmpty quiescent.1
  have notLogging (key : String) : ¬ system.logging key = true := by
    simp [System.logging_iff, none]
  have notUnindexing (key : String) : ¬ system.unindexing key = true := by
    simp [System.unindexing_iff, none]
  refine inStep.stored.durable inStep.bound inStep.hints (funext fun key => ?_)
  rw [Contents.replay, latest_append]
  cases found : latest Update.key wal key with
  | none => exact (inStep.segments key).resolve_right (notUnindexing key)
  | some update => exact (inStep.logged key update found).resolve_right (notLogging key)

theorem Races.agrees {clock : Nat → Nat} (monotone : Monotone clock) {start system : System}
    (starts : start.Agrees clock) (reached : Races clock System.apart start system)
    : system.Agrees clock := by
  induction reached with
  | start => exact starts
  | step _ writes apart taken agrees => exact agrees.step monotone writes apart taken

/-- In every interleaving of deletes with value writes in which no value write comes between
the sections of a delete of its key (unless it empties the log before the index removal):
whenever all calls have returned, reopening the directory changes no read.
-/
theorem deletes_agree_with_files {clock : Nat → Nat} (monotone : Monotone clock)
    (maxSegmentBytes : UInt64) (fsyncStrategy : FSyncStrategy) {system : System}
    (reached
      : Races clock System.apart
          (System.start (KVEngine.new clock maxSegmentBytes fsyncStrategy World.initial).1
            (KVEngine.new clock maxSegmentBytes fsyncStrategy World.initial).2)
          system)
    (quiescent : system.quiescent = true)
    : Transparent system.db system.world 0 := by
  obtain ⟨logs, updates, wal, live, inStep⟩ :=
    reached.agrees monotone (running_new monotone maxSegmentBytes fsyncStrategy).agrees
  intro maxBytes strategy
  obtain ⟨next, after, reopened, running, -⟩ :=
    (inStep.durable quiescent).fromDir maxBytes strategy
  refine ⟨next, after, reopened, fun key nowMs order => ?_⟩
  have shows : Shows system.db system.world live 0 :=
    ⟨live, inStep.represents, fun _ _ _ => rfl⟩
  rw [running.shows.get key order, shows.get key order]

theorem Races.run {clock : Nat → Nat} {permitted : System → Action → Bool}
    {actions : List Action} {start system final : System} {written last : Contents}
    (reached : Races clock permitted start system)
    (ran
      : System.run clock (fun system action => action.writes && permitted system action)
          actions system written
        = .ok (final, last))
    : Races clock permitted start final := by
  induction actions generalizing system written with
  | nil =>
      obtain ⟨rfl, -⟩ := Prod.mk.inj (Except.ok.inj ran)
      exact reached
  | cons action rest ih =>
      unfold System.run at ran
      split at ran
      · rename_i allowed
        rw [Bool.and_eq_true] at allowed
        obtain ⟨next, taken, others⟩ := bind_eq_ok.mp ran
        exact ih (reached.step allowed.1 allowed.2 taken) others
      · cases ran

/-- A delete, with a write of another key between each two of its sections, and the deleted
key written again.
-/
def deleteBesideWrites : List Action :=
  [
    .append 0 "k" "v" none,
    .finish 0,
    .deleteWal 0 "k",
    .append 1 "l" "v" none,
    .deleteIndex 0,
    .finish 1,
    .append 1 "l" "w" none,
    .deleteRecord 0,
    .finish 1,
    .finish 0,
    .append 0 "k" "w" none,
    .finish 0
  ]

/-- Witness: a delete beside writes of another key, some of which roll the segment. -/
theorem deletes_agree_with_files_beside_writes
    : ∃ system,
        Races id System.apart
          (System.start (KVEngine.new id 60 .never .initial).1
            (KVEngine.new id 60 .never .initial).2)
          system
        ∧ system.quiescent = true
        ∧ Transparent system.db system.world 0 := by
  have computed : (System.run id (fun system action => action.writes && system.apart action)
      deleteBesideWrites
      (System.start (KVEngine.new id 60 .never .initial).1
        (KVEngine.new id 60 .never .initial).2)
      Contents.empty).toOption.any (fun final => final.1.quiescent) = true := by
    decide +kernel
  simp only [Option.any_eq_true, toOption_eq_some] at computed
  obtain ⟨⟨final, written⟩, ran, quiescent⟩ := computed
  have reached := Races.start.run ran
  exact ⟨final, reached, quiescent,
    deletes_agree_with_files monotone_id 60 .never reached quiescent⟩

/-- A write of the key between a delete's log record and its index removal. -/
def writeInsideDelete : List Action :=
  [
    .append 0 "k" "v" none,
    .finish 0,
    .deleteWal 0 "k",
    .append 1 "k" "w" none,
    .finish 1,
    .deleteIndex 0,
    .deleteRecord 0,
    .finish 0
  ]

/-- Counterexample: with all calls returned the key is absent, and reopening the directory
brings a value back.
-/
theorem delete_undone_by_reopen
    : ∃ system next after,
        Races id (fun _ _ => true)
          (System.start (KVEngine.new id 100 .never .initial).1
            (KVEngine.new id 100 .never .initial).2)
          system
        ∧ system.quiescent = true
        ∧ system.db.get system.world "k" 0 = .ok none
        ∧ KVEngine.fromDir 100 .never system.world = .ok (some next, after)
        ∧ next.get after "k" 0 = .ok (some ("k", "w")) := by
  have computed : (System.run id (fun _ action => action.writes && true) writeInsideDelete
      (System.start (KVEngine.new id 100 .never .initial).1
        (KVEngine.new id 100 .never .initial).2)
      Contents.empty).toOption.any
      (fun final =>
        final.1.quiescent
        && (final.1.db.get final.1.world "k" 0).toOption = some none
        && (KVEngine.fromDir 100 .never final.1.world).toOption.any
          (fun reopened =>
            reopened.1.any
              (fun next =>
                (next.get reopened.2 "k" 0).toOption = some (some ("k", "w"))))) = true := by
    decide +kernel
  simp only [Option.any_eq_true, toOption_eq_some, Bool.and_eq_true, decide_eq_true_eq]
    at computed
  obtain ⟨⟨final, written⟩, ran, ⟨quiescent, absent⟩, ⟨reopened, after⟩, opens, next, holds,
    found⟩ := computed
  exact ⟨final, next, after, Races.start.run ran, quiescent, absent, holds ▸ opens, found⟩

end Rustikv.Kv

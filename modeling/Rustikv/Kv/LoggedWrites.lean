import Rustikv.Kv.Recovery

/-! What every file operation of a write leaves in the segments and in the WAL. -/

namespace Rustikv.Kv

open Library

-----------------------------------------------------------------------------------------
-- Disks as logs
-----------------------------------------------------------------------------------------

/-- The segments hold the logs and the WAL holds its updates, nothing torn. -/
structure Stored (disk : Disk) (logs : List Log) (wal : List Update) : Prop where
  filed : Filed disk.segments logs
  logged : disk.wal = Update.codec.encodeAll wal
  fits : ∀ update ∈ wal, update.Fits

namespace Stored

variable {disk : Disk} {logs : List Log} {wal : List Update}

theorem walAppend (stored : Stored disk logs wal) {update : Update} (fits : update.Fits)
    : Stored (disk.apply (.walAppend update.record.toBeBytes)) logs (wal ++ [update]) where
  filed := stored.filed
  logged := by simp [Disk.apply, stored.logged]
  fits := by
    intro other member
    rcases List.mem_append.mp member with old | new
    · exact stored.fits other old
    · rwa [List.mem_singleton.mp new]

theorem walTruncate (stored : Stored disk logs wal)
    : Stored (disk.apply .walTruncate) logs [] where
  filed := stored.filed
  logged := rfl
  fits := by simp

theorem segmentAppend {segment : Nat} {updates : List Update}
    (stored : Stored disk (logs ++ [(segment, updates)]) wal) {update : Update}
    (fits : update.Fits)
    : Stored (disk.apply (.segmentAppend segment update.record.toBeBytes))
        (logs ++ [(segment, updates ++ [update])]) wal where
  filed := stored.filed.append fits
  logged := stored.logged
  fits := stored.fits

/-- Creating a segment from a clock reading no older than the last segment starts a new
log or, within the same millisecond, continues the last one.
-/
theorem segmentCreate {segment : Nat} {updates : List Update}
    (stored : Stored disk (logs ++ [(segment, updates)]) wal) {next : Nat}
    (order : segment ≤ next)
    : ∃ more last,
        Stored (disk.apply (.segmentCreate next)) (logs ++ more ++ [(next, last)]) wal
        ∧ placesOf (more ++ [(next, last)]) = placesOf [(segment, updates)] := by
  rcases Nat.eq_or_lt_of_le order with rfl | later
  · have present : segment ∈ disk.segments :=
      (stored.filed.mem_iff segment).mpr ⟨updates, by simp⟩
    refine ⟨[], updates, ?_, rfl⟩
    simpa [Disk.apply, present] using stored
  · have below : ∀ log ∈ logs ++ [(segment, updates)], log.1 < next := by
      intro log member
      rcases List.mem_append.mp member with old | last
      · have before := (List.pairwise_append.mp stored.filed.sorted).2.2 log old
          (segment, updates) (by simp)
        exact before.trans later
      · rw [List.mem_singleton.mp last]
        exact later
    have missing : next ∉ disk.segments := by
      intro present
      obtain ⟨found, member⟩ := (stored.filed.mem_iff next).mp present
      exact lt_irrefl _ (below _ member)
    refine ⟨[(segment, updates)], [], ?_, by simp [placesOf]⟩
    have created := stored.filed.create next below
    refine ⟨?_, ?_, stored.fits⟩
    · simpa [Disk.apply, missing] using created
    · simpa [Disk.apply, missing] using stored.logged

end Stored

-----------------------------------------------------------------------------------------
-- Every state along a list of file operations
-----------------------------------------------------------------------------------------

/-- The property holds before the operations and after each of them. -/
def Throughout (holds : Disk → Prop) : Disk → List FileOp → Prop
  | disk, [] => holds disk
  | disk, operation :: rest => holds disk ∧ Throughout holds (disk.apply operation) rest

theorem Throughout.append {holds : Disk → Prop} {disk : Disk} {front back : List FileOp}
    (first : Throughout holds disk front)
    (second : Throughout holds (front.foldl Disk.apply disk) back)
    : Throughout holds disk (front ++ back) := by
  induction front generalizing disk with
  | nil => exact second
  | cons operation rest ih => exact ⟨first.1, ih first.2 second⟩

theorem Throughout.take {holds : Disk → Prop} {disk : Disk} {operations : List FileOp}
    (always : Throughout holds disk operations) (count : Nat)
    : holds ((operations.take count).foldl Disk.apply disk) := by
  induction operations generalizing disk count with
  | nil => simpa [Throughout] using always
  | cons operation rest ih =>
      cases count with
      | zero => exact always.1
      | succ count => exact ih always.2 count

theorem Throughout.imp {holds other : Disk → Prop} {disk : Disk}
    {operations : List FileOp} (always : Throughout holds disk operations)
    (weaker : ∀ disk, holds disk → other disk)
    : Throughout other disk operations := by
  induction operations generalizing disk with
  | nil => exact weaker disk always
  | cons operation rest ih => exact ⟨weaker disk always.1, ih always.2⟩

/-- The disk holds exactly these hints and places, in segments up to `limit`, and one of
the WALs.
-/
def Holding (hints : SortedMap Nat Bytes) (limit : Nat) (places : List Place)
    (wals : List (List Update)) (disk : Disk)
    : Prop :=
  disk.hints = hints
  ∧ ∃ logs wal,
    logs ≠ []
    ∧ Stored disk logs wal
    ∧ placesOf logs = places
    ∧ wal ∈ wals
    ∧ ∀ log ∈ logs, log.1 ≤ limit

theorem Stored.holding {disk : Disk} {logs : List Log} {segment limit : Nat}
    {updates wal : List Update} (stored : Stored disk (logs ++ [(segment, updates)]) wal)
    (wals : List (List Update)) (member : wal ∈ wals)
    (bound : segment ≤ limit) {hints : SortedMap Nat Bytes} (kept : disk.hints = hints)
    : Holding hints limit (placesOf (logs ++ [(segment, updates)])) wals disk := by
  refine ⟨kept, _, wal, by simp, stored, rfl, member, ?_⟩
  intro log logMember
  rcases List.mem_append.mp logMember with old | last
  · have before := (List.pairwise_append.mp stored.filed.sorted).2.2 log old
      (segment, updates) (by simp)
    exact before.le.trans bound
  · rw [List.mem_singleton.mp last]
    exact bound

-----------------------------------------------------------------------------------------
-- The writes of the engine
-----------------------------------------------------------------------------------------

namespace KVEngine

variable {clock : Nat → Nat}

/-- The update a value write logs. -/
def valueUpdate (key value : String) (expiryMs : Option UInt64) : Update :=
  { key, item := some { value, expiryMs } }

@[simp]
theorem key_valueUpdate (key value : String) (expiryMs : Option UInt64)
    : (valueUpdate key value expiryMs).key = key := rfl

@[simp]
theorem item_valueUpdate (key value : String) (expiryMs : Option UInt64)
    : (valueUpdate key value expiryMs).item = some { value, expiryMs } := rfl

theorem toBeBytes_valueUpdate (key value : String) (expiryMs : Option UInt64)
    : (Wal.record key value false expiryMs).toBeBytes
      = (valueUpdate key value expiryMs).record.toBeBytes := by
  rw [← valueRecord_eq]
  rfl

/-- Up to its segment write a value write only logs its update, unless a roll empties the
log again; the segments keep their places.
-/
theorem appendTarget_stored (monotone : Monotone clock) {db : KVEngine} {world : World}
    {logs : List Log} {updates wal : List Update}
    (stored : Stored world.disk (logs ++ [(db.activeSegment, updates)]) wal)
    (bound : db.activeSegment ≤ clock world.ticks) {key value : String}
    (fits : Record.Fits key value) (expiryMs : Option UInt64)
    : let update := valueUpdate key value expiryMs
      let target := (db.appendTarget clock world key value expiryMs).1
      let before := (db.appendTarget clock world key value expiryMs).2
      ∃ more last newWal operations,
        Stored before.disk (logs ++ more ++ [(target.activeSegment, last)]) newWal
        ∧ placesOf (more ++ [(target.activeSegment, last)])
          = placesOf [(db.activeSegment, updates)]
        ∧ (newWal = wal ++ [update] ∨ newWal = [])
        ∧ Performs world before operations
        ∧ Throughout
            (Holding world.disk.hints (clock before.ticks)
              (placesOf (logs ++ [(db.activeSegment, updates)])) [wal, wal ++ [update], []])
            world.disk operations
        ∧ target.activeSegment ≤ clock before.ticks
        ∧ before.disk.hints = world.disk.hints := by
  have updateFits : (valueUpdate key value expiryMs).Fits := fits
  have logged := stored.walAppend updateFits
  unfold appendTarget
  dsimp only
  rw [toBeBytes_valueUpdate]
  split
  · rw [rollActive_eq]
    dsimp only [World.ticks_perform, World.disk_perform, World.newSegment]
    have tick : clock world.ticks ≤ clock (world.ticks + 1) := monotone (Nat.le_succ _)
    obtain ⟨more, last, created, places⟩ := logged.segmentCreate bound
    have samePlaces : placesOf (logs ++ more ++ [(clock world.ticks, last)])
        = placesOf (logs ++ [(db.activeSegment, updates)]) := by
      simpa using places
    refine ⟨more, last, [], [.walAppend (valueUpdate key value expiryMs).record.toBeBytes,
      .segmentSync db.activeSegment, .segmentCreate (clock world.ticks), .walTruncate],
      created.walTruncate, places, Or.inr rfl, ⟨by simp, rfl⟩, ?_, tick,
      Disk.hints_segmentCreate _ _⟩
    let wals := [wal, wal ++ [valueUpdate key value expiryMs], []]
    have before := stored.holding wals (by simp [wals]) (bound.trans tick) rfl
    have appended := logged.holding wals (by simp [wals]) (bound.trans tick) rfl
    have kept := Disk.hints_segmentCreate (world.disk.apply
      (.walAppend (valueUpdate key value expiryMs).record.toBeBytes)) (clock world.ticks)
    have rolled := created.holding wals (by simp [wals]) tick kept
    have emptied := created.walTruncate.holding wals (by simp [wals]) tick kept
    rw [samePlaces] at rolled emptied
    exact ⟨before, appended, appended, rolled, emptied⟩
  · refine ⟨[], updates, wal ++ [_],
      [.walAppend (valueUpdate key value expiryMs).record.toBeBytes], by simpa using logged,
      rfl, Or.inl rfl, ⟨rfl, rfl⟩, ?_, bound, rfl⟩
    exact ⟨stored.holding _ (by simp) bound rfl, logged.holding _ (by simp) bound rfl⟩

/-- What a write does to the logs: `more` holds the segments it closed and `last` the
active one's log, `added` the place it gave its update. A removal of an unknown key is
only logged.
-/
structure WriteEffect (clock : Nat → Nat) (update : Update) (db next : KVEngine)
    (world after : World) (logs more : List Log) (updates last wal newWal : List Update)
    (added : List Place) (operations : List FileOp)
    : Prop where
  stored : Stored after.disk (logs ++ more ++ [(next.activeSegment, last)]) newWal
  places
    : placesOf (more ++ [(next.activeSegment, last)])
      = placesOf [(db.activeSegment, updates)] ++ added
  tracks : ∀ places, Tracks db.index places → Tracks next.index (places ++ added)
  written
    : (added.map Place.update = [update] ∧ (newWal = wal ++ [update] ∨ newWal = []))
      ∨ (added = []
          ∧ db.index.get update.key = none
          ∧ update.item = none
          ∧ newWal = wal ++ [update])
  performs : Performs world after operations
  throughout
    : Throughout
        (fun disk =>
          Holding world.disk.hints (clock after.ticks)
            (placesOf (logs ++ [(db.activeSegment, updates)])) [wal, wal ++ [update], []]
            disk
          ∨ Holding world.disk.hints (clock after.ticks)
              (placesOf (logs ++ [(db.activeSegment, updates)]) ++ added) [newWal] disk)
        world.disk operations
  bound : next.activeSegment ≤ clock after.ticks
  hints : after.disk.hints = world.disk.hints

section Places

variable {update : Update} {db next : KVEngine} {world after : World} {logs more : List Log}
  {updates last wal newWal : List Update} {added : List Place} {operations : List FileOp}

theorem WriteEffect.placesOf_eq
    (effect : WriteEffect clock update db next world after logs more updates last wal newWal
      added operations)
    (front : List Log)
    : placesOf (front ++ more ++ [(next.activeSegment, last)])
      = placesOf (front ++ [(db.activeSegment, updates)]) ++ added := by
  simpa using effect.places

theorem WriteEffect.updatesOf_eq
    (effect : WriteEffect clock update db next world after logs more updates last wal newWal
      added operations)
    (front : List Log)
    : updatesOf (front ++ more ++ [(next.activeSegment, last)])
      = updatesOf (front ++ [(db.activeSegment, updates)]) ++ added.map Place.update := by
  simpa [← map_update_placesOf] using congrArg (List.map Place.update) effect.places

end Places

/-- The counters and a sync behind a write change nothing in the logs. -/
theorem WriteEffect.settled {update : Update} {db next last : KVEngine}
    {world after later : World} {logs more : List Log}
    {updates newUpdates wal newWal : List Update} {added : List Place}
    {operations : List FileOp}
    (effect : WriteEffect clock update db next world after logs more updates newUpdates wal
      newWal added operations)
    (settled : Settled next last after later)
    : ∃ synced,
        WriteEffect clock update db last world later logs more updates newUpdates wal newWal
          added (operations ++ synced) := by
  have final : Holding world.disk.hints (clock after.ticks)
      (placesOf (logs ++ [(db.activeSegment, updates)]) ++ added) [newWal] after.disk := by
    have holding := effect.stored.holding [newWal] (by simp) effect.bound
      effect.hints
    rwa [effect.placesOf_eq] at holding
  have base : ∀ synced, Performs after later synced
      → (synced = [] ∨ synced = [.segmentSync next.activeSegment])
      → WriteEffect clock update db last world later logs more updates newUpdates wal newWal
          added (operations ++ synced) := by
    intro synced performs shape
    refine ⟨?_, ?_, ?_, effect.written, effect.performs.trans performs, ?_, ?_, ?_⟩
    · rw [settled.disk, settled.activeSegment]
      exact effect.stored
    · rw [settled.activeSegment]
      exact effect.places
    · rw [settled.index]
      exact effect.tracks
    · rw [settled.ticks]
      refine effect.throughout.append ?_
      rw [← effect.performs.disk]
      rcases shape with rfl | rfl
      · exact Or.inr final
      · exact ⟨Or.inr final, Or.inr final⟩
    · rw [settled.activeSegment, settled.ticks]
      exact effect.bound
    · rw [settled.disk]
      exact effect.hints
  rcases settled.world with same | synced
  · exact ⟨[], base [] (same ▸ .refl _) (Or.inl rfl)⟩
  · refine ⟨[.segmentSync next.activeSegment], base _ ?_ (Or.inr rfl)⟩
    rw [synced]
    exact (Performs.refl after).perform (.segmentSync next.activeSegment)

/-- The effect of an append, from its two halves. -/
theorem kvAppend_effect (monotone : Monotone clock) {db : KVEngine} {world : World}
    {logs : List Log} {updates wal : List Update}
    (stored : Stored world.disk (logs ++ [(db.activeSegment, updates)]) wal)
    (bound : db.activeSegment ≤ clock world.ticks) {key value : String}
    (fits : Record.Fits key value) (expiryMs : Option UInt64)
    : ∃ more last newWal added operations,
        WriteEffect clock (valueUpdate key value expiryMs) db
          (db.kvAppend clock world key value expiryMs).2.1 world
          (db.kvAppend clock world key value expiryMs).2.2 logs more updates last wal newWal
          added operations := by
  obtain ⟨more, last, newWal, operations, before, places, logged, performs, throughout,
    newBound, hints⟩ := appendTarget_stored monotone stored bound fits expiryMs
  have index := index_appendTarget clock db world key value expiryMs
  rw [kvAppend_eq]
  dsimp only
  generalize (db.appendTarget clock world key value expiryMs).1 = target at *
  generalize (db.appendTarget clock world key value expiryMs).2 = world' at *
  have updateFits : (valueUpdate key value expiryMs).Fits := fits
  have appended := before.segmentAppend updateFits
  have size : world'.disk.segmentSize target.activeSegment
      = (Update.codec.encodeAll last).length :=
    segmentSize_filed before.filed (by simp)
  have grown : placesOf (more ++ [(target.activeSegment, last
          ++ [valueUpdate key value expiryMs])])
      = placesOf [(db.activeSegment, updates)]
        ++ [{
          segment := target.activeSegment
          offset := world'.disk.segmentSize target.activeSegment
          update := valueUpdate key value expiryMs
        }] := by
    rw [← places, size]
    simp [placesOf, placesFrom_append, placesFrom_cons]
  refine ⟨more, last ++ [valueUpdate key value expiryMs], newWal, _,
    operations ++ [.segmentAppend target.activeSegment
      (valueUpdate key value expiryMs).record.toBeBytes],
    appended, grown, ?_, Or.inl ⟨rfl, logged⟩, performs.perform _, ?_, newBound, hints⟩
  · intro places tracks
    rw [index]
    exact tracks.set key value expiryMs _ _ _
  · refine (throughout.imp (fun _ => Or.inl)).append ?_
    rw [← performs.disk]
    have first := before.holding [wal, wal ++ [valueUpdate key value expiryMs], []]
      (by rcases logged with rfl | rfl <;> simp) newBound hints
    have second := appended.holding [newWal] (by simp) newBound hints
    have samePlaces : placesOf (logs ++ more ++ [(target.activeSegment, last)])
        = placesOf (logs ++ [(db.activeSegment, updates)]) := by
      simpa using places
    have grownPlaces : placesOf (logs ++ more ++ [(target.activeSegment, last
          ++ [valueUpdate key value expiryMs])])
        = placesOf (logs ++ [(db.activeSegment, updates)])
          ++ [{
            segment := target.activeSegment
            offset := world'.disk.segmentSize target.activeSegment
            update := valueUpdate key value expiryMs
          }] := by
      simpa using grown
    rw [samePlaces] at first
    rw [grownPlaces] at second
    exact ⟨Or.inl first, Or.inr second⟩

/-- An append with the counters and the sync behind it. -/
theorem finishedAppend_effect (monotone : Monotone clock) {db : KVEngine} {world : World}
    {logs : List Log} {updates wal : List Update}
    (stored : Stored world.disk (logs ++ [(db.activeSegment, updates)]) wal)
    (bound : db.activeSegment ≤ clock world.ticks) {key value : String}
    (fits : Record.Fits key value) (expiryMs : Option UInt64)
    : let appended := db.kvAppend clock world key value expiryMs
      let finished := appended.2.1.finishWrite appended.2.2 appended.1.1 appended.1.2
      ∃ more last newWal added operations,
        WriteEffect clock (valueUpdate key value expiryMs) db finished.1 world finished.2
          logs more updates last wal newWal added operations := by
  obtain ⟨more, last, newWal, added, operations, effect⟩ :=
    kvAppend_effect monotone stored bound fits expiryMs
  obtain ⟨synced, settled⟩ := effect.settled (finishWrite_settled _ _
    (db.kvAppend clock world key value expiryMs).1.1
    (db.kvAppend clock world key value expiryMs).1.2)
  exact ⟨more, last, newWal, added, operations ++ synced, settled⟩

theorem setWithTtl_effect (monotone : Monotone clock) {db : KVEngine} {world : World}
    {logs : List Log} {updates wal : List Update}
    (stored : Stored world.disk (logs ++ [(db.activeSegment, updates)]) wal)
    (bound : db.activeSegment ≤ clock world.ticks) {key value : String}
    (fits : Record.Fits key value) (expiryMs : Option UInt64)
    : ∃ next after more last newWal added operations,
        db.setWithTtl clock world key value expiryMs = .ok (next, after)
        ∧ WriteEffect clock (valueUpdate key value expiryMs) db next world after logs more
            updates last wal newWal added operations := by
  have limits : ¬ (maxKeySize < key.utf8ByteSize ∨ maxValueSize < value.utf8ByteSize) := by
    have key := fits.1
    have value := fits.2
    omega
  obtain ⟨more, last, newWal, added, operations, effect⟩ :=
    finishedAppend_effect monotone stored bound fits expiryMs
  exact ⟨_, _, more, last, newWal, added, operations, by rw [setWithTtl, if_neg limits],
    effect⟩

/-- `ttl` on a live key writes its value again. -/
theorem ttl_effect (monotone : Monotone clock) {db : KVEngine} {world : World}
    {logs : List Log} {updates wal : List Update} {contents : Contents}
    (stored : Stored world.disk (logs ++ [(db.activeSegment, updates)]) wal)
    (bound : db.activeSegment ≤ clock world.ticks)
    (represents : Represents db.index world.disk contents) {key value : String}
    (expiryMs : Option UInt64) {nowMs : UInt64}
    (live : contents.read key nowMs = some value)
    : ∃ next after more last newWal added operations,
        db.ttl clock world key expiryMs nowMs
          = .ok (if expiryMs.isSome then .set else .persisted, next, after)
        ∧ WriteEffect clock (valueUpdate key value expiryMs) db next world after logs more
            updates last wal newWal added operations := by
  have lookup := represents.kvLookup db.activeSegment key nowMs
  rw [live] at lookup
  obtain ⟨more, last, newWal, added, operations, effect⟩ :=
    finishedAppend_effect monotone stored bound (represents.fits_of_read live) expiryMs
  exact ⟨_, _, more, last, newWal, added, operations, by simp [ttl, lookup]; rfl, effect⟩

/-- A delete logs the removal, and writes a tombstone when the index knew the key. -/
theorem delete_effect {db : KVEngine} {world : World} {logs : List Log}
    {updates wal : List Update}
    (stored : Stored world.disk (logs ++ [(db.activeSegment, updates)]) wal)
    (bound : db.activeSegment ≤ clock world.ticks) {key : String}
    (fits : key.utf8ByteSize ≤ maxKeySize)
    : ∃ found next after last newWal added operations,
        db.delete world key = .ok (found, next, after)
        ∧ WriteEffect clock { key, item := none } db next world after logs [] updates last wal
            newWal added operations := by
  have limit : ¬ maxKeySize < key.utf8ByteSize := by omega
  let update : Update := { key, item := none }
  have updateFits : update.Fits := ⟨fits, Nat.zero_le _⟩
  have logged := stored.walAppend updateFits
  let wals := [wal, wal ++ [update], []]
  have start := stored.holding wals (by simp [wals]) bound rfl
  have written := logged.holding wals (by simp [wals]) bound rfl
  cases old : db.index.get key with
  | none =>
      refine ⟨false, (db.deleteIndex key).2, deleteWal world key, updates, wal ++ [update], [],
        [.walAppend update.record.toBeBytes], ?_, ?_, (List.append_nil _).symm, ?_,
        Or.inr ⟨rfl, old, rfl, rfl⟩, ⟨rfl, rfl⟩, ⟨Or.inl start, Or.inl written⟩, bound, rfl⟩
      · simp [delete, limit, deleteIndex, HashIndex.delete, old]
      · rw [List.append_nil]
        exact logged
      · intro places tracks other
        have tracked := tracks other
        by_cases same : key = other
        · subst same
          rw [old] at tracked
          simpa [deleteIndex] using tracked
        · simpa [deleteIndex, same] using tracked
  | some entry =>
      have appended := logged.segmentAppend updateFits
      let place : Place := {
        segment := db.activeSegment
        offset := (Update.codec.encodeAll updates).length
        update
      }
      have final := appended.holding [wal ++ [update]] (by simp) bound rfl
      have grown : placesOf (logs ++ [(db.activeSegment, updates ++ [update])])
          = placesOf (logs ++ [(db.activeSegment, updates)]) ++ [place] := by
        simp [placesOf, placesFrom_append, placesFrom_cons, place]
      rw [grown] at final
      have effect : WriteEffect clock update db (db.deleteIndex key).2 world
          ((deleteWal world key).perform
            (.segmentAppend db.activeSegment update.record.toBeBytes))
          logs [] updates (updates ++ [update]) wal (wal ++ [update]) [place]
          [.walAppend update.record.toBeBytes,
            .segmentAppend db.activeSegment update.record.toBeBytes] := {
        stored := by
          rw [List.append_nil]
          exact appended
        places := by
          simp [placesOf, placesFrom_append, placesFrom_cons, place, deleteIndex]
        tracks := fun places tracks => tracks.delete key _ _
        written := Or.inl ⟨rfl, Or.inl rfl⟩
        performs := ⟨by simp [deleteWal]; rfl, rfl⟩
        throughout := ⟨Or.inl start, Or.inl written, Or.inr final⟩
        bound
        hints := rfl
      }
      have settled := fsync_settled (db.deleteIndex key).2
        ((deleteWal world key).perform
          (.segmentAppend db.activeSegment update.record.toBeBytes))
      obtain ⟨synced, finished⟩ := effect.settled settled
      exact ⟨true, ((db.deleteIndex key).2.deleteSegment (deleteWal world key) key entry).1,
        ((db.deleteIndex key).2.deleteSegment (deleteWal world key) key entry).2,
        updates ++ [update], wal ++ [update], [place], _,
        by simp [delete, limit, deleteIndex, HashIndex.delete, old],
        ⟨finished.stored, finished.places, finished.tracks, finished.written,
          finished.performs, finished.throughout, finished.bound, finished.hints⟩⟩

end KVEngine

-----------------------------------------------------------------------------------------
-- The map behind the segments and the WAL
-----------------------------------------------------------------------------------------

/-- The segments alone give the map, and so do the segments followed by the WAL. -/
structure Mirrors (contents : Contents) (segments wal : List Update) : Prop where
  alone : Contents.replay segments = contents
  overlaid : Contents.replay (segments ++ wal) = contents

/-- A write leaves the map with its update applied, in the segments and under the WAL. -/
theorem Mirrors.write {contents : Contents} {segments wal newWal : List Update}
    {added : List Place} {update : Update} (mirrors : Mirrors contents segments wal)
    (written
      : (added.map Place.update = [update] ∧ (newWal = wal ++ [update] ∨ newWal = []))
        ∨ (added = []
            ∧ contents update.key = none
            ∧ update.item = none
            ∧ newWal = wal ++ [update]))
    : Mirrors (contents.apply update) (segments ++ added.map Place.update) newWal := by
  rcases written with ⟨placed, logged⟩ | ⟨rfl, absent, removes, rfl⟩
  · have alone : Contents.replay (segments ++ [update]) = contents.apply update := by
      rw [Contents.replay_concat, mirrors.alone]
    rw [placed]
    rcases logged with rfl | rfl
    · exact ⟨alone, by rw [Contents.replay_insert, mirrors.overlaid]⟩
    · exact ⟨alone, by rw [List.append_nil, alone]⟩
  · rw [Contents.apply_absent absent removes]
    refine ⟨by simpa using mirrors.alone, ?_⟩
    rw [List.map_nil, List.append_nil, ← List.append_assoc, Contents.replay_concat,
      mirrors.overlaid, Contents.apply_absent absent removes]

end Rustikv.Kv

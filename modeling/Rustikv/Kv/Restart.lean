import Rustikv.Kv.Hints
import Rustikv.Kv.Refinement

/-! Clean restarts. `from_dir` reads a segment's hint file instead of the segment, so what
a restart keeps depends on which records the hint files list.
-/

namespace Rustikv.Kv

open Library

-----------------------------------------------------------------------------------------
-- Runs with restarts
-----------------------------------------------------------------------------------------

/-- The engines, worlds and times a sequence of calls and restarts reaches from a new
engine, where every restart finds a disk as `Condition` says.
-/
inductive Reaches (clock : Nat → Nat) (Condition : Disk → Prop)
    : KVEngine → World → UInt64 → Prop
  | new (maxSegmentBytes : UInt64) (fsyncStrategy : FSyncStrategy)
    : Reaches clock Condition
        (KVEngine.new clock maxSegmentBytes fsyncStrategy World.initial).1
        (KVEngine.new clock maxSegmentBytes fsyncStrategy World.initial).2 0
  | call {db next : KVEngine} {world after : World} {start : UInt64} {event : Event}
      {reply : Reply} (reached : Reaches clock Condition db world start)
      (fits : event.call.Fits) (starts : start ≤ event.nowMs)
      (ends : event.nowMs ≤ event.finishMs)
      (within : event.call.Within event.nowMs event.finishMs)
      (handled : KVEngine.handle clock event db world = .ok (reply, next, after))
    : Reaches clock Condition next after event.finishMs
  | reopen {db next : KVEngine} {world after : World} {start : UInt64}
      {maxSegmentBytes : UInt64} {fsyncStrategy : FSyncStrategy}
      (reached : Reaches clock Condition db world start) (condition : Condition world.disk)
      (reopened
        : KVEngine.fromDir maxSegmentBytes fsyncStrategy world = .ok (some next, after))
    : Reaches clock Condition next after start

theorem Reaches.run {clock : Nat → Nat} {Condition : Disk → Prop} {db next : KVEngine}
    {world after : World} {start : UInt64} {events : List Event} {replies : List Reply}
    (reached : Reaches clock Condition db world start)
    (fits : ∀ event ∈ events, event.call.Fits) (timely : Timely start events)
    (ran : KVEngine.run clock events db world = .ok (replies, next, after))
    : ∃ finish, Reaches clock Condition next after finish := by
  induction events generalizing db world start replies with
  | nil =>
      obtain ⟨rfl, rfl⟩ := Prod.mk.inj (Prod.mk.inj (Except.ok.inj ran)).2
      exact ⟨start, reached⟩
  | cons event rest ih =>
      obtain ⟨starts, ends, within, restTimely⟩ := timely
      cases handled : KVEngine.handle clock event db world with
      | error error => simp [KVEngine.run, handled] at ran
      | ok state =>
          cases ranRest : KVEngine.run clock rest state.2.1 state.2.2 with
          | error error => simp [KVEngine.run, handled, ranRest] at ran
          | ok final =>
              simp only [KVEngine.run, handled, ok_bind, ranRest] at ran
              obtain ⟨-, same⟩ := Prod.mk.inj (Except.ok.inj ran)
              have ranNext : KVEngine.run clock rest state.2.1 state.2.2
                  = .ok (final.1, next, after) := by
                rw [ranRest, ← same]
              exact ih (reached.call (fits event (by simp)) starts ends within handled)
                (fun other member => fits other (List.mem_cons_of_mem _ member)) restTimely
                ranNext

/-- Reopening now succeeds, and from `start` on every read gives what it gave before. -/
def Transparent (db : KVEngine) (world : World) (start : UInt64) : Prop :=
  ∀ maxSegmentBytes fsyncStrategy,
    ∃ next after,
      KVEngine.fromDir maxSegmentBytes fsyncStrategy world = .ok (some next, after)
      ∧ ∀ key nowMs,
          start ≤ nowMs → next.get after key nowMs = db.get world key nowMs

-----------------------------------------------------------------------------------------
-- Disks whose hint files hide no record
-----------------------------------------------------------------------------------------

namespace Disk

/-- The records of a segment file with their offsets. -/
def scanRecords (file : Bytes) : List (Nat × Record) :=
  let scanned :=
    scanFrom Record.readNext (fun _ => true)
      (fun found offset record => found ++ [(offset, record)]) file.length 0 file []
  match scanned with
  | .ok found => found
  | .error _ => []

/-- All records with their segments and offsets, in the order recovery meets them. -/
def records (disk : Disk) : List (Nat × Nat × Record) :=
  disk.segments.toList.flatMap
    (fun file => (scanRecords file.2).map (fun found => (file.1, found)))

/-- Segment and offset of the last record of a key. -/
def lastRecord (disk : Disk) (key : String) : Option (Nat × Nat) :=
  (latest (fun found : Nat × Nat × Record => found.2.2.key) disk.records key).map
    (fun found => (found.1, found.2.1))

/-- The segment has no readable hint file, or that file lists the key at the offset. -/
def Loads (disk : Disk) (segment offset : Nat) (key : String) : Prop :=
  match Hint.readFile disk.hints[segment]? with
  | .error _ => True
  | .ok entries => ∃ entry ∈ entries, entry.key = key ∧ entry.offset.toNat = offset

/-- The WAL has a record of the key. -/
def Logged (disk : Disk) (key : String) : Prop :=
  ∃ memtable, Wal.replay disk.wal = .ok memtable ∧ (memtable.entry key).isSome

/-- The last record of every key is one that loading the directory finds. -/
def Covered (disk : Disk) : Prop :=
  ∀ key segment offset,
    disk.lastRecord key = some (segment, offset)
    → disk.Loads segment offset key ∨ disk.Logged key

instance (disk : Disk) (segment offset : Nat) (key : String)
    : Decidable (disk.Loads segment offset key) :=
  match read : Hint.readFile disk.hints[segment]? with
  | .error _ => .isTrue (by simp [Loads, read])
  | .ok entries =>
      decidable_of_iff
        (∃ entry ∈ entries, entry.key = key ∧ entry.offset.toNat = offset)
        (by simp [Loads, read])

instance (disk : Disk) (key : String) : Decidable (disk.Logged key) :=
  match replayed : Wal.replay disk.wal with
  | .error _ => .isFalse (by simp [Logged, replayed])
  | .ok memtable =>
      decidable_of_iff ((memtable.entry key).isSome = true) (by simp [Logged, replayed])

/-- Only keys with a record need a check. -/
instance (disk : Disk) : Decidable disk.Covered :=
  decidable_of_iff
    (∀ found ∈ disk.records,
      ∀ place ∈ disk.lastRecord found.2.2.key,
        disk.Loads place.1 place.2 found.2.2.key ∨ disk.Logged found.2.2.key)
    (by
      constructor
      · intro checked key segment offset last
        obtain ⟨found, latestFound, -⟩ := Option.map_eq_some_iff.mp last
        obtain ⟨member, rfl⟩ := latest_some _ latestFound
        exact checked found member (segment, offset) last
      · rintro covered found - ⟨segment, offset⟩ last
        exact covered found.2.2.key segment offset last)

end Disk

/-- Scanning finds all records of an intact file. -/
theorem scanRecords_encodeAll {records : List Record}
    (valid : ∀ record ∈ records, Record.codec.Valid record)
    : Disk.scanRecords (Record.codec.encodeAll records) = Record.codec.locate 0 records := by
  have scanned := Record.codec.scanFrom_encodeAll (fun _ => true)
    (fun found offset record => found ++ [(offset, record)]) valid 0 (le_refl _)
    ([] : List (Nat × Record))
  have collected (located : List (Nat × Record)) (start : List (Nat × Record))
      : located.foldl (fun found item => found ++ [(item.1, item.2)]) start
        = start ++ located := by
    induction located generalizing start with
    | nil => simp
    | cons first rest ih => simp [ih]
  rw [collected, List.nil_append] at scanned
  unfold Disk.scanRecords
  change scanFrom Record.readNext _ _ _ _ _ _ = _ at scanned
  simp only [scanned]

/-- Scanning finds the places of the logs. -/
theorem lastRecord_eq {disk : Disk} {logs : List Log} (filed : Filed disk.segments logs)
    (key : String)
    : disk.lastRecord key
      = (lastPlace (placesOf logs) key).map (fun place => (place.segment, place.offset)) := by
  have scan {updates : List Update} (fits : ∀ update ∈ updates, update.Fits)
      : Disk.scanRecords (Update.codec.encodeAll updates)
        = (Update.codec.locate 0 updates).map
            (fun located => (located.1, located.2.record)) := by
    obtain ⟨valid, same⟩ := encodeAll_records fits
    rw [← same, scanRecords_encodeAll valid,
      Record.codec.locate_map Update.codec (fun _ => rfl)]
  have records : disk.records
      = (placesOf logs).map
          (fun place => (place.segment, place.offset, place.update.record)) := by
    rw [Disk.records, filed.toList, List.flatMap_map, placesOf, List.map_flatMap]
    apply List.flatMap_congr
    intro log member
    simp [scan (filed.fits log member), placesFrom]
  unfold Disk.lastRecord lastPlace
  rw [records, latest_map]
  simp only [Update.key_record, Option.map_map]
  rfl

-----------------------------------------------------------------------------------------
-- The invariant of such runs
-----------------------------------------------------------------------------------------

/-- The index covers all logs, the WAL repeats what the segments say, every hint file
lists records of its segment, and the next segment will be a new one.
-/
structure Restartable (clock : Nat → Nat) (db : KVEngine) (world : World) (logs : List Log)
    (updates wal : List Update)
    : Prop where
  stored : Stored world.disk (logs ++ [(db.activeSegment, updates)]) wal
  tracks : Tracks db.index (placesOf (logs ++ [(db.activeSegment, updates)]))
  overlaid
    : Contents.replay (updatesOf (logs ++ [(db.activeSegment, updates)]) ++ wal)
      = Contents.replay (updatesOf (logs ++ [(db.activeSegment, updates)]))
  hinted
    : Hinted world.disk.hints (placesOf (logs ++ [(db.activeSegment, updates)]))
  owned : ∀ segment ∈ world.disk.hints, segment ∈ world.disk.segments
  fresh : KVEngine.Fresh clock world

namespace Restartable

variable {clock : Nat → Nat} {db : KVEngine} {world : World} {logs : List Log}
  {updates wal : List Update}

theorem represents (restartable : Restartable clock db world logs updates wal)
    : Represents db.index world.disk
        (Contents.replay (updatesOf (logs ++ [(db.activeSegment, updates)]))) := by
  have represents := restartable.tracks.represents restartable.stored.filed
    (List.Subset.refl _)
  rwa [map_update_placesOf] at represents

theorem active (restartable : Restartable clock db world logs updates wal)
    : db.activeSegment ∈ world.disk.segments :=
  (restartable.stored.filed.mem_iff _).mpr ⟨updates, by simp⟩

theorem bound (restartable : Restartable clock db world logs updates wal)
    : db.activeSegment ≤ clock world.ticks :=
  (restartable.fresh _ restartable.active).le

/-- Writes only add places, so hint files stay true. -/
theorem write (increasing : StrictMono clock)
    (restartable : Restartable clock db world logs updates wal) {update : Update}
    {next : KVEngine} {after : World} {more : List Log} {last newWal : List Update}
    {added : List Place} {operations : List FileOp}
    (effect : KVEngine.WriteEffect clock update db next world after logs more updates last wal
      newWal added operations)
    (progress : KVEngine.Progress clock db next world after)
    : Restartable clock next after (logs ++ more) last newWal := by
  have mirrored := Mirrors.write ⟨rfl, restartable.overlaid⟩ (effect.written.imp_right
    (fun ⟨unplaced, unknown, rest⟩ =>
      ⟨unplaced, restartable.represents.absent update.key unknown, rest⟩))
  refine {
    stored := effect.stored
    tracks := ?_
    overlaid := ?_
    hinted := ?_
    owned := ?_
    fresh := restartable.fresh.progress increasing restartable.active progress
  }
  · rw [effect.placesOf_eq]
    exact effect.tracks _ restartable.tracks
  · rw [effect.updatesOf_eq, mirrored.overlaid, mirrored.alone]
  · rw [effect.placesOf_eq, effect.hints]
    exact restartable.hinted.mono (List.subset_append_left _ _)
  · intro segment member
    rw [effect.hints] at member
    exact progress.keeps.present (restartable.owned segment member)

end Restartable

/-- Some logs make the engine restartable. -/
def Keeping (clock : Nat → Nat) (db : KVEngine) (world : World) : Prop :=
  ∃ logs updates wal, Restartable clock db world logs updates wal

namespace Keeping

variable {clock : Nat → Nat} {db : KVEngine} {world : World}

theorem setWithTtl (increasing : StrictMono clock) (keeping : Keeping clock db world)
    {key value : String} (fits : Record.Fits key value) (expiryMs : Option UInt64)
    : ∃ next after,
        db.setWithTtl clock world key value expiryMs = .ok (next, after)
        ∧ Keeping clock next after := by
  obtain ⟨logs, updates, wal, restartable⟩ := keeping
  obtain ⟨next, after, more, last, newWal, added, operations, written, effect⟩ :=
    KVEngine.setWithTtl_effect increasing.monotone restartable.stored restartable.bound fits
      expiryMs
  obtain ⟨other, later, again, progress, -⟩ :=
    KVEngine.setWithTtl_sound clock restartable.represents restartable.active fits expiryMs
  obtain ⟨rfl, rfl⟩ := Prod.mk.inj (Except.ok.inj (written.symm.trans again))
  exact ⟨next, after, written, _, _, _, restartable.write increasing effect progress⟩

theorem msetWithTtl (increasing : StrictMono clock) (keeping : Keeping clock db world)
    {items : List (String × String × Option UInt64)}
    (fits : ∀ item ∈ items, Record.Fits item.1 item.2.1)
    : ∃ next after,
        db.msetWithTtl clock world items = .ok (next, after)
        ∧ Keeping clock next after := by
  unfold KVEngine.msetWithTtl
  induction items generalizing db world with
  | nil => exact ⟨db, world, rfl, keeping⟩
  | cons item rest ih =>
      obtain ⟨next, after, written, now⟩ :=
        keeping.setWithTtl increasing (fits item (by simp)) item.2.2
      rw [List.foldlM_cons, written]
      exact ih now (fun other member => fits other (List.mem_cons_of_mem item member))

theorem delete (increasing : StrictMono clock) (keeping : Keeping clock db world)
    {key : String} (fits : key.utf8ByteSize ≤ maxKeySize)
    : ∃ found next after,
        db.delete world key = .ok (found, next, after)
        ∧ Keeping clock next after := by
  obtain ⟨logs, updates, wal, restartable⟩ := keeping
  obtain ⟨found, next, after, last, newWal, added, operations, deleted, effect⟩ :=
    KVEngine.delete_effect restartable.stored restartable.bound fits
  obtain ⟨otherFound, other, later, again, progress, -⟩ :=
    KVEngine.delete_sound clock restartable.represents restartable.active fits
  obtain ⟨rfl, same⟩ := Prod.mk.inj (Except.ok.inj (deleted.symm.trans again))
  obtain ⟨rfl, rfl⟩ := Prod.mk.inj same
  exact ⟨found, next, after, deleted, _, _, _,
    restartable.write increasing effect progress⟩

theorem ttl (increasing : StrictMono clock) (keeping : Keeping clock db world)
    (key : String) (expiryMs : Option UInt64) (nowMs : UInt64)
    : ∃ outcome next after,
        db.ttl clock world key expiryMs nowMs = .ok (outcome, next, after)
        ∧ Keeping clock next after := by
  obtain ⟨logs, updates, wal, restartable⟩ := keeping
  rcases KVEngine.ttl_sound clock restartable.represents restartable.active key expiryMs
      nowMs with
    ⟨absent, unchanged⟩ | ⟨value, other, later, live, again, progress, -⟩
  · exact ⟨.notFound, db, world, unchanged, _, _, _, restartable⟩
  · obtain ⟨next, after, more, last, newWal, added, operations, written, effect⟩ :=
      KVEngine.ttl_effect increasing.monotone restartable.stored restartable.bound
        restartable.represents expiryMs live
    obtain ⟨-, same⟩ := Prod.mk.inj (Except.ok.inj (written.symm.trans again))
    obtain ⟨rfl, rfl⟩ := Prod.mk.inj same
    exact ⟨_, next, after, written, _, _, _,
      restartable.write increasing effect progress⟩

end Keeping

-----------------------------------------------------------------------------------------
-- Compaction
-----------------------------------------------------------------------------------------

/-- A compaction under way: the old logs are untouched, and the new engine's index covers
the logs written behind them.
-/
structure Rebuilding (clock : Nat → Nat) (db newDb : KVEngine) (world : World)
    (contents : Contents) (old own : List Log) (updates wal : List Update)
    (hints : SortedMap Nat Bytes)
    : Prop where
  source : Represents db.index world.disk contents
  stored : Stored world.disk (old ++ own ++ [(newDb.activeSegment, updates)]) wal
  tracks : Tracks newDb.index (placesOf (own ++ [(newDb.activeSegment, updates)]))
  addressable : Addressable newDb.index
  fresh : KVEngine.Fresh clock world
  hints : world.disk.hints = hints

namespace Rebuilding

variable {clock : Nat → Nat} {db newDb : KVEngine} {world : World} {contents : Contents}
  {old own : List Log} {updates wal : List Update} {hints : SortedMap Nat Bytes}

theorem target (rebuilding : Rebuilding clock db newDb world contents old own updates wal
      hints)
    : Represents newDb.index world.disk
        (Contents.replay
          ((placesOf (own ++ [(newDb.activeSegment, updates)])).map Place.update)) := by
  refine rebuilding.tracks.represents rebuilding.stored.filed ?_
  intro place member
  simp only [placesOf_append, List.mem_append] at member ⊢
  tauto

/-- Copying a key writes its live value to the new engine, or nothing. -/
theorem copyKey (increasing : StrictMono clock)
    (rebuilding : Rebuilding clock db newDb world contents old own updates wal hints)
    (item : String × Option UInt64) (nowMs : UInt64)
    : ∃ next after more last newWal,
        KVEngine.copyKey clock db newDb world item nowMs = .ok (next, after)
        ∧ Rebuilding clock db next after contents old (own ++ more) last newWal hints
        ∧ ((contents.read item.1 nowMs = none
              ∧ next = newDb
              ∧ after = world
              ∧ more = []
              ∧ last = updates
              ∧ newWal = wal)
            ∨ ∃ value added operations,
                contents.read item.1 nowMs = some value
                ∧ KVEngine.WriteEffect clock (KVEngine.valueUpdate item.1 value item.2) newDb
                    next world after (old ++ own) more updates last wal newWal added
                    operations) := by
  have lookup := rebuilding.source.kvLookup db.activeSegment item.1 nowMs
  cases live : contents.read item.1 nowMs with
  | none =>
      refine ⟨newDb, world, [], updates, wal, ?_, by simpa using rebuilding,
        Or.inl ⟨rfl, rfl, rfl, rfl, rfl, rfl⟩⟩
      simp [KVEngine.copyKey, KVEngine.get, lookup, live]
      rfl
  | some value =>
      have fits := rebuilding.source.fits_of_read live
      have active : newDb.activeSegment ∈ world.disk.segments :=
        (rebuilding.stored.filed.mem_iff _).mpr ⟨updates, by simp⟩
      obtain ⟨next, after, more, last, newWal, added, operations, written, effect⟩ :=
        KVEngine.setWithTtl_effect increasing.monotone rebuilding.stored
          (rebuilding.fresh _ active).le fits item.2
      obtain ⟨other, later, again, progress, -⟩ :=
        KVEngine.setWithTtl_sound clock rebuilding.target active fits item.2
      obtain ⟨rfl, rfl⟩ := Prod.mk.inj (Except.ok.inj (written.symm.trans again))
      refine ⟨next, after, more, last, newWal, ?_, ?_,
        Or.inr ⟨value, added, operations, rfl, effect⟩⟩
      · simp [KVEngine.copyKey, KVEngine.get, lookup, live]
        exact written
      · refine {
          source := rebuilding.source.keeps progress.keeps
          stored := by simpa using effect.stored
          tracks := ?_
          addressable :=
            KVEngine.setWithTtl_addressable rebuilding.fresh rebuilding.addressable written
          fresh := rebuilding.fresh.progress increasing active progress
          hints := effect.hints.trans rebuilding.hints
        }
        rw [effect.placesOf_eq]
        exact effect.tracks _ rebuilding.tracks

/-- Copying all keys of a snapshot. Witness: induction over the keys still to be copied. -/
theorem copyKeys (increasing : StrictMono clock) (copyMs : String → UInt64)
    (rest : List (String × Option UInt64))
    (rebuilding : Rebuilding clock db newDb world contents old own updates wal hints)
    : ∃ next after newOwn last newWal,
        rest.foldlM
          (fun state item =>
            KVEngine.copyKey clock db state.1 state.2 item (copyMs item.1))
          (newDb, world)
        = .ok (next, after)
        ∧ Rebuilding clock db next after contents old newOwn last newWal hints := by
  induction rest generalizing newDb world own updates wal with
  | nil => exact ⟨newDb, world, own, updates, wal, rfl, rebuilding⟩
  | cons item rest ih =>
      obtain ⟨next, after, more, last, newWal, copied, ongoing, -⟩ :=
        rebuilding.copyKey increasing item (copyMs item.1)
      rw [List.foldlM_cons, copied]
      exact ih ongoing

end Rebuilding

/-- Removing the old segments, oldest first, leaves the new logs and their hints.
Witness: induction over the old logs.
-/
theorem removeSegments_filed {old own : List Log} {world : World}
    (filed : Filed world.disk.segments (old ++ own))
    : ∃ after,
        (old.map Prod.fst).foldlM KVEngine.removeSegment world = .ok after
        ∧ Filed after.disk.segments own
        ∧ after.disk.wal = world.disk.wal
        ∧ after.ticks = world.ticks
        ∧ ∀ segment : Nat,
            after.disk.hints[segment]?
            = if segment ∈ old.map Prod.fst then none else world.disk.hints[segment]? := by
  induction old generalizing world with
  | nil => exact ⟨world, rfl, filed, rfl, rfl, by simp⟩
  | cons log rest ih =>
      obtain ⟨segment, updates⟩ := log
      have opened := filed.getElem?
        (by simp : (segment, updates) ∈ (segment, updates) :: rest ++ own)
      have removed : KVEngine.removeSegment world segment
          = .ok ((world.perform (.segmentRemove segment)).perform (.hintRemove segment)) := by
        simp [KVEngine.removeSegment, Disk.openSegment, opened, pure, Except.pure]
      have erased : Filed ((world.perform (.segmentRemove segment)).perform
          (.hintRemove segment)).disk.segments (rest ++ own) := filed.eraseHead
      obtain ⟨after, ran, kept, wal, ticks, hints⟩ := ih erased
      refine ⟨after, ?_, kept, wal, ticks, ?_⟩
      · rw [List.map_cons, List.foldlM_cons, removed]
        exact ran
      · intro other
        rw [hints other]
        by_cases later : other ∈ rest.map Prod.fst
        · simp [later]
        · by_cases same : segment = other
          · simp [same, later, Disk.apply]
          · simp [same, later, Disk.apply, Ne.symm same]

/-- The engine a compaction starts with holds nothing, behind all old logs. -/
theorem rebuilding_new {clock : Nat → Nat} (increasing : StrictMono clock)
    {db : KVEngine} {world : World} {contents : Contents} {old : List Log}
    {wal : List Update} (represents : Represents db.index world.disk contents)
    (stored : Stored world.disk old wal) (fresh : KVEngine.Fresh clock world)
    : Rebuilding clock db
        (KVEngine.new clock db.maxSegmentBytes db.fsyncStrategy world).1
        (KVEngine.new clock db.maxSegmentBytes db.fsyncStrategy world).2 contents old [] []
        wal world.disk.hints := by
  have missing : clock world.ticks ∉ world.disk.segments :=
    fun present => lt_irrefl _ (fresh _ present)
  have below : ∀ log ∈ old, log.1 < clock world.ticks := by
    intro log member
    exact fresh _ ((stored.filed.mem_iff log.1).mpr ⟨log.2, member⟩)
  have created := stored.filed.create _ below
  refine {
    source := represents.keeps
      (keeps_apply world.disk (.segmentCreate (clock world.ticks)) (by simp))
    stored := ⟨?_, ?_, stored.fits⟩
    tracks := tracks_new
    addressable := fun key entry found => by simp [KVEngine.new] at found
    fresh := KVEngine.new_fresh increasing fresh _ _
    hints := Disk.hints_segmentCreate _ _
  }
  · simpa [KVEngine.new, World.newSegment, Disk.apply, missing] using created
  · simpa [KVEngine.new, World.newSegment, Disk.apply, missing] using stored.logged

/-- Hints, swap and removal leave exactly the new logs, each with its own hint file. -/
theorem Rebuilding.swap {clock : Nat → Nat} {db newDb : KVEngine} {world : World}
    {contents : Contents} {old own : List Log} {updates wal : List Update}
    {hints : SortedMap Nat Bytes}
    (rebuilding : Rebuilding clock db newDb world contents old own updates wal hints)
    (owned : ∀ segment ∈ hints, segment ∈ old.map Prod.fst) (order : IterOrder)
    : ∃ after,
        (old.map Prod.fst).foldlM KVEngine.removeSegment
          (db.swapCompacted newDb
            (KVEngine.finishCompacted order newDb (old.map Prod.fst) world)).2
        = .ok after
        ∧ Restartable clock
            (db.swapCompacted newDb
              (KVEngine.finishCompacted order newDb (old.map Prod.fst) world)).1
            after own updates [] := by
  obtain ⟨segments, -, ticks⟩ :=
    KVEngine.finishCompacted_frame order newDb (old.map Prod.fst) world
  have written := KVEngine.hints_finishCompacted order newDb (old.map Prod.fst) world
  have filed : Filed (KVEngine.finishCompacted order newDb (old.map Prod.fst)
      world).disk.segments (old ++ (own ++ [(newDb.activeSegment, updates)])) := by
    rw [segments, ← List.append_assoc]
    exact rebuilding.stored.filed
  have swapped : Filed (db.swapCompacted newDb
      (KVEngine.finishCompacted order newDb (old.map Prod.fst) world)).2.disk.segments
      (old ++ (own ++ [(newDb.activeSegment, updates)])) := filed
  obtain ⟨after, removed, finalFiled, finalWal, finalTicks, finalHints⟩ :=
    removeSegments_filed swapped
  have ownHint {segment : Nat} {bytes : Bytes}
      (found : after.disk.hints[segment]? = some bytes)
      : (∃ log, (segment, log) ∈ own ++ [(newDb.activeSegment, updates)])
        ∧ bytes
          = HintEntry.codec.encodeAll (KVEngine.hintEntries order newDb segment) := by
    rw [finalHints] at found
    split at found
    · cases found
    · rename_i notOld
      change (KVEngine.finishCompacted order newDb (old.map Prod.fst)
        world).disk.hints[segment]? = some bytes at found
      rw [written] at found
      split at found
      · rename_i listed
        obtain ⟨present, -⟩ := List.mem_filter.mp listed
        rw [Disk.getSegments, rebuilding.stored.filed.keys, List.append_assoc,
          List.map_append, List.mem_append] at present
        obtain ⟨⟨_, log⟩, member, rfl⟩ := List.mem_map.mp (present.resolve_left notOld)
        exact ⟨⟨log, member⟩, (Option.some.inj found).symm⟩
      · rw [rebuilding.hints] at found
        exact absurd (owned segment ((SortedMap.mem_iff _ _).mpr ⟨bytes, found⟩)) notOld
  refine ⟨after, removed, ?_⟩
  refine {
    stored := ⟨finalFiled, finalWal, by simp⟩
    tracks := rebuilding.tracks
    overlaid := by rw [List.append_nil]
    hinted := ?_
    owned := ?_
    fresh := ?_
  }
  · intro segment bytes found
    refine ⟨KVEngine.hintPlaces order newDb _ segment,
      KVEngine.hintPlaces_lists rebuilding.tracks rebuilding.addressable order segment, ?_⟩
    rw [← KVEngine.hintEntries_eq rebuilding.tracks]
    exact (ownHint found).2
  · intro segment member
    obtain ⟨bytes, found⟩ := (SortedMap.mem_iff _ _).mp member
    exact (finalFiled.mem_iff segment).mpr (ownHint found).1
  · intro segment present
    obtain ⟨log, member⟩ := (finalFiled.mem_iff segment).mp present
    have before : segment ∈ world.disk.segments :=
      (rebuilding.stored.filed.mem_iff segment).mpr
        ⟨log, by rw [List.append_assoc]; exact List.mem_append_right _ member⟩
    have same : after.ticks = world.ticks := finalTicks.trans ticks
    rw [same]
    exact rebuilding.fresh segment before

/-- A compaction leaves a restartable engine, whatever the index missed before. -/
theorem compact_keeping {clock : Nat → Nat} (increasing : StrictMono clock)
    {db : KVEngine} {world : World} {contents : Contents} {logs : List Log}
    {wal : List Update} (represents : Represents db.index world.disk contents)
    (stored : Stored world.disk logs wal)
    (owned : ∀ segment ∈ world.disk.hints, segment ∈ world.disk.segments)
    (fresh : KVEngine.Fresh clock world) (order : IterOrder) (nowMs : UInt64)
    (copyMs : String → UInt64)
    : ∃ next after,
        db.compact clock order world nowMs copyMs = .ok (next, after)
        ∧ Keeping clock next after := by
  have oldSegments : world.disk.getSegments = logs.map Prod.fst := stored.filed.keys
  obtain ⟨newDb, filled, own, last, newWal, copied, rebuilding⟩ :=
    (rebuilding_new increasing represents stored fresh).copyKeys increasing copyMs
      (KVEngine.snapshotKeys order db nowMs)
  obtain ⟨after, removed, finished⟩ := rebuilding.swap
    (fun segment member => by
      rw [← oldSegments]
      exact world.disk.mem_getSegments.mpr (owned segment member))
    order
  refine ⟨_, after, ?_, _, _, _, finished⟩
  rw [← oldSegments] at removed ⊢
  simp only [KVEngine.compact, KVEngine.buildCompacted, copied, ok_bind]
  simp only [pure, Except.pure, ok_bind, removed]

theorem Keeping.compact {clock : Nat → Nat} (increasing : StrictMono clock)
    {db : KVEngine} {world : World} (keeping : Keeping clock db world) (order : IterOrder)
    (nowMs : UInt64) (copyMs : String → UInt64)
    : ∃ next after,
        db.compact clock order world nowMs copyMs = .ok (next, after)
        ∧ Keeping clock next after := by
  obtain ⟨logs, updates, wal, restartable⟩ := keeping
  exact compact_keeping increasing restartable.represents restartable.stored
    restartable.owned restartable.fresh order nowMs copyMs

-----------------------------------------------------------------------------------------
-- Reopening
-----------------------------------------------------------------------------------------

theorem lastPlace_append (front back : List Place) (key : String)
    : lastPlace (front ++ back) key = (lastPlace back key).or (lastPlace front key) :=
  latest_append _ front back key

theorem lastPlace_subset {places listed : List Place} {key : String}
    (absent : lastPlace places key = none) (subset : listed ⊆ places)
    : lastPlace listed key = none := by
  rw [lastPlace, latest_none] at absent ⊢
  exact fun place member => absent place (subset member)

/-- A segment and an offset determine a place. -/
theorem Filed.place_unique {disk : Disk} {logs : List Log}
    (filed : Filed disk.segments logs) {left right : Place}
    (first : left ∈ placesOf logs) (second : right ∈ placesOf logs)
    (segment : left.segment = right.segment) (offset : left.offset = right.offset)
    : left = right := by
  obtain ⟨⟨file, rest, found, starts⟩, leftFits⟩ := filed.holdsAt first
  obtain ⟨⟨other, otherRest, otherFound, otherStarts⟩, rightFits⟩ := filed.holdsAt second
  rw [← segment, found] at otherFound
  cases otherFound
  rw [← offset, starts] at otherStarts
  have leftRead := Update.codec.decode_encode left.update leftFits rest
  have rightRead := Update.codec.decode_encode right.update rightFits otherRest
  rw [Update.encode_codec] at leftRead rightRead
  rw [otherStarts, rightRead] at leftRead
  have update : right.update = left.update := (Prod.mk.inj (Except.ok.inj leftRead)).1
  obtain ⟨_, _, _⟩ := left
  obtain ⟨_, _, _⟩ := right
  simp_all

/-- What loading a segment contributes: places of its log, and the last place of every key
that its hint file does not hide.
-/
structure Contributes (disk : Disk) (log : Log) (listed : List Place) : Prop where
  loads
    : ∀ index places,
        Tracks index places
        → ∃ merged,
            KVEngine.loadSegment disk index log.1 = .ok merged
            ∧ Tracks merged (places ++ listed)
  subset : listed ⊆ placesFrom log.1 0 log.2
  complete
    : ∀ key place,
        lastPlace (placesFrom log.1 0 log.2) key = some place
        → disk.Loads place.segment place.offset key
        → lastPlace listed key = some place

theorem contributes_of_hinted {disk : Disk} {logs : List Log}
    (filed : Filed disk.segments logs) (hinted : Hinted disk.hints (placesOf logs))
    {log : Log} (member : log ∈ logs)
    : ∃ listed, Contributes disk log listed := by
  have inside {place : Place} (placeMember : place ∈ placesFrom log.1 0 log.2)
      : place ∈ placesOf logs ∧ place.segment = log.1 := by
    refine ⟨List.mem_flatMap.mpr ⟨log, member, placeMember⟩, ?_⟩
    obtain ⟨located, -, rfl⟩ := List.mem_map.mp placeMember
    rfl
  cases found : disk.hints[log.1]? with
  | none =>
      exact ⟨placesFrom log.1 0 log.2,
        fun index places tracks => loadSegment_scanned filed member found tracks,
        List.Subset.refl _, fun key place last _ => last⟩
  | some bytes =>
      obtain ⟨listed, lists, rfl⟩ := hinted log.1 bytes found
      refine ⟨listed,
        fun index places tracks => loadSegment_hinted filed member lists found tracks, ?_, ?_⟩
      · intro place placeMember
        obtain ⟨present, own⟩ := lists.subset place placeMember
        obtain ⟨⟨segment, updates⟩, otherMember, otherPlace⟩ := List.mem_flatMap.mp present
        obtain ⟨located, locatedMember, rfl⟩ := List.mem_map.mp otherPlace
        dsimp only at own
        subst own
        rwa [filed.unique otherMember member] at otherPlace
      · intro key place last visible
        obtain ⟨placeMember, same⟩ := KVEngine.lastPlace_key last
        obtain ⟨present, own⟩ := inside placeMember
        have valid : ∀ entry ∈ listed.map hintOf, HintEntry.codec.Valid entry := by
          intro entry entryMember
          obtain ⟨other, otherMember, rfl⟩ := List.mem_map.mp entryMember
          exact codec_valid_hintOf (filed.holdsAt (lists.subset other otherMember).1).2
        have readable := Hint.readFile_encodeAll valid
        rw [Disk.Loads, own, found, readable] at visible
        obtain ⟨entry, entryMember, entryKey, entryOffset⟩ := visible
        obtain ⟨other, otherMember, rfl⟩ := List.mem_map.mp entryMember
        obtain ⟨otherPresent, otherOwn⟩ := lists.subset other otherMember
        have small := (lists.items other otherMember).2
        have offset : other.offset = place.offset := by
          rw [← entryOffset, hintOf, UInt64.toNat_ofNat']
          exact (Nat.mod_eq_of_lt small).symm
        obtain rfl := filed.place_unique otherPresent present (otherOwn.trans own.symm) offset
        rw [lastPlace, latest_eq_earliest _ lists.distinct, ← same]
        exact earliest_of_distinct (fun place : Place => place.update.key) lists.distinct
          otherMember

/-- Loaded places end, for every key not hidden, in the last place of the logs.
Witness: induction over the logs.
-/
theorem lastPlace_contributes {disk : Disk} {contributes : Log → List Place}
    {logs : List Log} (spec : ∀ log ∈ logs, Contributes disk log (contributes log))
    (key : String)
    (visible
      : ∀ place,
          lastPlace (placesOf logs) key = some place
          → disk.Loads place.segment place.offset key)
    : lastPlace (logs.flatMap contributes) key = lastPlace (placesOf logs) key := by
  induction logs with
  | nil => rfl
  | cons log rest ih =>
      have split : placesOf (log :: rest) = placesFrom log.1 0 log.2 ++ placesOf rest := by
        simp [placesOf]
      rw [split, lastPlace_append] at visible
      rw [split, lastPlace_append, List.flatMap_cons, lastPlace_append]
      have later := ih (fun other member => spec other (List.mem_cons_of_mem _ member))
        (fun place last => visible place (by rw [last]; rfl))
      rw [later]
      cases last : lastPlace (placesOf rest) key with
      | some place => rfl
      | none =>
          have own := spec log (by simp)
          rw [last, Option.none_or] at visible
          cases ownLast : lastPlace (placesFrom log.1 0 log.2) key with
          | none => simp [lastPlace_subset ownLast own.subset]
          | some place => simp [own.complete key place ownLast (visible place ownLast)]

theorem latest_of_logged {disk : Disk} {wal : List Update}
    (logged : disk.wal = Update.codec.encodeAll wal) (fits : ∀ update ∈ wal, update.Fits)
    {key : String} (known : disk.Logged key)
    : latest Update.key wal key ≠ none := by
  obtain ⟨memtable, replayed, present⟩ := known
  obtain ⟨other, again, same⟩ := replay_updates fits
  rw [← logged] at again
  obtain rfl := Except.ok.inj (replayed.symm.trans again)
  obtain ⟨entry, found⟩ := Option.isSome_iff_exists.mp present
  rw [← same key]
  intro absent
  have member := (memtable.entries.mem_toList key entry).mpr found
  exact (latest_none Update.key).mp absent (Update.ofEntry (key, entry))
    (List.mem_map.mpr ⟨_, member, rfl⟩) rfl

/-- Loading the segments succeeds and tracks places of the logs. -/
theorem loadSegments_hinted {disk : Disk} {logs : List Log}
    (filed : Filed disk.segments logs) (hinted : Hinted disk.hints (placesOf logs))
    : ∃ contributes index,
        (∀ log ∈ logs, Contributes disk log (contributes log))
        ∧ disk.getSegments.foldlM (KVEngine.loadSegment disk) HashIndex.new = .ok index
        ∧ Tracks index (logs.flatMap contributes) := by
  have choice : ∀ log ∈ logs, ∃ listed, Contributes disk log listed :=
    fun log member => contributes_of_hinted filed hinted member
  choose! contributes spec using choice
  obtain ⟨index, loaded, tracks⟩ := loadSegments_tracks disk contributes
    (fun log member => (spec log member).loads) tracks_new
  rw [← filed.keys] at loaded
  exact ⟨contributes, index, spec, loaded, by simpa using tracks⟩

/-- On a covered disk reopening brings back the map, and the engine stays restartable. -/
theorem Restartable.fromDir {clock : Nat → Nat} {db : KVEngine} {world : World}
    {logs : List Log} {updates wal : List Update}
    (restartable : Restartable clock db world logs updates wal)
    (covered : world.disk.Covered) (maxSegmentBytes : UInt64)
    (fsyncStrategy : FSyncStrategy)
    : ∃ next after last,
        KVEngine.fromDir maxSegmentBytes fsyncStrategy world = .ok (some next, after)
        ∧ Restartable clock next after logs last []
        ∧ Contents.replay (updatesOf (logs ++ [(next.activeSegment, last)]))
          = Contents.replay (updatesOf (logs ++ [(db.activeSegment, updates)])) := by
  have filed := restartable.stored.filed
  obtain ⟨contributes, index, spec, loaded, tracks⟩ :=
    loadSegments_hinted filed restartable.hinted
  obtain ⟨next, after, recovered, reopened, active, finalFiled, finalTracks, -, emptied,
    finalHints, ticks, same, -⟩ :=
    fromDir_sound filed restartable.stored.logged restartable.stored.fits loaded tracks
      maxSegmentBytes fsyncStrategy
  have places : placesOf (logs ++ [(next.activeSegment, updates ++ recovered)])
      = placesOf (logs ++ [(db.activeSegment, updates)])
        ++ placesFrom db.activeSegment (Update.codec.encodeAll updates).length recovered := by
    simp [active, placesOf, placesFrom_append]
  have replayed
      : Contents.replay (updatesOf (logs ++ [(next.activeSegment, updates ++ recovered)]))
        = Contents.replay (updatesOf (logs ++ [(db.activeSegment, updates)])) := by
    rw [← restartable.overlaid, ← Contents.replay_congr_right _ same]
    simp
  have sameSegments (segment : Nat)
      : segment ∈ after.disk.segments ↔ segment ∈ world.disk.segments := by
    rw [SortedMap.mem_iff, ← SortedMap.mem_keys, finalFiled.keys, SortedMap.mem_iff,
      ← SortedMap.mem_keys, filed.keys]
    simp
  refine ⟨next, after, updates ++ recovered, reopened, ?_, replayed⟩
  refine {
    stored := ⟨active ▸ finalFiled, emptied, by simp⟩
    tracks := ?_
    overlaid := by rw [List.append_nil]
    hinted := ?_
    owned := ?_
    fresh := ?_
  }
  · intro key
    rw [finalTracks key, places, lastPlace_append, lastPlace_append]
    cases appended : lastPlace
        (placesFrom db.activeSegment (Update.codec.encodeAll updates).length recovered) key with
    | some place => rfl
    | none =>
        have unlogged : latest Update.key wal key = none := by
          rw [← same, ← map_update_placesFrom db.activeSegment
            (Update.codec.encodeAll updates).length recovered, latest_map]
          simpa [lastPlace] using appended
        have visible : ∀ place,
            lastPlace (placesOf (logs ++ [(db.activeSegment, updates)])) key = some place
            → world.disk.Loads place.segment place.offset key := by
          intro place last
          refine (covered key place.segment place.offset ?_).resolve_right ?_
          · rw [lastRecord_eq filed, last]
            rfl
          · intro known
            exact latest_of_logged restartable.stored.logged restartable.stored.fits known
              unlogged
        rw [lastPlace_contributes spec key visible]
  · rw [places, finalHints]
    exact restartable.hinted.mono (List.subset_append_left _ _)
  · intro segment member
    rw [finalHints] at member
    exact (sameSegments segment).mpr (restartable.owned segment member)
  · intro segment present
    rw [ticks]
    exact restartable.fresh segment ((sameSegments segment).mp present)

/-- Everything a run with covered restarts reaches can be restarted. Witness: induction
over the run.
-/
theorem Reaches.keeping {clock : Nat → Nat} (increasing : StrictMono clock)
    {db : KVEngine} {world : World} {start : UInt64}
    (reached : Reaches clock Disk.Covered db world start)
    : Keeping clock db world := by
  induction reached with
  | new maxSegmentBytes fsyncStrategy =>
      have created := Filed.nil.create (clock 0) (by simp)
      refine ⟨[], [], [], ?_⟩
      refine {
        stored := ⟨?_, rfl, by simp⟩
        tracks := tracks_new
        overlaid := rfl
        hinted := ?_
        owned := ?_
        fresh := KVEngine.new_fresh increasing (by simp [KVEngine.Fresh, World.initial,
          Disk.empty]) _ _
      }
      · simpa [KVEngine.new, World.newSegment, World.initial, Disk.apply, Disk.empty] using
          created
      · intro segment bytes found
        simp [KVEngine.new, World.newSegment, World.initial, Disk.apply, Disk.empty] at found
      · intro segment member
        simp [KVEngine.new, World.newSegment, World.initial, Disk.apply, Disk.empty] at member
  | @call db next world after start event reply _ fits _ _ _ handled keeping =>
      have unchanged (reads : event.call.Reads) : Keeping clock next after := by
        obtain ⟨logs, updates, wal, restartable⟩ := keeping
        have shows : Shows db world _ 0 :=
          ⟨_, restartable.represents, fun _ _ _ => rfl⟩
        obtain ⟨-, reply, again, -⟩ :=
          shows.handle reads UInt64.zero_le (fun _ _ _ _ => UInt64.zero_le) clock
        obtain ⟨-, same⟩ := Prod.mk.inj (Except.ok.inj (handled.symm.trans again))
        obtain ⟨rfl, rfl⟩ := Prod.mk.inj same
        exact ⟨logs, updates, wal, restartable⟩
      obtain ⟨call, nowMs, finishMs⟩ := event
      cases call with
      | set key value =>
          obtain ⟨other, later, written, kept⟩ := keeping.setWithTtl increasing fits none
          simp [KVEngine.handle, KVEngine.set, written] at handled
          obtain ⟨-, rfl, rfl⟩ := handled
          exact kept
      | setWithTtl key value expiryMs =>
          obtain ⟨other, later, written, kept⟩ := keeping.setWithTtl increasing fits expiryMs
          simp [KVEngine.handle, written] at handled
          obtain ⟨-, rfl, rfl⟩ := handled
          exact kept
      | msetWithTtl items =>
          obtain ⟨other, later, written, kept⟩ := keeping.msetWithTtl increasing fits
          simp [KVEngine.handle, written] at handled
          obtain ⟨-, rfl, rfl⟩ := handled
          exact kept
      | delete key =>
          obtain ⟨found, other, later, deleted, kept⟩ := keeping.delete increasing fits
          simp [KVEngine.handle, deleted] at handled
          obtain ⟨-, rfl, rfl⟩ := handled
          exact kept
      | ttl key expiryMs =>
          obtain ⟨outcome, other, later, written, kept⟩ :=
            keeping.ttl increasing key expiryMs nowMs
          simp [KVEngine.handle, written] at handled
          obtain ⟨-, rfl, rfl⟩ := handled
          exact kept
      | compact order copyMs =>
          obtain ⟨other, later, compacted, kept⟩ :=
            keeping.compact increasing order nowMs copyMs
          simp [KVEngine.handle, compacted] at handled
          obtain ⟨-, rfl, rfl⟩ := handled
          exact kept
      | get _ => exact unchanged trivial
      | mget _ => exact unchanged trivial
      | «exists» _ => exact unchanged trivial
      | listKeys _ => exact unchanged trivial
  | @reopen db next world after start maxSegmentBytes fsyncStrategy _ covered reopened
      keeping =>
      obtain ⟨logs, updates, wal, restartable⟩ := keeping
      obtain ⟨other, later, last, again, kept, -⟩ :=
        restartable.fromDir covered maxSegmentBytes fsyncStrategy
      obtain ⟨same, rfl⟩ := Prod.mk.inj (Except.ok.inj (again.symm.trans reopened))
      obtain rfl := Option.some.inj same
      exact ⟨logs, last, [], kept⟩

/-- Restarts are transparent in every run whose restarts, this one included, find the last
record of every key listed or logged.
-/
theorem restart_transparent {clock : Nat → Nat} (increasing : StrictMono clock)
    {db : KVEngine} {world : World} {start : UInt64}
    (reached : Reaches clock Disk.Covered db world start) (covered : world.disk.Covered)
    : Transparent db world start := by
  obtain ⟨logs, updates, wal, restartable⟩ := reached.keeping increasing
  intro maxSegmentBytes fsyncStrategy
  obtain ⟨next, after, last, reopened, kept, same⟩ :=
    restartable.fromDir covered maxSegmentBytes fsyncStrategy
  refine ⟨next, after, reopened, ?_⟩
  intro key nowMs _
  have before : Shows db world _ 0 := ⟨_, restartable.represents, fun _ _ _ => rfl⟩
  have now : Shows next after _ 0 := ⟨_, kept.represents, fun _ _ _ => rfl⟩
  rw [before.get key UInt64.zero_le, now.get key UInt64.zero_le, same]

/-- A value, a compaction that writes its hint, and a new value behind it. -/
def overwriteCompacted : List Event :=
  [
    { call := .set "k" "v", nowMs := 1, finishMs := 1 },
    {
      call := .compact .stored (fun _ => 2)
      nowMs := 2
      finishMs := 2
    },
    { call := .set "k" "w", nowMs := 3, finishMs := 3 }
  ]

theorem overwriteCompacted_admissible
    : (∀ event ∈ overwriteCompacted, event.call.Fits) ∧ Timely 0 overwriteCompacted := by
  constructor
  · simp [overwriteCompacted, Call.Fits, Record.Fits]
    decide
  · simp [overwriteCompacted, Timely, Call.Within]

/-- Witness: the overwrite is still in the WAL, so the restart that follows keeps it. -/
theorem restart_transparent_logged
    : ∃ db world start,
        Reaches id Disk.Covered db world start
        ∧ world.disk.Covered
        ∧ Transparent db world start := by
  have covered : (KVEngine.run id overwriteCompacted
      (KVEngine.new id 100 .never .initial).1
      (KVEngine.new id 100 .never .initial).2).toOption.any
        (fun final => decide final.2.2.disk.Covered) = true := by
    decide +kernel
  simp only [Option.any_eq_true, toOption_eq_some, decide_eq_true_eq] at covered
  obtain ⟨final, ran, met⟩ := covered
  obtain ⟨start, reached⟩ := (Reaches.new 100 .never).run overwriteCompacted_admissible.1
    overwriteCompacted_admissible.2 ran
  exact ⟨final.2.1, final.2.2, start, reached, met,
    restart_transparent strictMono_id reached met⟩

/-- The first restart empties the WAL; the next one reads the value the hint file lists. -/
theorem restart_restores_overwritten_value
    : ∃ db world start,
        Reaches id (fun _ => True) db world start ∧ ¬ Transparent db world start := by
  let later : UInt64 := 18446744073709551615
  have stale : (KVEngine.run id overwriteCompacted
      (KVEngine.new id 100 .never .initial).1
      (KVEngine.new id 100 .never .initial).2).toOption.any
        (fun final =>
          (KVEngine.fromDir 100 .never final.2.2).toOption.any
            (fun first =>
              first.1.any
                (fun db =>
                  (KVEngine.fromDir 100 .never first.2).toOption.any
                    (fun second =>
                      second.1.any
                        (fun next =>
                          (db.get first.2 "k" later).toOption = some (some ("k", "w"))
                          && (next.get second.2 "k" later).toOption
                            = some (some ("k", "v"))))))) = true := by
    decide +kernel
  simp only [Option.any_eq_true, toOption_eq_some, Bool.and_eq_true, decide_eq_true_eq]
    at stale
  obtain ⟨final, ran, ⟨_, first⟩, reopened, db, rfl, ⟨_, second⟩, again, next, rfl, before,
    after⟩ := stale
  obtain ⟨start, reached⟩ := (Reaches.new 100 .never : Reaches _ (fun _ => True) _ _ _).run
    overwriteCompacted_admissible.1 overwriteCompacted_admissible.2 ran
  refine ⟨db, first, start, reached.reopen trivial reopened, ?_⟩
  intro transparent
  obtain ⟨other, otherWorld, same, reads⟩ := transparent 100 .never
  obtain ⟨sameDb, rfl⟩ := Prod.mk.inj (Except.ok.inj (again.symm.trans same))
  obtain rfl := Option.some.inj sameDb
  have bound : start ≤ later := by
    have small := start.toNat_lt
    rw [UInt64.le_iff_toNat_le, show later.toNat = 18446744073709551615 from rfl]
    omega
  have equal := reads "k" later bound
  rw [before, after] at equal
  exact absurd equal (by simp)

end Rustikv.Kv

import Rustikv.Kv.Writes

/-! The steps of a compaction: what is still to be copied, and what the swap installs. -/

namespace Rustikv.Kv

open Library

-----------------------------------------------------------------------------------------
-- Copying a map key by key
-----------------------------------------------------------------------------------------

namespace Contents

/-- From `start` on, no reader can tell the two maps apart. -/
def AgreeFrom (start : UInt64) (left right : Contents) : Prop :=
  ∀ key nowMs, start ≤ nowMs → left.read key nowMs = right.read key nowMs

theorem read_none_mono {contents : Contents} {key : String} {earlier later : UInt64}
    (order : earlier ≤ later) (absent : contents.read key earlier = none)
    : contents.read key later = none := by
  unfold read at absent ⊢
  cases found : contents key with
  | none => rfl
  | some item =>
      rw [found, Option.bind_some] at absent
      rw [Option.bind_some]
      exact item.read_mono order absent

/-- `trimmed` is `contents` without some items that have expired by `start`. -/
def Trims (start : UInt64) (trimmed contents : Contents) : Prop :=
  ∀ key,
    trimmed key = contents key ∨ (trimmed key = none ∧ contents.read key start = none)

theorem Trims.agree {start : UInt64} {trimmed contents : Contents}
    (trims : Trims start trimmed contents)
    : AgreeFrom start trimmed contents := by
  intro key nowMs bound
  rcases trims key with same | ⟨dropped, expired⟩
  · simp [read, same]
  · rw [read_none_mono bound expired]
    simp [read, dropped]

theorem Trims.later {start later : UInt64} {trimmed contents : Contents}
    (trims : Trims start trimmed contents) (order : start ≤ later)
    : Trims later trimmed contents :=
  fun key => (trims key).imp_right (fun expired => ⟨expired.1, read_none_mono order expired.2⟩)

theorem Trims.trans {start : UInt64} {left middle right : Contents}
    (first : Trims start left middle) (second : Trims start middle right)
    : Trims start left right := by
  intro key
  rcases first key with same | ⟨dropped, expired⟩
  · rw [same]
    exact second key
  · refine Or.inr ⟨dropped, ?_⟩
    rw [← second.agree key start UInt64.le_rfl, expired]

theorem Trims.set {start : UInt64} {trimmed contents : Contents}
    (trims : Trims start trimmed contents) (key value : String) (expiryMs : Option UInt64)
    : Trims start (trimmed.set key value expiryMs) (contents.set key value expiryMs) := by
  intro other
  by_cases same : key = other
  · exact .inl (by simp [same])
  · simpa [read, same] using trims other

theorem Trims.delete {start : UInt64} {trimmed contents : Contents}
    (trims : Trims start trimmed contents) (key : String)
    : Trims start (trimmed.delete key) (contents.delete key) := by
  intro other
  by_cases same : key = other
  · exact .inl (by simp [same])
  · simpa [read, same] using trims other

/-- What `copyKey` does to the copied map. -/
def copyItem (contents copied : Contents) (item : String × Option UInt64) (nowMs : UInt64)
    : Contents :=
  match contents.read item.1 nowMs with
  | none => copied
  | some value => copied.set item.1 value item.2

/-- The keys of `rest` are still to be copied, and each is absent from `contents` or has
the expiry noted for it; every other key is copied, unless it has expired.
-/
structure Copies (contents copied : Contents) (rest : List (String × Option UInt64))
    (start : UInt64)
    : Prop where
  nodup : (rest.map Prod.fst).Nodup
  done
    : ∀ key ∉ rest.map Prod.fst,
        copied key = contents key ∨ (copied key = none ∧ contents.read key start = none)
  pending
    : ∀ item ∈ rest,
        copied item.1 = none
        ∧ ∀ stored, contents item.1 = some stored → stored.expiryMs = item.2

theorem Copies.later {contents copied : Contents} {rest : List (String × Option UInt64)}
    {start later : UInt64} (copies : Copies contents copied rest start)
    (order : start ≤ later)
    : Copies contents copied rest later :=
  ⟨copies.nodup,
    fun key other =>
      (copies.done key other).imp_right
        (fun expired => ⟨expired.1, read_none_mono order expired.2⟩),
    copies.pending⟩

/-- A pending key that still reads has, with its noted expiry, the item of the map. -/
theorem Copies.item_eq {contents copied : Contents} {rest : List (String × Option UInt64)}
    {start : UInt64} (copies : Copies contents copied rest start)
    {item : String × Option UInt64} (member : item ∈ rest) {nowMs : UInt64} {value : String}
    (live : contents.read item.1 nowMs = some value)
    : contents item.1 = some { value, expiryMs := item.2 } := by
  cases found : contents item.1 with
  | none => simp [read, found] at live
  | some stored =>
      have expiry := (copies.pending item member).2 stored found
      simp only [read, found, Option.bind_some, Item.read] at live
      split at live
      · cases live
      · rw [← Option.some.inj live, ← expiry]

/-- Copying the next key moves it from the pending keys to the copied ones. -/
theorem Copies.copyItem {contents copied : Contents} {item : String × Option UInt64}
    {rest : List (String × Option UInt64)} {start nowMs : UInt64}
    (copies : Copies contents copied (item :: rest) start) (order : nowMs ≤ start)
    : Copies contents (Contents.copyItem contents copied item nowMs) rest start := by
  obtain ⟨fresh, restNodup⟩ := List.nodup_cons.mp copies.nodup
  have missing := (copies.pending item (by simp)).1
  have unchanged {key : String} (other : item.1 ≠ key)
      : Contents.copyItem contents copied item nowMs key = copied key := by
    unfold Contents.copyItem
    cases contents.read item.1 nowMs <;> simp [other]
  refine ⟨restNodup, ?_, ?_⟩
  · intro key outside
    by_cases same : item.1 = key
    · subst same
      unfold Contents.copyItem
      cases live : contents.read item.1 nowMs with
      | none => exact Or.inr ⟨missing, read_none_mono order live⟩
      | some value =>
          exact Or.inl (by rw [copies.item_eq (by simp) live]; simp)
    · rw [unchanged same]
      exact copies.done key (by simp [Ne.symm same, outside])
  · intro next member
    have other : item.1 ≠ next.1 := by
      intro same
      exact fresh (same ▸ List.mem_map_of_mem member)
    rw [unchanged other]
    exact copies.pending next (List.mem_cons_of_mem item member)

end Contents

-----------------------------------------------------------------------------------------
-- The snapshot
-----------------------------------------------------------------------------------------

namespace KVEngine

variable {clock : Nat → Nat}

theorem mem_snapshotKeys {order : IterOrder} {db : KVEngine} {nowMs : UInt64}
    {item : String × Option UInt64}
    : item ∈ snapshotKeys order db nowMs
      ↔ ∃ entry,
          db.index.get item.1 = some entry
          ∧ entry.expiryMs.any (isExpired · nowMs) = false
          ∧ entry.expiryMs = item.2 := by
  obtain ⟨key, expiry⟩ := item
  simp only [snapshotKeys, List.mem_filterMap, (order.perm _).mem_iff, HashIndex.mem_keys]
  constructor
  · rintro ⟨other, ⟨entry, found⟩, picked⟩
    simp only [found] at picked
    split at picked
    · cases picked
    · rename_i live
      obtain ⟨rfl, rfl⟩ := Prod.mk.inj (Option.some.inj picked)
      exact ⟨entry, found, by simpa using live, rfl⟩
  · rintro ⟨entry, found, live, rfl⟩
    exact ⟨key, ⟨entry, found⟩, by simp [found, live]⟩

theorem nodup_snapshotKeys (order : IterOrder) (db : KVEngine) (nowMs : UInt64)
    : ((snapshotKeys order db nowMs).map Prod.fst).Nodup := by
  have distinct : (order.order db.index.keys).Nodup :=
    (order.perm _).nodup_iff.mpr db.index.nodup_keys
  have subset : ((snapshotKeys order db nowMs).map Prod.fst).Sublist
      (order.order db.index.keys) := by
    unfold snapshotKeys
    generalize order.order db.index.keys = keys
    induction keys with
    | nil => simp
    | cons key rest ih =>
        rw [List.filterMap_cons]
        split
        · exact ih.cons _
        · rename_i picked
          split at picked
          · split at picked
            · cases picked
            · cases picked
              exact ih.cons_cons _
          · cases picked
  exact distinct.sublist subset

/-- A snapshot leaves everything to be copied but the expired keys. -/
theorem snapshotKeys_copies {db : KVEngine} {disk : Disk} {contents : Contents}
    (represents : Represents db.index disk contents) (order : IterOrder) (nowMs : UInt64)
    : Contents.Copies contents Contents.empty (snapshotKeys order db nowMs) nowMs := by
  refine ⟨nodup_snapshotKeys order db nowMs, ?_, ?_⟩
  · intro key outside
    refine Or.inr ⟨rfl, ?_⟩
    cases found : db.index.get key with
    | none => simp [Contents.read, represents.absent key found]
    | some entry =>
        obtain ⟨value, holds, -, -⟩ := represents.present key entry found
        by_contra live
        apply outside
        refine List.mem_map.mpr ⟨(key, entry.expiryMs), ?_, rfl⟩
        refine mem_snapshotKeys.mpr ⟨entry, found, ?_, rfl⟩
        simpa [Contents.read, holds, Item.read] using live
  · intro item member
    refine ⟨rfl, ?_⟩
    intro stored holds
    obtain ⟨entry, found, -, expiry⟩ := mem_snapshotKeys.mp member
    obtain ⟨value, same, -, -⟩ := represents.present item.1 entry found
    obtain rfl := Option.some.inj (same.symm.trans holds)
    exact expiry

-----------------------------------------------------------------------------------------
-- The two engines of a running compaction
-----------------------------------------------------------------------------------------

/-- `Segment::new` will read a later millisecond than any segment on the disk has. -/
def Fresh (clock : Nat → Nat) (world : World) : Prop :=
  ∀ segment ∈ world.disk.segments, segment < clock world.ticks

theorem Fresh.progress (increasing : StrictMono clock) {db next : KVEngine}
    {world after : World} (fresh : Fresh clock world)
    (active : db.activeSegment ∈ world.disk.segments)
    (progress : Progress clock db next world after)
    : Fresh clock after := by
  have tick : clock world.ticks < clock (world.ticks + 1) := increasing (Nat.lt_succ_self _)
  intro segment present
  rcases progress.segment with ⟨stayed, ticks⟩ | ⟨rolled, ticks⟩
  · rw [ticks]
    rcases progress.segments segment present with old | rfl
    · exact fresh segment old
    · rw [stayed]
      exact fresh _ active
  · rw [ticks]
    rcases progress.segments segment present with old | rfl
    · exact (fresh segment old).trans tick
    · rw [rolled]
      exact tick

/-- No reading of `Segment::new` to come is the timestamp of a segment on the disk. -/
def Unused (clock : Nat → Nat) (world : World) : Prop :=
  ∀ tick, world.ticks ≤ tick → clock tick ∉ world.disk.segments

theorem Fresh.unused (increasing : StrictMono clock) {world : World}
    (fresh : Fresh clock world)
    : Unused clock world := by
  intro tick later present
  exact absurd (fresh _ present) (not_lt.mpr (increasing.monotone later))

theorem Unused.of_segments {world after : World} (unused : Unused clock world)
    (segments : ∀ segment ∈ after.disk.segments, segment ∈ world.disk.segments)
    (ticks : after.ticks = world.ticks)
    : Unused clock after :=
  fun tick later present => unused tick (ticks ▸ later) (segments _ present)

theorem Unused.progress (distinct : Function.Injective clock) {db next : KVEngine}
    {world after : World} (unused : Unused clock world)
    (active : db.activeSegment ∈ world.disk.segments)
    (progress : Progress clock db next world after)
    : Unused clock after := by
  intro tick later present
  rcases progress.segment with ⟨stayed, ticks⟩ | ⟨rolled, ticks⟩
  · rw [ticks] at later
    rcases progress.segments _ present with old | new
    · exact unused tick later old
    · exact unused tick later (new ▸ stayed ▸ active)
  · rw [ticks] at later
    rcases progress.segments _ present with old | new
    · exact unused tick (by omega) old
    · have same := distinct (new.trans rolled)
      omega

theorem new_unused (distinct : Function.Injective clock) {world : World}
    (unused : Unused clock world) (maxSegmentBytes : UInt64) (fsyncStrategy : FSyncStrategy)
    : Unused clock (new clock maxSegmentBytes fsyncStrategy world).2 := by
  intro tick later present
  simp only [new, World.newSegment, World.ticks_perform] at later
  simp only [new, World.newSegment, World.disk_perform, Disk.apply,
    unused world.ticks le_rfl, if_false, Std.TreeMap.mem_insert,
    Std.LawfulEqCmp.compare_eq_iff_eq] at present
  rcases present with same | old
  · have := distinct same
    omega
  · exact unused tick (by omega) old

/-- What keeps the next reading of `Segment::new` apart from the segments on the disk,
through writes, new engines and removals.
-/
structure Reserves (clock : Nat → Nat) (Reserved : World → Prop) : Prop where
  unused : ∀ {world}, Reserved world → Unused clock world
  progress
    : ∀ {db next world after},
        Reserved world
        → db.activeSegment ∈ world.disk.segments
        → Progress clock db next world after
        → Reserved after
  new
    : ∀ {world},
        Reserved world
        → ∀ maxSegmentBytes fsyncStrategy,
            Reserved (new clock maxSegmentBytes fsyncStrategy world).2
  of_segments
    : ∀ {world after},
        Reserved world
        → (∀ segment ∈ after.disk.segments, segment ∈ world.disk.segments)
        → after.ticks = world.ticks
        → Reserved after

theorem reserves_unused (distinct : Function.Injective clock)
    : Reserves clock (Unused clock) where
  unused := id
  progress := Unused.progress distinct
  new := new_unused distinct
  of_segments := Unused.of_segments

/-- The engine uses none of the given segments, which all exist. -/
structure Avoids (db : KVEngine) (world : World) (segments : List Nat) : Prop where
  present : ∀ segment ∈ segments, segment ∈ world.disk.segments
  active : db.activeSegment ∉ segments
  entries : ∀ key entry, db.index.get key = some entry → entry.segmentTimestamp ∉ segments

/-- A write appends to a segment it already used or to a fresh one, so it keeps avoiding
the segments it avoided.
-/
theorem Avoids.progress {db next : KVEngine} {world after : World} {segments : List Nat}
    (avoids : Avoids db world segments) (unused : Unused clock world)
    (progress : Progress clock db next world after)
    : Avoids next after segments := by
  have active : next.activeSegment ∉ segments := by
    rcases progress.segment with ⟨stayed, -⟩ | ⟨rolled, -⟩
    · rw [stayed]
      exact avoids.active
    · rw [rolled]
      intro member
      exact unused _ le_rfl (avoids.present _ member)
  refine ⟨?_, active, ?_⟩
  · intro segment member
    exact progress.keeps.present (avoids.present segment member)
  · intro key entry found
    rcases progress.entries key entry found with old | new
    · exact avoids.entries key entry old
    · rw [new]
      exact active

/-- Two engines share the world: the one being compacted and its replacement, which uses
none of the old segments.
-/
structure Compacting (db newDb : KVEngine) (world : World) (contents copied : Contents)
    (old : List Nat)
    : Prop where
  source : Represents db.index world.disk contents
  target : Represents newDb.index world.disk copied
  active : newDb.activeSegment ∈ world.disk.segments
  avoids : Avoids newDb world old

theorem new_fresh (increasing : StrictMono clock) {world : World}
    (fresh : Fresh clock world) (maxSegmentBytes : UInt64) (fsyncStrategy : FSyncStrategy)
    : Fresh clock (new clock maxSegmentBytes fsyncStrategy world).2 := by
  intro segment present
  have tick : clock world.ticks < clock (world.ticks + 1) := increasing (Nat.lt_succ_self _)
  simp only [new, World.newSegment, World.disk_perform, Disk.apply] at present
  split at present
  · exact (fresh segment present).trans tick
  · by_cases same : clock world.ticks = segment
    · exact same ▸ tick
    · exact (fresh segment (by simpa [same] using present)).trans tick

theorem reserves_fresh (increasing : StrictMono clock) : Reserves clock (Fresh clock) where
  unused := Fresh.unused increasing
  progress := Fresh.progress increasing
  new := new_fresh increasing
  of_segments fresh subset ticks segment present :=
    ticks ▸ fresh segment (subset segment present)

theorem new_compacting {db : KVEngine} {world : World} {contents : Contents}
    (represents : Represents db.index world.disk contents) (unused : Unused clock world)
    {old : List Nat} (listed : ∀ segment ∈ old, segment ∈ world.disk.segments)
    (maxSegmentBytes : UInt64) (fsyncStrategy : FSyncStrategy)
    : Compacting db (new clock maxSegmentBytes fsyncStrategy world).1
        (new clock maxSegmentBytes fsyncStrategy world).2 contents Contents.empty old := by
  have keeps := keeps_apply world.disk (.segmentCreate (clock world.ticks))
    (by simp)
  refine ⟨represents.keeps keeps, .empty _, mem_segmentCreate _ _, ⟨?_, ?_, ?_⟩⟩
  · intro segment member
    exact keeps.present (listed segment member)
  · intro member
    exact unused _ le_rfl (listed _ member)
  · intro key entry found
    simp [new] at found

/-- Copying a key writes to the replacement only. -/
theorem Compacting.copyKey {db newDb : KVEngine} {world : World}
    {contents copied : Contents} {old : List Nat}
    (compacting : Compacting db newDb world contents copied old)
    (unused : Unused clock world) (item : String × Option UInt64) (nowMs : UInt64)
    : ∃ next after,
        copyKey clock db newDb world item nowMs = .ok (next, after)
        ∧ Compacting db next after contents
            (Contents.copyItem contents copied item nowMs) old
        ∧ (next = newDb ∧ after = world ∨ Progress clock newDb next world after) := by
  have lookup := compacting.source.kvLookup db.activeSegment item.1 nowMs
  cases live : contents.read item.1 nowMs with
  | none =>
      refine ⟨newDb, world, ?_, ?_, Or.inl ⟨rfl, rfl⟩⟩
      · simp [KVEngine.copyKey, get, lookup, live]
        rfl
      · simpa [Contents.copyItem, live] using compacting
  | some value =>
      have fits := compacting.source.fits_of_read live
      obtain ⟨next, after, written, progress, represents⟩ :=
        setWithTtl_sound clock compacting.target compacting.active fits item.2
      refine ⟨next, after, ?_, ?_, Or.inr progress⟩
      · simp [KVEngine.copyKey, get, lookup, live]
        exact written
      · simp only [Contents.copyItem, live]
        exact ⟨compacting.source.keeps progress.keeps, represents, progress.active,
          compacting.avoids.progress unused progress⟩

/-- Copying all keys of a snapshot. Witness: induction over the keys still to be copied,
with the `Copies` invariant carrying what readers will see.
-/
theorem Compacting.copyKeys {Reserved : World → Prop} (reserves : Reserves clock Reserved)
    {db : KVEngine} {contents : Contents} {old : List Nat} {copyMs : String → UInt64}
    {finish : UInt64} (bound : ∀ key, copyMs key ≤ finish)
    {rest : List (String × Option UInt64)} {newDb : KVEngine} {world : World}
    {copied : Contents} (compacting : Compacting db newDb world contents copied old)
    (reserved : Reserved world) (copies : Contents.Copies contents copied rest finish)
    : ∃ next after compacted,
        rest.foldlM
          (fun state item =>
            KVEngine.copyKey clock db state.1 state.2 item (copyMs item.1))
          (newDb, world)
        = .ok (next, after)
        ∧ Compacting db next after contents compacted old
        ∧ Reserved after
        ∧ Contents.Trims finish compacted contents := by
  induction rest generalizing newDb world copied with
  | nil =>
      exact ⟨newDb, world, copied, rfl, compacting, reserved,
        fun key => copies.done key (by simp)⟩
  | cons item rest ih =>
      obtain ⟨next, after, written, ongoing, change⟩ :=
        compacting.copyKey (reserves.unused reserved) item (copyMs item.1)
      have stillReserved : Reserved after := by
        rcases change with ⟨-, rfl⟩ | progress
        · exact reserved
        · exact reserves.progress reserved compacting.active progress
      rw [List.foldlM_cons, written]
      exact ih ongoing stillReserved (copies.copyItem (bound item.1))

-----------------------------------------------------------------------------------------
-- Hints, swap and removal
-----------------------------------------------------------------------------------------

/-- Writing hints touches no segment and not the WAL. -/
theorem writeHint_frame (world : World) (segment : Nat) (entries : List HintEntry)
    : (writeHint world segment entries).disk.segments = world.disk.segments
      ∧ (writeHint world segment entries).disk.wal = world.disk.wal
      ∧ (writeHint world segment entries).ticks = world.ticks := by
  have fold (entries : List HintEntry) (start : World)
      : (entries.foldl
            (fun world entry => world.perform (.hintAppend segment entry.toBeBytes))
            start).disk.segments = start.disk.segments
        ∧ (entries.foldl
            (fun world entry => world.perform (.hintAppend segment entry.toBeBytes))
            start).disk.wal = start.disk.wal
        ∧ (entries.foldl
            (fun world entry => world.perform (.hintAppend segment entry.toBeBytes))
            start).ticks = start.ticks := by
    induction entries generalizing start with
    | nil => exact ⟨rfl, rfl, rfl⟩
    | cons entry rest ih => exact ih (start.perform (.hintAppend segment entry.toBeBytes))
  exact fold entries (world.perform (.hintCreate segment))

theorem finishCompacted_frame (order : IterOrder) (newDb : KVEngine) (old : List Nat)
    (world : World)
    : (finishCompacted order newDb old world).disk.segments = world.disk.segments
      ∧ (finishCompacted order newDb old world).disk.wal = world.disk.wal
      ∧ (finishCompacted order newDb old world).ticks = world.ticks := by
  have fold (segments : List Nat) (start : World)
      : (segments.foldl
            (fun world segment => writeHint world segment (hintEntries order newDb segment))
            start).disk.segments = start.disk.segments
        ∧ (segments.foldl
            (fun world segment => writeHint world segment (hintEntries order newDb segment))
            start).disk.wal = start.disk.wal
        ∧ (segments.foldl
            (fun world segment => writeHint world segment (hintEntries order newDb segment))
            start).ticks = start.ticks := by
    induction segments generalizing start with
    | nil => exact ⟨rfl, rfl, rfl⟩
    | cons segment rest ih =>
        have first := writeHint_frame start segment (hintEntries order newDb segment)
        have later := ih (writeHint start segment (hintEntries order newDb segment))
        exact ⟨later.1.trans first.1, later.2.1.trans first.2.1, later.2.2.trans first.2.2⟩
  exact fold _ (world.perform (.segmentSync newDb.activeSegment))

/-- Removing a segment the engine does not use succeeds and changes nothing it reads. -/
theorem removeSegment_sound {db : KVEngine} {world : World} {contents : Contents}
    {segment : Nat} {rest : List Nat}
    (represents : Represents db.index world.disk contents)
    (active : db.activeSegment ∈ world.disk.segments)
    (avoids : Avoids db world (segment :: rest)) (distinct : segment ∉ rest)
    : ∃ after,
        removeSegment world segment = .ok after
        ∧ Represents db.index after.disk contents
        ∧ db.activeSegment ∈ after.disk.segments
        ∧ Avoids db after rest
        ∧ after.ticks = world.ticks
        ∧ ∀ other ∈ after.disk.segments, other ∈ world.disk.segments := by
  have listed := avoids.present segment (by simp)
  obtain ⟨file, found⟩ := (world.disk.segments.mem_iff segment).mp listed
  have unused : segment ≠ db.activeSegment := fun same => avoids.active (by simp [← same])
  refine ⟨(world.perform (.segmentRemove segment)).perform (.hintRemove segment), ?_, ?_, ?_,
    ⟨?_, ?_, ?_⟩, rfl, ?_⟩
  · simp [removeSegment, Disk.openSegment, found, pure, Except.pure]
  · refine (represents.apply (.segmentRemove segment) ?_).of_segments rfl
    intro key entry entryFound same
    cases same
    exact avoids.entries key entry entryFound (by simp)
  · simpa [Disk.apply, unused] using active
  · intro other member
    have kept : segment ≠ other := fun same => distinct (same ▸ member)
    simpa [Disk.apply, kept] using avoids.present other (List.mem_cons_of_mem _ member)
  · exact fun member => avoids.active (List.mem_cons_of_mem _ member)
  · exact fun key entry entryFound member =>
      avoids.entries key entry entryFound (List.mem_cons_of_mem _ member)
  · intro other present
    simp only [World.disk_perform, Disk.apply, Std.TreeMap.mem_erase] at present
    exact present.2

theorem removeSegments_sound {Reserved : World → Prop} (reserves : Reserves clock Reserved)
    {db : KVEngine} {contents : Contents} {old : List Nat} (distinct : old.Nodup)
    {world : World} (represents : Represents db.index world.disk contents)
    (active : db.activeSegment ∈ world.disk.segments) (avoids : Avoids db world old)
    (reserved : Reserved world)
    : ∃ after,
        old.foldlM removeSegment world = .ok after
        ∧ Represents db.index after.disk contents
        ∧ db.activeSegment ∈ after.disk.segments
        ∧ Reserved after := by
  induction old generalizing world with
  | nil => exact ⟨world, rfl, represents, active, reserved⟩
  | cons segment rest ih =>
      obtain ⟨unlisted, restDistinct⟩ := List.nodup_cons.mp distinct
      obtain ⟨after, removed, kept, stillActive, stillAvoids, ticks, subset⟩ :=
        removeSegment_sound represents active avoids unlisted
      rw [List.foldlM_cons, removed]
      exact ih restDistinct kept stillActive stillAvoids
        (reserves.of_segments reserved subset ticks)

/-- A compaction without interference keeps every item, but for some that have expired by its
end.
-/
theorem compact_trims {Reserved : World → Prop} (reserves : Reserves clock Reserved)
    {db : KVEngine} {world : World} {contents : Contents}
    (represents : Represents db.index world.disk contents) (reserved : Reserved world)
    (order : IterOrder) {nowMs finish : UInt64} {copyMs : String → UInt64}
    (start : nowMs ≤ finish) (bound : ∀ key, copyMs key ≤ finish)
    : ∃ next after compacted,
        db.compact clock order world nowMs copyMs = .ok (next, after)
        ∧ Represents next.index after.disk compacted
        ∧ next.activeSegment ∈ after.disk.segments
        ∧ Reserved after
        ∧ Contents.Trims finish compacted contents := by
  have listed : ∀ segment ∈ world.disk.getSegments, segment ∈ world.disk.segments :=
    fun segment member => world.disk.mem_getSegments.mp member
  have compacting := new_compacting represents (reserves.unused reserved) listed
    db.maxSegmentBytes db.fsyncStrategy
  have newReserved := reserves.new reserved db.maxSegmentBytes db.fsyncStrategy
  have copies := (snapshotKeys_copies represents order nowMs).later start
  obtain ⟨newDb, filled, compacted, copied, done, stillReserved, trims⟩ :=
    compacting.copyKeys reserves bound newReserved copies
  obtain ⟨segments, -, ticks⟩ :=
    finishCompacted_frame order newDb world.disk.getSegments filled
  have hinted : Represents newDb.index
      (finishCompacted order newDb world.disk.getSegments filled).disk compacted :=
    done.target.of_segments segments
  have swapped : Represents (db.swapCompacted newDb
      (finishCompacted order newDb world.disk.getSegments filled)).1.index
      (db.swapCompacted newDb
        (finishCompacted order newDb world.disk.getSegments filled)).2.disk compacted :=
    hinted.apply .walTruncate (by simp)
  have distinct := world.disk.nodup_getSegments
  have swappedReserved : Reserved (db.swapCompacted newDb
      (finishCompacted order newDb world.disk.getSegments filled)).2 := by
    refine reserves.of_segments stillReserved (fun segment present => ?_) ticks
    simpa [swapCompacted, Disk.apply, segments] using present
  obtain ⟨after, removed, final, active, finalReserved⟩ :=
    removeSegments_sound reserves distinct swapped
      (by simpa [swapCompacted, Disk.apply, segments] using done.active)
      ⟨fun segment member => by
          simpa [swapCompacted, Disk.apply, segments] using
            done.avoids.present segment member,
        done.avoids.active, done.avoids.entries⟩
      swappedReserved
  refine ⟨_, after, compacted, ?_, final, active, finalReserved, trims⟩
  simp only [compact, buildCompacted, copied, ok_bind]
  simp only [pure, Except.pure, ok_bind, removed]

/-- A compaction without interference replaces the map by one that reads the same from its
end on.
-/
theorem compact_sound {Reserved : World → Prop} (reserves : Reserves clock Reserved)
    {db : KVEngine} {world : World} {contents : Contents}
    (represents : Represents db.index world.disk contents) (reserved : Reserved world)
    (order : IterOrder) {nowMs finish : UInt64} {copyMs : String → UInt64}
    (start : nowMs ≤ finish) (bound : ∀ key, copyMs key ≤ finish)
    : ∃ next after compacted,
        db.compact clock order world nowMs copyMs = .ok (next, after)
        ∧ Represents next.index after.disk compacted
        ∧ next.activeSegment ∈ after.disk.segments
        ∧ Reserved after
        ∧ Contents.AgreeFrom finish compacted contents := by
  obtain ⟨next, after, compacted, done, represents, active, reserved, trims⟩ :=
    compact_trims reserves represents reserved order start bound
  exact ⟨next, after, compacted, done, represents, active, reserved, trims.agree⟩

end KVEngine

/-- An engine ready for use: it represents a map, its active segment exists, and the next
segment will be a new one.
-/
structure Ready (clock : Nat → Nat) (db : KVEngine) (world : World) (contents : Contents)
    : Prop where
  represents : Represents db.index world.disk contents
  active : db.activeSegment ∈ world.disk.segments
  fresh : KVEngine.Fresh clock world

/-- An engine in use, as far as distinct segment timestamps go. -/
structure Usable (clock : Nat → Nat) (db : KVEngine) (world : World) (contents : Contents)
    : Prop where
  represents : Represents db.index world.disk contents
  active : db.activeSegment ∈ world.disk.segments
  unused : KVEngine.Unused clock world

theorem Ready.usable {clock : Nat → Nat} (increasing : StrictMono clock) {db : KVEngine}
    {world : World} {contents : Contents} (ready : Ready clock db world contents)
    : Usable clock db world contents :=
  ⟨ready.represents, ready.active, ready.fresh.unused increasing⟩

theorem ready_new {clock : Nat → Nat} (increasing : StrictMono clock) {world : World}
    (fresh : KVEngine.Fresh clock world) (maxSegmentBytes : UInt64)
    (fsyncStrategy : FSyncStrategy)
    : Ready clock (KVEngine.new clock maxSegmentBytes fsyncStrategy world).1
        (KVEngine.new clock maxSegmentBytes fsyncStrategy world).2 Contents.empty where
  represents := .empty _
  active := mem_segmentCreate _ _
  fresh := KVEngine.new_fresh increasing fresh maxSegmentBytes fsyncStrategy

theorem ready_initial {clock : Nat → Nat} (increasing : StrictMono clock)
    (maxSegmentBytes : UInt64) (fsyncStrategy : FSyncStrategy)
    : Ready clock (KVEngine.new clock maxSegmentBytes fsyncStrategy World.initial).1
        (KVEngine.new clock maxSegmentBytes fsyncStrategy World.initial).2
        Contents.empty :=
  ready_new increasing (by simp [KVEngine.Fresh, World.initial, Disk.empty]) _ _

end Rustikv.Kv

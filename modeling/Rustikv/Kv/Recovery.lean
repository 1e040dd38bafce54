import Rustikv.Kv.Logs

/-! Reopening a directory: loading the segments, and re-appending the WAL's updates. -/

namespace Rustikv.Kv

open Library

-----------------------------------------------------------------------------------------
-- File operations performed between two worlds
-----------------------------------------------------------------------------------------

/-- `operations` were performed, in this order, and nothing else touched the disk. -/
structure Performs (before after : World) (operations : List FileOp) : Prop where
  trace : after.trace = before.trace ++ operations
  disk : after.disk = operations.foldl Disk.apply before.disk

theorem Performs.refl (world : World) : Performs world world [] :=
  ⟨by simp, rfl⟩

theorem Performs.trans {first second third : World} {front back : List FileOp}
    (left : Performs first second front) (right : Performs second third back)
    : Performs first third (front ++ back) where
  trace := by rw [right.trace, left.trace, List.append_assoc]
  disk := by rw [right.disk, left.disk, List.foldl_append]

theorem Performs.perform {before after : World} {operations : List FileOp}
    (performs : Performs before after operations) (operation : FileOp)
    : Performs before (after.perform operation) (operations ++ [operation]) :=
  performs.trans ⟨rfl, rfl⟩

-----------------------------------------------------------------------------------------
-- Loading segments
-----------------------------------------------------------------------------------------

/-- Scanning a segment tracks all its places on top of the earlier ones. -/
theorem Tracks.mergeFromFile {index : HashIndex} {places : List Place}
    (tracks : Tracks index places) {updates : List Update}
    (fits : ∀ update ∈ updates, update.Fits) (segment : Nat)
    : ∃ merged,
        index.mergeFromFile (Update.codec.encodeAll updates) segment = .ok merged
        ∧ Tracks merged (places ++ placesFrom segment 0 updates) := by
  obtain ⟨valid, encoded⟩ := encodeAll_records fits
  obtain ⟨merged, scanned, entries⟩ := index.mergeFromFile_encodeAll valid segment
  rw [encoded] at scanned
  refine ⟨merged, scanned, ?_⟩
  intro key
  rw [entries key, Record.codec.locate_map Update.codec (fun _ => rfl), latest_map, lastPlace,
    latest_append, placesFrom, latest_map]
  simp only [Update.key_record]
  cases latest (fun located : Nat × Update => located.2.key)
      (Update.codec.locate 0 updates) key with
  | none => simpa [lastPlace] using tracks key
  | some located =>
      obtain ⟨offset, other, item⟩ := located
      have tombstone := Update.isTombstone_record { key := other, item }
      cases item with
      | none => simp [HashIndex.scannedEntry, tombstone, Place.pointer]
      | some item =>
          simp [HashIndex.scannedEntry, tombstone, Place.pointer, pointerOf]
          rfl

/-- Without a hint file a segment is scanned. -/
theorem loadSegment_scanned {disk : Disk} {logs : List Log}
    (filed : Filed disk.segments logs) {log : Log} (member : log ∈ logs)
    (unhinted : disk.hints[log.1]? = none) {index : HashIndex} {places : List Place}
    (tracks : Tracks index places)
    : ∃ merged,
        KVEngine.loadSegment disk index log.1 = .ok merged
        ∧ Tracks merged (places ++ placesFrom log.1 0 log.2) := by
  obtain ⟨merged, scanned, tracked⟩ :=
    tracks.mergeFromFile (filed.fits log member) log.1
  refine ⟨merged, ?_, tracked⟩
  simp [KVEngine.loadSegment, Disk.openSegment, filed.getElem? member, Hint.readFile,
    unhinted, scanned]

/-- Loading the segments one after the other tracks what each of them contributes.
Witness: induction over the logs.
-/
theorem loadSegments_tracks (disk : Disk) (contributes : Log → List Place)
    {logs : List Log}
    (loads
      : ∀ log ∈ logs,
          ∀ index places,
            Tracks index places
            → ∃ merged,
                KVEngine.loadSegment disk index log.1 = .ok merged
                ∧ Tracks merged (places ++ contributes log))
    {index : HashIndex} {places : List Place} (tracks : Tracks index places)
    : ∃ loaded,
        (logs.map Prod.fst).foldlM (KVEngine.loadSegment disk) index = .ok loaded
        ∧ Tracks loaded (places ++ logs.flatMap contributes) := by
  induction logs generalizing index places with
  | nil => exact ⟨index, rfl, by simpa using tracks⟩
  | cons log rest ih =>
      obtain ⟨merged, loadedFirst, tracksFirst⟩ := loads log (by simp) index places tracks
      obtain ⟨loaded, loadedRest, tracksRest⟩ :=
        ih (fun other member => loads other (List.mem_cons_of_mem log member)) tracksFirst
      refine ⟨loaded, ?_, by simpa using tracksRest⟩
      rw [List.map_cons, List.foldlM_cons, loadedFirst]
      exact loadedRest

theorem tracks_new : Tracks HashIndex.new [] := by
  intro key
  simp [lastPlace]

-----------------------------------------------------------------------------------------
-- Re-appending the WAL
-----------------------------------------------------------------------------------------

/-- A replayed WAL lists the last update of every key it holds, once. -/
theorem replay_updates {wal : List Update} (fits : ∀ update ∈ wal, update.Fits)
    : ∃ memtable,
        Wal.replay (Update.codec.encodeAll wal) = .ok memtable
        ∧ ∀ key,
            latest Update.key (memtable.entries.toList.map Update.ofEntry) key
            = latest Update.key wal key := by
  obtain ⟨valid, encoded⟩ := encodeAll_records fits
  obtain ⟨memtable, replayed, entries⟩ := Wal.replay_encodeAll valid
  rw [encoded] at replayed
  refine ⟨memtable, replayed, ?_⟩
  intro key
  have entry := entries key
  rw [latest_map] at entry
  simp only [Update.key_record] at entry
  rw [latest_map]
  change (latest Prod.fst memtable.entries.toList key).map Update.ofEntry = _
  rw [SortedMap.latest_toList]
  change ((memtable.entry key).map (fun value => (key, value))).map Update.ofEntry = _
  rw [entry]
  cases found : latest Update.key wal key with
  | none => rfl
  | some update =>
      obtain ⟨-, rfl⟩ := latest_some Update.key found
      simp [Update.entry_record]

/-- A replayed WAL holds nothing but last updates. -/
theorem latest_of_replayed {wal : List Update} {memtable : Memtable}
    (same
      : ∀ key,
          latest Update.key (memtable.entries.toList.map Update.ofEntry) key
          = latest Update.key wal key)
    : ∀ update ∈ memtable.entries.toList.map Update.ofEntry,
        latest Update.key wal update.key = some update := by
  have distinct : (memtable.entries.toList.map Update.ofEntry).Pairwise
      (fun left right => left.key ≠ right.key) :=
    List.pairwise_map.mpr memtable.entries.distinct_toList
  intro update member
  rw [← same, latest_eq_earliest Update.key distinct]
  exact earliest_of_distinct Update.key distinct member

/-- The file operations that re-append updates to a segment. -/
def appendOps (segment : Nat) (updates : List Update) : List FileOp :=
  updates.map (fun update => .segmentAppend segment update.record.toBeBytes)

theorem segmentSize_filed {disk : Disk} {logs : List Log}
    (filed : Filed disk.segments logs) {segment : Nat} {updates : List Update}
    (member : (segment, updates) ∈ logs)
    : disk.segmentSize segment = (Update.codec.encodeAll updates).length := by
  simp [Disk.segmentSize, filed.getElem? member]

/-- Re-appending an update writes its record and tracks its place. -/
theorem replayEntry_spec (segment : Nat) (state : KVEngine.Recovery)
    (item : String × MemtableEntry) {places : List Place}
    (tracks : Tracks state.index places)
    : (KVEngine.replayEntry segment state item).world
        = state.world.perform (.segmentAppend segment (Update.ofEntry item).record.toBeBytes)
      ∧ Tracks (KVEngine.replayEntry segment state item).index
          (places
            ++ [{
              segment
              offset := state.world.disk.segmentSize segment
              update := Update.ofEntry item
            }]) := by
  obtain ⟨key, value, expiryMs⟩ := item
  cases value with
  | none => exact ⟨rfl, tracks.delete key segment _⟩
  | some value => exact ⟨rfl, tracks.set key value expiryMs segment _ _⟩

/-- Re-appending all updates to the last segment. Witness: induction over the entries. -/
theorem replayEntries_spec {logs : List Log} {segment : Nat} {updates : List Update}
    {entries : List (String × MemtableEntry)}
    (fits : ∀ entry ∈ entries, (Update.ofEntry entry).Fits) {state : KVEngine.Recovery}
    {places : List Place}
    (filed : Filed state.world.disk.segments (logs ++ [(segment, updates)]))
    (tracks : Tracks state.index places)
    : let recovered := entries.foldl (KVEngine.replayEntry segment) state
      let appended := entries.map Update.ofEntry
      Filed recovered.world.disk.segments (logs ++ [(segment, updates ++ appended)])
      ∧ Tracks recovered.index
          (places
            ++ placesFrom segment (Update.codec.encodeAll updates).length appended)
      ∧ Performs state.world recovered.world (appendOps segment appended)
      ∧ recovered.world.disk.hints = state.world.disk.hints
      ∧ recovered.world.ticks = state.world.ticks := by
  induction entries generalizing state updates places with
  | nil => exact ⟨by simpa using filed, by simpa using tracks, .refl _, rfl, rfl⟩
  | cons entry rest ih =>
      obtain ⟨world, tracked⟩ := replayEntry_spec segment state entry tracks
      have appended := filed.append (fits entry (by simp))
      have size := segmentSize_filed filed
        (by simp : (segment, updates) ∈ logs ++ [(segment, updates)])
      have nextFiled : Filed (KVEngine.replayEntry segment state entry).world.disk.segments
          (logs ++ [(segment, updates ++ [Update.ofEntry entry])]) := by
        rw [world]
        exact appended
      have next := ih (fun other member => fits other (List.mem_cons_of_mem entry member))
        nextFiled tracked
      rw [world] at next
      obtain ⟨finalFiled, finalTracks, performs, hints, ticks⟩ := next
      refine ⟨by simpa using finalFiled, ?_, ?_, hints, ticks⟩
      · simpa [placesFrom_cons, size] using finalTracks
      · exact ((Performs.refl _).perform _).trans performs

-----------------------------------------------------------------------------------------
-- The whole recovery
-----------------------------------------------------------------------------------------

/-- Given an index over the segments, `from_dir` succeeds: it overlays the last update of
every key in the WAL, appends these updates to the last segment and empties the WAL.
-/
theorem fromDir_sound {world : World} {logs : List Log} {segment : Nat}
    {updates wal : List Update} {index : HashIndex} {places : List Place}
    (filed : Filed world.disk.segments (logs ++ [(segment, updates)]))
    (logged : world.disk.wal = Update.codec.encodeAll wal)
    (fits : ∀ update ∈ wal, update.Fits)
    (loaded
      : world.disk.getSegments.foldlM (KVEngine.loadSegment world.disk) HashIndex.new
        = .ok index)
    (tracks : Tracks index places) (maxSegmentBytes : UInt64)
    (fsyncStrategy : FSyncStrategy)
    : ∃ db after recovered,
        KVEngine.fromDir maxSegmentBytes fsyncStrategy world = .ok (some db, after)
        ∧ db.activeSegment = segment
        ∧ Filed after.disk.segments (logs ++ [(segment, updates ++ recovered)])
        ∧ Tracks db.index
            (places
              ++ placesFrom segment (Update.codec.encodeAll updates).length recovered)
        ∧ Performs world after (appendOps segment recovered ++ [.walTruncate])
        ∧ after.disk.wal = []
        ∧ after.disk.hints = world.disk.hints
        ∧ after.ticks = world.ticks
        ∧ (∀ key, latest Update.key recovered key = latest Update.key wal key)
        ∧ ∀ update ∈ recovered, latest Update.key wal update.key = some update := by
  have segments : world.disk.getSegments = (logs ++ [(segment, updates)]).map Prod.fst :=
    filed.keys
  have last : world.disk.getSegments.getLast? = some segment := by
    simp [segments]
  obtain ⟨memtable, replayed, latestSame⟩ := replay_updates fits
  have isLatest := latest_of_replayed latestSame
  let start : KVEngine.Recovery := {
    index
    size := (world.disk.getSegments.map world.disk.segmentSize).sum
    world
  }
  have entriesFit : ∀ entry ∈ memtable.entries.toList, (Update.ofEntry entry).Fits :=
    fun entry member =>
      fits _ (latest_some Update.key
        (isLatest _ (List.mem_map.mpr ⟨entry, member, rfl⟩))).1
  have startFiled : Filed start.world.disk.segments (logs ++ [(segment, updates)]) := filed
  have startTracks : Tracks start.index places := tracks
  obtain ⟨finalFiled, finalTracks, performs, hints, ticks⟩ :=
    replayEntries_spec entriesFit startFiled startTracks
  refine ⟨{
      index := (memtable.entries.toList.foldl (KVEngine.replayEntry segment) start).index
      activeSegment := segment
      maxSegmentBytes
      writesSinceFsync := 0
      fsyncStrategy
      deadBytes := 0
      totalBytes := (memtable.entries.toList.foldl (KVEngine.replayEntry segment) start).size
      segmentCount := world.disk.getSegments.length
    },
    (memtable.entries.toList.foldl (KVEngine.replayEntry segment) start).world.perform
      .walTruncate,
    memtable.entries.toList.map Update.ofEntry, ?_, rfl, finalFiled, finalTracks,
    performs.perform .walTruncate, rfl, hints, ticks, latestSame, isLatest⟩
  simp only [KVEngine.fromDir, last, loaded, ok_bind, logged, replayed]
  rfl

end Rustikv.Kv

import Rustikv.Kv.Coherence

/-! The size limit of segment files. Value writes and the copies of a compaction check it
before they append; the tombstone of a delete and the log replayed on reopening go to the
active segment whatever its size.
-/

namespace Rustikv.Kv

open Library

-----------------------------------------------------------------------------------------
-- Files within the limit
-----------------------------------------------------------------------------------------

/-- The file is within the limit or holds exactly one record. -/
def Bounded (limit : UInt64) (file : Bytes) : Prop :=
  file.length ≤ limit.toNat ∨ (Disk.scanRecords file).length = 1

def KVEngine.BoundsSegments (db : KVEngine) (world : World) : Prop :=
  ∀ (segment : Nat) (file : Bytes),
    world.disk.segments[segment]? = some file → Bounded db.maxSegmentBytes file

/-- A delete that finds its key finds room for the tombstone as well, or an empty active
segment. Other calls are unrestricted.
-/
def TombstoneFits (event : Event) (db : KVEngine) (world : World) : Prop :=
  match event.call with
  | .delete key =>
      db.index.get key = none
      ∨ world.disk.segmentSize db.activeSegment = 0
      ∨ world.disk.segmentSize db.activeSegment
            + (KVEngine.tombstoneRecord key).sizeOnDisk
          ≤ db.maxSegmentBytes.toNat
  | _ => True

/-- The records a reopening replays from the WAL. -/
def Disk.replayed (disk : Disk) : List Record :=
  match Wal.replay disk.wal with
  | .ok memtable => memtable.entries.toList.map KVEngine.replayedRecord
  | .error _ => []

/-- The records fit behind the file, or make one record with it. -/
def FitBehind (limit : UInt64) (file : Bytes) (records : List Record) : Prop :=
  file.length + (records.map Record.sizeOnDisk).sum ≤ limit.toNat
  ∨ (Disk.scanRecords file).length + records.length = 1

/-- A reopening finds room for the replayed records in the active segment, and the other
segments within its limit.
-/
def ReplayFits (limit : UInt64) (db : KVEngine) (world : World) : Prop :=
  ∀ (segment : Nat) (file : Bytes),
    world.disk.segments[segment]? = some file
    → if db.activeSegment = segment then FitBehind limit file world.disk.replayed
      else Bounded limit file

-----------------------------------------------------------------------------------------
-- Records behind an intact file
-----------------------------------------------------------------------------------------

/-- The file holds whole records only. -/
def Intact (file : Bytes) : Prop :=
  ∃ records,
    (∀ record ∈ records, Record.codec.Valid record)
    ∧ Record.codec.encodeAll records = file

theorem length_scanRecords {records : List Record}
    (valid : ∀ record ∈ records, Record.codec.Valid record)
    : (Disk.scanRecords (Record.codec.encodeAll records)).length = records.length := by
  rw [scanRecords_encodeAll valid, ← List.length_map (f := Prod.snd),
    Record.codec.map_snd_locate]

theorem intact_nil : Intact [] :=
  ⟨[], by simp, rfl⟩

theorem Filed.intact {files : SortedMap Nat Bytes} {logs : List Log}
    (filed : Filed files logs) {segment : Nat} {file : Bytes}
    (found : files[segment]? = some file)
    : Intact file := by
  obtain ⟨updates, member, rfl⟩ := (filed.file segment file).mp found
  obtain ⟨valid, same⟩ := encodeAll_records (filed.fits _ member)
  exact ⟨_, valid, same⟩

namespace Intact

variable {file : Bytes} {added : List Record}

/-- Appended records are found behind those of the file. -/
theorem scanRecords_append (intact : Intact file)
    (formed : ∀ record ∈ added, record.WellFormed)
    : (Disk.scanRecords (file ++ added.flatMap Record.toBeBytes)).length
      = (Disk.scanRecords file).length + added.length := by
  obtain ⟨records, valid, rfl⟩ := intact
  have sealed : ∀ record ∈ added.map Record.sealed, Record.codec.Valid record := by
    intro record member
    obtain ⟨inner, innerMember, rfl⟩ := List.mem_map.mp member
    exact ⟨(formed inner innerMember).sealed, Record.sealed_sealed inner⟩
  have bytes : added.flatMap Record.toBeBytes
      = Record.codec.encodeAll (added.map Record.sealed) := by
    rw [FrameCodec.encodeAll, List.flatMap_map]
    rfl
  have all : ∀ record ∈ records ++ added.map Record.sealed, Record.codec.Valid record :=
    fun record member => (List.mem_append.mp member).elim (valid record) (sealed record)
  rw [bytes, ← Record.codec.encodeAll_append, length_scanRecords all,
    length_scanRecords valid, List.length_append, List.length_map]

theorem length_append (formed : ∀ record ∈ added, record.WellFormed)
    : (file ++ added.flatMap Record.toBeBytes).length
      = file.length + (added.map Record.sizeOnDisk).sum := by
  rw [List.length_append, List.length_flatMap]
  congr 2
  exact List.map_congr_left (fun record member => Record.length_toBeBytes (formed record member))

/-- Records are appended within the limit exactly when they fit behind the file. -/
theorem bounded_append (intact : Intact file)
    (formed : ∀ record ∈ added, record.WellFormed) (limit : UInt64)
    : Bounded limit (file ++ added.flatMap Record.toBeBytes)
      ↔ FitBehind limit file added := by
  unfold Bounded FitBehind
  rw [length_append formed, intact.scanRecords_append formed]

/-- A single record fits behind a file with room for it, or alone. -/
theorem bounded_record (intact : Intact file) {record : Record}
    (formed : record.WellFormed) (limit : UInt64)
    : Bounded limit (file ++ record.toBeBytes)
      ↔ file.length = 0 ∨ file.length + record.sizeOnDisk ≤ limit.toNat := by
  have single : ∀ other ∈ [record], other.WellFormed := by simpa using formed
  have empty : (Disk.scanRecords file).length = 0 ↔ file.length = 0 := by
    obtain ⟨records, valid, rfl⟩ := intact
    rw [length_scanRecords valid]
    cases records with
    | nil => simp
    | cons first rest =>
        have some := List.length_pos_iff.mpr (Record.toBeBytes_ne_nil first)
        simp only [FrameCodec.encodeAll_cons, List.length_append, List.length_cons]
        change _ ↔ first.toBeBytes.length + _ = 0
        omega
  have appended := intact.bounded_append single limit
  simp only [FitBehind, List.flatMap_singleton, List.map_singleton, List.sum_singleton,
    List.length_singleton] at appended
  rw [appended, ← empty]
  omega

end Intact

-----------------------------------------------------------------------------------------
-- The limit along writes, deletes and compactions
-----------------------------------------------------------------------------------------

/-- A value write leaves the file it wrote to within the limit. -/
theorem Written.bounded {record : Record} {db next : KVEngine} {world after : World}
    (written : Written record db next world after) (formed : record.WellFormed)
    : ∃ file,
        Bounded db.maxSegmentBytes file
        ∧ Replaces next.activeSegment file world.disk after.disk := by
  cases written with
  | stayed file present small active count files =>
      refine ⟨_, Or.inl ?_, files⟩
      rw [List.length_append, Record.length_toBeBytes formed]
      exact small
  | rolled file present large new count files =>
      have alone := (intact_nil.bounded_record formed db.maxSegmentBytes).mpr (Or.inl rfl)
      exact ⟨_, alone, files⟩

namespace KVEngine

variable {clock : Nat → Nat} {db next : KVEngine} {world after : World}

theorem BoundsSegments.setWithTtl (increasing : StrictMono clock)
    (coheres : Coheres clock db world) (bounds : BoundsSegments db world)
    {key value : String} {expiryMs : Option UInt64}
    (written : db.setWithTtl clock world key value expiryMs = .ok (next, after))
    : BoundsSegments next after := by
  obtain ⟨logs, updates, wal, coherent⟩ := coheres
  have change := setWithTtl_written coherent.active
    (coherent.fresh.unused increasing _ le_rfl) written
  obtain ⟨file, small, files⟩ := change.bounded
    (wellFormed_valueRecord (setWithTtl_cases written).1 expiryMs)
  intro segment found present
  rw [setWithTtl_limit written]
  rw [files] at present
  split at present
  · cases present
    exact small
  · exact bounds segment found present

/-- The files a compaction writes are all within the limit. -/
theorem compact_boundsSegments (increasing : StrictMono clock)
    (coheres : Coheres clock db world) {order : IterOrder} {nowMs : UInt64}
    {copyMs : String → UInt64}
    (compacted : db.compact clock order world nowMs copyMs = .ok (next, after))
    : BoundsSegments next after := by
  obtain ⟨newDb, filled, ran, rfl, -, files⟩ := compact_cases compacted
  obtain ⟨logs, updates, wal, coherent⟩ := id coheres
  obtain ⟨contents, represents⟩ := coherent.represents
  have created := new_files (coherent.fresh.unused increasing _ le_rfl) db.maxSegmentBytes
    db.fsyncStrategy
  have copied := foldlM_induction
    (motive := fun _ state =>
      Replacing clock db world state.1 state.2
      ∧ ∀ (segment : Nat) (file : Bytes),
          segment ∉ world.disk.segments
          → state.2.disk.segments[segment]? = some file
          → Bounded db.maxSegmentBytes file)
    (by
      rintro item rest state next ⟨replacing, bounded⟩ done
      obtain ⟨now, ⟨-, -, sameWorld⟩ | ⟨record, -, formed, written⟩⟩ :=
        replacing.copyKey increasing represents done
      · exact ⟨now, sameWorld ▸ bounded⟩
      · refine ⟨now, ?_⟩
        obtain ⟨written, small, files⟩ := written.bounded formed
        intro segment file new present
        rw [files] at present
        split at present
        · cases present
          exact replacing.limit ▸ small
        · exact bounded segment file new present)
    ⟨.new increasing coheres, by
      intro segment file new present
      rw [created] at present
      split at present
      · cases present
        exact Or.inl (Nat.zero_le _)
      · exact absurd ((SortedMap.mem_iff _ _).mpr ⟨file, present⟩) new⟩ ran
  intro segment file present
  rw [files] at present
  split at present
  · cases present
  · rename_i new
    exact copied.2 segment file new present

/-- A delete keeps the limit exactly when its tombstone fits. -/
theorem delete_boundsSegments_iff (coheres : Coheres clock db world)
    (bounds : BoundsSegments db world) {event : Event} {key : String} {found : Bool}
    (call : event.call = .delete key)
    (deleted : db.delete world key = .ok (found, next, after))
    : BoundsSegments next after ↔ TombstoneFits event db world := by
  obtain ⟨logs, updates, wal, coherent⟩ := coheres
  obtain ⟨limit, -, -, change⟩ := delete_files deleted
  simp only [TombstoneFits, call]
  rcases change with ⟨missing, same⟩ | ⟨held, files⟩
  · refine iff_of_true ?_ (Or.inl missing)
    intro segment file present
    rw [same] at present
    rw [limit]
    exact bounds segment file present
  · obtain ⟨file, present⟩ := (world.disk.segments.mem_iff _).mp coherent.active
    have formed : (tombstoneRecord key).WellFormed := by
      rw [tombstoneRecord_eq]
      exact Record.wellFormed_make ⟨(delete_cases deleted).1, by decide⟩ true none
    have size : world.disk.segmentSize db.activeSegment = file.length := by
      simp [Disk.segmentSize, present]
    have known : db.index.get key ≠ none := by simpa [Option.isSome_iff_ne_none] using held
    have grown := (coherent.stored.filed.intact present).bounded_record formed
      db.maxSegmentBytes
    rw [size, or_iff_right known, ← grown]
    constructor
    · intro bounded
      rw [← limit]
      exact bounded db.activeSegment _ ((files file present _).trans (if_pos rfl))
    · intro fits segment other otherPresent
      rw [files file present] at otherPresent
      rw [limit]
      split at otherPresent
      · cases otherPresent
        exact fits
      · exact bounds segment other otherPresent

-----------------------------------------------------------------------------------------
-- The limit along reopenings and whole runs
-----------------------------------------------------------------------------------------

/-- The replayed records are well formed if the WAL holds whole updates. -/
theorem wellFormed_replayed {logs : List Log} {wal : List Update}
    (stored : Stored world.disk logs wal)
    : ∀ record ∈ world.disk.replayed, record.WellFormed := by
  obtain ⟨memtable, replayed, same⟩ := replay_updates stored.fits
  rw [← stored.logged] at replayed
  simp only [Disk.replayed, replayed]
  intro record member
  obtain ⟨item, itemMember, rfl⟩ := List.mem_map.mp member
  have fits := stored.fits _ (latest_some Update.key
    (latest_of_replayed same _ (List.mem_map_of_mem itemMember))).1
  obtain ⟨key, value, expiryMs⟩ := item
  cases value with
  | some value => exact wellFormed_valueRecord fits expiryMs
  | none =>
      simp only [replayedRecord, tombstoneRecord_eq]
      exact Record.wellFormed_make ⟨fits.1, by decide⟩ true none

/-- A reopening keeps its limit exactly when the replayed records and the files fit. -/
theorem fromDir_boundsSegments_iff (coheres : Coheres clock db world)
    {maxSegmentBytes : UInt64} {fsyncStrategy : FSyncStrategy}
    (reopened : fromDir maxSegmentBytes fsyncStrategy world = .ok (some next, after))
    : BoundsSegments next after ↔ ReplayFits maxSegmentBytes db world := by
  obtain ⟨logs, updates, wal, coherent⟩ := coheres
  obtain ⟨memtable, file, last, replayed, present, limit, -, files⟩ := fromDir_cases reopened
  have active : next.activeSegment = db.activeSegment := by
    rw [Disk.getSegments, coherent.stored.filed.keys] at last
    simpa using last.symm
  have records : memtable.entries.toList.map replayedRecord = world.disk.replayed := by
    simp [Disk.replayed, replayed]
  have grown := (coherent.stored.filed.intact present).bounded_append
    (wellFormed_replayed coherent.stored) maxSegmentBytes
  rw [records] at files
  rw [active] at files present
  constructor
  · intro bounds segment old found
    have bounded := bounds segment
    rw [files, limit] at bounded
    split
    · rename_i same
      subst same
      obtain rfl := Option.some.inj (present.symm.trans found)
      exact grown.mp (bounded _ (if_pos rfl))
    · rename_i different
      exact bounded old ((if_neg different).trans found)
  · intro fit segment found presentAfter
    rw [files] at presentAfter
    rw [limit]
    split at presentAfter
    · rename_i same
      cases presentAfter
      have room := fit db.activeSegment file present
      rw [if_pos rfl] at room
      exact grown.mpr room
    · rename_i different
      have room := fit segment found presentAfter
      rwa [if_neg different] at room

theorem tombstoneFits_of_adds {event : Event} (adds : event.call.Adds) (db : KVEngine)
    (world : World)
    : TombstoneFits event db world := by
  obtain ⟨call, nowMs, finishMs⟩ := event
  cases call with
  | delete key => exact adds.elim
  | _ => trivial

/-- One call keeps the limit, unless it is a delete whose tombstone does not fit. -/
theorem handle_boundsSegments_iff (increasing : StrictMono clock)
    (coheres : Coheres clock db world) (bounds : BoundsSegments db world) {event : Event}
    {reply : Reply} (handled : handle clock event db world = .ok (reply, next, after))
    : BoundsSegments next after ↔ TombstoneFits event db world := by
  obtain ⟨logs, updates, wal, coherent⟩ := id coheres
  obtain ⟨contents, represents⟩ := coherent.represents
  cases handle_cases represents handled with
  | unchanged adds same sameWorld =>
      exact iff_of_true (same ▸ sameWorld ▸ bounds) (tombstoneFits_of_adds adds db world)
  | written adds items done =>
      have ran := foldlM_induction
        (motive := fun _ state =>
          Coheres clock state.1 state.2 ∧ BoundsSegments state.1 state.2)
        (fun item rest state next both written =>
          ⟨both.1.setWithTtl increasing written,
            both.2.setWithTtl increasing both.1 written⟩)
        ⟨coheres, bounds⟩ done
      exact iff_of_true ran.2 (tombstoneFits_of_adds adds db world)
  | deleted key found call done => exact delete_boundsSegments_iff coheres bounds call done
  | compacted order copyMs call done =>
      exact iff_of_true (compact_boundsSegments increasing coheres done)
        (by simp [TombstoneFits, call])

/-- While every tombstone and every replayed log fits, all segment files are within the limit
or hold one record. The first that does not breaks the limit.
-/
theorem boundsSegments_iff_fits (increasing : StrictMono clock)
    (trail : Trail clock TombstoneFits ReplayFits db world)
    : BoundsSegments db world
      ∧ (∀ event reply next after,
          handle clock event db world = .ok (reply, next, after)
          → (BoundsSegments next after ↔ TombstoneFits event db world))
      ∧ ∀ maxSegmentBytes fsyncStrategy next after,
          fromDir maxSegmentBytes fsyncStrategy world = .ok (some next, after)
          → (BoundsSegments next after ↔ ReplayFits maxSegmentBytes db world) := by
  have bounds : BoundsSegments db world := by
    induction trail with
    | new maxSegmentBytes fsyncStrategy =>
        intro segment file present
        have missing : clock World.initial.ticks ∉ World.initial.disk.segments := by
          simp [World.initial, Disk.empty]
        rw [new_files missing maxSegmentBytes fsyncStrategy] at present
        split at present
        · cases present
          exact Or.inl (Nat.zero_le _)
        · simp [World.initial, Disk.empty] at present
    | call trail allowed handled ih =>
        exact (handle_boundsSegments_iff increasing (coheres_of_trail increasing trail) ih
          handled).mpr allowed
    | reopen trail reopens reopened ih =>
        exact (fromDir_boundsSegments_iff (coheres_of_trail increasing trail) reopened).mpr
          reopens
  have coheres := coheres_of_trail increasing trail
  exact ⟨bounds,
    fun event reply next after handled =>
      handle_boundsSegments_iff increasing coheres bounds handled,
    fun maxSegmentBytes fsyncStrategy next after reopened =>
      fromDir_boundsSegments_iff coheres reopened⟩

/-- Witness: a tombstone with room for it, and a reopening with room for its replay. -/
theorem boundsSegments_iff_fits_reopened
    : ∃ db world next after last final,
        (new (7 + ·) 100 .never .initial).1.set (7 + ·)
            (new (7 + ·) 100 .never .initial).2 "k" "v"
          = .ok (db, world)
        ∧ db.delete world "k" = .ok (true, next, after)
        ∧ fromDir 100 .never after = .ok (some last, final)
        ∧ BoundsSegments last final := by
  have computed : ((new (7 + ·) 100 .never .initial).1.set (7 + ·)
      (new (7 + ·) 100 .never .initial).2 "k" "v").toOption.any (fun filled =>
        decide (filled.2.disk.segmentSize filled.1.activeSegment
            + (tombstoneRecord "k").sizeOnDisk
          ≤ filled.1.maxSegmentBytes.toNat)
        && (filled.1.delete filled.2 "k").toOption.any (fun deleted =>
          deleted.1
          && deleted.2.2.disk.segments.toList.all (fun item =>
            decide (item.1 = deleted.2.1.activeSegment
              ∧ item.2.length
                  + (deleted.2.2.disk.replayed.map Record.sizeOnDisk).sum
                ≤ (100 : UInt64).toNat))
          && (fromDir 100 .never deleted.2.2).toOption.any (fun reopened =>
            reopened.1.isSome)))
      = true := by
    decide +kernel
  simp only [Option.any_eq_true, toOption_eq_some, Option.isSome_iff_exists,
    Bool.and_eq_true, decide_eq_true_eq, List.all_eq_true] at computed
  obtain ⟨⟨db, world⟩, written, room, ⟨_, next, after⟩, deleted, ⟨rfl, replays⟩, ⟨_, final⟩,
    reopened, last, rfl⟩ := computed
  have increasing : StrictMono (7 + · : Nat → Nat) := fun _ _ before =>
    Nat.add_lt_add_left before 7
  let write : Event := { call := .set "k" "v", nowMs := 1, finishMs := 1 }
  let removal : Event := { call := .delete "k", nowMs := 2, finishMs := 2 }
  have wrote : handle (7 + ·) write (new (7 + ·) 100 .never .initial).1
      (new (7 + ·) 100 .never .initial).2 = .ok (.done, db, world) := by
    simp only [handle, write, written]
    rfl
  have removed : handle (7 + ·) removal db world = .ok (.deleted true, next, after) := by
    simp only [handle, removal, deleted]
    rfl
  have first : Trail (7 + ·) TombstoneFits ReplayFits db world :=
    (Trail.new 100 .never).call (show TombstoneFits write _ _ from trivial) wrote
  have second : Trail (7 + ·) TombstoneFits ReplayFits next after :=
    first.call (show TombstoneFits removal db world from Or.inr (Or.inr room)) removed
  have fits : ReplayFits 100 next after := by
    intro segment file found
    have item := replays _ ((SortedMap.mem_toList _ _ _).mpr found)
    rw [if_pos item.1.symm]
    exact Or.inl item.2
  exact ⟨db, world, next, after, last, final, written, deleted, reopened,
    (boundsSegments_iff_fits increasing (second.reopen fits reopened)).1⟩

/-- A limit of 40 bytes, and two files of two records beyond it: by the tombstone of the only
key, and by a reopening that replays its record.
-/
theorem delete_and_reopening_exceed_limit
    : ∃ db world next after last final large larger,
        (new (7 + ·) 40 .never .initial).1.set (7 + ·)
            (new (7 + ·) 40 .never .initial).2 "k" "v"
          = .ok (db, world)
        ∧ db.delete world "k" = .ok (true, next, after)
        ∧ after.disk.segments[next.activeSegment]? = some large
        ∧ (large.length = 45 ∧ (Disk.scanRecords large).length = 2)
        ∧ fromDir 40 .never world = .ok (some last, final)
        ∧ final.disk.segments[last.activeSegment]? = some larger
        ∧ (larger.length = 46 ∧ (Disk.scanRecords larger).length = 2) := by
  have computed : ((new (7 + ·) 40 .never .initial).1.set (7 + ·)
      (new (7 + ·) 40 .never .initial).2 "k" "v").toOption.any (fun filled =>
        (filled.1.delete filled.2 "k").toOption.any (fun deleted =>
          deleted.1
          && (deleted.2.2.disk.segments[deleted.2.1.activeSegment]?).any (fun file =>
            decide (file.length = 45 ∧ (Disk.scanRecords file).length = 2)))
        && (fromDir 40 .never filled.2).toOption.any (fun reopened =>
          reopened.1.any (fun last =>
            (reopened.2.disk.segments[last.activeSegment]?).any (fun file =>
              decide (file.length = 46 ∧ (Disk.scanRecords file).length = 2)))))
      = true := by
    decide +kernel
  simp only [Option.any_eq_true, toOption_eq_some, Bool.and_eq_true, decide_eq_true_eq]
    at computed
  obtain ⟨⟨db, world⟩, written, ⟨⟨_, next, after⟩, deleted, rfl, large, found, exceeds⟩,
    ⟨_, final⟩, reopened, last, rfl, larger, present, exceedsToo⟩ := computed
  exact ⟨db, world, next, after, last, final, large, larger, written, deleted, found, exceeds,
    reopened, present, exceedsToo⟩

end KVEngine

end Rustikv.Kv

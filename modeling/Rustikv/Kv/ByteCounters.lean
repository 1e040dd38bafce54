import Rustikv.Kv.ClockTies
import Rustikv.Library.MapTotal

/-! The byte counters of the hash engine against its segment files and its index. Writes
and deletes keep them exact; a compaction replaces the files and leaves the counters.
-/

namespace Rustikv.Kv

open Library

-----------------------------------------------------------------------------------------
-- What the counters should say
-----------------------------------------------------------------------------------------

def Disk.segmentBytes (disk : Disk) : Nat :=
  SortedMap.total (fun _ file => file.length) disk.segments

/-- The size of the record an index entry refers to. -/
def Disk.recordBytes (disk : Disk) (entry : IndexEntry) : Nat :=
  match disk.openSegment entry.segmentTimestamp with
  | .ok file =>
      match Record.readNext (file.drop entry.offset) with
      | .ok (record, _) => record.sizeOnDisk
      | .error _ => 0
  | .error _ => 0

/-- The size of all records the index refers to. -/
def KVEngine.recordBytes (db : KVEngine) (disk : Disk) : Nat :=
  SortedMap.total (fun _ entry => disk.recordBytes entry) db.index.hashmap

/-- The total is that of the segment files, and what no index entry refers to is dead. -/
structure KVEngine.Accounted (db : KVEngine) (world : World) : Prop where
  total : db.totalBytes = world.disk.segmentBytes
  dead : db.deadBytes + db.recordBytes world.disk = db.totalBytes

/-- A compaction finds nothing dead and nothing that has expired or will have when it is
copied. Other calls are unrestricted.
-/
def Clean (event : Event) (db : KVEngine) (_world : World) : Prop :=
  match event.call with
  | .compact _ copyMs =>
      db.deadBytes = 0
      ∧ ∀ key entry,
          db.index.get key = some entry
          → entry.expiryMs.any (isExpired · event.nowMs) = false
            ∧ entry.expiryMs.any (isExpired · (copyMs key)) = false
  | _ => True

-----------------------------------------------------------------------------------------
-- Sums over segment files
-----------------------------------------------------------------------------------------

/-- The sum over the segments that `old` does not have. -/
def Disk.newTotal (measure : Bytes → Nat) (old disk : Disk) : Nat :=
  SortedMap.total (fun segment file => if segment ∈ old.segments then 0 else measure file)
    disk.segments

theorem newTotal_empty (measure : Bytes → Nat) (disk : Disk)
    : Disk.newTotal measure Disk.empty disk
      = SortedMap.total (fun _ file => measure file) disk.segments :=
  SortedMap.total_congr (fun segment => by simp [SortedMap.weightAt, Disk.empty])

theorem newTotal_self (measure : Bytes → Nat) (disk : Disk)
    : Disk.newTotal measure disk disk = 0 := by
  have same : Disk.newTotal measure disk disk
      = SortedMap.total (fun _ (_ : Bytes) => 0) disk.segments := by
    refine SortedMap.total_congr (fun segment => ?_)
    cases found : disk.segments[segment]? with
    | none => simp [SortedMap.weightAt, found]
    | some file =>
        simp [SortedMap.weightAt, (disk.segments.mem_iff segment).mpr ⟨file, found⟩]
  rw [same, SortedMap.total]
  simp

theorem Replaces.newTotal {old before after : Disk} {segment : Nat} {file : Bytes}
    (replaces : Replaces segment file before after) (new : segment ∉ old.segments)
    (measure : Bytes → Nat)
    : Disk.newTotal measure old after + (before.segments[segment]?).elim 0 measure
      = Disk.newTotal measure old before + measure file := by
  let weight (segment : Nat) (file : Bytes) : Nat :=
    if segment ∈ old.segments then 0 else measure file
  have changed : SortedMap.total weight after.segments
        + SortedMap.weightAt weight before.segments segment
      = SortedMap.total weight before.segments
        + SortedMap.weightAt weight after.segments segment :=
    SortedMap.total_changed (fun other different => by
      simp [SortedMap.weightAt, replaces other, different])
  have now : SortedMap.weightAt weight after.segments segment = measure file := by
    simp [SortedMap.weightAt, replaces segment, weight, new]
  have earlier : SortedMap.weightAt weight before.segments segment
      = (before.segments[segment]?).elim 0 measure := by
    cases found : before.segments[segment]? <;>
      simp [SortedMap.weightAt, found, weight, new]
  rwa [now, earlier] at changed

/-- Removing the old segments leaves the sum over the new ones. -/
theorem newTotal_of_removed {old disk after : Disk} (measure : Bytes → Nat)
    (files
      : ∀ segment : Nat,
          after.segments[segment]?
          = if segment ∈ old.segments then none else disk.segments[segment]?)
    : SortedMap.total (fun _ file => measure file) after.segments
      = Disk.newTotal measure old disk := by
  refine SortedMap.total_congr (fun segment => ?_)
  unfold SortedMap.weightAt
  rw [files]
  split
  · rename_i member
    cases disk.segments[segment]? <;> simp [member]
  · rename_i missing
    cases disk.segments[segment]? <;> simp [missing]

namespace KVEngine

variable {clock : Nat → Nat} {old : Disk} {db next : KVEngine} {world after : World}

-----------------------------------------------------------------------------------------
-- Counting along with writes and deletes
-----------------------------------------------------------------------------------------

/-- The sizes the index notes for its records. -/
def indexedBytes (index : HashIndex) : Nat :=
  SortedMap.total (fun _ entry => entry.recordSize) index.hashmap

theorem weightAt_recordSize (index : HashIndex) (key : String)
    : SortedMap.weightAt (fun _ entry => entry.recordSize) index.hashmap key
      = ((index.get key).map IndexEntry.recordSize).getD 0 := by
  unfold SortedMap.weightAt HashIndex.get
  cases index.hashmap[key]? <;> rfl

theorem indexedBytes_set (index : HashIndex) (key : String)
    (offset segment recordSize : Nat) (expiryMs : Option UInt64)
    : indexedBytes (index.set key offset segment recordSize expiryMs).2
        + ((index.get key).map IndexEntry.recordSize).getD 0
      = indexedBytes index + recordSize := by
  rw [← weightAt_recordSize]
  exact SortedMap.total_insert _ _ _ _

theorem indexedBytes_delete (index : HashIndex) (key : String)
    : indexedBytes (index.delete key).2
        + ((index.get key).map IndexEntry.recordSize).getD 0
      = indexedBytes index := by
  rw [← weightAt_recordSize]
  exact SortedMap.total_erase _ _ _

/-- The total counts the bytes in segments that `old` does not have. What of them is not
dead is what the index notes, and it notes the sizes of the records it refers to.
-/
structure Tallied (clock : Nat → Nat) (old : Disk) (db : KVEngine) (world : World)
    (contents : Contents)
    : Prop where
  represents : Represents db.index world.disk contents
  active : db.activeSegment ∈ world.disk.segments
  apart : Apart clock old db world
  sizes
    : ∀ key entry item,
        db.index.get key = some entry
        → contents key = some item
        → entry.recordSize = (valueRecord key item.value item.expiryMs).sizeOnDisk
  total : db.totalBytes = Disk.newTotal List.length old world.disk
  dead : db.deadBytes + indexedBytes db.index = db.totalBytes

/-- Sizes noted in the index are those of the records on the disk. -/
theorem Tallied.recordBytes {contents : Contents}
    (tallied : Tallied clock old db world contents)
    : db.recordBytes world.disk = indexedBytes db.index := by
  refine SortedMap.total_congr (fun key => ?_)
  unfold SortedMap.weightAt
  cases found : db.index.hashmap[key]? with
  | none => rfl
  | some entry =>
      obtain ⟨value, holds, fits, held⟩ := tallied.represents.present key entry found
      obtain ⟨file, rest, opened, read⟩ :=
        held.readNext (wellFormed_valueRecord fits entry.expiryMs)
      have size := tallied.sizes key entry _ found holds
      simp only [Option.elim_some, Disk.recordBytes, opened, read, size]
      rfl

theorem Tallied.accounted {contents : Contents}
    (tallied : Tallied clock Disk.empty db world contents)
    : Accounted db world where
  total := tallied.total.trans (newTotal_empty List.length world.disk)
  dead := by
    rw [tallied.recordBytes]
    exact tallied.dead

theorem Tallied.setWithTtl {contents : Contents}
    (tallied : Tallied clock old db world contents)
    (new : clock world.ticks ∉ world.disk.segments) {key value : String}
    {expiryMs : Option UInt64}
    (written : db.setWithTtl clock world key value expiryMs = .ok (next, after))
    : Progress clock db next world after
      ∧ Tallied clock old next after (contents.set key value expiryMs) := by
  have fits := (setWithTtl_cases written).1
  obtain ⟨total, dead, offset, index⟩ := setWithTtl_counters written
  obtain ⟨_, _, again, progress, now⟩ :=
    setWithTtl_sound clock tallied.represents tallied.active fits expiryMs
  obtain ⟨rfl, rfl⟩ := Prod.mk.inj (Except.ok.inj (written.symm.trans again))
  have apart := tallied.apart.progress progress
  have length := Record.length_toBeBytes (wellFormed_valueRecord fits expiryMs)
  have bytes : Disk.newTotal List.length old after.disk
      = Disk.newTotal List.length old world.disk
        + (valueRecord key value expiryMs).sizeOnDisk := by
    cases setWithTtl_written tallied.active new written with
    | stayed file present small active count files =>
        have changed := files.newTotal apart.active List.length
        rw [active, present, Option.elim_some, List.length_append, length] at changed
        omega
    | rolled file present large rolledTo count files =>
        have changed := files.newTotal apart.active List.length
        have missing : world.disk.segments[next.activeSegment]? = none := by
          by_contra held
          exact rolledTo ((world.disk.segments.mem_iff _).mpr
            (Option.ne_none_iff_exists'.mp held))
        rw [missing, Option.elim_none, length] at changed
        omega
  refine ⟨progress, now, progress.active, apart, ?_, ?_, ?_⟩
  · intro other entry item found holds
    rw [index, HashIndex.get_set] at found
    rw [Contents.set_apply] at holds
    by_cases same : key = other
    · subst same
      simp only [if_true, Option.some.injEq] at found holds
      subst found holds
      rfl
    · rw [if_neg same] at found holds
      exact tallied.sizes other entry item found holds
  · rw [total, bytes, tallied.total]
  · have changed := indexedBytes_set db.index key offset next.activeSegment
      (valueRecord key value expiryMs).sizeOnDisk expiryMs
    have before := tallied.dead
    rw [index, total, dead]
    omega

/-- The tombstone of a key that was there is dead bytes, and so is the record it buries. -/
theorem Tallied.delete {contents : Contents}
    (tallied : Tallied clock old db world contents) {key : String} {found : Bool}
    (deleted : db.delete world key = .ok (found, next, after))
    : Progress clock db next world after
      ∧ Tallied clock old next after (contents.delete key) := by
  obtain ⟨fits, cases⟩ := delete_cases deleted
  obtain ⟨_, _, _, again, progress, now⟩ :=
    delete_sound clock tallied.represents tallied.active fits
  obtain ⟨-, same⟩ := Prod.mk.inj (Except.ok.inj (deleted.symm.trans again))
  obtain ⟨rfl, rfl⟩ := Prod.mk.inj same
  have apart := tallied.apart.progress progress
  have removed := indexedBytes_delete db.index key
  have before := tallied.dead
  have counted : next.index = (db.index.delete key).2
      ∧ next.totalBytes = Disk.newTotal List.length old after.disk
      ∧ next.deadBytes + indexedBytes (db.index.delete key).2 = next.totalBytes := by
    rcases cases with ⟨missing, rfl, rfl⟩ | ⟨entry, held, result⟩
    · simp only [missing, Option.map_none, Option.getD_none] at removed
      refine ⟨rfl, tallied.total, ?_⟩
      simp only [deleteIndex]
      omega
    · obtain ⟨settled, total, dead⟩ := deleteSegment_counters (db.deleteIndex key).2
        (deleteWal world key) key entry
      rw [← result] at settled total dead
      have formed : (tombstoneRecord key).WellFormed := by
        rw [tombstoneRecord_eq]
        exact Record.wellFormed_make ⟨fits, by decide⟩ true none
      obtain ⟨file, present⟩ := (world.disk.segments.mem_iff _).mp tallied.active
      have files := ((delete_files deleted).2.2.2.resolve_left
        (fun absent => by simp [held] at absent)).2 file present
      have changed := files.newTotal tallied.apart.active List.length
      rw [present, Option.elim_some, List.length_append, Record.length_toBeBytes formed]
        at changed
      simp only [held, Option.map_some, Option.getD_some] at removed
      have before := tallied.total
      refine ⟨settled.index, ?_, ?_⟩
      · rw [total]
        simp only [deleteIndex]
        omega
      · rw [total, dead]
        simp only [deleteIndex]
        omega
  refine ⟨progress, now, progress.active, apart, ?_, counted.2.1, ?_⟩
  · intro other entry item present holds
    rw [counted.1, HashIndex.get_delete] at present
    rw [Contents.delete_apply] at holds
    split at present
    · cases present
    · rename_i different
      rw [if_neg different] at holds
      exact tallied.sizes other entry item present holds
  · rw [counted.1]
    exact counted.2.2

-----------------------------------------------------------------------------------------
-- Counting along with a compaction
-----------------------------------------------------------------------------------------

/-- What a compaction copies: the items that are live in the snapshot and when their key is
copied.
-/
def surviving (contents : Contents) (nowMs : UInt64) (copyMs : String → UInt64) : Contents :=
  fun key =>
    (contents key).filter (fun item =>
      !item.expiryMs.any (isExpired · nowMs)
      && !item.expiryMs.any (isExpired · (copyMs key)))

theorem surviving_of_holds {contents : Contents} {key : String} {item : Item}
    (holds : contents key = some item) (nowMs : UInt64) (copyMs : String → UInt64)
    : surviving contents nowMs copyMs key
      = if item.expiryMs.any (isExpired · nowMs) = false
            ∧ item.expiryMs.any (isExpired · (copyMs key)) = false then
          some item
        else none := by
  simp [surviving, holds, Option.filter]

/-- The replacement counts what it has copied, and all of it is live. Every key but those
of `rest` is copied if it survives.
-/
structure Refilling (clock : Nat → Nat) (db : KVEngine) (start : World)
    (contents survivors : Contents) (rest : List (String × Option UInt64))
    (newDb : KVEngine) (world : World) (copied : Contents)
    : Prop where
  source : Represents db.index world.disk contents
  tallied : Tallied clock start.disk newDb world copied
  unused : Unused clock world
  clean : newDb.deadBytes = 0
  copied : ∀ key, copied key = if key ∈ rest.map Prod.fst then none else survivors key

theorem refilling_new (distinct : Function.Injective clock) {contents : Contents}
    (represents : Represents db.index world.disk contents) (unused : Unused clock world)
    (order : IterOrder) (nowMs : UInt64) (copyMs : String → UInt64)
    : Refilling clock db world contents (surviving contents nowMs copyMs)
        (snapshotKeys order db nowMs)
        (new clock db.maxSegmentBytes db.fsyncStrategy world).1
        (new clock db.maxSegmentBytes db.fsyncStrategy world).2 Contents.empty := by
  have missing := unused world.ticks le_rfl
  have created := (new_files missing db.maxSegmentBytes db.fsyncStrategy).newTotal missing
    List.length
  rw [newTotal_self] at created
  refine ⟨represents.apply (.segmentCreate (clock world.ticks)) (by simp),
    ⟨.empty _, mem_segmentCreate _ _, ⟨unused _ le_rfl, ?_, ?_⟩, ?_,
      (Nat.add_eq_zero_iff.mp created).1.symm, rfl⟩,
    new_unused distinct unused _ _, rfl, ?_⟩
  · intro key entry found
    simp [new] at found
  · intro tick later
    exact unused tick (Nat.le_of_succ_le later)
  · intro key entry item found
    simp [new] at found
  · intro key
    split
    · rfl
    · rename_i outside
      refine (Option.filter_eq_none_iff.mpr ?_).symm
      intro item holds live
      cases found : db.index.get key with
      | none => simp [represents.absent key found] at holds
      | some entry =>
          obtain ⟨value, same, -, -⟩ := represents.present key entry found
          obtain rfl := Option.some.inj (same.symm.trans holds)
          simp only [Bool.and_eq_true, Bool.not_eq_true'] at live
          exact outside (List.mem_map.mpr
            ⟨(key, entry.expiryMs), mem_snapshotKeys.mpr ⟨entry, found, live.1, rfl⟩, rfl⟩)

theorem Refilling.copyKey (distinct : Function.Injective clock) {order : IterOrder}
    {newDb : KVEngine} {start : World} {contents copied : Contents} {nowMs : UInt64}
    {copyMs : String → UInt64} {item : String × Option UInt64}
    {rest : List (String × Option UInt64)}
    (refilling
      : Refilling clock db start contents (surviving contents nowMs copyMs) (item :: rest)
          newDb world copied)
    (listed : item ∈ snapshotKeys order db nowMs) (fresh : item.1 ∉ rest.map Prod.fst)
    (done
      : KVEngine.copyKey clock db newDb world item (copyMs item.1) = .ok (next, after))
    : ∃ now,
        Refilling clock db start contents (surviving contents nowMs copyMs) rest next after
          now := by
  obtain ⟨entry, held, live, expiry⟩ := mem_snapshotKeys.mp listed
  obtain ⟨value, holds, -, -⟩ := refilling.source.present item.1 entry held
  have missing : copied item.1 = none := by simp [refilling.copied]
  have others {key : String} (different : item.1 ≠ key)
      : copied key
        = if key ∈ rest.map Prod.fst then none else surviving contents nowMs copyMs key := by
    rw [refilling.copied]
    simp only [List.map_cons, List.mem_cons, Ne.symm different, false_or]
  rcases copyKey_cases done with ⟨absent, rfl, rfl⟩ | ⟨found, read, written⟩
  · have expired := get_eq_none.mp absent entry held
    refine ⟨copied, refilling.source, refilling.tallied, refilling.unused, refilling.clean, ?_⟩
    intro key
    by_cases same : item.1 = key
    · subst same
      rw [missing, if_neg fresh, surviving_of_holds holds]
      simp [expired]
    · exact others same
  · have lookup := refilling.source.kvLookup db.activeSegment item.1 (copyMs item.1)
    obtain ⟨other, -, -, -, otherHeld, liveThen, -⟩ := get_eq_some.mp read
    obtain rfl := Option.some.inj (held.symm.trans otherHeld)
    have stored : contents.read item.1 (copyMs item.1) = some value := by
      simp [Contents.read, holds, Item.read, liveThen]
    rw [get_eq_map, lookup, stored] at read
    cases read
    obtain ⟨progress, tallied⟩ := refilling.tallied.setWithTtl
      (refilling.unused _ le_rfl) written
    obtain ⟨-, dead, -⟩ := setWithTtl_counters written
    refine ⟨_, refilling.source.keeps progress.keeps, tallied,
      refilling.unused.progress distinct refilling.tallied.active progress, ?_, ?_⟩
    · have unset : newDb.index.get item.1 = none := by
        have same := refilling.tallied.represents.isSome_get item.1
        simpa [missing] using same
      rw [dead, unset, refilling.clean]
      rfl
    · intro key
      rw [Contents.set_apply]
      by_cases same : item.1 = key
      · subst same
        rw [if_pos rfl, if_neg fresh, surviving_of_holds holds, if_pos ⟨live, liveThen⟩,
          expiry]
      · rw [if_neg same]
        exact others same

/-- A compaction leaves the counters as they were, over files with just the records that
survived.
-/
theorem compact_tallied (distinct : Function.Injective clock) {order : IterOrder}
    {contents : Contents} (represents : Represents db.index world.disk contents)
    (unused : Unused clock world) {nowMs : UInt64} {copyMs : String → UInt64}
    (compacted : db.compact clock order world nowMs copyMs = .ok (next, after))
    : next.totalBytes = db.totalBytes
      ∧ next.deadBytes = db.deadBytes
      ∧ Unused clock after
      ∧ ∃ counted,
          next.index = counted.index
          ∧ next.activeSegment = counted.activeSegment
          ∧ counted.deadBytes = 0
          ∧ Tallied clock Disk.empty counted after (surviving contents nowMs copyMs) := by
  obtain ⟨newDb, filled, ran, rfl, ticks, files⟩ := compact_cases compacted
  obtain ⟨-, copied, refilled⟩ := foldlM_induction
    (motive := fun rest state =>
      rest <:+ snapshotKeys order db nowMs
      ∧ ∃ copied,
          Refilling clock db world contents (surviving contents nowMs copyMs) rest state.1
            state.2 copied)
    (by
      rintro item rest state next ⟨suffix, copied, refilling⟩ done
      have distinctKeys := (nodup_snapshotKeys order db nowMs).sublist
        (suffix.sublist.map Prod.fst)
      exact ⟨(List.suffix_cons item rest).trans suffix,
        refilling.copyKey distinct (suffix.subset (by simp))
          (List.nodup_cons.mp distinctKeys).1 done⟩)
    ⟨List.suffix_rfl, _, refilling_new distinct represents unused order nowMs copyMs⟩ ran
  have same : copied = surviving contents nowMs copyMs :=
    funext (fun key => by simpa using refilled.copied key)
  subst same
  have tallied := refilled.tallied
  have kept {segment : Nat} (new : segment ∉ world.disk.segments) {file : Bytes}
      (present : filled.disk.segments[segment]? = some file)
      : after.disk.segments[segment]? = some file := by
    rw [files, if_neg new, present]
  refine ⟨rfl, rfl, ?_, newDb, rfl, rfl, refilled.clean,
    ⟨tallied.represents.absent, ?_⟩, ?_, ?_, tallied.sizes, ?_, tallied.dead⟩
  · refine refilled.unused.of_segments ?_ ticks
    intro segment present
    obtain ⟨file, found⟩ := (after.disk.segments.mem_iff _).mp present
    rw [files] at found
    split at found
    · cases found
    · exact (filled.disk.segments.mem_iff _).mpr ⟨file, found⟩
  · intro key entry found
    obtain ⟨value, holds, fits, file, rest, present, starts⟩ :=
      tallied.represents.present key entry found
    exact ⟨value, holds, fits, file, rest,
      kept (tallied.apart.entries key entry found) present, starts⟩
  · obtain ⟨file, present⟩ := (filled.disk.segments.mem_iff _).mp tallied.active
    exact (after.disk.segments.mem_iff _).mpr ⟨file, kept tallied.apart.active present⟩
  · exact ⟨by simp [Disk.empty], by simp [Disk.empty], by simp [Disk.empty]⟩
  · rw [tallied.total, newTotal_empty, newTotal_of_removed List.length files]

/-- What the replacement notes for a key is what the engine notes, unless it is dropped. -/
theorem noted_surviving {other : Disk} {counted : KVEngine} {contents : Contents}
    {nowMs : UInt64} {copyMs : String → UInt64}
    (tallied : Tallied clock old db world contents)
    (refilled : Tallied clock other counted after (surviving contents nowMs copyMs))
    (key : String)
    : SortedMap.weightAt (fun _ entry => entry.recordSize) counted.index.hashmap key
      = if (db.index.get key).all (fun entry =>
            decide (entry.expiryMs.any (isExpired · nowMs) = false
              ∧ entry.expiryMs.any (isExpired · (copyMs key)) = false)) then
          SortedMap.weightAt (fun _ entry => entry.recordSize) db.index.hashmap key
        else 0 := by
  have present := refilled.represents.isSome_get key
  simp only [weightAt_recordSize]
  cases found : db.index.get key with
  | none =>
      have dropped : surviving contents nowMs copyMs key = none := by
        simp [surviving, tallied.represents.absent key found]
      rw [dropped, Option.isSome_none, Option.isSome_eq_false_iff, Option.isNone_iff_eq_none]
        at present
      simp [present]
  | some entry =>
      obtain ⟨value, holds, -, -⟩ := tallied.represents.present key entry found
      have survives := surviving_of_holds holds nowMs copyMs
      by_cases live : entry.expiryMs.any (isExpired · nowMs) = false
          ∧ entry.expiryMs.any (isExpired · (copyMs key)) = false
      · rw [if_pos live] at survives
        rw [survives, Option.isSome_some] at present
        obtain ⟨copy, copied⟩ := Option.isSome_iff_exists.mp present
        have size := refilled.sizes key copy _ copied survives
        have before := tallied.sizes key entry _ found holds
        simp [copied, live, size, before]
      · rw [if_neg live] at survives
        rw [survives, Option.isSome_none, Option.isSome_eq_false_iff,
          Option.isNone_iff_eq_none] at present
        simp [present, live]

/-- A compaction keeps the counters right exactly when it drops nothing. -/
theorem indexedBytes_surviving {other : Disk} {counted : KVEngine} {contents : Contents}
    {nowMs : UInt64} {copyMs : String → UInt64}
    (tallied : Tallied clock old db world contents)
    (refilled : Tallied clock other counted after (surviving contents nowMs copyMs))
    : indexedBytes counted.index = indexedBytes db.index
      ↔ ∀ key entry,
          db.index.get key = some entry
          → entry.expiryMs.any (isExpired · nowMs) = false
            ∧ entry.expiryMs.any (isExpired · (copyMs key)) = false := by
  have noted := noted_surviving tallied refilled
  constructor
  · intro equal key entry found
    by_contra dropped
    obtain ⟨value, holds, -, -⟩ := tallied.represents.present key entry found
    have size := tallied.sizes key entry _ found holds
    have positive : 0 < entry.recordSize := by
      rw [size]
      simp only [Record.sizeOnDisk, recordHeaderLen, crcLen, sizeFieldLen, flagsLen]
      omega
    have lower (other : String)
        : SortedMap.weightAt (fun _ entry => entry.recordSize) counted.index.hashmap other
          ≤ SortedMap.weightAt (fun _ entry => entry.recordSize) db.index.hashmap other := by
      rw [noted]
      split
      · exact le_rfl
      · exact Nat.zero_le _
    have strict
        : SortedMap.weightAt (fun _ entry => entry.recordSize) counted.index.hashmap key
          < SortedMap.weightAt (fun _ entry => entry.recordSize) db.index.hashmap key := by
      rw [noted, found]
      simp only [Option.all_some, decide_eq_true_eq, if_neg dropped]
      rw [weightAt_recordSize, found]
      exact positive
    exact (SortedMap.total_lt lower strict).ne equal
  · intro live
    refine SortedMap.total_congr (fun key => ?_)
    rw [noted]
    cases found : db.index.get key with
    | none => simp
    | some entry => simp [live key entry found]

-----------------------------------------------------------------------------------------
-- Whole runs
-----------------------------------------------------------------------------------------

/-- The counters and the index fit the disk, and the clock gives no timestamp twice. -/
def Tracked (clock : Nat → Nat) (db : KVEngine) (world : World) : Prop :=
  ∃ contents, Tallied clock Disk.empty db world contents ∧ Unused clock world

theorem tracked_new (distinct : Function.Injective clock) (maxSegmentBytes : UInt64)
    (fsyncStrategy : FSyncStrategy)
    : Tracked clock (new clock maxSegmentBytes fsyncStrategy World.initial).1
        (new clock maxSegmentBytes fsyncStrategy World.initial).2 := by
  have unused : Unused clock World.initial := by
    intro tick later
    simp [World.initial, Disk.empty]
  have missing : clock World.initial.ticks ∉ Disk.empty.segments := unused _ le_rfl
  have created := (new_files missing maxSegmentBytes fsyncStrategy).newTotal missing
    List.length
  refine ⟨Contents.empty,
    ⟨.empty _, mem_segmentCreate _ _, ?_, ?_, (Nat.add_eq_zero_iff.mp created).1.symm, rfl⟩,
    new_unused distinct unused _ _⟩
  · exact ⟨by simp [Disk.empty], by simp [Disk.empty], by simp [Disk.empty]⟩
  · intro key entry item found
    simp [new] at found

/-- The counters may be those of another engine with the same index. -/
theorem Tallied.of_counters {counted : KVEngine} {contents : Contents}
    (tallied : Tallied clock old counted world contents) (index : db.index = counted.index)
    (active : db.activeSegment = counted.activeSegment)
    (total : db.totalBytes = counted.totalBytes) (dead : db.deadBytes = counted.deadBytes)
    : Tallied clock old db world contents where
  represents := index ▸ tallied.represents
  active := active ▸ tallied.active
  apart :=
    ⟨active ▸ tallied.apart.active, index ▸ tallied.apart.entries, tallied.apart.later⟩
  sizes := index ▸ tallied.sizes
  total := total.trans tallied.total
  dead := by rw [dead, index, total, tallied.dead]

/-- Only compactions can be unclean. -/
theorem clean_or_compacts (event : Event) (db : KVEngine) (world : World)
    : (event.call.Plain ∧ Clean event db world)
      ∨ ∃ order copyMs, event.call = .compact order copyMs := by
  obtain ⟨call, nowMs, finishMs⟩ := event
  cases call with
  | compact order copyMs => exact Or.inr ⟨order, copyMs, rfl⟩
  | _ => exact Or.inl ⟨trivial, trivial⟩

theorem Tracked.msetWithTtl (distinct : Function.Injective clock)
    (tracked : Tracked clock db world) {items : List (String × String × Option UInt64)}
    (written : db.msetWithTtl clock world items = .ok (next, after))
    : Tracked clock next after := by
  refine foldlM_induction (motive := fun _ state => Tracked clock state.1 state.2) ?_ tracked
    written
  rintro item rest state next ⟨contents, tallied, unused⟩ done
  obtain ⟨progress, now⟩ := tallied.setWithTtl (unused _ le_rfl) done
  exact ⟨_, now, unused.progress distinct tallied.active progress⟩

theorem Tracked.delete (distinct : Function.Injective clock)
    (tracked : Tracked clock db world) {key : String} {found : Bool}
    (deleted : db.delete world key = .ok (found, next, after))
    : Tracked clock next after := by
  obtain ⟨contents, tallied, unused⟩ := tracked
  obtain ⟨progress, now⟩ := tallied.delete deleted
  exact ⟨_, now, unused.progress distinct tallied.active progress⟩

/-- A clean compaction keeps the counters right, and no other compaction does. -/
theorem Tracked.compact (distinct : Function.Injective clock)
    (tracked : Tracked clock db world) {event : Event} {order : IterOrder}
    {copyMs : String → UInt64} (call : event.call = .compact order copyMs)
    (compacted : db.compact clock order world event.nowMs copyMs = .ok (next, after))
    : (Accounted next after ∧ next.deadBytes = 0 ↔ Clean event db world)
      ∧ (Clean event db world → Tracked clock next after) := by
  simp only [Clean, call]
  obtain ⟨contents, tallied, unused⟩ := tracked
  obtain ⟨total, dead, stillUnused, counted, index, active, none, refilled⟩ :=
    compact_tallied distinct tallied.represents unused compacted
  have indexed := indexedBytes_surviving tallied refilled
  have before := tallied.dead
  have now := refilled.dead
  have records : next.recordBytes after.disk = indexedBytes counted.index := by
    rw [← refilled.recordBytes]
    unfold recordBytes
    rw [index]
  have files := refilled.accounted.total
  constructor
  · constructor
    · rintro ⟨accounted, clean⟩
      have sameTotal := accounted.total
      exact ⟨dead.symm.trans clean, indexed.mp (by omega)⟩
    · rintro ⟨clean, live⟩
      have same := indexed.mpr live
      exact ⟨⟨by omega, by omega⟩, dead.trans clean⟩
  · rintro ⟨clean, live⟩
    have same := indexed.mpr live
    exact ⟨_, refilled.of_counters index active (by omega) (by omega), stillUnused⟩

theorem tracked_of_trail (distinct : Function.Injective clock)
    (trail : Trail clock Clean (fun _ _ _ => False) db world)
    : Tracked clock db world := by
  induction trail with
  | new maxSegmentBytes fsyncStrategy =>
      exact tracked_new distinct maxSegmentBytes fsyncStrategy
  | reopen trail reopens reopened ih => exact reopens.elim
  | @call db next world after event reply trail allowed handled ih =>
      have tracked := ih
      obtain ⟨contents, tallied, -⟩ := tracked
      cases handle_cases tallied.represents handled with
      | unchanged adds same sameWorld => exact same ▸ sameWorld ▸ ih
      | written adds items done => exact ih.msetWithTtl distinct done
      | deleted key found call done => exact ih.delete distinct done
      | compacted order copyMs call done => exact (ih.compact distinct call done).2 allowed

/-- While all compactions are clean, the byte counters are those of the files and of the
index. The first compaction that is not clean puts them wrong.
-/
theorem accounted_iff_clean (distinct : Function.Injective clock)
    (trail : Trail clock Clean (fun _ _ _ => False) db world)
    : Accounted db world
      ∧ db.deadBytes ≤ db.totalBytes
      ∧ ∀ event reply next after,
          handle clock event db world = .ok (reply, next, after)
          → (Accounted next after ∧ (¬ event.call.Plain → next.deadBytes = 0)
            ↔ Clean event db world) := by
  have tracked := tracked_of_trail distinct trail
  obtain ⟨contents, tallied, -⟩ := tracked_of_trail distinct trail
  refine ⟨tallied.accounted, tallied.dead ▸ Nat.le_add_right _ _, ?_⟩
  intro event reply next after handled
  rcases clean_or_compacts event db world with ⟨plain, clean⟩ | ⟨order, copyMs, call⟩
  · obtain ⟨_, now, -⟩ := tracked_of_trail distinct (trail.call clean handled)
    exact ⟨fun _ => clean, fun _ => ⟨now.accounted, fun compacts => absurd plain compacts⟩⟩
  · have compacts : ¬ event.call.Plain := by simp [call, Call.Plain]
    unfold handle at handled
    simp only [call] at handled
    obtain ⟨⟨last, later⟩, compacted, same⟩ := bind_eq_ok.mp handled
    cases same
    rw [← (tracked.compact distinct call compacted).1]
    exact and_congr_right (fun _ => ⟨fun clean => clean compacts, fun clean _ => clean⟩)

/-- Witness: a key written and compacted before anything of it is dead. -/
theorem accounted_iff_clean_compacted
    : ∃ db world next after,
        (new (7 + ·) 100 .never .initial).1.set (7 + ·)
            (new (7 + ·) 100 .never .initial).2 "k" "v"
          = .ok (db, world)
        ∧ db.compact (7 + ·) .stored world 2 (fun _ => 2) = .ok (next, after)
        ∧ Accounted next after
        ∧ next.deadBytes ≤ next.totalBytes := by
  have computed : ((new (7 + ·) 100 .never .initial).1.set (7 + ·)
      (new (7 + ·) 100 .never .initial).2 "k" "v").toOption.any (fun filled =>
        decide (filled.1.deadBytes = 0)
        && filled.1.index.hashmap.toList.all (fun entry => entry.2.expiryMs.isNone)
        && (filled.1.compact (7 + ·) .stored filled.2 2 (fun _ => 2)).toOption.isSome)
      = true := by
    decide +kernel
  simp only [Option.any_eq_true, toOption_eq_some, Option.isSome_iff_exists,
    Bool.and_eq_true, decide_eq_true_eq, List.all_eq_true] at computed
  obtain ⟨⟨db, world⟩, written, ⟨live, lasting⟩, ⟨next, after⟩, compacted⟩ := computed
  have distinct : Function.Injective (7 + · : Nat → Nat) := fun _ _ => Nat.add_left_cancel
  let write : Event := { call := .set "k" "v", nowMs := 1, finishMs := 1 }
  let compaction : Event :=
    { call := .compact .stored (fun _ => 2), nowMs := 2, finishMs := 2 }
  have wrote : handle (7 + ·) write (new (7 + ·) 100 .never .initial).1
      (new (7 + ·) 100 .never .initial).2 = .ok (.done, db, world) := by
    simp only [handle, write, written]
    rfl
  have ran : handle (7 + ·) compaction db world = .ok (.done, next, after) := by
    simp only [handle, compaction, compacted]
    rfl
  have clean : Clean compaction db world := by
    refine ⟨live, fun key entry found => ?_⟩
    have endless : entry.expiryMs = none :=
      Option.isNone_iff_eq_none.mp (lasting _ ((SortedMap.mem_toList _ _ _).mpr found))
    simp [endless]
  have first : Trail (7 + ·) Clean (fun _ _ _ => False) db world :=
    (Trail.new 100 .never).call (show Clean write _ _ from trivial) wrote
  have trail : Trail (7 + ·) Clean (fun _ _ _ => False) next after := first.call clean ran
  have result := accounted_iff_clean distinct trail
  exact ⟨db, world, next, after, written, compacted, result.1, result.2.1⟩

/-- A key written twice and compacted: the file holds one record, the counters still count
two.
-/
theorem compact_leaves_counters
    : ∃ replies db world,
        run (7 + ·)
            [
              { call := .set "k" "v", nowMs := 1, finishMs := 1 },
              { call := .set "k" "w", nowMs := 2, finishMs := 2 },
              { call := .compact .stored (fun _ => 3), nowMs := 3, finishMs := 3 }
            ]
            (new (7 + ·) 100 .never .initial).1 (new (7 + ·) 100 .never .initial).2
          = .ok (replies, db, world)
        ∧ world.disk.segmentBytes = 23
        ∧ db.recordBytes world.disk = 23
        ∧ db.totalBytes = 46
        ∧ db.deadBytes = 23 := by
  have computed : (run (7 + ·)
      [
        { call := .set "k" "v", nowMs := 1, finishMs := 1 },
        { call := .set "k" "w", nowMs := 2, finishMs := 2 },
        { call := .compact .stored (fun _ => 3), nowMs := 3, finishMs := 3 }
      ]
      (new (7 + ·) 100 .never .initial).1
      (new (7 + ·) 100 .never .initial).2).toOption.any (fun ran =>
        decide (ran.2.2.disk.segmentBytes = 23
          ∧ ran.2.1.recordBytes ran.2.2.disk = 23
          ∧ ran.2.1.totalBytes = 46
          ∧ ran.2.1.deadBytes = 23))
      = true := by
    decide +kernel
  simp only [Option.any_eq_true, toOption_eq_some, decide_eq_true_eq] at computed
  obtain ⟨⟨replies, db, world⟩, ran, counted⟩ := computed
  exact ⟨replies, db, world, ran, counted⟩

end KVEngine

end Rustikv.Kv

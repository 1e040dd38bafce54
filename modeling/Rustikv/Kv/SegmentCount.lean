import Rustikv.Kv.ByteCounters
import Rustikv.Kv.Coherence

/-! The segment counter of the hash engine against its segment files. A compaction sets it to
one, however many segments its copies have filled.
-/

namespace Rustikv.Kv

open Library

-----------------------------------------------------------------------------------------
-- Counting files
-----------------------------------------------------------------------------------------

/-- The counter is the number of segment files. -/
def KVEngine.CountsSegments (db : KVEngine) (world : World) : Prop :=
  db.segmentCount = world.disk.getSegments.length

/-- All copies of a compaction fit one segment. Other calls are unrestricted. -/
def CopiesFit (event : Event) (db : KVEngine) (world : World) : Prop :=
  match event.call with
  | .compact order copyMs =>
      ((KVEngine.copiedRecords order db world event.nowMs copyMs).map Record.sizeOnDisk).sum
        ≤ db.maxSegmentBytes.toNat
  | _ => True

/-- The number of segments that `old` does not have. -/
def Disk.newSegments (old disk : Disk) : Nat :=
  Disk.newTotal (fun _ => 1) old disk

theorem total_one (disk : Disk)
    : SortedMap.total (fun _ (_ : Bytes) => 1) disk.segments = disk.getSegments.length := by
  simp [SortedMap.total, Disk.getSegments, ← Std.TreeMap.map_fst_toList_eq_keys]

theorem newSegments_empty (disk : Disk)
    : Disk.newSegments Disk.empty disk = disk.getSegments.length :=
  (newTotal_empty (fun _ => 1) disk).trans (total_one disk)

/-- A write counts the segment it starts. -/
theorem Written.newSegments {record : Record} {db next : KVEngine} {old : Disk}
    {world after : World} (written : Written record db next world after)
    (apart : next.activeSegment ∉ old.segments)
    : Disk.newSegments old after.disk + db.segmentCount
      = Disk.newSegments old world.disk + next.segmentCount := by
  unfold Disk.newSegments
  cases written with
  | stayed file present small active count files =>
      have changed := files.newTotal apart (fun _ => 1)
      rw [active, present, Option.elim_some] at changed
      omega
  | rolled file present large new count files =>
      have changed := files.newTotal apart (fun _ => 1)
      rw [Std.TreeMap.getElem?_eq_none new, Option.elim_none] at changed
      omega

/-- Changing a file that is there changes no number of files. -/
theorem Replaces.length_getSegments {segment : Nat} {file : Bytes} {before after : Disk}
    (replaces : Replaces segment file before after) (present : segment ∈ before.segments)
    : after.getSegments.length = before.getSegments.length := by
  obtain ⟨old, found⟩ := (before.segments.mem_iff _).mp present
  have changed := replaces.newTotal (by simp [Disk.empty] : segment ∉ Disk.empty.segments)
    (fun _ => 1)
  rw [found, Option.elim_some] at changed
  rw [← newSegments_empty, ← newSegments_empty]
  exact Nat.add_right_cancel changed

-----------------------------------------------------------------------------------------
-- Counting along with a compaction
-----------------------------------------------------------------------------------------

/-- The sizes of the records still to be copied. -/
def remainingBytes (db : KVEngine) (start : World) (copyMs : String → UInt64)
    (rest : List (String × Option UInt64))
    : Nat :=
  ((rest.filterMap (KVEngine.copiedRecord db start copyMs)).map Record.sizeOnDisk).sum

/-- The replacement counts its segments. With what is still to be copied, its only segment
comes to `size`, or `size` is more than one segment takes.
-/
structure Packing (db : KVEngine) (start : World) (copyMs : String → UInt64) (size : Nat)
    (rest : List (String × Option UInt64)) (newDb : KVEngine) (world : World)
    : Prop where
  count : Disk.newSegments start.disk world.disk = newDb.segmentCount
  packed
    : (newDb.segmentCount = 1
        ∧ ∃ file,
            world.disk.segments[newDb.activeSegment]? = some file
            ∧ file.length ≤ newDb.maxSegmentBytes.toNat
            ∧ file.length + remainingBytes db start copyMs rest = size)
      ∨ (1 < newDb.segmentCount ∧ newDb.maxSegmentBytes.toNat < size)

theorem Packing.write {db newDb next : KVEngine} {start world after : World}
    {copyMs : String → UInt64} {size : Nat} {item : String × Option UInt64}
    {rest : List (String × Option UInt64)} {record : Record}
    (packing : Packing db start copyMs size (item :: rest) newDb world)
    (copied : KVEngine.copiedRecord db start copyMs item = some record)
    (formed : record.WellFormed) (written : Written record newDb next world after)
    (apart : next.activeSegment ∉ start.disk.segments)
    (limit : next.maxSegmentBytes = newDb.maxSegmentBytes)
    : Packing db start copyMs size rest next after := by
  have counted := written.newSegments apart
  have before := packing.count
  have split : remainingBytes db start copyMs (item :: rest)
      = record.sizeOnDisk + remainingBytes db start copyMs rest := by
    simp [remainingBytes, copied]
  refine ⟨by omega, ?_⟩
  rw [limit]
  rcases packing.packed with ⟨single, file, present, fits, sum⟩ | ⟨several, large⟩
  · rw [split] at sum
    cases written with
    | stayed other otherPresent small active count files =>
        obtain rfl := Option.some.inj (present.symm.trans otherPresent)
        refine Or.inl ⟨count.trans single, _, (files _).trans (if_pos rfl), ?_, ?_⟩
        · rw [List.length_append, Record.length_toBeBytes formed]
          exact small
        · rw [List.length_append, Record.length_toBeBytes formed]
          omega
    | rolled other otherPresent exceeds new count files =>
        obtain rfl := Option.some.inj (present.symm.trans otherPresent)
        exact Or.inr ⟨by omega, by omega⟩
  · refine Or.inr ⟨?_, large⟩
    cases written with
    | stayed other otherPresent small active count files => omega
    | rolled other otherPresent exceeds new count files => omega

namespace KVEngine

variable {clock : Nat → Nat} {db next : KVEngine} {world after : World}

theorem newSegments_new (missing : clock world.ticks ∉ world.disk.segments)
    (maxSegmentBytes : UInt64) (fsyncStrategy : FSyncStrategy)
    : Disk.newSegments world.disk (new clock maxSegmentBytes fsyncStrategy world).2.disk
      = 1 := by
  have counted := (new_files missing maxSegmentBytes fsyncStrategy).newTotal missing
    (fun _ => 1)
  rw [newTotal_self] at counted
  simpa [Disk.newSegments, new, World.newSegment, Std.TreeMap.getElem?_eq_none missing]
    using counted

/-- A compaction leaves as many files as its copies fill: one exactly if they fit one. -/
theorem compact_countsSegments_iff (increasing : StrictMono clock)
    (coheres : Coheres clock db world) {order : IterOrder} {nowMs : UInt64}
    {copyMs : String → UInt64}
    (compacted : db.compact clock order world nowMs copyMs = .ok (next, after))
    : CountsSegments next after
      ↔ ((copiedRecords order db world nowMs copyMs).map Record.sizeOnDisk).sum
          ≤ db.maxSegmentBytes.toNat := by
  obtain ⟨newDb, filled, ran, rfl, -, files⟩ := compact_cases compacted
  obtain ⟨logs, updates, wal, coherent⟩ := coheres
  obtain ⟨contents, represents⟩ := coherent.represents
  let size := remainingBytes db world copyMs (snapshotKeys order db nowMs)
  have missing : clock world.ticks ∉ world.disk.segments :=
    coherent.fresh.unused increasing _ le_rfl
  have created := new_files missing db.maxSegmentBytes db.fsyncStrategy
  have start : Packing db world copyMs size (snapshotKeys order db nowMs)
      (new clock db.maxSegmentBytes db.fsyncStrategy world).1
      (new clock db.maxSegmentBytes db.fsyncStrategy world).2 :=
    ⟨newSegments_new missing _ _, Or.inl ⟨rfl, [], (created _).trans (if_pos rfl),
      Nat.zero_le _, Nat.zero_add _⟩⟩
  obtain ⟨replacing, packing⟩ := foldlM_induction
    (motive := fun rest state =>
      Replacing clock db world state.1 state.2
      ∧ Packing db world copyMs size rest state.1 state.2)
    (by
      rintro item rest state next ⟨replacing, packing⟩ done
      obtain ⟨now, ⟨skipped, same, sameWorld⟩ | ⟨record, copied, formed, written⟩⟩ :=
        replacing.copyKey increasing represents done
      · refine ⟨now, ?_⟩
        rw [same, sameWorld]
        refine ⟨packing.count, ?_⟩
        simpa [remainingBytes, skipped] using packing.packed
      · exact ⟨now, packing.write copied formed written now.apart
          (now.limit.trans replacing.limit.symm)⟩)
    ⟨.new increasing ⟨logs, updates, wal, coherent⟩, start⟩ ran
  have count : after.disk.getSegments.length = newDb.segmentCount := by
    rw [← total_one, newTotal_of_removed (fun _ => 1) files]
    exact packing.count
  have packed := packing.packed
  rw [replacing.limit] at packed
  dsimp only at packed
  rw [CountsSegments, count]
  change 1 = newDb.segmentCount ↔ size ≤ db.maxSegmentBytes.toNat
  rcases packed with ⟨single, file, -, fits, sum⟩ | ⟨several, large⟩
  · have all : file.length = size := by simpa [remainingBytes] using sum
    omega
  · omega

-----------------------------------------------------------------------------------------
-- Whole runs
-----------------------------------------------------------------------------------------

theorem copiesFit_of_adds {event : Event} (adds : event.call.Adds) (db : KVEngine)
    (world : World)
    : CopiesFit event db world := by
  obtain ⟨call, nowMs, finishMs⟩ := event
  cases call with
  | compact order copyMs => exact adds.elim
  | _ => trivial

theorem CountsSegments.setWithTtl (increasing : StrictMono clock)
    (coheres : Coheres clock db world) (counts : CountsSegments db world)
    {key value : String} {expiryMs : Option UInt64}
    (written : db.setWithTtl clock world key value expiryMs = .ok (next, after))
    : CountsSegments next after := by
  obtain ⟨logs, updates, wal, coherent⟩ := coheres
  have change := setWithTtl_written coherent.active
    (coherent.fresh.unused increasing _ le_rfl) written
  have counted := change.newSegments
    (by simp [Disk.empty] : next.activeSegment ∉ Disk.empty.segments)
  rw [newSegments_empty, newSegments_empty] at counted
  unfold CountsSegments at counts ⊢
  omega

/-- One call keeps the count, unless it is a compaction with more copies than fit. -/
theorem handle_countsSegments_iff (increasing : StrictMono clock)
    (coheres : Coheres clock db world) (counts : CountsSegments db world) {event : Event}
    {reply : Reply} (handled : handle clock event db world = .ok (reply, next, after))
    : CountsSegments next after ↔ CopiesFit event db world := by
  obtain ⟨logs, updates, wal, coherent⟩ := id coheres
  obtain ⟨contents, represents⟩ := coherent.represents
  cases handle_cases represents handled with
  | unchanged adds same sameWorld =>
      exact iff_of_true (same ▸ sameWorld ▸ counts) (copiesFit_of_adds adds db world)
  | written adds items done =>
      have ran := foldlM_induction
        (motive := fun _ state =>
          Coheres clock state.1 state.2 ∧ CountsSegments state.1 state.2)
        (fun item rest state next both written =>
          ⟨both.1.setWithTtl increasing written,
            both.2.setWithTtl increasing both.1 written⟩)
        ⟨coheres, counts⟩ done
      exact iff_of_true ran.2 (copiesFit_of_adds adds db world)
  | deleted key found call done =>
      refine iff_of_true ?_ (by simp [CopiesFit, call])
      obtain ⟨-, count, -, ⟨-, same⟩ | ⟨-, files⟩⟩ := delete_files done
      · rw [CountsSegments, count, Disk.getSegments, same]
        exact counts
      · obtain ⟨file, present⟩ := (world.disk.segments.mem_iff _).mp coherent.active
        rw [CountsSegments, count, (files file present).length_getSegments coherent.active]
        exact counts
  | compacted order copyMs call done =>
      rw [compact_countsSegments_iff increasing coheres done]
      simp only [CopiesFit, call]

theorem fromDir_countsSegments {maxSegmentBytes : UInt64} {fsyncStrategy : FSyncStrategy}
    (reopened : fromDir maxSegmentBytes fsyncStrategy world = .ok (some next, after))
    : CountsSegments next after := by
  obtain ⟨memtable, file, last, -, -, -, count, files⟩ := fromDir_cases reopened
  have present : next.activeSegment ∈ world.disk.segments :=
    world.disk.mem_getSegments.mp (List.mem_of_getLast? last)
  rw [CountsSegments, count, files.length_getSegments present]

/-- While the copies of every compaction fit one segment, the counter is the number of
segment files. The first compaction whose copies do not puts it wrong.
-/
theorem countsSegments_iff_copiesFit (increasing : StrictMono clock)
    (trail : Trail clock CopiesFit (fun _ _ _ => True) db world)
    : CountsSegments db world
      ∧ (∀ event reply next after,
          handle clock event db world = .ok (reply, next, after)
          → (CountsSegments next after ↔ CopiesFit event db world))
      ∧ ∀ maxSegmentBytes fsyncStrategy next after,
          fromDir maxSegmentBytes fsyncStrategy world = .ok (some next, after)
          → CountsSegments next after := by
  have counts : CountsSegments db world := by
    induction trail with
    | new maxSegmentBytes fsyncStrategy =>
        have missing : clock World.initial.ticks ∉ World.initial.disk.segments := by
          simp [World.initial, Disk.empty]
        have counted := newSegments_new missing maxSegmentBytes fsyncStrategy
        rw [CountsSegments, ← newSegments_empty]
        exact counted.symm
    | call trail allowed handled ih =>
        exact (handle_countsSegments_iff increasing (coheres_of_trail increasing trail) ih
          handled).mpr allowed
    | reopen trail reopens reopened ih => exact fromDir_countsSegments reopened
  exact ⟨counts,
    fun event reply next after handled =>
      handle_countsSegments_iff increasing (coheres_of_trail increasing trail) counts handled,
    fun maxSegmentBytes fsyncStrategy next after reopened => fromDir_countsSegments reopened⟩

/-- Witness: a compaction whose one copy fits, and a reopening behind it. -/
theorem countsSegments_iff_copiesFit_reopened
    : ∃ db world next after last final,
        (new (7 + ·) 30 .never .initial).1.set (7 + ·)
            (new (7 + ·) 30 .never .initial).2 "k" "v"
          = .ok (db, world)
        ∧ db.compact (7 + ·) .stored world 2 (fun _ => 2) = .ok (next, after)
        ∧ fromDir 30 .never after = .ok (some last, final)
        ∧ CountsSegments last final := by
  have computed : ((new (7 + ·) 30 .never .initial).1.set (7 + ·)
      (new (7 + ·) 30 .never .initial).2 "k" "v").toOption.any (fun filled =>
        decide (((copiedRecords .stored filled.1 filled.2 2 (fun _ => 2)).map
          Record.sizeOnDisk).sum ≤ filled.1.maxSegmentBytes.toNat)
        && (filled.1.compact (7 + ·) .stored filled.2 2 (fun _ => 2)).toOption.any
            (fun compacted =>
              (fromDir 30 .never compacted.2).toOption.any (fun reopened =>
                reopened.1.isSome)))
      = true := by
    decide +kernel
  simp only [Option.any_eq_true, toOption_eq_some, Option.isSome_iff_exists,
    Bool.and_eq_true, decide_eq_true_eq] at computed
  obtain ⟨⟨db, world⟩, written, fit, ⟨next, after⟩, compacted, ⟨_, final⟩, reopened, last,
    rfl⟩ := computed
  have increasing : StrictMono (7 + · : Nat → Nat) := fun _ _ before =>
    Nat.add_lt_add_left before 7
  let write : Event := { call := .set "k" "v", nowMs := 1, finishMs := 1 }
  let compaction : Event :=
    { call := .compact .stored (fun _ => 2), nowMs := 2, finishMs := 2 }
  have wrote : handle (7 + ·) write (new (7 + ·) 30 .never .initial).1
      (new (7 + ·) 30 .never .initial).2 = .ok (.done, db, world) := by
    simp only [handle, write, written]
    rfl
  have ran : handle (7 + ·) compaction db world = .ok (.done, next, after) := by
    simp only [handle, compaction, compacted]
    rfl
  have first : Trail (7 + ·) CopiesFit (fun _ _ _ => True) db world :=
    (Trail.new 30 .never).call (show CopiesFit write _ _ from trivial) wrote
  have second : Trail (7 + ·) CopiesFit (fun _ _ _ => True) next after :=
    first.call (show CopiesFit compaction db world from fit) ran
  have third : Trail (7 + ·) CopiesFit (fun _ _ _ => True) last final :=
    second.reopen trivial reopened
  exact ⟨db, world, next, after, last, final, written, compacted, reopened,
    (countsSegments_iff_copiesFit increasing third).1⟩

/-- Two keys whose records do not fit one segment: the compaction fills two and counts one. -/
theorem compact_miscounts_segments
    : ∃ replies db world,
        run (7 + ·)
            [
              { call := .set "a" "v", nowMs := 1, finishMs := 1 },
              { call := .set "b" "w", nowMs := 2, finishMs := 2 },
              { call := .compact .stored (fun _ => 3), nowMs := 3, finishMs := 3 }
            ]
            (new (7 + ·) 30 .never .initial).1 (new (7 + ·) 30 .never .initial).2
          = .ok (replies, db, world)
        ∧ db.segmentCount = 1
        ∧ world.disk.getSegments.length = 2 := by
  have computed : (run (7 + ·)
      [
        { call := .set "a" "v", nowMs := 1, finishMs := 1 },
        { call := .set "b" "w", nowMs := 2, finishMs := 2 },
        { call := .compact .stored (fun _ => 3), nowMs := 3, finishMs := 3 }
      ]
      (new (7 + ·) 30 .never .initial).1
      (new (7 + ·) 30 .never .initial).2).toOption.any (fun ran =>
        decide (ran.2.1.segmentCount = 1 ∧ ran.2.2.disk.getSegments.length = 2))
      = true := by
    decide +kernel
  simp only [Option.any_eq_true, toOption_eq_some, decide_eq_true_eq] at computed
  obtain ⟨⟨replies, db, world⟩, ran, counted⟩ := computed
  exact ⟨replies, db, world, ran, counted⟩

end KVEngine

end Rustikv.Kv

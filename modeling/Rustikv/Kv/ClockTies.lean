import Rustikv.Kv.Outcomes
import Rustikv.Kv.Refinement

/-! Compaction under a clock that may read the same millisecond twice. Segments are told
apart by their timestamps only, so a compaction that starts within the millisecond of an
existing segment writes to that segment's file, and removes it in the end.
-/

namespace Rustikv.Kv

open Library

-----------------------------------------------------------------------------------------
-- Segments and the clock
-----------------------------------------------------------------------------------------

/-- No segment is dated ahead of the clock. -/
def Dated (clock : Nat → Nat) (world : World) : Prop :=
  ∀ segment ∈ world.disk.segments, segment ≤ clock world.ticks

namespace Dated

variable {clock : Nat → Nat} {world after : World}

theorem of_segments (dated : Dated clock world) (ticks : after.ticks = world.ticks)
    (segments : ∀ segment ∈ after.disk.segments, segment ∈ world.disk.segments)
    : Dated clock after := by
  intro segment present
  rw [ticks]
  exact dated segment (segments segment present)

/-- Only creating a segment adds one. -/
theorem perform (dated : Dated clock world) (operation : FileOp)
    (kept : ∀ segment, operation ≠ .segmentCreate segment)
    : Dated clock (world.perform operation) := by
  refine dated.of_segments rfl ?_
  intro segment present
  cases operation with
  | segmentCreate timestamp => exact absurd rfl (kept timestamp)
  | segmentAppend timestamp bytes => simpa [Disk.apply] using present
  | segmentRemove timestamp =>
      simp only [World.disk_perform, Disk.apply, Std.TreeMap.mem_erase] at present
      exact present.2
  | walAppend _ => exact present
  | walTruncate => exact present
  | segmentSync _ => exact present
  | hintCreate _ => exact present
  | hintAppend _ _ => exact present
  | hintRemove _ => exact present

/-- A segment created now has the clock's date. -/
theorem create (monotone : Monotone clock) (dated : Dated clock world)
    : Dated clock
        ((world.newSegment clock).2.perform (.segmentCreate (clock world.ticks))) := by
  have tick : clock world.ticks ≤ clock (world.ticks + 1) := monotone (Nat.le_succ _)
  intro segment present
  simp only [World.newSegment, World.disk_perform, Disk.apply] at present
  split at present
  · exact (dated segment present).trans tick
  · simp only [Std.TreeMap.mem_insert, Std.LawfulEqCmp.compare_eq_iff_eq] at present
    rcases present with rfl | old
    · exact tick
    · exact (dated segment old).trans tick

theorem settled {db next : KVEngine} (dated : Dated clock world)
    (settled : KVEngine.Settled db next world after)
    : Dated clock after :=
  dated.of_segments settled.ticks (by simp [settled.disk])

variable (monotone : Monotone clock) {db next : KVEngine}
include monotone

theorem kvAppend (dated : Dated clock world) (db : KVEngine) (key value : String)
    (expiryMs : Option UInt64)
    : Dated clock (db.kvAppend clock world key value expiryMs).2.2 := by
  rw [KVEngine.kvAppend_eq]
  refine perform ?_ _ (by simp)
  have logged := dated.perform
    (.walAppend (Wal.record key value false expiryMs).toBeBytes) (by simp)
  unfold KVEngine.appendTarget
  dsimp only
  split
  · rw [KVEngine.rollActive_eq]
    have synced := logged.perform (.segmentSync db.activeSegment) (by simp)
    exact (create monotone synced).perform .walTruncate (by simp)
  · exact logged

theorem setWithTtl (dated : Dated clock world) {key value : String}
    {expiryMs : Option UInt64}
    (written : db.setWithTtl clock world key value expiryMs = .ok (next, after))
    : Dated clock after := by
  obtain ⟨-, settled, -, -⟩ := KVEngine.setWithTtl_cases written
  exact (dated.kvAppend monotone db key value expiryMs).settled settled

theorem compact (dated : Dated clock world) {order : IterOrder} {nowMs : UInt64}
    {copyMs : String → UInt64}
    (compacted : db.compact clock order world nowMs copyMs = .ok (next, after))
    : Dated clock after := by
  obtain ⟨newDb, filled, ran, -, ticks, files⟩ := KVEngine.compact_cases compacted
  have copied : Dated clock filled := by
    refine foldlM_induction (motive := fun _ state => Dated clock state.2) ?_
      (dated.create monotone) ran
    intro item rest state next stillDated done
    rcases KVEngine.copyKey_cases done with ⟨-, -, same⟩ | ⟨value, -, written⟩
    · rwa [same]
    · exact stillDated.setWithTtl monotone written
  refine copied.of_segments ticks ?_
  intro segment present
  obtain ⟨file, found⟩ := (after.disk.segments.mem_iff _).mp present
  rw [files] at found
  split at found
  · cases found
  · exact (filled.disk.segments.mem_iff _).mpr ⟨file, found⟩

/-- No call dates a segment ahead of the clock. -/
theorem handle (dated : Dated clock world) {event : Event} {reply : Reply}
    (handled : KVEngine.handle clock event db world = .ok (reply, next, after))
    : Dated clock after := by
  obtain ⟨call, nowMs, finishMs⟩ := event
  cases call with
  | set key value =>
      obtain ⟨⟨last, later⟩, written, same⟩ := bind_eq_ok.mp handled
      cases same
      exact dated.setWithTtl monotone written
  | setWithTtl key value expiryMs =>
      obtain ⟨⟨last, later⟩, written, same⟩ := bind_eq_ok.mp handled
      cases same
      exact dated.setWithTtl monotone written
  | msetWithTtl items =>
      obtain ⟨⟨last, later⟩, written, same⟩ := bind_eq_ok.mp handled
      cases same
      refine foldlM_induction (motive := fun _ state => Dated clock state.2) ?_ dated written
      intro item rest state next stillDated written
      exact stillDated.setWithTtl monotone written
  | delete key =>
      obtain ⟨⟨found, last, later⟩, deleted, same⟩ := bind_eq_ok.mp handled
      cases same
      have logged : Dated clock (KVEngine.deleteWal world key) :=
        dated.perform _ (by simp)
      obtain ⟨-, ⟨-, -, rfl⟩ | ⟨entry, -, same⟩⟩ := KVEngine.delete_cases deleted
      · exact logged
      · obtain rfl := congrArg Prod.snd same
        have appended := logged.perform
          (.segmentAppend db.activeSegment (KVEngine.tombstoneRecord key).toBeBytes)
          (by simp)
        exact appended.settled (KVEngine.fsync_settled _ _)
  | ttl key expiryMs =>
      obtain ⟨⟨outcome, last, later⟩, written, same⟩ := bind_eq_ok.mp handled
      cases same
      obtain ⟨found, -, written⟩ := bind_eq_ok.mp written
      cases found with
      | none =>
          cases written
          exact dated
      | some value =>
          obtain rfl := congrArg (fun result => result.2.2) (Except.ok.inj written)
          exact (dated.kvAppend monotone db key value expiryMs).settled
            (KVEngine.finishWrite_settled _ _ _ _)
  | get key =>
      obtain ⟨found, -, same⟩ := bind_eq_ok.mp handled
      cases same
      exact dated
  | mget keys =>
      obtain ⟨found, -, same⟩ := bind_eq_ok.mp handled
      cases same
      exact dated
  | «exists» key =>
      cases handled
      exact dated
  | listKeys order =>
      cases handled
      exact dated
  | compact order copyMs =>
      obtain ⟨⟨last, later⟩, compacted, same⟩ := bind_eq_ok.mp handled
      cases same
      exact dated.compact monotone compacted

theorem run (dated : Dated clock world) {events : List Event} {replies : List Reply}
    (ran : KVEngine.run clock events db world = .ok (replies, next, after))
    : Dated clock after := by
  induction events generalizing db world replies with
  | nil =>
      cases ran
      exact dated
  | cons event rest ih =>
      obtain ⟨⟨reply, middle, between⟩, handled, others⟩ := bind_eq_ok.mp ran
      obtain ⟨⟨more, last, later⟩, ranRest, same⟩ := bind_eq_ok.mp others
      cases same
      exact ih (dated.handle monotone handled) ranRest

omit monotone in
/-- Reopening a directory appends to its last segment only. -/
theorem fromDir (dated : Dated clock world) {maxSegmentBytes : UInt64}
    {fsyncStrategy : FSyncStrategy} {reopened : Option KVEngine}
    (opened
      : KVEngine.fromDir maxSegmentBytes fsyncStrategy world = .ok (reopened, after))
    : Dated clock after := by
  unfold KVEngine.fromDir at opened
  split at opened
  · cases opened
    exact dated
  · rename_i segment last
    obtain ⟨index, -, opened⟩ := bind_eq_ok.mp opened
    obtain ⟨memtable, -, opened⟩ := bind_eq_ok.mp opened
    cases opened
    have replayed (entries : List (String × MemtableEntry)) (state : KVEngine.Recovery)
        (start : Dated clock state.world)
        : Dated clock (entries.foldl (KVEngine.replayEntry segment) state).world := by
      induction entries generalizing state with
      | nil => exact start
      | cons entry rest ih =>
          refine ih _ ?_
          obtain ⟨key, value, expiryMs⟩ := entry
          cases value with
          | none => exact start.perform _ (by simp)
          | some value => exact start.perform _ (by simp)
    exact (replayed _ _ dated).perform .walTruncate (by simp)

end Dated

/-- So in every run from a new engine all segments are dated by the clock. -/
theorem dated_of_run {clock : Nat → Nat} (monotone : Monotone clock)
    {maxSegmentBytes : UInt64} {fsyncStrategy : FSyncStrategy} {events : List Event}
    {replies : List Reply} {db : KVEngine} {world : World}
    (ran
      : KVEngine.run clock events
            (KVEngine.new clock maxSegmentBytes fsyncStrategy World.initial).1
            (KVEngine.new clock maxSegmentBytes fsyncStrategy World.initial).2
          = .ok (replies, db, world))
    : Dated clock world := by
  have empty : Dated clock World.initial := by
    intro segment present
    simp [World.initial, Disk.empty] at present
  exact (empty.create monotone).run monotone ran

namespace KVEngine

variable {clock : Nat → Nat}

-----------------------------------------------------------------------------------------
-- What a compaction should keep, and when it does
-----------------------------------------------------------------------------------------

/-- Every key that read before a compaction reads the same after it, as soon as its copy
has been made.
-/
def KeepsLiveKeys (db next : KVEngine) (world after : World) (copyMs : String → UInt64)
    : Prop :=
  ∀ key value time,
    copyMs key ≤ time
    → db.get world key time = .ok (some (key, value))
    → next.get after key time = .ok (some (key, value))

/-- The segment of every index entry has its file. -/
def RefersToFiles (db : KVEngine) (world : World) : Prop :=
  ∀ key entry,
    db.index.get key = some entry → entry.segmentTimestamp ∈ world.disk.segments

/-- The compaction starts a segment of its own; or its first record, if there is one, does
not fit behind the segment it finds instead and is rolled to one of its own.
-/
def Separated (clock : Nat → Nat) (order : IterOrder) (db : KVEngine) (world : World)
    (nowMs : UInt64) (copyMs : String → UInt64)
    : Prop :=
  clock world.ticks ∉ world.disk.segments
  ∨ ∀ record ∈ (copiedRecords order db world nowMs copyMs).head?,
      db.maxSegmentBytes.toNat
          < world.disk.segmentSize (clock world.ticks) + record.sizeOnDisk
      ∧ clock (world.ticks + 1) ∉ world.disk.segments

-----------------------------------------------------------------------------------------
-- The replacement while it is being filled
-----------------------------------------------------------------------------------------

/-- The replacement stores `copied`, and the files of the start have only grown. -/
structure Filling (db : KVEngine) (start : World) (newDb : KVEngine) (world : World)
    (copied : Contents)
    : Prop where
  target : Represents newDb.index world.disk copied
  active : newDb.activeSegment ∈ world.disk.segments
  grows : Grows start.disk world.disk

theorem filling_new (clock : Nat → Nat) (db : KVEngine) (world : World)
    : Filling db world (new clock db.maxSegmentBytes db.fsyncStrategy world).1
        (new clock db.maxSegmentBytes db.fsyncStrategy world).2 Contents.empty where
  target := .empty _
  active := mem_segmentCreate _ _
  grows := .apply world.disk (.segmentCreate (clock world.ticks)) (by simp)

/-- Copying a key does nothing, or it writes its value. -/
theorem Filling.copyKey {db newDb next : KVEngine} {start world after : World}
    {copied : Contents} (filling : Filling db start newDb world copied)
    {item : String × Option UInt64} {nowMs : UInt64}
    (done : KVEngine.copyKey clock db newDb world item nowMs = .ok (next, after))
    : (db.get start item.1 nowMs = .ok none ∧ next = newDb ∧ after = world)
      ∨ ∃ value,
          db.get world item.1 nowMs = .ok (some (item.1, value))
          ∧ newDb.setWithTtl clock world item.1 value item.2 = .ok (next, after)
          ∧ Progress clock newDb next world after
          ∧ Filling db start next after (copied.set item.1 value item.2) := by
  rcases copyKey_cases done with ⟨absent, rfl, rfl⟩ | ⟨value, read, written⟩
  · exact Or.inl ⟨get_eq_none.mpr (get_eq_none.mp absent), rfl, rfl⟩
  · obtain ⟨_, _, again, progress, now⟩ := setWithTtl_sound clock filling.target
      filling.active (setWithTtl_cases written).1 item.2
    obtain ⟨rfl, rfl⟩ := Prod.mk.inj (Except.ok.inj (written.symm.trans again))
    exact Or.inr ⟨value, read, written, progress, now, progress.active,
      filling.grows.trans (setWithTtl_grows written)⟩

theorem live_earlier {expiryMs : Option UInt64} {earlier later : UInt64}
    (order : earlier ≤ later) (live : expiryMs.any (isExpired · later) = false)
    : expiryMs.any (isExpired · earlier) = false := by
  cases expiryMs with
  | none => rfl
  | some ms =>
      cases expired : isExpired ms earlier with
      | false => simpa using expired
      | true => simp [isExpired_mono order expired] at live

/-- Every snapshot key before `rest` that read at the start is copied, with its expiry. -/
def CaughtUp (order : IterOrder) (db : KVEngine) (start : World) (nowMs : UInt64)
    (copyMs : String → UInt64) (rest : List (String × Option UInt64)) (copied : Contents)
    : Prop :=
  ∀ item ∈ snapshotKeys order db nowMs,
    item.1 ∉ rest.map Prod.fst
    → ∀ value,
        db.get start item.1 (copyMs item.1) = .ok (some (item.1, value))
        → copied item.1 = some { value, expiryMs := item.2 }

/-- The keys of a snapshot are distinct, so one of its items is determined by its key. -/
theorem snapshotKeys_unique {order : IterOrder} {db : KVEngine} {nowMs : UInt64}
    {left right : String × Option UInt64} (first : left ∈ snapshotKeys order db nowMs)
    (second : right ∈ snapshotKeys order db nowMs) (same : left.1 = right.1)
    : left = right :=
  List.inj_on_of_nodup_map (nodup_snapshotKeys order db nowMs) first second same

theorem CaughtUp.copyKey {order : IterOrder} {db newDb next : KVEngine}
    {start world after : World} {nowMs : UInt64} {copyMs : String → UInt64}
    {item : String × Option UInt64} {rest : List (String × Option UInt64)}
    {copied : Contents} (filling : Filling db start newDb world copied)
    (caughtUp : CaughtUp order db start nowMs copyMs (item :: rest) copied)
    (listed : item ∈ snapshotKeys order db nowMs)
    (done
      : KVEngine.copyKey clock db newDb world item (copyMs item.1) = .ok (next, after))
    : ∃ now,
        Filling db start next after now ∧ CaughtUp order db start nowMs copyMs rest now := by
  rcases filling.copyKey done with ⟨absent, rfl, rfl⟩ | ⟨value, read, -, -, now⟩
  · refine ⟨copied, filling, ?_⟩
    intro other member outside value read
    by_cases same : other.1 = item.1
    · rw [same, absent] at read
      cases read
    · exact caughtUp other member (by simp [same, outside]) value read
  · refine ⟨_, now, ?_⟩
    intro other member outside found readBefore
    by_cases same : item.1 = other.1
    · obtain rfl := snapshotKeys_unique listed member same
      obtain ⟨entry, file, record, left, held, live, -⟩ := get_eq_some.mp readBefore
      have again := get_of_grows readBefore filling.grows (fun other otherHeld => by
        obtain rfl := Option.some.inj (held.symm.trans otherHeld)
        exact live)
      rw [again] at read
      obtain ⟨-, rfl⟩ := Prod.mk.inj (Option.some.inj (Except.ok.inj read))
      simp
    · rw [Contents.set_apply, if_neg same]
      exact caughtUp other member (by simp [Ne.symm same, outside]) found readBefore

/-- Copying a snapshot catches up with all of it. -/
theorem copyKeys_caughtUp {order : IterOrder} {db newDb : KVEngine} {world filled : World}
    {nowMs : UInt64} {copyMs : String → UInt64}
    (ran
      : (snapshotKeys order db nowMs).foldlM
            (fun state item =>
              KVEngine.copyKey clock db state.1 state.2 item (copyMs item.1))
            (new clock db.maxSegmentBytes db.fsyncStrategy world)
          = .ok (newDb, filled))
    : ∃ copied,
        Filling db world newDb filled copied
        ∧ CaughtUp order db world nowMs copyMs [] copied := by
  have start : CaughtUp order db world nowMs copyMs (snapshotKeys order db nowMs)
      Contents.empty :=
    fun item member outside => absurd (List.mem_map_of_mem member) outside
  refine (foldlM_induction
    (motive := fun rest state =>
      rest <:+ snapshotKeys order db nowMs
      ∧ ∃ copied,
          Filling db world state.1 state.2 copied
          ∧ CaughtUp order db world nowMs copyMs rest copied)
    ?_ ⟨List.suffix_rfl, _, filling_new clock db world, start⟩ ran).2
  rintro item rest state next ⟨suffix, copied, filling, caughtUp⟩ done
  exact ⟨(List.suffix_cons item rest).trans suffix,
    caughtUp.copyKey filling (suffix.subset (by simp)) done⟩

-----------------------------------------------------------------------------------------
-- Where the copies land
-----------------------------------------------------------------------------------------

/-- The replacement stays clear of the old segments, now and at all later rolls. -/
structure Apart (clock : Nat → Nat) (old : Disk) (newDb : KVEngine) (world : World)
    : Prop where
  active : newDb.activeSegment ∉ old.segments
  entries
    : ∀ key entry,
        newDb.index.get key = some entry → entry.segmentTimestamp ∉ old.segments
  later : ∀ tick, world.ticks ≤ tick → clock tick ∉ old.segments

theorem Apart.progress {old : Disk} {newDb next : KVEngine} {world after : World}
    (apart : Apart clock old newDb world) (progress : Progress clock newDb next world after)
    : Apart clock old next after := by
  have active : next.activeSegment ∉ old.segments := by
    rcases progress.segment with ⟨stayed, -⟩ | ⟨rolled, -⟩
    · rw [stayed]
      exact apart.active
    · rw [rolled]
      exact apart.later _ le_rfl
  have ticks : world.ticks ≤ after.ticks := by
    rcases progress.segment with ⟨-, same⟩ | ⟨-, next⟩ <;> omega
  refine ⟨active, ?_, fun tick later => apart.later tick (ticks.trans later)⟩
  intro key entry found
  rcases progress.entries key entry found with before | new
  · exact apart.entries key entry before
  · rw [new]
    exact active

/-- Behind a reading that no old segment has, the clock gives no old timestamp. -/
theorem later_of_not_mem (monotone : Monotone clock) {world : World} {tick : Nat}
    (past : Dated clock world)
    (order : world.ticks ≤ tick) (new : clock tick ∉ world.disk.segments) {later : Nat}
    (behind : tick ≤ later)
    : clock later ∉ world.disk.segments := by
  intro present
  have upper := (past _ present).trans (monotone order)
  have same : clock later = clock tick := le_antisymm upper (monotone behind)
  exact new (same ▸ present)

theorem apart_new (monotone : Monotone clock) {db : KVEngine} {world : World}
    (past : Dated clock world)
    (new : clock world.ticks ∉ world.disk.segments)
    : Apart clock world.disk (KVEngine.new clock db.maxSegmentBytes db.fsyncStrategy world).1
        (KVEngine.new clock db.maxSegmentBytes db.fsyncStrategy world).2 where
  active := new
  entries key entry found := by simp [KVEngine.new] at found
  later tick behind :=
    later_of_not_mem monotone past le_rfl new (Nat.le_of_succ_le behind)

/-- A first copy that is rolled to a new segment sets the replacement apart. -/
theorem apart_of_rolled (monotone : Monotone clock) {db next : KVEngine}
    {world after : World}
    (past : Dated clock world)
    (new : clock (world.ticks + 1) ∉ world.disk.segments)
    (progress
      : Progress clock (KVEngine.new clock db.maxSegmentBytes db.fsyncStrategy world).1 next
          (KVEngine.new clock db.maxSegmentBytes db.fsyncStrategy world).2 after)
    (rolled : next.activeSegment = clock (world.ticks + 1))
    : Apart clock world.disk next after := by
  have later : ∀ tick, world.ticks + 1 ≤ tick → clock tick ∉ world.disk.segments :=
    fun tick behind => later_of_not_mem monotone past (Nat.le_succ _) new behind
  have ticks : world.ticks + 1 ≤ after.ticks := by
    rcases progress.segment with ⟨-, same⟩ | ⟨-, next⟩
    · exact same.ge
    · simp only [KVEngine.new, World.newSegment, World.ticks_perform] at next
      omega
  refine ⟨rolled ▸ new, ?_, fun tick behind => later tick (ticks.trans behind)⟩
  intro key entry found
  rcases progress.entries key entry found with before | landed
  · simp [KVEngine.new] at before
  · rw [landed, rolled]
    exact new

/-- In the millisecond of an existing segment a compaction starts on its file. -/
theorem disk_new_of_mem {db : KVEngine} {world : World}
    (present : clock world.ticks ∈ world.disk.segments)
    : (new clock db.maxSegmentBytes db.fsyncStrategy world).2.disk = world.disk := by
  simp [new, World.newSegment, Disk.apply, present]

/-- The first copy goes to the segment the compaction started on, unless it is rolled. -/
theorem firstCopy_target {db next : KVEngine} {world after : World} {key value : String}
    {expiryMs : Option UInt64} (present : clock world.ticks ∈ world.disk.segments)
    (written
      : (new clock db.maxSegmentBytes db.fsyncStrategy world).1.setWithTtl clock
            (new clock db.maxSegmentBytes db.fsyncStrategy world).2 key value expiryMs
          = .ok (next, after))
    : next.activeSegment
      = if db.maxSegmentBytes.toNat
            < world.disk.segmentSize (clock world.ticks)
              + (valueRecord key value expiryMs).sizeOnDisk then
          clock (world.ticks + 1)
        else clock world.ticks := by
  have target := (setWithTtl_target written).1
  rw [disk_new_of_mem present] at target
  exact target

theorem get_new_of_mem {db : KVEngine} {world : World}
    (present : clock world.ticks ∈ world.disk.segments) (key : String) (nowMs : UInt64)
    : db.get (new clock db.maxSegmentBytes db.fsyncStrategy world).2 key nowMs
      = db.get world key nowMs := by
  unfold get
  rw [disk_new_of_mem present]

/-- When the condition holds, no copy lands in an old segment. -/
theorem copyKeys_apart (monotone : Monotone clock) {order : IterOrder}
    {db newDb : KVEngine} {world filled : World} {nowMs : UInt64}
    {copyMs : String → UInt64}
    (past : Dated clock world)
    (separated : Separated clock order db world nowMs copyMs)
    (ran
      : (snapshotKeys order db nowMs).foldlM
            (fun state item =>
              KVEngine.copyKey clock db state.1 state.2 item (copyMs item.1))
            (new clock db.maxSegmentBytes db.fsyncStrategy world)
          = .ok (newDb, filled))
    : ∀ key entry,
        newDb.index.get key = some entry → entry.segmentTimestamp ∉ world.disk.segments := by
  let start := new clock db.maxSegmentBytes db.fsyncStrategy world
  have final := (foldlM_induction
    (motive := fun rest state =>
      (∃ copied, Filling db world state.1 state.2 copied)
      ∧ (Apart clock world.disk state.1 state.2
        ∨ state = start
          ∧ clock world.ticks ∈ world.disk.segments
          ∧ ∀ record ∈ (rest.filterMap (copiedRecord db world copyMs)).head?,
              db.maxSegmentBytes.toNat
                  < world.disk.segmentSize (clock world.ticks) + record.sizeOnDisk
              ∧ clock (world.ticks + 1) ∉ world.disk.segments))
    ?_ ⟨⟨_, filling_new clock db world⟩, ?_⟩ ran).2
  · rcases final with apart | ⟨same, -⟩
    · exact apart.entries
    · intro key entry found
      rw [show newDb = start.1 from congrArg Prod.fst same] at found
      simp [start, new] at found
  · rintro item rest state next ⟨⟨copied, filling⟩, clear⟩ done
    rcases filling.copyKey done with ⟨absent, same, sameWorld⟩
      | ⟨value, read, written, progress, now⟩
    · obtain rfl : next = state := Prod.ext same sameWorld
      refine ⟨⟨copied, filling⟩, clear.imp_right ?_⟩
      rintro ⟨atStart, present, rolls⟩
      refine ⟨atStart, present, ?_⟩
      simpa [copiedRecord, absent] using rolls
    · refine ⟨⟨_, now⟩, Or.inl ?_⟩
      rcases clear with apart | ⟨rfl, present, rolls⟩
      · exact apart.progress progress
      · rw [get_new_of_mem present] at read
        obtain ⟨overflows, new⟩ := rolls (valueRecord item.1 value item.2)
          (by simp [copiedRecord, read])
        refine apart_of_rolled monotone past new progress ?_
        rw [firstCopy_target present written, if_pos overflows]
  · by_cases present : clock world.ticks ∈ world.disk.segments
    · exact Or.inr ⟨rfl, present, separated.resolve_left (not_not.mpr present)⟩
    · exact Or.inl (apart_new monotone past present)

/-- When the condition fails, the first key copied ends up in an old segment. -/
theorem copyKeys_landed {order : IterOrder} {db newDb : KVEngine} {world filled : World}
    {nowMs : UInt64} {copyMs : String → UInt64}
    (mixed : ¬ Separated clock order db world nowMs copyMs)
    (ran
      : (snapshotKeys order db nowMs).foldlM
            (fun state item =>
              KVEngine.copyKey clock db state.1 state.2 item (copyMs item.1))
            (new clock db.maxSegmentBytes db.fsyncStrategy world)
          = .ok (newDb, filled))
    : ∃ key value entry,
        db.get world key (copyMs key) = .ok (some (key, value))
        ∧ newDb.index.get key = some entry
        ∧ entry.segmentTimestamp ∈ world.disk.segments := by
  simp only [Separated, not_or, not_not, not_forall] at mixed
  obtain ⟨present, record, first, stays⟩ := mixed
  let start := new clock db.maxSegmentBytes db.fsyncStrategy world
  have final := foldlM_induction
    (motive := fun rest state =>
      rest <:+ snapshotKeys order db nowMs
      ∧ (state = start ∧ record ∈ (rest.filterMap (copiedRecord db world copyMs)).head?
        ∨ ∃ key value entry,
            key ∉ rest.map Prod.fst
            ∧ db.get world key (copyMs key) = .ok (some (key, value))
            ∧ state.1.index.get key = some entry
            ∧ entry.segmentTimestamp ∈ world.disk.segments))
    ?_ ⟨List.suffix_rfl, Or.inl ⟨rfl, first⟩⟩ ran
  · rcases final.2 with ⟨-, impossible⟩ | ⟨key, value, entry, -, landed⟩
    · cases impossible
    · exact ⟨key, value, entry, landed⟩
  · rintro item rest state next ⟨suffix, cases⟩ done
    refine ⟨(List.suffix_cons item rest).trans suffix, ?_⟩
    have distinct := (nodup_snapshotKeys order db nowMs).sublist
      (suffix.sublist.map Prod.fst)
    have fresh := (List.nodup_cons.mp distinct).1
    rcases copyKey_cases done with ⟨absent, same, sameWorld⟩ | ⟨value, read, written⟩
    · obtain rfl : next = state := Prod.ext same sameWorld
      rcases cases with ⟨rfl, member⟩ | ⟨key, value, entry, outside, landed⟩
      · rw [get_new_of_mem present] at absent
        exact Or.inl ⟨rfl, by simpa [copiedRecord, absent] using member⟩
      · exact Or.inr ⟨key, value, entry, fun member => outside (by simp [member]), landed⟩
    · refine Or.inr ?_
      obtain ⟨-, ⟨entry, held, landed, -⟩, others⟩ := setWithTtl_target written
      rcases cases with ⟨rfl, member⟩ | ⟨key, found, entry, outside, before, kept, old⟩
      · rw [get_new_of_mem present] at read
        refine ⟨item.1, value, entry, fresh, read, held, ?_⟩
        obtain rfl : valueRecord item.1 value item.2 = record := by
          simpa [copiedRecord, read] using member
        rw [landed, firstCopy_target present written]
        split
        · rename_i overflows
          by_contra new
          exact stays ⟨overflows, new⟩
        · exact present
      · refine ⟨key, found, entry, fun member => outside (by simp [member]), before, ?_, old⟩
        rw [others key (fun same => outside (by simp [same]))]
        exact kept

-----------------------------------------------------------------------------------------
-- The compaction as a whole
-----------------------------------------------------------------------------------------

/-- A compaction that returns keeps every live key exactly when it starts a segment of its
own, copies nothing, or rolls its first record to a segment of its own. The same goes for
removing no segment file that its index refers to.
-/
theorem compact_keeps_live_keys_iff (monotone : Monotone clock) {order : IterOrder}
    {db next : KVEngine} {world after : World} {nowMs : UInt64} {copyMs : String → UInt64}
    (past : Dated clock world)
    (timely : ∀ key, nowMs ≤ copyMs key)
    (compacted : db.compact clock order world nowMs copyMs = .ok (next, after))
    : (KeepsLiveKeys db next world after copyMs
        ↔ Separated clock order db world nowMs copyMs)
      ∧ (RefersToFiles next after ↔ Separated clock order db world nowMs copyMs) := by
  obtain ⟨newDb, filled, ran, rfl, -, files⟩ := compact_cases compacted
  obtain ⟨copied, filling, caughtUp⟩ := copyKeys_caughtUp ran
  have intact (separated : Separated clock order db world nowMs copyMs)
      : Represents newDb.index after.disk copied := by
    have apart := copyKeys_apart monotone past separated ran
    refine ⟨filling.target.absent, ?_⟩
    intro key entry found
    obtain ⟨value, holds, fits, file, rest, present, starts⟩ :=
      filling.target.present key entry found
    refine ⟨value, holds, fits, file, rest, ?_, starts⟩
    rw [files, if_neg (apart key entry found), present]
  have lost (mixed : ¬ Separated clock order db world nowMs copyMs)
      : ∃ key value entry,
          db.get world key (copyMs key) = .ok (some (key, value))
          ∧ newDb.index.get key = some entry
          ∧ after.disk.segments[entry.segmentTimestamp]? = none := by
    obtain ⟨key, value, entry, read, held, old⟩ := copyKeys_landed mixed ran
    exact ⟨key, value, entry, read, held, by rw [files, if_pos old]⟩
  constructor
  · constructor
    · intro keeps
      by_contra mixed
      obtain ⟨key, value, entry, read, held, gone⟩ := lost mixed
      obtain ⟨other, file, -, -, otherHeld, -, present, -⟩ :=
        get_eq_some.mp (keeps key value (copyMs key) UInt64.le_rfl read)
      obtain rfl := Option.some.inj (held.symm.trans otherHeld)
      rw [gone] at present
      cases present
    · intro separated key value time copiedBy read
      obtain ⟨entry, file, record, rest, held, live, -⟩ := get_eq_some.mp read
      have liveThen := live_earlier copiedBy live
      have readThen := get_of_grows read (.refl world.disk) (fun other otherHeld => by
        obtain rfl := Option.some.inj (held.symm.trans otherHeld)
        exact liveThen)
      have listed : (key, entry.expiryMs) ∈ snapshotKeys order db nowMs :=
        mem_snapshotKeys.mpr ⟨entry, held, live_earlier (timely key) liveThen, rfl⟩
      have item := caughtUp _ listed (by simp) value readThen
      have shows : Shows (db.swapCompacted newDb filled).1 after copied 0 :=
        ⟨copied, intact separated, fun _ _ _ => rfl⟩
      rw [shows.get key UInt64.zero_le, Contents.read, item]
      simp [Item.read, live]
  · constructor
    · intro refers
      by_contra mixed
      obtain ⟨key, value, entry, -, held, gone⟩ := lost mixed
      obtain ⟨file, present⟩ := (after.disk.segments.mem_iff _).mp (refers key entry held)
      rw [gone] at present
      cases present
    · intro separated key entry found
      obtain ⟨value, -, -, file, rest, present, -⟩ :=
        (intact separated).present key entry found
      exact (after.disk.segments.mem_iff _).mpr ⟨file, present⟩

/-- A clock that stands still for two readings at a time. -/
def pairedClock (tick : Nat) : Nat := 7 + tick / 2

/-- Witness: a compaction in the millisecond of the active segment, which its first record
does not fit behind.
-/
theorem compact_keeps_live_keys_rolled
    : ∃ db world next after,
        (new pairedClock 30 .never .initial).1.setWithTtl pairedClock
            (new pairedClock 30 .never .initial).2 "k" "v" none
          = .ok (db, world)
        ∧ db.compact pairedClock .stored world 2 (fun _ => 3) = .ok (next, after)
        ∧ (KeepsLiveKeys db next world after (fun _ => 3)
          ↔ Separated pairedClock .stored db world 2 (fun _ => 3))
        ∧ (RefersToFiles next after
          ↔ Separated pairedClock .stored db world 2 (fun _ => 3)) := by
  have computed : ((new pairedClock 30 .never .initial).1.setWithTtl pairedClock
      (new pairedClock 30 .never .initial).2 "k" "v" none).toOption.any (fun filled =>
        (filled.1.compact pairedClock .stored filled.2 2 (fun _ => 3)).toOption.isSome)
      = true := by
    decide +kernel
  simp only [Option.any_eq_true, toOption_eq_some, Option.isSome_iff_exists] at computed
  obtain ⟨⟨db, world⟩, written, ⟨next, after⟩, compacted⟩ := computed
  have monotone : Monotone pairedClock := fun _ _ order =>
    Nat.add_le_add_left (Nat.div_le_div_right order) 7
  have empty : Dated pairedClock World.initial := by
    intro segment present
    simp [World.initial, Disk.empty] at present
  have past := (empty.create monotone).setWithTtl monotone written
  have order : (2 : UInt64) ≤ 3 := by decide
  have timely : ∀ key : String, (2 : UInt64) ≤ (fun _ : String => (3 : UInt64)) key :=
    fun _ => order
  exact ⟨db, world, next, after, written, compacted,
    compact_keeps_live_keys_iff monotone past timely compacted⟩

/-- A key written and compacted within one millisecond: the compaction returns, and the key
is gone, because its copy was in the file that was removed.
-/
theorem compact_loses_live_key
    : ∃ db world next after entry error,
        (new (fun _ => 7) 100 .never .initial).1.setWithTtl (fun _ => 7)
            (new (fun _ => 7) 100 .never .initial).2 "k" "v" none
          = .ok (db, world)
        ∧ db.get world "k" 2 = .ok (some ("k", "v"))
        ∧ db.compact (fun _ => 7) .stored world 2 (fun _ => 2) = .ok (next, after)
        ∧ next.index.get "k" = some entry
        ∧ entry.segmentTimestamp ∉ after.disk.segments
        ∧ next.get after "k" 2 = .error error := by
  have computed : ((new (fun _ => 7) 100 .never .initial).1.setWithTtl (fun _ => 7)
      (new (fun _ => 7) 100 .never .initial).2 "k" "v" none).toOption.any (fun filled =>
        (filled.1.get filled.2 "k" 2).toOption.any
            (fun found => decide (found = some ("k", "v")))
        && (filled.1.compact (fun _ => 7) .stored filled.2 2 (fun _ => 2)).toOption.any
            (fun compacted =>
              (compacted.1.index.get "k").any
                (fun entry =>
                  decide (entry.segmentTimestamp ∉ compacted.2.disk.segments))
              && (compacted.1.get compacted.2 "k" 2).toOption.isNone))
      = true := by
    decide +kernel
  simp only [Option.any_eq_true, toOption_eq_some, Bool.and_eq_true, decide_eq_true_eq]
    at computed
  obtain ⟨⟨db, world⟩, written, ⟨_, read, rfl⟩, ⟨next, after⟩, compacted,
    ⟨entry, held, removed⟩, unread⟩ := computed
  cases failed : next.get after "k" 2 with
  | error error =>
      exact ⟨db, world, next, after, entry, error, written, read, compacted, held, removed,
        failed⟩
  | ok found =>
      rw [failed] at unread
      cases unread

end KVEngine

end Rustikv.Kv

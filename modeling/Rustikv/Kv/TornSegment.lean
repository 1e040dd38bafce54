import Rustikv.Kv.CompactionCrash
import Rustikv.Kv.Outcomes

/-! Crashes in the middle of a segment append. The WAL replay stops at a torn record, but
the segment scan that comes before it reports one as an error, so a directory with a torn
segment cannot be reopened.
-/

namespace Rustikv.Kv

open Library

-----------------------------------------------------------------------------------------
-- Appends a crash can tear
-----------------------------------------------------------------------------------------

/-- The process dies inside the segment append behind the first `writes` file operations:
of its bytes only `torn` reach the segment.
-/
def World.tearAppend (before after : World) (writes segment : Nat) (torn : Bytes) : World :=
  (before.crash after writes).perform (.segmentAppend segment torn)

/-- Whatever was appended to a segment between the two worlds was a whole record, and the
segment was there.
-/
def AppendsRecords (before after : World) : Prop :=
  ∃ operations,
    Performs before after operations
    ∧ ∀ index segment bytes,
        operations[index]? = some (.segmentAppend segment bytes)
        → segment ∈ ((operations.take index).foldl Disk.apply before.disk).segments
          ∧ ∃ update : Update, update.Fits ∧ bytes = update.record.toBeBytes

namespace AppendsRecords

variable {before after : World}

theorem refl (world : World) : AppendsRecords world world :=
  ⟨[], .refl world, by simp⟩

theorem perform (appends : AppendsRecords before after) {operation : FileOp}
    (whole
      : ∀ segment bytes,
          operation = .segmentAppend segment bytes
          → segment ∈ after.disk.segments
            ∧ ∃ update : Update, update.Fits ∧ bytes = update.record.toBeBytes)
    : AppendsRecords before (after.perform operation) := by
  obtain ⟨operations, performs, earlier⟩ := appends
  refine ⟨operations ++ [operation], performs.perform operation, ?_⟩
  intro index segment bytes found
  rcases Nat.lt_trichotomy index operations.length with inside | rfl | beyond
  · rw [List.getElem?_append_left inside] at found
    rw [List.take_append_of_le_length inside.le]
    exact earlier index segment bytes found
  · simp only [List.getElem?_concat_length, Option.some.injEq] at found
    rw [List.take_left, ← performs.disk]
    exact whole segment bytes found
  · rw [List.getElem?_eq_none (by simp; omega)] at found
    cases found

/-- Anything but a segment append passes. -/
theorem other (appends : AppendsRecords before after) {operation : FileOp}
    (harmless : ∀ segment bytes, operation ≠ .segmentAppend segment bytes)
    : AppendsRecords before (after.perform operation) :=
  appends.perform (fun segment bytes same => absurd same (harmless segment bytes))

/-- Reading the clock is no file operation. -/
theorem newSegment (appends : AppendsRecords before after) (clock : Nat → Nat)
    : AppendsRecords before (after.newSegment clock).2 := by
  obtain ⟨operations, performs, whole⟩ := appends
  exact ⟨operations, ⟨performs.trace, performs.disk⟩, whole⟩

theorem settled {db next : KVEngine} {later : World}
    (appends : AppendsRecords before after) (settled : KVEngine.Settled db next after later)
    : AppendsRecords before later := by
  rcases settled.world with rfl | rfl
  · exact appends
  · exact appends.other (by simp)

/-- What a crash at an append finds. -/
theorem at_crash (appends : AppendsRecords before after) {writes segment : Nat}
    {bytes : Bytes}
    (appending
      : (after.trace.drop before.trace.length)[writes]?
        = some (.segmentAppend segment bytes))
    : segment ∈ (before.crash after writes).disk.segments
      ∧ ∃ update : Update, update.Fits ∧ bytes = update.record.toBeBytes := by
  obtain ⟨operations, performs, whole⟩ := appends
  rw [performs.trace, List.drop_left] at appending
  rw [performs.crash]
  exact whole writes segment bytes appending

end AppendsRecords

namespace KVEngine

variable {clock : Nat → Nat} {db : KVEngine} {world : World}

theorem appendTarget_appends (db : KVEngine) (world : World) (key value : String)
    (expiryMs : Option UInt64)
    : AppendsRecords world (db.appendTarget clock world key value expiryMs).2 := by
  have logged : AppendsRecords world
      (world.perform (.walAppend (Wal.record key value false expiryMs).toBeBytes)) :=
    (AppendsRecords.refl world).other (by simp)
  unfold appendTarget
  dsimp only
  split
  · rw [rollActive_eq]
    exact (((logged.other (by simp)).newSegment clock).other (by simp)).other (by simp)
  · exact logged

theorem kvAppend_appends (active : db.activeSegment ∈ world.disk.segments)
    {key value : String} (fits : Record.Fits key value) (expiryMs : Option UInt64)
    : AppendsRecords world (db.kvAppend clock world key value expiryMs).2.2 := by
  have progress := appendTarget_progress clock db world key value expiryMs active
  rw [kvAppend_eq]
  refine (appendTarget_appends db world key value expiryMs).perform ?_
  intro segment bytes same
  cases same
  exact ⟨progress.active, valueUpdate key value expiryMs, fits, rfl⟩

theorem setWithTtl_appends (active : db.activeSegment ∈ world.disk.segments)
    {key value : String} {expiryMs : Option UInt64} {next : KVEngine} {after : World}
    (written : db.setWithTtl clock world key value expiryMs = .ok (next, after))
    : AppendsRecords world after := by
  obtain ⟨fits, settled, -, -⟩ := setWithTtl_cases written
  exact (kvAppend_appends active fits expiryMs).settled settled

theorem delete_appends (active : db.activeSegment ∈ world.disk.segments) {key : String}
    {found : Bool} {next : KVEngine} {after : World}
    (deleted : db.delete world key = .ok (found, next, after))
    : AppendsRecords world after := by
  have logged : AppendsRecords world (deleteWal world key) :=
    (AppendsRecords.refl world).other (by simp)
  obtain ⟨small, ⟨-, -, rfl⟩ | ⟨entry, -, same⟩⟩ := delete_cases deleted
  · exact logged
  · obtain rfl := congrArg Prod.snd same
    refine AppendsRecords.settled (logged.perform ?_) (fsync_settled _ _)
    intro segment bytes same
    cases same
    exact ⟨active, { key, item := none }, ⟨small, Nat.zero_le _⟩, rfl⟩

/-- Single calls append whole records to the active segment, or nothing. -/
theorem handle_appends {contents : Contents}
    (represents : Represents db.index world.disk contents)
    (active : db.activeSegment ∈ world.disk.segments) {event : Event}
    (single : event.call.Single) {reply : Reply} {next : KVEngine} {after : World}
    (handled : handle clock event db world = .ok (reply, next, after))
    : AppendsRecords world after := by
  obtain ⟨call, nowMs, finishMs⟩ := event
  cases call with
  | set key value =>
      obtain ⟨⟨last, later⟩, written, same⟩ := bind_eq_ok.mp handled
      cases same
      exact setWithTtl_appends active written
  | setWithTtl key value expiryMs =>
      obtain ⟨⟨last, later⟩, written, same⟩ := bind_eq_ok.mp handled
      cases same
      exact setWithTtl_appends active written
  | delete key =>
      obtain ⟨⟨found, last, later⟩, deleted, same⟩ := bind_eq_ok.mp handled
      cases same
      exact delete_appends active deleted
  | ttl key expiryMs =>
      obtain ⟨⟨outcome, last, later⟩, done, same⟩ := bind_eq_ok.mp handled
      cases same
      rcases ttl_cases represents done with ⟨-, rfl⟩ | ⟨value, written⟩
      · exact .refl _
      · exact setWithTtl_appends active written
  | get key =>
      obtain ⟨found, -, same⟩ := bind_eq_ok.mp handled
      cases same
      exact .refl world
  | mget keys =>
      obtain ⟨found, -, same⟩ := bind_eq_ok.mp handled
      cases same
      exact .refl world
  | «exists» key =>
      cases handled
      exact .refl world
  | listKeys order =>
      cases handled
      exact .refl world
  | msetWithTtl _ => exact single.elim
  | compact _ _ => exact single.elim

end KVEngine

-----------------------------------------------------------------------------------------
-- Loading a torn segment
-----------------------------------------------------------------------------------------

/-- Scanning whole records with a part of one behind them is an error. -/
theorem mergeFromFile_torn (index : HashIndex) {updates : List Update}
    (fits : ∀ update ∈ updates, update.Fits) {update : Update} (updateFits : update.Fits)
    {cut : Nat} (begun : 0 < cut) (inside : cut < update.record.toBeBytes.length)
    (segment : Nat)
    : ∃ error,
        index.mergeFromFile
          (Update.codec.encodeAll updates ++ update.record.toBeBytes.take cut) segment
        = .error error := by
  obtain ⟨valid, encoded⟩ := encodeAll_records fits
  have lost : update.record.toBeBytes.drop cut ≠ [] := by simpa using inside
  have nonempty : update.record.toBeBytes.take cut ≠ [] := by
    simp [Record.toBeBytes_ne_nil, begun.ne']
  obtain ⟨error, unread, -⟩ := Record.readNext_torn (Update.valid_record updateFits)
    (List.take_append_drop cut update.record.toBeBytes) lost
  rw [← encoded]
  exact ⟨error, Record.codec.scanFrom_unread (fun _ => false)
    (HashIndex.mergeRecord segment) valid 0 nonempty unread rfl (le_refl _) index⟩

/-- When all segments were loaded, each of them was. -/
theorem loadSegment_of_loaded {disk : Disk} {segments : List Nat} {index loaded : HashIndex}
    (loads : segments.foldlM (KVEngine.loadSegment disk) index = .ok loaded) {segment : Nat}
    (member : segment ∈ segments)
    : ∃ before merged, KVEngine.loadSegment disk before segment = .ok merged := by
  induction segments generalizing index with
  | nil => cases member
  | cons first rest ih =>
      rw [List.foldlM_cons] at loads
      obtain ⟨merged, loadedFirst, loadedRest⟩ := bind_eq_ok.mp loads
      rcases List.mem_cons.mp member with rfl | later
      · exact ⟨index, merged, loadedFirst⟩
      · exact ih loadedRest later

/-- One unreadable segment without a hint file makes reopening fail. -/
theorem fromDir_unreadable {world : World} {segment : Nat} {file : Bytes}
    (found : world.disk.segments[segment]? = some file)
    (unhinted : world.disk.hints[segment]? = none)
    (unreadable
      : ∀ index : HashIndex, ∃ error, index.mergeFromFile file segment = .error error)
    (maxSegmentBytes : UInt64) (fsyncStrategy : FSyncStrategy)
    : ∃ error, KVEngine.fromDir maxSegmentBytes fsyncStrategy world = .error error := by
  have present : segment ∈ world.disk.getSegments :=
    world.disk.mem_getSegments.mpr ((SortedMap.mem_iff _ _).mpr ⟨file, found⟩)
  cases reopened : KVEngine.fromDir maxSegmentBytes fsyncStrategy world with
  | error error => exact ⟨error, rfl⟩
  | ok result =>
      unfold KVEngine.fromDir at reopened
      split at reopened
      · rename_i empty
        rw [List.getLast?_eq_none_iff.mp empty] at present
        cases present
      · obtain ⟨index, loads, -⟩ := bind_eq_ok.mp reopened
        obtain ⟨before, merged, loaded⟩ := loadSegment_of_loaded loads present
        obtain ⟨error, failed⟩ := unreadable before
        simp [KVEngine.loadSegment, Disk.openSegment, found, Hint.readFile, unhinted, failed]
          at loaded

/-- Appending part of a record to a durable disk makes it unreadable. -/
theorem Durable.torn {limit : Nat} {contents : Contents} {world : World}
    (durable : Durable limit contents world.disk) {segment : Nat}
    (present : segment ∈ world.disk.segments) {update : Update} (fits : update.Fits)
    {cut : Nat} (begun : 0 < cut) (inside : cut < update.record.toBeBytes.length)
    (maxSegmentBytes : UInt64) (fsyncStrategy : FSyncStrategy)
    : ∃ error,
        KVEngine.fromDir maxSegmentBytes fsyncStrategy
          (world.perform (.segmentAppend segment (update.record.toBeBytes.take cut)))
        = .error error := by
  obtain ⟨hints, logs, wal, -, stored, -, -⟩ := durable
  obtain ⟨updates, member⟩ := (stored.filed.mem_iff segment).mp present
  have file := stored.filed.getElem? member
  have torn : (world.perform (.segmentAppend segment
      (update.record.toBeBytes.take cut))).disk.segments[segment]?
      = some (Update.codec.encodeAll updates ++ update.record.toBeBytes.take cut) := by
    simp [Disk.apply, appendTo, file]
  exact fromDir_unreadable torn (hints segment)
    (fun index =>
      mergeFromFile_torn index (stored.filed.fits _ member) fits begun inside segment)
    maxSegmentBytes fsyncStrategy

/-- Appending nothing keeps a disk durable. -/
theorem Durable.untorn {limit : Nat} {contents : Contents} {disk : Disk}
    (durable : Durable limit contents disk) (segment : Nat)
    : Durable limit contents (disk.apply (.segmentAppend segment [])) := by
  obtain ⟨hints, logs, wal, nonempty, stored, replayed, below⟩ := durable
  have same (other : Nat)
      : (appendTo disk.segments segment [])[other]? = disk.segments[other]? := by
    unfold appendTo
    cases found : disk.segments[segment]? with
    | none => rfl
    | some file =>
        by_cases equal : segment = other
        · subst equal
          simp [found]
        · simp [equal]
  refine ⟨hints, logs, wal, nonempty, ⟨⟨stored.filed.sorted, ?_, stored.filed.fits⟩,
    stored.logged, stored.fits⟩, replayed, below⟩
  intro other bytes
  rw [← stored.filed.file other bytes]
  exact iff_of_eq (congrArg (· = some bytes) (same other))

-----------------------------------------------------------------------------------------
-- Reopening after the crash
-----------------------------------------------------------------------------------------

/-- The engine reads as the map does, at any time. -/
def KVEngine.ReadsAs (db : KVEngine) (world : World) (contents : Contents) : Prop :=
  ∀ key nowMs,
    db.get world key nowMs
    = .ok ((contents.read key nowMs).map (fun value => (key, value)))

/-- Whatever the settings, the world can be reopened as the map, and after any further
writes once more.
-/
def Reopens (clock : Nat → Nat) (world : World) (contents : Contents) : Prop :=
  ∀ maxSegmentBytes fsyncStrategy,
    ∃ db after,
      KVEngine.fromDir maxSegmentBytes fsyncStrategy world = .ok (some db, after)
      ∧ db.ReadsAs after contents
      ∧ ∀ events : List Event,
          (∀ event ∈ events, event.call.Fits ∧ event.call.Single)
          → ∃ replies last final,
              KVEngine.run clock events db after = .ok (replies, last, final)
              ∧ ∀ newMaxBytes newStrategy,
                  ∃ again later,
                    KVEngine.fromDir newMaxBytes newStrategy final = .ok (some again, later)
                    ∧ again.ReadsAs later (events.foldl Contents.handle contents)

theorem Durable.reopens {clock : Nat → Nat} (monotone : Monotone clock) {world : World}
    {contents : Contents} (durable : Durable (clock world.ticks) contents world.disk)
    : Reopens clock world contents := by
  intro maxSegmentBytes fsyncStrategy
  obtain ⟨db, after, reopened, running, -⟩ := durable.fromDir maxSegmentBytes fsyncStrategy
  refine ⟨db, after, reopened, fun key nowMs => running.shows.get key UInt64.zero_le, ?_⟩
  intro events fits
  obtain ⟨replies, last, final, ran, -, logs, updates, wal, finished⟩ :=
    running.run monotone fits
  refine ⟨replies, last, final, ran, ?_⟩
  intro newMaxBytes newStrategy
  obtain ⟨again, later, opened, running, -⟩ := finished.durable.fromDir newMaxBytes newStrategy
  exact ⟨again, later, opened, fun key nowMs => running.shows.get key UInt64.zero_le⟩

theorem KVEngine.fits_of_run {clock : Nat → Nat} {events : List Event}
    (single : ∀ event ∈ events, event.call.Single) {db last : KVEngine} {world after : World}
    {replies : List Reply}
    (ran : KVEngine.run clock events db world = .ok (replies, last, after))
    : ∀ event ∈ events, event.call.Fits ∧ event.call.Single := by
  induction events generalizing db world replies with
  | nil => simp
  | cons event rest ih =>
      obtain ⟨⟨reply, next, middle⟩, handled, others⟩ := bind_eq_ok.mp ran
      obtain ⟨⟨more, final, stopped⟩, ranRest, same⟩ := bind_eq_ok.mp others
      obtain ⟨-, same⟩ := Prod.mk.inj (Except.ok.inj same)
      obtain ⟨rfl, rfl⟩ := Prod.mk.inj same
      have first := single event (by simp)
      refine List.forall_mem_cons.mpr ⟨⟨KVEngine.fits_of_handle first handled, first⟩, ?_⟩
      exact ih (fun other member => single other (List.mem_cons_of_mem _ member)) ranRest

/-- A crash inside a segment append is recovered from exactly when it tore the record at its
first byte: then reopening brings back all acknowledged calls, with or without the one in
flight.
-/
theorem torn_append_recovered_iff {clock : Nat → Nat} (monotone : Monotone clock)
    (maxSegmentBytes : UInt64) (fsyncStrategy : FSyncStrategy) {calls : List Event}
    (single : ∀ event ∈ calls, event.call.Single) {replies : List Reply} {db : KVEngine}
    {world : World}
    (ran
      : KVEngine.run clock calls
            (KVEngine.new clock maxSegmentBytes fsyncStrategy World.initial).1
            (KVEngine.new clock maxSegmentBytes fsyncStrategy World.initial).2
          = .ok (replies, db, world))
    {inFlight : Event} (singleInFlight : inFlight.call.Single) {reply : Reply}
    {next : KVEngine} {after : World}
    (handled : KVEngine.handle clock inFlight db world = .ok (reply, next, after))
    {writes segment : Nat} {bytes : Bytes}
    (appending
      : (after.trace.drop world.trace.length)[writes]?
        = some (.segmentAppend segment bytes))
    {cut : Nat} (inside : cut < bytes.length)
    : let acknowledged := calls.foldl Contents.handle Contents.empty
      let torn := world.tearAppend after writes segment (bytes.take cut)
      (Reopens clock torn acknowledged ∨ Reopens clock torn (acknowledged.handle inFlight))
        ↔ cut = 0 := by
  intro acknowledged torn
  obtain ⟨_, _, _, again, -, running⟩ :=
    (running_new monotone maxSegmentBytes fsyncStrategy).run monotone
      (KVEngine.fits_of_run single ran)
  obtain ⟨-, same⟩ := Prod.mk.inj (Except.ok.inj (ran.symm.trans again))
  obtain ⟨rfl, rfl⟩ := Prod.mk.inj same
  obtain ⟨_, _, _, again, -, -, safe⟩ := running.handle monotone
    (KVEngine.fits_of_handle singleInFlight handled) singleInFlight
  obtain ⟨-, same⟩ := Prod.mk.inj (Except.ok.inj (handled.symm.trans again))
  obtain ⟨rfl, rfl⟩ := Prod.mk.inj same
  have active : db.activeSegment ∈ world.disk.segments := by
    obtain ⟨logs, updates, wal, running⟩ := running
    exact (running.stored.filed.mem_iff _).mpr ⟨updates, by simp⟩
  obtain ⟨present, update, fits, rfl⟩ :=
    (KVEngine.handle_appends running.represents active singleInFlight handled).at_crash
      appending
  constructor
  · intro reopens
    by_contra begun
    obtain ⟨contents, durable⟩ : ∃ contents,
        Durable (clock after.ticks) contents (world.crash after writes).disk :=
      (safe writes).elim (fun kept => ⟨_, kept⟩) (fun applied => ⟨_, applied⟩)
    obtain ⟨error, failed⟩ := durable.torn present fits (Nat.pos_of_ne_zero begun) inside
      maxSegmentBytes fsyncStrategy
    rcases reopens with opens | opens
    · obtain ⟨_, _, reopened, -⟩ := opens maxSegmentBytes fsyncStrategy
      cases failed.symm.trans reopened
    · obtain ⟨_, _, reopened, -⟩ := opens maxSegmentBytes fsyncStrategy
      cases failed.symm.trans reopened
  · rintro rfl
    rcases safe writes with kept | applied
    · have durable : Durable (clock torn.ticks) acknowledged torn.disk := kept.untorn segment
      exact Or.inl (durable.reopens monotone)
    · have durable : Durable (clock torn.ticks) (acknowledged.handle inFlight) torn.disk :=
        applied.untorn segment
      exact Or.inr (durable.reopens monotone)

/-- A write of a key, and the overwrite a crash interrupts. -/
def interruptedOverwrite : List Event × Event :=
  ([{ call := .set "k" "v", nowMs := 1, finishMs := 1 }],
    { call := .set "k" "w", nowMs := 2, finishMs := 2 })

/-- The append of the overwrite, what the WAL holds by then, and how reopening fails when
three bytes of it are there.
-/
theorem interruptedOverwrite_appends
    : ∃ replies db world reply next after,
        KVEngine.run id interruptedOverwrite.1 (KVEngine.new id 100 .never .initial).1
            (KVEngine.new id 100 .never .initial).2
          = .ok (replies, db, world)
        ∧ KVEngine.handle id interruptedOverwrite.2 db world = .ok (reply, next, after)
        ∧ (after.trace.drop world.trace.length)[1]?
          = some (.segmentAppend 0 (KVEngine.valueRecord "k" "w" none).toBeBytes)
        ∧ (world.crash after 1).disk.wal
          = Update.codec.encodeAll [KVEngine.valueUpdate "k" "v" none,
              KVEngine.valueUpdate "k" "w" none]
        ∧ (KVEngine.fromDir 100 .never
            (world.tearAppend after 1 0
              ((KVEngine.valueRecord "k" "w" none).toBeBytes.take 3))).toOption.isNone := by
  have computed : (KVEngine.run id interruptedOverwrite.1
      (KVEngine.new id 100 .never .initial).1
      (KVEngine.new id 100 .never .initial).2).toOption.any (fun filled =>
        (KVEngine.handle id interruptedOverwrite.2 filled.2.1 filled.2.2).toOption.any
          (fun written =>
            decide
              ((written.2.2.trace.drop filled.2.2.trace.length)[1]?
                = some (.segmentAppend 0 (KVEngine.valueRecord "k" "w" none).toBeBytes))
            && decide
              ((filled.2.2.crash written.2.2 1).disk.wal
                = Update.codec.encodeAll [KVEngine.valueUpdate "k" "v" none,
                    KVEngine.valueUpdate "k" "w" none])
            && (KVEngine.fromDir 100 .never
                (filled.2.2.tearAppend written.2.2 1 0
                  ((KVEngine.valueRecord "k" "w" none).toBeBytes.take 3))).toOption.isNone))
      = true := by
    decide +kernel
  simp only [Option.any_eq_true, toOption_eq_some, Bool.and_eq_true, decide_eq_true_eq]
    at computed
  obtain ⟨⟨replies, db, world⟩, ran, ⟨reply, next, after⟩, handled, ⟨appending, logged⟩,
    failed⟩ := computed
  exact ⟨replies, db, world, reply, next, after, ran, handled, appending, logged, failed⟩

/-- Witness: the overwrite of a key, torn anywhere. -/
theorem torn_append_recovered_overwrite
    : ∃ replies db world reply next after,
        KVEngine.run id interruptedOverwrite.1 (KVEngine.new id 100 .never .initial).1
            (KVEngine.new id 100 .never .initial).2
          = .ok (replies, db, world)
        ∧ KVEngine.handle id interruptedOverwrite.2 db world = .ok (reply, next, after)
        ∧ let bytes := (KVEngine.valueRecord "k" "w" none).toBeBytes
          let acknowledged := interruptedOverwrite.1.foldl Contents.handle Contents.empty
          ∀ cut < bytes.length,
            let torn := world.tearAppend after 1 0 (bytes.take cut)
            (Reopens id torn acknowledged
              ∨ Reopens id torn (acknowledged.handle interruptedOverwrite.2))
            ↔ cut = 0 := by
  obtain ⟨replies, db, world, reply, next, after, ran, handled, appending, -⟩ :=
    interruptedOverwrite_appends
  refine ⟨replies, db, world, reply, next, after, ran, handled, ?_⟩
  intro bytes acknowledged cut inside
  have calls : ∀ event ∈ interruptedOverwrite.1, event.call.Single := by
    simp [interruptedOverwrite, Call.Single]
  have inFlight : interruptedOverwrite.2.call.Single := trivial
  exact torn_append_recovered_iff monotone_id 100 .never calls ran inFlight handled appending
    inside

/-- Three bytes of the overwrite reach the segment. The WAL holds its whole record, but
reopening reports the end of the segment as an error.
-/
theorem torn_append_not_reopened
    : ∃ replies db world reply next after,
        KVEngine.run id interruptedOverwrite.1 (KVEngine.new id 100 .never .initial).1
            (KVEngine.new id 100 .never .initial).2
          = .ok (replies, db, world)
        ∧ KVEngine.handle id interruptedOverwrite.2 db world = .ok (reply, next, after)
        ∧ let bytes := (KVEngine.valueRecord "k" "w" none).toBeBytes
          let torn := world.tearAppend after 1 0 (bytes.take 3)
          (after.trace.drop world.trace.length)[1]? = some (.segmentAppend 0 bytes)
          ∧ torn.disk.wal
            = Update.codec.encodeAll [KVEngine.valueUpdate "k" "v" none,
                KVEngine.valueUpdate "k" "w" none]
          ∧ ∃ error, KVEngine.fromDir 100 .never torn = .error error := by
  obtain ⟨replies, db, world, reply, next, after, ran, handled, appending, logged, failed⟩ :=
    interruptedOverwrite_appends
  refine ⟨replies, db, world, reply, next, after, ran, handled, appending, logged, ?_⟩
  cases reopened : KVEngine.fromDir 100 .never (world.tearAppend after 1 0
      ((KVEngine.valueRecord "k" "w" none).toBeBytes.take 3)) with
  | error error => exact ⟨error, rfl⟩
  | ok result =>
      rw [reopened] at failed
      cases failed

end Rustikv.Kv

import Rustikv.Kv.Compaction

/-! Writers on several threads with a compaction among them. Every step is one lock
section, and the compaction's own steps lie between the sections it takes.
-/

namespace Rustikv.Kv

open Library

-----------------------------------------------------------------------------------------
-- Threads, the compaction and their steps
-----------------------------------------------------------------------------------------

/-- Where a writing call stands between two lock sections. -/
inductive Thread
  | appended (newSize : Nat) (replaced : Option Nat)
  | deleteLogged (key : String)
  | deleteUnindexed (key : String) (old : IndexEntry)
  | deleteAppended (key : String) (old : IndexEntry)

inductive Compactor
  | idle
  | listed (old : List Nat)
  | opened (old : List Nat) (newDb : KVEngine)
  | copying (old : List Nat) (newDb : KVEngine) (rest : List (String × Option UInt64))
  | hinted (old : List Nat) (newDb : KVEngine)
  | removing (old : List Nat)

/-- The shared engine, its files, the threads inside a writing call, and a bound on all
clock readings so far.
-/
structure System where
  db : KVEngine
  world : World
  threads : SortedMap Nat Thread
  compactor : Compactor
  timeMs : UInt64

/-- The sections a thread or the compaction can execute next. Clock readings are taken
before the lock is, so they may lie in the past.
-/
inductive Action
  | tick (later : UInt64)
  | append (thread : Nat) (key value : String) (expiryMs : Option UInt64)
  | ttl (thread : Nat) (key : String) (expiryMs : Option UInt64) (nowMs : UInt64)
  | finish (thread : Nat)
  | deleteWal (thread : Nat) (key : String)
  | deleteIndex (thread : Nat)
  | deleteRecord (thread : Nat)
  | listSegments
  | openNew
  | snapshot (order : IterOrder) (nowMs : UInt64)
  | copy (nowMs : UInt64)
  | hints (order : IterOrder)
  | swap
  | remove

/-- Why a step is not taken: it is not this thread's next one, or the call fails. -/
inductive Refusal
  | disabled
  | failed (error : IoError)

namespace System

variable (clock : Nat → Nat)

def start (db : KVEngine) (world : World) : System :=
  { db, world, threads := ∅, compactor := .idle, timeMs := 0 }

/-- All calls have returned. -/
def quiescent (system : System) : Bool :=
  system.threads.isEmpty && system.compactor matches .idle

def setThread (system : System) (thread : Nat) (state : Thread) : System :=
  { system with threads := system.threads.insert thread state }

def endCall (system : System) (thread : Nat) : System :=
  { system with threads := system.threads.erase thread }

/-- `kv_append` under its four locks. -/
def appendValue (system : System) (thread : Nat) (key value : String)
    (expiryMs : Option UInt64)
    : System :=
  let ((newSize, replaced), db, world) :=
    system.db.kvAppend clock system.world key value expiryMs
  { system with db, world }.setThread thread (.appended newSize replaced)

def lookup (system : System) (key : String) (nowMs : UInt64)
    : Except IoError (Option String) :=
  kvLookup system.db.index system.world.disk system.db.activeSegment key nowMs

def step (system : System) : Action → Except Refusal System
  | .tick later =>
      if system.timeMs ≤ later then .ok { system with timeMs := later }
      else .error .disabled
  | .append thread key value expiryMs =>
      match system.threads[thread]? with
      | none =>
          if maxKeySize < key.utf8ByteSize ∨ maxValueSize < value.utf8ByteSize then
            .error (.failed sizeError)
          else
            .ok (system.appendValue clock thread key value expiryMs)
      | _ => .error .disabled
  | .ttl thread key expiryMs nowMs =>
      match system.threads[thread]? with
      | none =>
          if nowMs ≤ system.timeMs then
            match system.lookup key nowMs with
            | .error error => .error (.failed error)
            | .ok none => .ok system
            | .ok (some value) =>
                .ok (system.appendValue clock thread key value expiryMs)
          else
            .error .disabled
      | _ => .error .disabled
  | .finish thread =>
      match system.threads[thread]? with
      | some (.appended newSize replaced) =>
          let (db, world) := system.db.finishWrite system.world newSize replaced
          .ok ({ system with db, world }.endCall thread)
      | some (.deleteAppended key old) =>
          let (db, world) := system.db.finishDelete system.world key old
          .ok ({ system with db, world }.endCall thread)
      | _ => .error .disabled
  | .deleteWal thread key =>
      match system.threads[thread]? with
      | none =>
          if maxKeySize < key.utf8ByteSize then
            .error (.failed sizeError)
          else
            .ok ({ system with world := KVEngine.deleteWal system.world key }.setThread thread
              (.deleteLogged key))
      | _ => .error .disabled
  | .deleteIndex thread =>
      match system.threads[thread]? with
      | some (.deleteLogged key) =>
          let (old, db) := system.db.deleteIndex key
          match old with
          | some entry =>
              .ok ({ system with db }.setThread thread (.deleteUnindexed key entry))
          | none => .ok ({ system with db }.endCall thread)
      | _ => .error .disabled
  | .deleteRecord thread =>
      match system.threads[thread]? with
      | some (.deleteUnindexed key old) =>
          .ok ({ system with world := system.db.deleteRecord system.world key }.setThread
            thread (.deleteAppended key old))
      | _ => .error .disabled
  | .listSegments =>
      match system.compactor with
      | .idle => .ok { system with compactor := .listed system.world.disk.getSegments }
      | _ => .error .disabled
  | .openNew =>
      match system.compactor with
      | .listed old =>
          let (newDb, world) :=
            KVEngine.new clock system.db.maxSegmentBytes system.db.fsyncStrategy system.world
          .ok { system with world, compactor := .opened old newDb }
      | _ => .error .disabled
  | .snapshot order nowMs =>
      match system.compactor with
      | .opened old newDb =>
          if nowMs ≤ system.timeMs then
            .ok {
              system with
              compactor :=
                .copying old newDb (KVEngine.snapshotKeys order system.db nowMs)
            }
          else
            .error .disabled
      | _ => .error .disabled
  | .copy nowMs =>
      match system.compactor with
      | .copying old newDb (item :: rest) =>
          if nowMs ≤ system.timeMs then
            match KVEngine.copyKey clock system.db newDb system.world item nowMs with
            | .error error => .error (.failed error)
            | .ok (newDb, world) =>
                .ok { system with world, compactor := .copying old newDb rest }
          else
            .error .disabled
      | _ => .error .disabled
  | .hints order =>
      match system.compactor with
      | .copying old newDb [] =>
          .ok {
            system with
            world := KVEngine.finishCompacted order newDb old system.world
            compactor := .hinted old newDb
          }
      | _ => .error .disabled
  | .swap =>
      match system.compactor with
      | .hinted old newDb =>
          let (db, world) := system.db.swapCompacted newDb system.world
          .ok { system with db, world, compactor := .removing old }
      | _ => .error .disabled
  | .remove =>
      match system.compactor with
      | .removing [] => .ok { system with compactor := .idle }
      | .removing (segment :: rest) =>
          match KVEngine.removeSegment system.world segment with
          | .error error => .error (.failed error)
          | .ok world => .ok { system with world, compactor := .removing rest }
      | _ => .error .disabled

end System

-----------------------------------------------------------------------------------------
-- What the writes add up to
-----------------------------------------------------------------------------------------

namespace Contents

/-- A `ttl` that found its key gives the item it holds a new expiry. -/
def retime (written : Contents) (key : String) (expiryMs : Option UInt64) : Contents :=
  match written key with
  | some item => written.set key item.value expiryMs
  | none => written

/-- The map of the last writes, after one more step of the system. -/
def after (written : Contents) (system : System) : Action → Contents
  | .append _ key value expiryMs => written.set key value expiryMs
  | .ttl _ key expiryMs nowMs =>
      match system.lookup key nowMs with
      | .ok (some _) => written.retime key expiryMs
      | _ => written
  | .deleteIndex thread =>
      match system.threads[thread]? with
      | some (.deleteLogged key) => written.delete key
      | _ => written
  | _ => written

end Contents

/-- Between the snapshot and the swap: the keys the compaction has still to copy, with the
expiries it noted.
-/
def Compactor.pending : Compactor → Option (List (String × Option UInt64))
  | .copying _ _ rest => some rest
  | .hinted _ _ => some []
  | _ => none

/-- While a compaction is between snapshot and swap, index entries change only for keys it
has still to copy, and then to nothing or to an item with the noted expiry.
-/
def System.undisturbed (system : System) : Action → Bool
  | .append _ key _ expiryMs =>
      system.compactor.pending.all (fun rest => (key, expiryMs) ∈ rest)
  | .ttl _ key expiryMs nowMs =>
      match system.lookup key nowMs with
      | .ok (some _) => system.compactor.pending.all (fun rest => (key, expiryMs) ∈ rest)
      | _ => true
  | .deleteIndex thread =>
      match system.threads[thread]? with
      | some (.deleteLogged key) =>
          (system.db.index.get key).isNone
          || system.compactor.pending.all (fun rest => key ∈ rest.map Prod.fst)
      | _ => true
  | _ => true

/-- The systems that `allowed` steps lead to, each with the map of the last
writes.
-/
inductive Interleaves (clock : Nat → Nat) (allowed : System → Action → Bool)
    : System → Contents → Prop
  | start {db : KVEngine} {world : World} {contents : Contents}
      (ready : Ready clock db world contents)
    : Interleaves clock allowed (System.start db world) contents
  | step {system next : System} {written : Contents} {action : Action}
      (reached : Interleaves clock allowed system written)
      (permitted : allowed system action = true)
      (taken : system.step clock action = .ok next)
    : Interleaves clock allowed next (written.after system action)

-----------------------------------------------------------------------------------------
-- The invariant
-----------------------------------------------------------------------------------------

/-- What holds of a compaction in each of its states, for an engine that represents
`contents`.
-/
def Compactor.Sound (db : KVEngine) (world : World) (timeMs : UInt64) (contents : Contents)
    : Compactor → Prop
  | .idle => True
  | .listed old => old.Nodup ∧ ∀ segment ∈ old, segment ∈ world.disk.segments
  | .opened old newDb =>
      old.Nodup ∧ KVEngine.Compacting db newDb world contents Contents.empty old
  | .copying old newDb rest =>
      old.Nodup
      ∧ ∃ copied,
          KVEngine.Compacting db newDb world contents copied old
          ∧ Contents.Copies contents copied rest timeMs
  | .hinted old newDb =>
      old.Nodup
      ∧ ∃ copied,
          KVEngine.Compacting db newDb world contents copied old
          ∧ Contents.Copies contents copied [] timeMs
  | .removing old => old.Nodup ∧ KVEngine.Avoids db world old

/-- The engine represents the map of the last writes, some expired items aside. -/
def System.Consistent (clock : Nat → Nat) (system : System) (written : Contents) : Prop :=
  ∃ contents,
    Usable clock system.db system.world contents
    ∧ Contents.Trims system.timeMs contents written
    ∧ system.compactor.Sound system.db system.world system.timeMs contents

namespace KVEngine

/-- Only the replacement's side of a compaction matters to a writer. -/
theorem Compacting.keeps {db next newDb : KVEngine} {world after : World}
    {contents changed copied : Contents} {old : List Nat}
    (compacting : Compacting db newDb world contents copied old)
    (keeps : Keeps world.disk after.disk)
    (represents : Represents next.index after.disk changed)
    : Compacting next newDb after changed copied old where
  source := represents
  target := compacting.target.keeps keeps
  active := keeps.present compacting.active
  avoids :=
    ⟨fun segment member => keeps.present (compacting.avoids.present segment member),
      compacting.avoids.active, compacting.avoids.entries⟩

end KVEngine

/-- A write by the engine, as long as it does not disturb the keys being copied. -/
theorem Compactor.Sound.progress {clock : Nat → Nat} {db next : KVEngine}
    {world after : World} {timeMs : UInt64} {contents changed : Contents}
    {compactor : Compactor} (sound : compactor.Sound db world timeMs contents)
    (unused : KVEngine.Unused clock world)
    (progress : KVEngine.Progress clock db next world after)
    (represents : Represents next.index after.disk changed)
    (undisturbed
      : ∀ rest ∈ compactor.pending,
          ∀ copied,
            Contents.Copies contents copied rest timeMs
            → Contents.Copies changed copied rest timeMs)
    : compactor.Sound next after timeMs changed := by
  cases compactor with
  | idle => trivial
  | listed old =>
      exact ⟨sound.1, fun segment member => progress.keeps.present (sound.2 segment member)⟩
  | opened old newDb => exact ⟨sound.1, sound.2.keeps progress.keeps represents⟩
  | copying old newDb rest =>
      obtain ⟨distinct, copied, compacting, copies⟩ := sound
      exact ⟨distinct, copied, compacting.keeps progress.keeps represents,
        undisturbed rest rfl copied copies⟩
  | hinted old newDb =>
      obtain ⟨distinct, copied, compacting, copies⟩ := sound
      exact ⟨distinct, copied, compacting.keeps progress.keeps represents,
        undisturbed [] rfl copied copies⟩
  | removing old => exact ⟨sound.1, sound.2.progress unused progress⟩

theorem Compactor.Sound.later {db : KVEngine} {world : World} {timeMs later : UInt64}
    {contents : Contents} {compactor : Compactor}
    (sound : compactor.Sound db world timeMs contents) (order : timeMs ≤ later)
    : compactor.Sound db world later contents := by
  cases compactor with
  | idle => trivial
  | listed old => exact sound
  | opened old newDb => exact sound
  | copying old newDb rest =>
      obtain ⟨distinct, copied, compacting, copies⟩ := sound
      exact ⟨distinct, copied, compacting, copies.later order⟩
  | hinted old newDb =>
      obtain ⟨distinct, copied, compacting, copies⟩ := sound
      exact ⟨distinct, copied, compacting, copies.later order⟩
  | removing old => exact sound

namespace Contents

theorem Copies.set {contents copied : Contents} {rest : List (String × Option UInt64)}
    {start : UInt64} (copies : Copies contents copied rest start) {key : String}
    {expiryMs : Option UInt64} (pending : (key, expiryMs) ∈ rest) (value : String)
    : Copies (contents.set key value expiryMs) copied rest start := by
  refine ⟨copies.nodup, ?_, ?_⟩
  · intro other outside
    have different : key ≠ other := by
      rintro rfl
      exact outside (List.mem_map.mpr ⟨_, pending, rfl⟩)
    simpa [read, different] using copies.done other outside
  · intro item member
    refine ⟨(copies.pending item member).1, ?_⟩
    intro stored found
    by_cases same : key = item.1
    · have equal : item = (key, expiryMs) :=
        List.inj_on_of_nodup_map copies.nodup member pending same.symm
      simp only [set_apply, same, if_true, Option.some.injEq] at found
      rw [← found, equal]
    · simp only [set_apply, same, if_false] at found
      exact (copies.pending item member).2 stored found

theorem Copies.delete {contents copied : Contents} {rest : List (String × Option UInt64)}
    {start : UInt64} (copies : Copies contents copied rest start) {key : String}
    (pending : contents key ≠ none → key ∈ rest.map Prod.fst)
    : Copies (contents.delete key) copied rest start := by
  refine ⟨copies.nodup, ?_, ?_⟩
  · intro other outside
    by_cases same : key = other
    · subst same
      have absent : contents key = none := by
        by_contra present
        exact outside (pending present)
      have done := copies.done key outside
      simpa [read, absent] using done
    · simpa [read, same] using copies.done other outside
  · intro item member
    refine ⟨(copies.pending item member).1, ?_⟩
    intro stored found
    by_cases same : key = item.1
    · simp [same] at found
    · simp only [delete_apply, same, if_false] at found
      exact (copies.pending item member).2 stored found

/-- What a reader finds in the trimmed map is the item of the full one. -/
theorem Trims.found {start nowMs : UInt64} {trimmed contents : Contents}
    (trims : Trims start trimmed contents) {key value : String}
    (live : trimmed.read key nowMs = some value)
    : ∃ item, contents key = some item ∧ item.value = value := by
  rcases trims key with same | ⟨dropped, -⟩
  · cases found : trimmed key with
    | none => simp [read, found] at live
    | some item =>
        refine ⟨item, same ▸ found, ?_⟩
        simp only [read, found, Option.bind_some, Item.read] at live
        split at live
        · cases live
        · exact Option.some.inj live
  · simp [read, dropped] at live

end Contents

-----------------------------------------------------------------------------------------
-- Every step keeps it
-----------------------------------------------------------------------------------------

/-- What the disk holds depends on the segment files only. -/
theorem Keeps.of_segments {before after : Disk} (same : after.segments = before.segments)
    : Keeps before after where
  held := by
    rintro segment offset record ⟨file, rest, found, starts⟩
    exact ⟨file, rest, same ▸ found, starts⟩
  present present := same ▸ present

namespace KVEngine

/-- A step that leaves segments, clock and active segment alone, and at most drops index
entries.
-/
theorem Progress.of_frame {clock : Nat → Nat} {db next : KVEngine} {world after : World}
    (active : db.activeSegment ∈ world.disk.segments)
    (segments : after.disk.segments = world.disk.segments)
    (ticks : after.ticks = world.ticks)
    (sameActive : next.activeSegment = db.activeSegment)
    (settings
      : next.maxSegmentBytes = db.maxSegmentBytes ∧ next.fsyncStrategy = db.fsyncStrategy)
    (entries
      : ∀ key entry, next.index.get key = some entry → db.index.get key = some entry)
    : Progress clock db next world after where
  maxSegmentBytes := settings.1
  fsyncStrategy := settings.2
  keeps := .of_segments segments
  active := by rwa [sameActive, segments]
  segment := Or.inl ⟨sameActive, ticks⟩
  segments segment present := Or.inl (segments ▸ present)
  entries key entry found := Or.inl (entries key entry found)

theorem Progress.refl {clock : Nat → Nat} {db : KVEngine} {world : World}
    (active : db.activeSegment ∈ world.disk.segments)
    : Progress clock db db world world :=
  .of_frame active rfl rfl rfl ⟨rfl, rfl⟩ (fun _ _ found => found)

theorem deleteIndex_progress {clock : Nat → Nat} {db : KVEngine} {world : World}
    (active : db.activeSegment ∈ world.disk.segments) (key : String)
    : Progress clock db (db.deleteIndex key).2 world world := by
  refine .of_frame active rfl rfl rfl ⟨rfl, rfl⟩ ?_
  intro other entry found
  by_cases same : key = other
  · simp [deleteIndex, same] at found
  · simpa [deleteIndex, same] using found

theorem finishDelete_settled (db : KVEngine) (world : World) (key : String)
    (old : IndexEntry)
    : Settled db (db.finishDelete world key old).1 world (db.finishDelete world key old).2 := by
  have settled := fsync_settled db world
  exact ⟨settled.index, settled.activeSegment, settled.maxSegmentBytes,
    settled.fsyncStrategy, settled.segmentCount, settled.world⟩

end KVEngine

namespace System

variable {clock : Nat → Nat} (injective : Function.Injective clock) {system : System}
  {written contents : Contents}
include injective

-- One set of equations of `step` for all the proofs below, which are checked in parallel.
attribute [local simp] step

/-- A step of a thread: the engine progresses and its map changes as the written one. -/
theorem consistent_progress (usable : Usable clock system.db system.world contents)
    (sound : system.compactor.Sound system.db system.world system.timeMs contents)
    {next : System} {changed newWritten : Contents}
    (progress : KVEngine.Progress clock system.db next.db system.world next.world)
    (represents : Represents next.db.index next.world.disk changed)
    (undisturbed
      : ∀ rest ∈ system.compactor.pending,
          ∀ copied,
            Contents.Copies contents copied rest system.timeMs
            → Contents.Copies changed copied rest system.timeMs)
    (compactor : next.compactor = system.compactor) (time : next.timeMs = system.timeMs)
    (trims : Contents.Trims next.timeMs changed newWritten)
    : next.Consistent clock newWritten := by
  refine ⟨changed, ⟨represents, progress.active, ?_⟩, trims, ?_⟩
  · exact usable.unused.progress injective usable.active progress
  · rw [compactor, time]
    exact sound.progress usable.unused progress represents undisturbed

/-- The same for a step that leaves the map alone. -/
theorem consistent_settled (usable : Usable clock system.db system.world contents)
    (trims : Contents.Trims system.timeMs contents written)
    (sound : system.compactor.Sound system.db system.world system.timeMs contents)
    {next : System}
    (progress : KVEngine.Progress clock system.db next.db system.world next.world)
    (index : next.db.index = system.db.index)
    (compactor : next.compactor = system.compactor) (time : next.timeMs = system.timeMs)
    : next.Consistent clock written := by
  refine consistent_progress injective usable sound progress ?_
    (fun _ _ _ copies => copies) compactor time (time ▸ trims)
  rw [index]
  exact usable.represents.keeps progress.keeps

theorem consistent_appendValue (usable : Usable clock system.db system.world contents)
    (trims : Contents.Trims system.timeMs contents written)
    (sound : system.compactor.Sound system.db system.world system.timeMs contents)
    {key value : String} (fits : Record.Fits key value) {expiryMs : Option UInt64}
    (undisturbed : ∀ rest ∈ system.compactor.pending, (key, expiryMs) ∈ rest)
    (thread : Nat)
    : (system.appendValue clock thread key value expiryMs).Consistent clock
        (written.set key value expiryMs) :=
  consistent_progress injective usable sound
    (KVEngine.kvAppend_progress clock usable.active key value expiryMs)
    (KVEngine.kvAppend_represents clock usable.represents usable.active fits expiryMs)
    (fun rest pending _ copies => copies.set (undisturbed rest pending) value)
    rfl rfl (trims.set key value expiryMs)

theorem consistent_append {thread : Nat} {key value : String} {expiryMs : Option UInt64}
    (consistent : system.Consistent clock written)
    (undisturbed : system.undisturbed (.append thread key value expiryMs) = true)
    {next : System}
    (taken : system.step clock (.append thread key value expiryMs) = .ok next)
    : next.Consistent clock (written.after system (.append thread key value expiryMs)) := by
  obtain ⟨contents, usable, trims, sound⟩ := consistent
  simp only [step] at taken
  split at taken
  · split at taken
    · cases taken
    · rename_i limits
      obtain rfl := Except.ok.inj taken
      refine consistent_appendValue injective usable trims sound ?_
        (by simpa [System.undisturbed, Option.all_eq_true] using undisturbed) thread
      simp only [Record.Fits]
      omega
  · cases taken

theorem consistent_ttl {thread : Nat} {key : String} {expiryMs : Option UInt64}
    {nowMs : UInt64} (consistent : system.Consistent clock written)
    (undisturbed : system.undisturbed (.ttl thread key expiryMs nowMs) = true)
    {next : System}
    (taken : system.step clock (.ttl thread key expiryMs nowMs) = .ok next)
    : next.Consistent clock (written.after system (.ttl thread key expiryMs nowMs)) := by
  obtain ⟨contents, usable, trims, sound⟩ := consistent
  have found : system.lookup key nowMs = .ok (contents.read key nowMs) :=
    usable.represents.kvLookup system.db.activeSegment key nowMs
  simp only [step] at taken
  split at taken
  · split at taken
    · cases live : contents.read key nowMs with
      | none =>
          rw [found, live] at taken
          obtain rfl := Except.ok.inj taken
          simp only [Contents.after, found, live]
          exact ⟨contents, usable, trims, sound⟩
      | some value =>
          rw [found, live] at taken
          obtain rfl := Except.ok.inj taken
          obtain ⟨item, holds, rfl⟩ := trims.found live
          simp only [Contents.after, found, live, Contents.retime, holds]
          exact consistent_appendValue injective usable trims sound
            (usable.represents.fits_of_read live)
            (by
              simpa [System.undisturbed, found, live, Option.all_eq_true] using undisturbed)
            thread
    · cases taken
  · cases taken

theorem consistent_finish {thread : Nat} (consistent : system.Consistent clock written)
    {next : System} (taken : system.step clock (.finish thread) = .ok next)
    : next.Consistent clock written := by
  obtain ⟨contents, usable, trims, sound⟩ := consistent
  simp only [step] at taken
  split at taken
  · rename_i newSize replaced _
    obtain rfl := Except.ok.inj taken
    have settled := KVEngine.finishWrite_settled system.db system.world newSize replaced
    exact consistent_settled injective usable trims sound
      ((KVEngine.Progress.refl usable.active).settled settled) settled.index rfl rfl
  · rename_i key old _
    obtain rfl := Except.ok.inj taken
    have settled := KVEngine.finishDelete_settled system.db system.world key old
    exact consistent_settled injective usable trims sound
      ((KVEngine.Progress.refl usable.active).settled settled) settled.index rfl rfl
  · cases taken

theorem consistent_deleteWal {thread : Nat} {key : String}
    (consistent : system.Consistent clock written) {next : System}
    (taken : system.step clock (.deleteWal thread key) = .ok next)
    : next.Consistent clock written := by
  obtain ⟨contents, usable, trims, sound⟩ := consistent
  simp only [step] at taken
  split at taken
  · split at taken
    · cases taken
    · obtain rfl := Except.ok.inj taken
      exact consistent_settled injective usable trims sound
        (.of_frame usable.active rfl rfl rfl ⟨rfl, rfl⟩ (fun _ _ found => found)) rfl rfl rfl
  · cases taken

theorem consistent_deleteIndex {thread : Nat}
    (consistent : system.Consistent clock written)
    (undisturbed : system.undisturbed (.deleteIndex thread) = true) {next : System}
    (taken : system.step clock (.deleteIndex thread) = .ok next)
    : next.Consistent clock (written.after system (.deleteIndex thread)) := by
  obtain ⟨contents, usable, trims, sound⟩ := consistent
  simp only [step] at taken
  split at taken
  · rename_i key logged
    simp only [Contents.after, logged]
    have shape : next.db = (system.db.deleteIndex key).2
        ∧ next.world = system.world
        ∧ next.compactor = system.compactor
        ∧ next.timeMs = system.timeMs := by
      split at taken <;> obtain rfl := Except.ok.inj taken <;> exact ⟨rfl, rfl, rfl, rfl⟩
    obtain ⟨db, world, compactor, time⟩ := shape
    have pending (rest : List (String × Option UInt64))
        (member : rest ∈ system.compactor.pending) (present : contents key ≠ none)
        : key ∈ rest.map Prod.fst := by
      simp only [System.undisturbed, logged, Bool.or_eq_true, Option.isNone_iff_eq_none,
        Option.all_eq_true, decide_eq_true_eq] at undisturbed
      rcases undisturbed with missing | copied
      · exact absurd (usable.represents.absent key missing) present
      · exact copied rest member
    refine consistent_progress injective usable sound ?_
      (?_ : Represents _ _ (contents.delete key))
      (fun rest member _ copies => copies.delete (pending rest member)) compactor time ?_
    · rw [db, world]
      exact KVEngine.deleteIndex_progress usable.active key
    · rw [db, world]
      exact usable.represents.delete key
    · rw [time]
      exact trims.delete key
  · cases taken

theorem consistent_deleteRecord {thread : Nat}
    (consistent : system.Consistent clock written) {next : System}
    (taken : system.step clock (.deleteRecord thread) = .ok next)
    : next.Consistent clock written := by
  obtain ⟨contents, usable, trims, sound⟩ := consistent
  simp only [step] at taken
  split at taken
  · rename_i key old _
    obtain rfl := Except.ok.inj taken
    exact consistent_settled injective usable trims sound
      ((KVEngine.Progress.refl usable.active).append _ _) rfl rfl rfl
  · cases taken

theorem consistent_openNew (consistent : system.Consistent clock written)
    {next : System} (taken : system.step clock .openNew = .ok next)
    : next.Consistent clock written := by
  obtain ⟨contents, usable, trims, sound⟩ := consistent
  simp only [step] at taken
  split at taken
  · rename_i old listed
    obtain rfl := Except.ok.inj taken
    rw [listed] at sound
    obtain ⟨distinct, present⟩ := sound
    have keeps := keeps_apply system.world.disk
      (.segmentCreate (clock system.world.ticks)) (by simp)
    exact ⟨contents,
      ⟨usable.represents.keeps keeps, keeps.present usable.active,
        KVEngine.new_unused injective usable.unused system.db.maxSegmentBytes
          system.db.fsyncStrategy⟩,
      trims, distinct, KVEngine.new_compacting usable.represents usable.unused present _ _⟩
  · cases taken

theorem consistent_copy {nowMs : UInt64} (consistent : system.Consistent clock written)
    {next : System} (taken : system.step clock (.copy nowMs) = .ok next)
    : next.Consistent clock written := by
  obtain ⟨contents, usable, trims, sound⟩ := consistent
  simp only [step] at taken
  split at taken
  · rename_i old newDb item rest copying
    rw [copying] at sound
    obtain ⟨distinct, copied, compacting, copies⟩ := sound
    split at taken
    · rename_i past
      obtain ⟨newer, after, done, ongoing, change⟩ :=
        compacting.copyKey usable.unused item nowMs
      rw [done] at taken
      obtain rfl := Except.ok.inj taken
      have moved : Keeps system.world.disk after.disk ∧ KVEngine.Unused clock after := by
        rcases change with ⟨-, rfl⟩ | progress
        · exact ⟨.refl _, usable.unused⟩
        · exact ⟨progress.keeps,
            usable.unused.progress injective compacting.active progress⟩
      exact ⟨contents, ⟨ongoing.source, moved.1.present usable.active, moved.2⟩, trims,
        distinct, _, ongoing, copies.copyItem past⟩
    · cases taken
  · cases taken

omit injective

theorem consistent_tick {later : UInt64} (consistent : system.Consistent clock written)
    {next : System} (taken : system.step clock (.tick later) = .ok next)
    : next.Consistent clock written := by
  obtain ⟨contents, usable, trims, sound⟩ := consistent
  simp only [step] at taken
  split at taken
  · rename_i order
    obtain rfl := Except.ok.inj taken
    exact ⟨contents, usable, trims.later order, sound.later order⟩
  · cases taken

theorem consistent_listSegments (consistent : system.Consistent clock written)
    {next : System} (taken : system.step clock .listSegments = .ok next)
    : next.Consistent clock written := by
  obtain ⟨contents, usable, trims, sound⟩ := consistent
  simp only [step] at taken
  split at taken
  · obtain rfl := Except.ok.inj taken
    exact ⟨contents, usable, trims, Disk.nodup_getSegments _,
      fun segment member => (Disk.mem_getSegments _).mp member⟩
  · cases taken

theorem consistent_snapshot {order : IterOrder} {nowMs : UInt64}
    (consistent : system.Consistent clock written) {next : System}
    (taken : system.step clock (.snapshot order nowMs) = .ok next)
    : next.Consistent clock written := by
  obtain ⟨contents, usable, trims, sound⟩ := consistent
  simp only [step] at taken
  split at taken
  · rename_i old newDb opened
    rw [opened] at sound
    split at taken
    · rename_i past
      obtain rfl := Except.ok.inj taken
      exact ⟨contents, usable, trims, sound.1, Contents.empty, sound.2,
        (KVEngine.snapshotKeys_copies usable.represents order nowMs).later past⟩
    · cases taken
  · cases taken

theorem consistent_hints {order : IterOrder} (consistent : system.Consistent clock written)
    {next : System} (taken : system.step clock (.hints order) = .ok next)
    : next.Consistent clock written := by
  obtain ⟨contents, usable, trims, sound⟩ := consistent
  simp only [step] at taken
  split at taken
  · rename_i old newDb copying
    rw [copying] at sound
    obtain ⟨distinct, copied, compacting, copies⟩ := sound
    obtain rfl := Except.ok.inj taken
    obtain ⟨segments, -, ticks⟩ :=
      KVEngine.finishCompacted_frame order newDb old system.world
    have keeps := Keeps.of_segments segments
    have represents := usable.represents.keeps keeps
    exact ⟨contents,
      ⟨represents, keeps.present usable.active,
        usable.unused.of_segments (fun _ present => segments ▸ present) ticks⟩,
      trims, distinct, copied, compacting.keeps keeps represents, copies⟩
  · cases taken

/-- The swap installs the copy, which holds everything but expired items. -/
theorem consistent_swap (consistent : system.Consistent clock written) {next : System}
    (taken : system.step clock .swap = .ok next)
    : next.Consistent clock written := by
  obtain ⟨contents, usable, trims, sound⟩ := consistent
  simp only [step] at taken
  split at taken
  · rename_i old newDb hinted
    rw [hinted] at sound
    obtain ⟨distinct, copied, compacting, copies⟩ := sound
    obtain rfl := Except.ok.inj taken
    have complete : Contents.Trims system.timeMs copied contents :=
      fun key => copies.done key (by simp)
    exact ⟨copied,
      ⟨compacting.target.of_segments rfl, compacting.active, usable.unused⟩,
      complete.trans trims, distinct,
      ⟨compacting.avoids.present, compacting.avoids.active, compacting.avoids.entries⟩⟩
  · cases taken

theorem consistent_remove (consistent : system.Consistent clock written) {next : System}
    (taken : system.step clock .remove = .ok next)
    : next.Consistent clock written := by
  obtain ⟨contents, usable, trims, sound⟩ := consistent
  simp only [step] at taken
  split at taken
  · obtain rfl := Except.ok.inj taken
    exact ⟨contents, usable, trims, trivial⟩
  · rename_i segment rest removing
    rw [removing] at sound
    obtain ⟨unlisted, distinct⟩ := List.nodup_cons.mp sound.1
    obtain ⟨after, removed, represents, active, avoids, ticks, subset⟩ :=
      KVEngine.removeSegment_sound usable.represents usable.active sound.2 unlisted
    rw [removed] at taken
    obtain rfl := Except.ok.inj taken
    exact ⟨contents, ⟨represents, active, usable.unused.of_segments subset ticks⟩, trims,
      distinct, avoids⟩
  · cases taken

end System

/-- Every undisturbed step keeps the system consistent. -/
theorem System.Consistent.step {clock : Nat → Nat} (injective : Function.Injective clock)
    {system next : System} {written : Contents} {action : Action}
    (consistent : system.Consistent clock written)
    (undisturbed : system.undisturbed action = true)
    (taken : system.step clock action = .ok next)
    : next.Consistent clock (written.after system action) := by
  cases action with
  | tick later => exact consistent_tick consistent taken
  | append thread key value expiryMs =>
      exact consistent_append injective consistent undisturbed taken
  | ttl thread key expiryMs nowMs =>
      exact consistent_ttl injective consistent undisturbed taken
  | finish thread => exact consistent_finish injective consistent taken
  | deleteWal thread key => exact consistent_deleteWal injective consistent taken
  | deleteIndex thread =>
      exact consistent_deleteIndex injective consistent undisturbed taken
  | deleteRecord thread => exact consistent_deleteRecord injective consistent taken
  | listSegments => exact consistent_listSegments consistent taken
  | openNew => exact consistent_openNew injective consistent taken
  | snapshot order nowMs => exact consistent_snapshot consistent taken
  | copy nowMs => exact consistent_copy injective consistent taken
  | hints order => exact consistent_hints consistent taken
  | swap => exact consistent_swap consistent taken
  | remove => exact consistent_remove consistent taken

theorem Interleaves.consistent {clock : Nat → Nat} (increasing : StrictMono clock)
    {system : System} {written : Contents}
    (reached : Interleaves clock System.undisturbed system written)
    : system.Consistent clock written := by
  induction reached with
  | start ready => exact ⟨_, ready.usable increasing, fun _ => Or.inl rfl, trivial⟩
  | step _ undisturbed taken consistent =>
      exact consistent.step increasing.injective undisturbed taken

/-- Reads see the last write of every key in every undisturbed interleaving of writers
with a compaction.
-/
theorem compaction_keeps_updates {clock : Nat → Nat} (increasing : StrictMono clock)
    {system : System} {written : Contents}
    (reached : Interleaves clock System.undisturbed system written) (key : String)
    {nowMs : UInt64} (later : system.timeMs ≤ nowMs)
    : system.db.get system.world key nowMs
      = .ok ((written.read key nowMs).map (fun value => (key, value))) := by
  obtain ⟨contents, ready, trims, -⟩ := reached.consistent increasing
  have lookup := ready.represents.kvLookup system.db.activeSegment key nowMs
  rw [trims.agree key nowMs later] at lookup
  unfold KVEngine.get
  rw [lookup]
  cases written.read key nowMs <;> rfl

namespace System

/-- Takes allowed steps one after the other, tracking the map of the last writes. -/
def run (clock : Nat → Nat) (allowed : System → Action → Bool)
    : List Action → System → Contents → Except Refusal (System × Contents)
  | [], system, written => .ok (system, written)
  | action :: rest, system, written =>
      if allowed system action then do
        let next ← system.step clock action
        run clock allowed rest next (written.after system action)
      else
        .error .disabled

theorem interleaves_run {clock : Nat → Nat} {allowed : System → Action → Bool}
    {actions : List Action} {system final : System} {written last : Contents}
    (reached : Interleaves clock allowed system written)
    (ran : run clock allowed actions system written = .ok (final, last))
    : Interleaves clock allowed final last := by
  induction actions generalizing system written with
  | nil =>
      obtain ⟨rfl, rfl⟩ := Prod.mk.inj (Except.ok.inj ran)
      exact reached
  | cons action rest ih =>
      unfold run at ran
      split at ran
      · rename_i permitted
        cases taken : system.step clock action with
        | error refusal => simp [taken] at ran
        | ok next =>
            simp only [taken, ok_bind] at ran
            exact ih (reached.step permitted taken) ran
      · cases ran

end System

/-- Witness: a key is overwritten before it is copied and another one is deleted. -/
theorem compaction_keeps_updates_pending
    : ∃ system written,
        Interleaves id System.undisturbed system written
        ∧ system.quiescent = true
        ∧ system.db.get system.world "k" system.timeMs
          = .ok ((written.read "k" system.timeMs).map (fun value => ("k", value))) := by
  let start := System.start (KVEngine.new id 100 .never .initial).1
    (KVEngine.new id 100 .never .initial).2
  let order : IterOrder := ⟨id, fun _ => .refl _⟩
  let actions : List Action := [.append 0 "k" "v" none, .finish 0, .append 0 "l" "v" none,
    .finish 0, .listSegments, .openNew, .snapshot order 0, .append 0 "k" "w" none,
    .deleteWal 1 "l", .deleteIndex 1, .copy 0, .finish 0, .copy 0, .hints order, .swap,
    .deleteRecord 1, .remove, .finish 1, .remove]
  have computed : (System.run id System.undisturbed actions start
      Contents.empty).toOption.any (fun final => final.1.quiescent) = true := by
    decide +kernel
  simp only [Option.any_eq_true, toOption_eq_some] at computed
  obtain ⟨⟨final, written⟩, ran, quiescent⟩ := computed
  have reached := System.interleaves_run (.start (ready_initial strictMono_id 100 .never)) ran
  exact ⟨final, written, reached, quiescent,
    compaction_keeps_updates strictMono_id reached "k" UInt64.le_rfl⟩

/-- A key is overwritten between its copy and the swap. -/
def overwriteAfterCopy : List Action :=
  [
    .append 0 "k" "v" none,
    .finish 0,
    .listSegments,
    .openNew,
    .snapshot .stored 0,
    .copy 0,
    .append 0 "k" "w" none,
    .finish 0,
    .hints .stored,
    .swap,
    .remove,
    .remove
  ]

/-- The swap drops the overwrite: with every call returned, the old value is read. -/
theorem compaction_drops_overwrite
    : ∃ system written,
        Interleaves id (fun _ _ => true) system written
        ∧ system.quiescent = true
        ∧ written.read "k" system.timeMs = some "w"
        ∧ system.db.get system.world "k" system.timeMs = .ok (some ("k", "v")) := by
  let start := System.start (KVEngine.new id 100 .never .initial).1
    (KVEngine.new id 100 .never .initial).2
  have computed : (System.run id (fun _ _ => true) overwriteAfterCopy start
      Contents.empty).toOption.any
      (fun final =>
        final.1.quiescent
        && final.2.read "k" final.1.timeMs = some "w"
        && (final.1.db.get final.1.world "k" final.1.timeMs).toOption
          = some (some ("k", "v"))) = true := by
    decide +kernel
  simp only [Option.any_eq_true, toOption_eq_some, Bool.and_eq_true, decide_eq_true_eq]
    at computed
  obtain ⟨⟨final, written⟩, ran, ⟨quiescent, expected⟩, found⟩ := computed
  exact ⟨final, written,
    System.interleaves_run (.start (ready_initial strictMono_id 100 .never)) ran, quiescent, expected, found⟩

end Rustikv.Kv

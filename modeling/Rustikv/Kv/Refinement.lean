import Rustikv.Kv.Compaction

/-! Sequential use of the hash engine refines a map from keys to expiring values. -/

namespace Rustikv.Kv

open Library

/-- The calls of the storage trait. Iterations over the hash map carry their order, and
calls that read the clock more than once their further readings.
-/
inductive Call
  | set (key value : String)
  | setWithTtl (key value : String) (expiryMs : Option UInt64)
  | msetWithTtl (items : List (String × String × Option UInt64))
  | delete (key : String)
  | ttl (key : String) (expiryMs : Option UInt64)
  | get (key : String)
  | mget (keys : List (String × UInt64))
  | exists (key : String)
  | listKeys (order : IterOrder)
  | compact (order : IterOrder) (copyMs : String → UInt64)

inductive Reply
  | done
  | deleted (found : Bool)
  | ttl (outcome : TtlOutcome)
  | value (found : Option (String × String))
  | values (found : List (String × Option String))
  | exists (found : Bool)
  | keys (found : List String)
  deriving DecidableEq, Repr

/-- A call between two clock readings; it works with the first one. -/
structure Event where
  call : Call
  nowMs : UInt64
  finishMs : UInt64

/-- Keys and values within the limits of the record format. -/
def Call.Fits : Call → Prop
  | .set key value => Record.Fits key value
  | .setWithTtl key value _ => Record.Fits key value
  | .msetWithTtl items => ∀ item ∈ items, Record.Fits item.1 item.2.1
  | .delete key => key.utf8ByteSize ≤ maxKeySize
  | _ => True

/-- The call only reads. -/
def Call.Reads : Call → Prop
  | .get _ => True
  | .mget _ => True
  | .exists _ => True
  | .listKeys _ => True
  | _ => False

/-- The call is not a compaction. -/
def Call.Plain : Call → Prop
  | .compact _ _ => False
  | _ => True

/-- The call's further clock readings lie between its start and its end. -/
def Call.Within (start finish : UInt64) : Call → Prop
  | .mget keys => ∀ item ∈ keys, start ≤ item.2 ∧ item.2 ≤ finish
  | .compact _ copyMs => ∀ key, start ≤ copyMs key ∧ copyMs key ≤ finish
  | _ => True

/-- The clock readings of a run do not decrease. -/
def Timely : UInt64 → List Event → Prop
  | _, [] => True
  | start, event :: rest =>
      start ≤ event.nowMs
      ∧ event.nowMs ≤ event.finishMs
      ∧ event.call.Within event.nowMs event.finishMs
      ∧ Timely event.finishMs rest

-----------------------------------------------------------------------------------------
-- The engine's answers
-----------------------------------------------------------------------------------------

namespace KVEngine

variable (clock : Nat → Nat)

def handle (event : Event) (db : KVEngine) (world : World)
    : Except IoError (Reply × KVEngine × World) :=
  match event.call with
  | .set key value => do
      let (db, world) ← db.set clock world key value
      return (.done, db, world)
  | .setWithTtl key value expiryMs => do
      let (db, world) ← db.setWithTtl clock world key value expiryMs
      return (.done, db, world)
  | .msetWithTtl items => do
      let (db, world) ← db.msetWithTtl clock world items
      return (.done, db, world)
  | .delete key => do
      let (found, db, world) ← db.delete world key
      return (.deleted found, db, world)
  | .ttl key expiryMs => do
      let (outcome, db, world) ← db.ttl clock world key expiryMs event.nowMs
      return (.ttl outcome, db, world)
  | .get key => do return (.value (← db.get world key event.nowMs), db, world)
  | .mget keys => do return (.values (← db.mget world keys), db, world)
  | .exists key => .ok (.exists (db.exists? key event.nowMs), db, world)
  | .listKeys order => .ok (.keys (db.listKeys order event.nowMs), db, world)
  | .compact order copyMs => do
      let (db, world) ← db.compact clock order world event.nowMs copyMs
      return (.done, db, world)

def run : List Event → KVEngine → World → Except IoError (List Reply × KVEngine × World)
  | [], db, world => .ok ([], db, world)
  | event :: rest, db, world => do
      let (reply, db, world) ← handle clock event db world
      let (replies, db, world) ← run rest db world
      return (reply :: replies, db, world)

end KVEngine

-----------------------------------------------------------------------------------------
-- The map's answers
-----------------------------------------------------------------------------------------

namespace Contents

def setAll (contents : Contents) (items : List (String × String × Option UInt64))
    : Contents :=
  items.foldl (fun contents item => contents.set item.1 item.2.1 item.2.2) contents

def handle (contents : Contents) (event : Event) : Contents :=
  match event.call with
  | .set key value => contents.set key value none
  | .setWithTtl key value expiryMs => contents.set key value expiryMs
  | .msetWithTtl items => contents.setAll items
  | .delete key => contents.delete key
  | .ttl key expiryMs =>
      match contents.read key event.nowMs with
      | none => contents
      | some value => contents.set key value expiryMs
  | _ => contents

/-- The replies the map allows. A delete may report either outcome, and a key listing may
come in any order.
-/
def Answers (contents : Contents) (event : Event) (reply : Reply) : Prop :=
  match event.call, reply with
  | .set _ _, .done => True
  | .setWithTtl _ _ _, .done => True
  | .msetWithTtl _, .done => True
  | .delete _, .deleted _ => True
  | .ttl key expiryMs, .ttl outcome =>
      outcome
      = if (contents.read key event.nowMs).isNone then .notFound
        else if expiryMs.isSome then .set
        else .persisted
  | .get key, .value found =>
      found = (contents.read key event.nowMs).map (fun value => (key, value))
  | .mget keys, .values found =>
      found = keys.map (fun item => (item.1, contents.read item.1 item.2))
  | .exists key, .exists found => found = (contents.read key event.nowMs).isSome
  | .listKeys _, .keys found =>
      found.Nodup ∧ ∀ key, key ∈ found ↔ (contents.read key event.nowMs).isSome
  | .compact _ _, .done => True
  | _, _ => False

/-- Each reply is one the map allows in the state the calls before it left. -/
def Explains : Contents → List Event → List Reply → Prop
  | _, [], [] => True
  | contents, event :: events, reply :: replies =>
      contents.Answers event reply ∧ Explains (contents.handle event) events replies
  | _, _, _ => False

end Contents

-----------------------------------------------------------------------------------------
-- The simulation
-----------------------------------------------------------------------------------------

namespace Contents

theorem AgreeFrom.later {start later : UInt64} {left right : Contents}
    (agree : AgreeFrom start left right) (order : start ≤ later)
    : AgreeFrom later left right :=
  fun key nowMs bound => agree key nowMs (UInt64.le_trans order bound)

theorem AgreeFrom.set {start : UInt64} {left right : Contents}
    (agree : AgreeFrom start left right) (key value : String) (expiryMs : Option UInt64)
    : AgreeFrom start (left.set key value expiryMs) (right.set key value expiryMs) := by
  intro other nowMs bound
  by_cases same : key = other
  · simp [read, same]
  · simpa [read, same] using agree other nowMs bound

theorem AgreeFrom.setAll {start : UInt64} {left right : Contents}
    (agree : AgreeFrom start left right) (items : List (String × String × Option UInt64))
    : AgreeFrom start (left.setAll items) (right.setAll items) := by
  unfold Contents.setAll
  induction items generalizing left right with
  | nil => exact agree
  | cons item rest ih => exact ih (agree.set item.1 item.2.1 item.2.2)

theorem AgreeFrom.delete {start : UInt64} {left right : Contents}
    (agree : AgreeFrom start left right) (key : String)
    : AgreeFrom start (left.delete key) (right.delete key) := by
  intro other nowMs bound
  by_cases same : key = other
  · simp [read, same]
  · simpa [read, same] using agree other nowMs bound

end Contents

/-- The engine holds a map that reads like `contents` from `start` on. -/
def Shows (db : KVEngine) (world : World) (contents : Contents) (start : UInt64) : Prop :=
  ∃ stored,
    Represents db.index world.disk stored ∧ Contents.AgreeFrom start stored contents

namespace Shows

variable {db : KVEngine} {world : World} {contents : Contents} {start : UInt64}

theorem get (shows : Shows db world contents start) (key : String) {nowMs : UInt64}
    (order : start ≤ nowMs)
    : db.get world key nowMs
      = .ok ((contents.read key nowMs).map (fun value => (key, value))) := by
  obtain ⟨stored, represents, agree⟩ := shows
  have lookup := represents.kvLookup db.activeSegment key nowMs
  rw [agree key nowMs order] at lookup
  unfold KVEngine.get
  rw [lookup]
  cases contents.read key nowMs <;> rfl

theorem mget (shows : Shows db world contents start) (keys : List (String × UInt64))
    (order : ∀ item ∈ keys, start ≤ item.2)
    : db.mget world keys
      = .ok (keys.map (fun item => (item.1, contents.read item.1 item.2))) := by
  unfold KVEngine.mget
  induction keys with
  | nil => rfl
  | cons item rest ih =>
      have first := shows.get item.1 (order item (by simp))
      have others := ih (fun other member => order other (List.mem_cons_of_mem item member))
      rw [List.mapM_cons, others, first]
      cases found : contents.read item.1 item.2 <;> simp [found]

/-- The index alone tells which keys are readable. -/
theorem isSome_read (shows : Shows db world contents start) (key : String)
    {nowMs : UInt64} (order : start ≤ nowMs)
    : (contents.read key nowMs).isSome
      ↔ ∃ entry,
          db.index.get key = some entry
          ∧ entry.expiryMs.any (isExpired · nowMs) = false := by
  obtain ⟨stored, represents, agree⟩ := shows
  rw [← agree key nowMs order]
  cases found : db.index.get key with
  | none => simp [Contents.read, represents.absent key found]
  | some entry =>
      obtain ⟨value, holds, -, -⟩ := represents.present key entry found
      cases expired : entry.expiryMs.any (isExpired · nowMs) <;>
        simp [Contents.read, holds, Item.read, expired]

theorem exists? (shows : Shows db world contents start) (key : String) {nowMs : UInt64}
    (order : start ≤ nowMs)
    : db.exists? key nowMs = (contents.read key nowMs).isSome := by
  rw [Bool.eq_iff_iff, shows.isSome_read key order]
  unfold KVEngine.exists?
  cases db.index.get key <;> simp

theorem mem_listKeys (shows : Shows db world contents start) (order : IterOrder)
    (key : String) {nowMs : UInt64} (later : start ≤ nowMs)
    : key ∈ db.listKeys order nowMs ↔ (contents.read key nowMs).isSome := by
  rw [shows.isSome_read key later]
  simp only [KVEngine.listKeys, List.mem_filter, (order.perm _).mem_iff, HashIndex.mem_keys]
  constructor
  · rintro ⟨⟨entry, found⟩, live⟩
    exact ⟨entry, found, by simpa [found] using live⟩
  · rintro ⟨entry, found, live⟩
    exact ⟨⟨entry, found⟩, by simp [found, live]⟩

theorem nodup_listKeys (order : IterOrder) (db : KVEngine) (nowMs : UInt64)
    : (db.listKeys order nowMs).Nodup :=
  List.Nodup.filter _ ((order.perm _).nodup_iff.mpr db.index.nodup_keys)

/-- Reading calls answer as the map does and change neither side. -/
theorem handle (shows : Shows db world contents start) {event : Event}
    (reads : event.call.Reads) (starts : start ≤ event.nowMs)
    (later : ∀ keys, event.call = .mget keys → ∀ item ∈ keys, start ≤ item.2)
    (clock : Nat → Nat)
    : contents.handle event = contents
      ∧ ∃ reply,
          KVEngine.handle clock event db world = .ok (reply, db, world)
          ∧ contents.Answers event reply := by
  obtain ⟨call, nowMs, finishMs⟩ := event
  cases call with
  | get key =>
      exact ⟨rfl, .value _, by simp [KVEngine.handle, shows.get key starts], rfl⟩
  | mget keys =>
      have found := shows.mget keys (later keys rfl)
      exact ⟨rfl, .values _, by simp [KVEngine.handle, found], rfl⟩
  | «exists» key => exact ⟨rfl, _, rfl, shows.exists? key starts⟩
  | listKeys order =>
      exact ⟨rfl, _, rfl, nodup_listKeys order db nowMs,
        fun key => shows.mem_listKeys order key starts⟩
  | set _ _ => exact reads.elim
  | setWithTtl _ _ _ => exact reads.elim
  | msetWithTtl _ => exact reads.elim
  | delete _ => exact reads.elim
  | ttl _ _ => exact reads.elim
  | compact _ _ => exact reads.elim

end Shows

/-- A write keeps this, whichever segment it goes to. -/
def KeptByWrites (clock : Nat → Nat) (Kept : World → Prop) : Prop :=
  ∀ {db next : KVEngine} {world after : World},
    Kept world
    → db.activeSegment ∈ world.disk.segments
    → KVEngine.Progress clock db next world after
    → Kept after

/-- An engine that stores a map and has an active segment. The timestamps of the segments may
repeat, as far as `Kept` allows it.
-/
structure Serves (Kept : World → Prop) (db : KVEngine) (world : World)
    (contents : Contents)
    : Prop where
  represents : Represents db.index world.disk contents
  active : db.activeSegment ∈ world.disk.segments
  kept : Kept world

namespace Serves

variable {clock : Nat → Nat} {Kept : World → Prop} {db : KVEngine} {world : World}
  {contents : Contents}

theorem shows (serves : Serves Kept db world contents) : Shows db world contents 0 :=
  ⟨contents, serves.represents, fun _ _ _ => rfl⟩

variable (writes : KeptByWrites clock Kept)
include writes

theorem progress (serves : Serves Kept db world contents) {next : KVEngine}
    {after : World} {changed : Contents}
    (progress : KVEngine.Progress clock db next world after)
    (now : Represents next.index after.disk changed)
    : Serves Kept next after changed where
  represents := now
  active := progress.active
  kept := writes serves.kept serves.active progress

theorem setWithTtl (serves : Serves Kept db world contents) {key value : String}
    (fits : Record.Fits key value) (expiryMs : Option UInt64)
    : ∃ next after,
        db.setWithTtl clock world key value expiryMs = .ok (next, after)
        ∧ Serves Kept next after (contents.set key value expiryMs) := by
  obtain ⟨next, after, written, progress, now⟩ :=
    KVEngine.setWithTtl_sound clock serves.represents serves.active fits expiryMs
  exact ⟨next, after, written, serves.progress writes progress now⟩

theorem msetWithTtl (serves : Serves Kept db world contents)
    {items : List (String × String × Option UInt64)}
    (fits : ∀ item ∈ items, Record.Fits item.1 item.2.1)
    : ∃ next after,
        db.msetWithTtl clock world items = .ok (next, after)
        ∧ Serves Kept next after (contents.setAll items) := by
  unfold KVEngine.msetWithTtl Contents.setAll
  induction items generalizing db world contents with
  | nil => exact ⟨db, world, rfl, serves⟩
  | cons item rest ih =>
      obtain ⟨next, after, written, now⟩ :=
        serves.setWithTtl writes (fits item (by simp)) item.2.2
      rw [List.foldlM_cons, written]
      exact ih now (fun other member => fits other (List.mem_cons_of_mem item member))

/-- A delete reports whether the map has an item for its key, expired or not. -/
theorem delete (serves : Serves Kept db world contents) {key : String}
    (fits : key.utf8ByteSize ≤ maxKeySize)
    : ∃ next after,
        db.delete world key = .ok ((contents key).isSome, next, after)
        ∧ Serves Kept next after (contents.delete key) := by
  obtain ⟨found, next, after, deleted, progress, now⟩ :=
    KVEngine.delete_sound clock serves.represents serves.active fits
  rw [KVEngine.delete_found deleted, serves.represents.isSome_get] at deleted
  exact ⟨next, after, deleted, serves.progress writes progress now⟩

/-- One call other than a compaction: the engine answers as the map does and goes on storing
it.
-/
theorem handle (serves : Serves Kept db world contents) {event : Event}
    (fits : event.call.Fits) (plain : event.call.Plain)
    : ∃ reply next after,
        KVEngine.handle clock event db world = .ok (reply, next, after)
        ∧ contents.Answers event reply
        ∧ (∀ key, event.call = .delete key → reply = .deleted (contents key).isSome)
        ∧ Serves Kept next after (contents.handle event) := by
  have reading (reads : event.call.Reads)
      : ∃ reply next after,
          KVEngine.handle clock event db world = .ok (reply, next, after)
          ∧ contents.Answers event reply
          ∧ (∀ key, event.call = .delete key → reply = .deleted (contents key).isSome)
          ∧ Serves Kept next after (contents.handle event) := by
    obtain ⟨same, reply, handled, answers⟩ := serves.shows.handle reads UInt64.zero_le
      (fun _ _ _ _ => UInt64.zero_le) clock
    refine ⟨reply, db, world, handled, answers, ?_, same.symm ▸ serves⟩
    intro key delete
    rw [delete] at reads
    exact reads.elim
  obtain ⟨call, nowMs, finishMs⟩ := event
  cases call with
  | set key value =>
      obtain ⟨next, after, written, now⟩ := serves.setWithTtl writes fits none
      exact ⟨.done, next, after, by simp [KVEngine.handle, KVEngine.set, written],
        trivial, by simp, now⟩
  | setWithTtl key value expiryMs =>
      obtain ⟨next, after, written, now⟩ := serves.setWithTtl writes fits expiryMs
      exact ⟨.done, next, after, by simp [KVEngine.handle, written], trivial, by simp, now⟩
  | msetWithTtl items =>
      obtain ⟨next, after, written, now⟩ := serves.msetWithTtl writes fits
      exact ⟨.done, next, after, by simp [KVEngine.handle, written], trivial, by simp, now⟩
  | delete key =>
      obtain ⟨next, after, deleted, now⟩ := serves.delete writes fits
      exact ⟨.deleted (contents key).isSome, next, after,
        by simp [KVEngine.handle, deleted], trivial, by simp, now⟩
  | ttl key expiryMs =>
      rcases KVEngine.ttl_sound clock serves.represents serves.active key expiryMs nowMs with
        ⟨absent, unchanged⟩ | ⟨value, next, after, live, written, progress, now⟩
      · refine ⟨.ttl .notFound, db, world, by simp [KVEngine.handle, unchanged],
          by simp [Contents.Answers, absent], by simp, ?_⟩
        simp only [Contents.handle, absent]
        exact serves
      · refine ⟨.ttl (if expiryMs.isSome then .set else .persisted), next, after,
          by simp [KVEngine.handle, written], by simp [Contents.Answers, live], by simp, ?_⟩
        simp only [Contents.handle, live]
        exact serves.progress writes progress now
  | get key => exact reading trivial
  | mget keys => exact reading trivial
  | «exists» key => exact reading trivial
  | listKeys keyOrder => exact reading trivial
  | compact keyOrder copyMs => exact plain.elim

end Serves

namespace Ready

variable {clock : Nat → Nat} {db : KVEngine} {world : World} {contents : Contents}

theorem serves (ready : Ready clock db world contents)
    : Serves (KVEngine.Fresh clock) db world contents :=
  ⟨ready.represents, ready.active, ready.fresh⟩

theorem of_serves (serves : Serves (KVEngine.Fresh clock) db world contents)
    : Ready clock db world contents :=
  ⟨serves.represents, serves.active, serves.kept⟩

theorem shows (ready : Ready clock db world contents) : Shows db world contents 0 :=
  ready.serves.shows

variable (increasing : StrictMono clock)
include increasing

theorem keptByWrites : KeptByWrites clock (KVEngine.Fresh clock) :=
  fun fresh active progress => fresh.progress increasing active progress

theorem progress (ready : Ready clock db world contents) {next : KVEngine}
    {after : World} {changed : Contents}
    (progress : KVEngine.Progress clock db next world after)
    (now : Represents next.index after.disk changed)
    : Ready clock next after changed :=
  of_serves (ready.serves.progress (keptByWrites increasing) progress now)

theorem setWithTtl (ready : Ready clock db world contents) {key value : String}
    (fits : Record.Fits key value) (expiryMs : Option UInt64)
    : ∃ next after,
        db.setWithTtl clock world key value expiryMs = .ok (next, after)
        ∧ Ready clock next after (contents.set key value expiryMs) := by
  obtain ⟨next, after, written, now⟩ :=
    ready.serves.setWithTtl (keptByWrites increasing) fits expiryMs
  exact ⟨next, after, written, of_serves now⟩

theorem delete (ready : Ready clock db world contents) {key : String}
    (fits : key.utf8ByteSize ≤ maxKeySize)
    : ∃ next after,
        db.delete world key = .ok ((contents key).isSome, next, after)
        ∧ Ready clock next after (contents.delete key) := by
  obtain ⟨next, after, deleted, now⟩ := ready.serves.delete (keptByWrites increasing) fits
  exact ⟨next, after, deleted, of_serves now⟩

theorem handle (ready : Ready clock db world contents) {event : Event}
    (fits : event.call.Fits) (plain : event.call.Plain)
    : ∃ reply next after,
        KVEngine.handle clock event db world = .ok (reply, next, after)
        ∧ contents.Answers event reply
        ∧ (∀ key, event.call = .delete key → reply = .deleted (contents key).isSome)
        ∧ Ready clock next after (contents.handle event) := by
  obtain ⟨reply, next, after, handled, answers, deleted, now⟩ :=
    ready.serves.handle (keptByWrites increasing) fits plain
  exact ⟨reply, next, after, handled, answers, deleted, of_serves now⟩

end Ready

/-- The engine shows the map, its active segment exists, and the next segment will be a
new one.
-/
structure Simulates (clock : Nat → Nat) (db : KVEngine) (world : World)
    (contents : Contents) (start : UInt64)
    : Prop where
  holds : Shows db world contents start
  active : db.activeSegment ∈ world.disk.segments
  fresh : KVEngine.Fresh clock world

namespace Contents

/-- Maps that read alike allow the same replies. -/
theorem AgreeFrom.answers_iff {start : UInt64} {stored contents : Contents}
    (agree : AgreeFrom start stored contents) {event : Event} (reply : Reply)
    (starts : start ≤ event.nowMs) (within : event.call.Within event.nowMs event.finishMs)
    : stored.Answers event reply ↔ contents.Answers event reply := by
  obtain ⟨call, nowMs, finishMs⟩ := event
  have same := fun key => agree key nowMs starts
  cases call with
  | mget keys =>
      have each : keys.map (fun item => (item.1, stored.read item.1 item.2))
          = keys.map (fun item => (item.1, contents.read item.1 item.2)) := by
        refine List.map_congr_left (fun item member => ?_)
        rw [agree item.1 item.2 (UInt64.le_trans starts (within item member).1)]
      cases reply <;> simp [Answers, each]
  | _ => cases reply <;> simp [Answers, same]

theorem AgreeFrom.handle {start : UInt64} {stored contents : Contents}
    (agree : AgreeFrom start stored contents) {event : Event} (starts : start ≤ event.nowMs)
    : AgreeFrom start (stored.handle event) (contents.handle event) := by
  obtain ⟨call, nowMs, finishMs⟩ := event
  cases call with
  | set key value => exact agree.set key value none
  | setWithTtl key value expiryMs => exact agree.set key value expiryMs
  | msetWithTtl items => exact agree.setAll items
  | delete key => exact agree.delete key
  | ttl key expiryMs =>
      simp only [Contents.handle, agree key nowMs starts]
      cases contents.read key nowMs with
      | none => exact agree
      | some value => exact agree.set key value expiryMs
  | get key => exact agree
  | mget keys => exact agree
  | «exists» key => exact agree
  | listKeys order => exact agree
  | compact order copyMs => exact agree

end Contents

namespace Simulates

variable {clock : Nat → Nat} {db : KVEngine} {world : World} {contents : Contents}
  {start : UInt64}

/-- The map the engine holds reads like the one it simulates. -/
theorem ready (simulates : Simulates clock db world contents start)
    : ∃ stored, Ready clock db world stored ∧ Contents.AgreeFrom start stored contents := by
  obtain ⟨⟨stored, represents, agree⟩, active, fresh⟩ := simulates
  exact ⟨stored, ⟨represents, active, fresh⟩, agree⟩

theorem of_ready {stored : Contents} (ready : Ready clock db world stored)
    (agree : Contents.AgreeFrom start stored contents)
    : Simulates clock db world contents start :=
  ⟨⟨stored, ready.represents, agree⟩, ready.active, ready.fresh⟩

variable (increasing : StrictMono clock)
include increasing

theorem compact (simulates : Simulates clock db world contents start) (order : IterOrder)
    {nowMs finish : UInt64} {copyMs : String → UInt64} (later : start ≤ nowMs)
    (bound : ∀ key, nowMs ≤ copyMs key ∧ copyMs key ≤ finish)
    : ∃ next after,
        db.compact clock order world nowMs copyMs = .ok (next, after)
        ∧ Simulates clock next after contents finish := by
  obtain ⟨⟨stored, represents, agree⟩, active, fresh⟩ := simulates
  have ends : nowMs ≤ finish := UInt64.le_trans (bound "").1 (bound "").2
  obtain ⟨next, after, compacted, done, now, active, fresh, same⟩ :=
    KVEngine.compact_sound (KVEngine.reserves_fresh increasing) represents fresh order ends
      (fun key => (bound key).2)
  refine ⟨next, after, done, ⟨compacted, now, ?_⟩, active, fresh⟩
  intro key time bound
  exact (same key time bound).trans
    (agree key time (UInt64.le_trans (UInt64.le_trans later ends) bound))

/-- One call: the engine answers as the map does and goes on simulating it. -/
theorem handle (simulates : Simulates clock db world contents start) {event : Event}
    (fits : event.call.Fits) (starts : start ≤ event.nowMs)
    (ends : event.nowMs ≤ event.finishMs)
    (within : event.call.Within event.nowMs event.finishMs)
    : ∃ reply next after,
        KVEngine.handle clock event db world = .ok (reply, next, after)
        ∧ contents.Answers event reply
        ∧ Simulates clock next after (contents.handle event) event.finishMs := by
  by_cases plain : event.call.Plain
  · obtain ⟨stored, ready, agree⟩ := simulates.ready
    obtain ⟨reply, next, after, handled, answers, -, now⟩ :=
      ready.handle increasing fits plain
    exact ⟨reply, next, after, handled,
      (agree.answers_iff reply starts within).mp answers,
      .of_ready now ((agree.handle starts).later (UInt64.le_trans starts ends))⟩
  · obtain ⟨call, nowMs, finishMs⟩ := event
    cases call with
    | compact keyOrder copyMs =>
        obtain ⟨next, after, compacted, now⟩ :=
          simulates.compact increasing keyOrder starts within
        exact ⟨.done, next, after, by simp [KVEngine.handle, compacted], trivial, now⟩
    | _ => exact absurd trivial plain

/-- Every run of calls is explained by the map. -/
theorem run (simulates : Simulates clock db world contents start) {events : List Event}
    (fits : ∀ event ∈ events, event.call.Fits) (timely : Timely start events)
    : ∃ replies next after,
        KVEngine.run clock events db world = .ok (replies, next, after)
        ∧ contents.Explains events replies := by
  induction events generalizing db world contents start with
  | nil => exact ⟨[], db, world, rfl, trivial⟩
  | cons event rest ih =>
      obtain ⟨starts, ends, within, restTimely⟩ := timely
      obtain ⟨reply, next, after, handled, answers, now⟩ :=
        simulates.handle increasing (fits event (by simp)) starts ends within
      obtain ⟨replies, last, final, ran, explains⟩ :=
        ih now (fun other member => fits other (List.mem_cons_of_mem event member)) restTimely
      refine ⟨reply :: replies, last, final, ?_, answers, explains⟩
      simp only [KVEngine.run, handled, ok_bind, ran]
      rfl

end Simulates

theorem simulates_new {clock : Nat → Nat} (increasing : StrictMono clock) {world : World}
    (fresh : KVEngine.Fresh clock world) (maxSegmentBytes : UInt64)
    (fsyncStrategy : FSyncStrategy) (start : UInt64)
    : Simulates clock (KVEngine.new clock maxSegmentBytes fsyncStrategy world).1
        (KVEngine.new clock maxSegmentBytes fsyncStrategy world).2 Contents.empty start :=
  .of_ready (ready_new increasing fresh maxSegmentBytes fsyncStrategy) (fun _ _ _ => rfl)

/-- A new engine answers every sequence of calls as a map from keys to expiring values. -/
theorem sequential_refinement {clock : Nat → Nat} (increasing : StrictMono clock)
    {world : World} (fresh : KVEngine.Fresh clock world) (maxSegmentBytes : UInt64)
    (fsyncStrategy : FSyncStrategy) {events : List Event}
    (fits : ∀ event ∈ events, event.call.Fits) (timely : Timely 0 events)
    : ∃ replies db after,
        KVEngine.run clock events
            (KVEngine.new clock maxSegmentBytes fsyncStrategy world).1
            (KVEngine.new clock maxSegmentBytes fsyncStrategy world).2
          = .ok (replies, db, after)
        ∧ Contents.empty.Explains events replies :=
  (simulates_new increasing fresh maxSegmentBytes fsyncStrategy 0).run increasing fits timely

/-- Witness: an overwrite in a full segment, a compaction at the expiry, and a read. -/
theorem sequential_refinement_expiry
    : let events : List Event := [
        { call := .set "k" "v", nowMs := 1, finishMs := 1 },
        { call := .setWithTtl "k" "w" (some 5), nowMs := 2, finishMs := 2 },
        { call := .get "k", nowMs := 4, finishMs := 4 },
        { call := .compact ⟨id, fun _ => .refl _⟩ (fun _ => 5), nowMs := 5, finishMs := 5 },
        { call := .get "k", nowMs := 6, finishMs := 6 }
      ]
      ∃ replies db after,
        KVEngine.run id events (KVEngine.new id 10 .always .initial).1
            (KVEngine.new id 10 .always .initial).2
          = .ok (replies, db, after)
        ∧ Contents.empty.Explains events replies := by
  refine sequential_refinement strictMono_id (fun segment present => ?_) 10 .always ?_ ?_
  · simp [World.initial, Disk.empty] at present
  · simp [Call.Fits, Record.Fits]
    decide
  · simp [Timely, Call.Within]

end Rustikv.Kv

import Rustikv.Kv.Refinement
import Rustikv.Lsm.Scans

/-! The two engines behind the storage trait, compared call by call. -/

namespace Rustikv

open Library Kv Lsm

-----------------------------------------------------------------------------------------
-- The storage trait on the LSM engine
-----------------------------------------------------------------------------------------

namespace Lsm.LsmEngine

/-- Answers the calls that the hash engine answers. `stamp` names the tables a call writes.
-/
def serve (stamp : Nat → Nat) (engine : LsmEngine) (event : Kv.Event)
    : Except IoError (Kv.Reply × LsmEngine) :=
  let clock := fun _ => event.nowMs
  match event.call with
  | .set key value => do return (.done, ← engine.set key value stamp)
  | .setWithTtl key value expiryMs => do
      return (.done, ← engine.setWithTtl key value expiryMs stamp)
  | .msetWithTtl items => do return (.done, ← engine.msetWithTtl stamp items)
  | .delete key => do
      let (found, engine) ← engine.delete key clock stamp
      return (.deleted found, engine)
  | .ttl key expiryMs => do
      let (outcome, engine) ← engine.ttl key expiryMs clock stamp
      return (.ttl outcome, engine)
  | .get key => do return (.value (← engine.get key clock), engine)
  | .mget keys => do
      let found ← engine.mget (keys.map (fun item => (item.1, fun _ => item.2)))
      return (.values found, engine)
  | .exists key => .ok (.exists (engine.exists? key clock), engine)
  | .listKeys order => do return (.keys (← engine.listKeys order event.nowMs), engine)
  | .compact _ _ => do return (.done, ← engine.compact clock stamp)

def serveAll (stamp : Nat → Nat)
    : List Kv.Event → LsmEngine → Except IoError (List Kv.Reply × LsmEngine)
  | [], engine => .ok ([], engine)
  | event :: rest, engine => do
      let (reply, engine) ← engine.serve stamp event
      let (replies, engine) ← serveAll stamp rest engine
      return (reply :: replies, engine)

/-- One of the writes brings the memtable to its threshold. -/
def fillsWith : LsmEngine → List (String × String × Option UInt64) → Bool
  | _, [] => false
  | engine, (key, value, expiryMs) :: rest =>
      let next := engine.write key (some value) expiryMs
      next.isFull || fillsWith next rest

/-- The call brings the memtable to its threshold, or flushes it anyway. -/
def fills (engine : LsmEngine) (event : Kv.Event) : Bool :=
  match event.call with
  | .set key value => (engine.write key (some value) none).isFull
  | .setWithTtl key value expiryMs => (engine.write key (some value) expiryMs).isFull
  | .msetWithTtl items => engine.fillsWith items
  | .delete key => (engine.write key none none).isFull
  | .ttl key expiryMs =>
      match engine.find key event.nowMs event.nowMs with
      | .ok (some value) => (engine.write key (some value) expiryMs).isFull
      | _ => false
  | .compact _ _ => true
  | _ => false

/-- No call of the run brings the memtable to its threshold. -/
def staysBelow (stamp : Nat → Nat) : List Kv.Event → LsmEngine → Bool
  | [], _ => true
  | event :: rest, engine =>
      !engine.fills event
      && (engine.serve stamp event).toOption.all (fun served => staysBelow stamp rest served.2)

end Lsm.LsmEngine

-----------------------------------------------------------------------------------------
-- What the LSM engine answers while its memtable holds everything
-----------------------------------------------------------------------------------------

/-- A tombstone stands for no item. -/
def MemtableEntry.item (entry : MemtableEntry) : Option Item :=
  entry.value.map (fun value => { value, expiryMs := entry.expiryMs })

theorem MemtableEntry.read_eq (entry : MemtableEntry) (nowMs : UInt64)
    : entry.read nowMs = entry.item.bind (fun item => item.read nowMs) := by
  obtain ⟨value, expiryMs⟩ := entry
  cases value <;> cases expiryMs <;> rfl

/-- The active memtable holds the items of the map, and nothing was flushed yet. -/
structure Holds (engine : LsmEngine) (contents : Contents) : Prop where
  entries : ∀ key, contents key = (engine.active.entry key).bind MemtableEntry.item
  immutable : engine.immutable = none
  tables : engine.strategy.iterAll = []

namespace Holds

variable {engine : LsmEngine} {contents : Contents}

theorem read (holds : Holds engine contents) (key : String) (nowMs : UInt64)
    : contents.read key nowMs = readAt (engine.active.entry key) nowMs := by
  rw [Contents.read, holds.entries, readAt]
  cases engine.active.entry key with
  | none => rfl
  | some entry => exact (entry.read_eq nowMs).symm

theorem find (holds : Holds engine contents) (key : String) (nowMs tableMs : UInt64)
    : engine.find key nowMs tableMs = .ok (contents.read key nowMs) := by
  unfold LsmEngine.find Lsm.lookup
  rw [holds.read, holds.immutable, StorageStrategy.iterForKey, holds.tables]
  cases engine.active.entry key <;> rfl

theorem get (holds : Holds engine contents) (key : String) (clock : Nat → UInt64)
    : engine.get key clock
      = .ok ((contents.read key (clock 0)).map (fun value => (key, value))) := by
  rw [LsmEngine.get, holds.find]
  rfl

theorem mget (holds : Holds engine contents) (keys : List (String × UInt64))
    : engine.mget (keys.map (fun item => (item.1, fun _ => item.2)))
      = .ok (keys.map (fun item => (item.1, contents.read item.1 item.2))) := by
  unfold LsmEngine.mget
  induction keys with
  | nil => rfl
  | cons item rest ih =>
      rw [List.map_cons, List.mapM_cons, ih, holds.get]
      cases found : contents.read item.1 item.2 <;> simp [found]

theorem exists? (holds : Holds engine contents) (key : String) (clock : Nat → UInt64)
    : engine.exists? key clock = (contents.read key (clock 0)).isSome := by
  simp [LsmEngine.exists?, holds.get]

theorem listKeys (holds : Holds engine contents) (order : IterOrder) (nowMs : UInt64)
    : ∃ keys,
        engine.listKeys order nowMs = .ok keys
        ∧ keys.Nodup
        ∧ ∀ key, key ∈ keys ↔ (contents.read key nowMs).isSome := by
  obtain ⟨found, scans, reads⟩ := engine.scan_eq (fun _ => ()) nowMs (fun _ => true)
    (List.forall_mem_nil SSTable.Valid)
  refine ⟨order.order found.keys, ?_, ?_, fun key => ?_⟩
  · rw [LsmEngine.listKeys, holds.tables, scans]
    rfl
  · rw [(order.perm _).nodup_iff]
    exact found.sorted_keys.imp (fun before => before.ne)
  · rw [(order.perm _).mem_iff, SortedMap.mem_keys, reads, holds.read]
    simp [LsmEngine.scanned, holds.immutable, Option.isSome_iff_exists]

theorem write (holds : Holds engine contents) (key : String) (value : String)
    (expiryMs : Option UInt64)
    : Holds (engine.write key (some value) expiryMs) (contents.set key value expiryMs) where
  entries other := by
    by_cases same : key = other
    · simp [LsmEngine.write, applyWrite, same, MemtableEntry.item]
    · simpa [LsmEngine.write, applyWrite, same] using holds.entries other
  immutable := holds.immutable
  tables := holds.tables

theorem delete (holds : Holds engine contents) (key : String)
    : Holds (engine.write key none none) (contents.delete key) where
  entries other := by
    by_cases same : key = other
    · simp [LsmEngine.write, applyWrite, same, MemtableEntry.item]
    · simpa [LsmEngine.write, applyWrite, same] using holds.entries other
  immutable := holds.immutable
  tables := holds.tables

theorem finishWrite {next : LsmEngine} (below : next.isFull = false) (timestamp : Nat)
    : next.finishWrite timestamp = .ok next := by
  simp [LsmEngine.finishWrite, below]

theorem msetWithTtl (holds : Holds engine contents)
    {items : List (String × String × Option UInt64)}
    (below : engine.fillsWith items = false) (stamp : Nat → Nat)
    : ∃ next,
        engine.msetWithTtl stamp items = .ok next ∧ Holds next (contents.setAll items) := by
  induction items generalizing engine contents stamp with
  | nil => exact ⟨engine, rfl, holds⟩
  | cons item rest ih =>
      obtain ⟨key, value, expiryMs⟩ := item
      simp only [LsmEngine.fillsWith, Bool.or_eq_false_iff] at below
      obtain ⟨next, written, now⟩ :=
        ih (holds.write key value expiryMs) below.2 (fun i => stamp (i + 1))
      refine ⟨next, ?_, now⟩
      rw [LsmEngine.msetWithTtl, LsmEngine.setWithTtl, finishWrite below.1]
      exact written

/-- One call that leaves the memtable below its threshold: the engine answers as the map
does, a delete reports whether its key could be read, and the memtable goes on holding
everything.
-/
theorem serve (holds : Holds engine contents) {event : Kv.Event}
    (below : engine.fills event = false) (stamp : Nat → Nat)
    : ∃ reply next,
        engine.serve stamp event = .ok (reply, next)
        ∧ contents.Answers event reply
        ∧ (∀ key,
            event.call = .delete key
            → reply = .deleted (contents.read key event.nowMs).isSome)
        ∧ Holds next (contents.handle event) := by
  obtain ⟨call, nowMs, finishMs⟩ := event
  cases call with
  | set key value =>
      refine ⟨.done, engine.write key (some value) none, ?_, trivial, by simp,
        holds.write key value none⟩
      simp [LsmEngine.serve, LsmEngine.set, LsmEngine.setWithTtl, finishWrite below]
  | setWithTtl key value expiryMs =>
      refine ⟨.done, engine.write key (some value) expiryMs, ?_, trivial, by simp,
        holds.write key value expiryMs⟩
      simp [LsmEngine.serve, LsmEngine.setWithTtl, finishWrite below]
  | msetWithTtl items =>
      obtain ⟨next, written, now⟩ := holds.msetWithTtl below stamp
      exact ⟨.done, next, by simp [LsmEngine.serve, written], trivial, by simp, now⟩
  | delete key =>
      refine ⟨.deleted (contents.read key nowMs).isSome, engine.write key none none, ?_,
        trivial, by simp, holds.delete key⟩
      simp [LsmEngine.serve, LsmEngine.delete, holds.get, finishWrite below]
  | ttl key expiryMs =>
      simp only [LsmEngine.fills, holds.find] at below
      cases live : contents.read key nowMs with
      | none =>
          refine ⟨.ttl .notFound, engine, ?_, by simp [Contents.Answers, live], by simp, ?_⟩
          · simp [LsmEngine.serve, LsmEngine.ttl, holds.find, live]
            rfl
          · simpa [Contents.handle, live] using holds
      | some value =>
          rw [live] at below
          refine ⟨.ttl (if expiryMs.isSome then .set else .persisted),
            engine.write key (some value) expiryMs, ?_, by simp [Contents.Answers, live],
            by simp, ?_⟩
          · simp [LsmEngine.serve, LsmEngine.ttl, holds.find, live, finishWrite below]
          · simpa [Contents.handle, live] using holds.write key value expiryMs
  | get key =>
      exact ⟨.value _, engine, by simp [LsmEngine.serve, holds.get], rfl, by simp, holds⟩
  | mget keys =>
      exact ⟨.values _, engine, by simp [LsmEngine.serve, holds.mget], rfl, by simp, holds⟩
  | «exists» key =>
      exact ⟨_, engine, rfl, holds.exists? key (fun _ => nowMs), by simp, holds⟩
  | listKeys order =>
      obtain ⟨keys, listed, distinct, members⟩ := holds.listKeys order nowMs
      exact ⟨.keys keys, engine, by simp [LsmEngine.serve, listed], ⟨distinct, members⟩,
        by simp, holds⟩
  | compact order copyMs => simp [LsmEngine.fills] at below

end Holds

theorem holds_new {strategy : StorageStrategy} (new : strategy.New) (maxMemtableBytes : Nat)
    (settings : BlockSettings)
    : Holds (LsmEngine.new maxMemtableBytes strategy settings) Contents.empty where
  entries key := by simp [LsmEngine.new, Contents.empty]
  immutable := rfl
  tables := new.iterAll

-----------------------------------------------------------------------------------------
-- Equal replies
-----------------------------------------------------------------------------------------

/-- The replies are equal, key listings as sets. -/
def Kv.Reply.Same : Kv.Reply → Kv.Reply → Prop
  | .keys left, .keys right => ∀ key, key ∈ left ↔ key ∈ right
  | left, right => left = right

/-- The map leaves only a delete's reply open. -/
theorem Kv.Contents.Answers.same {contents : Contents} {event : Kv.Event}
    {left right : Kv.Reply} (first : contents.Answers event left)
    (second : contents.Answers event right) (other : ∀ key, event.call ≠ .delete key)
    : left.Same right := by
  obtain ⟨call, nowMs, finishMs⟩ := event
  cases call with
  | delete key => exact absurd rfl (other key)
  | listKeys order =>
      cases left with
      | keys left =>
          cases right with
          | keys right => exact fun key => (first.2 key).trans (second.2 key).symm
          | _ => exact second.elim
      | _ => exact first.elim
  | _ => cases left <;> cases right <;> simp_all [Contents.Answers, Kv.Reply.Same]

/-- The key has an item that no reader sees any more. -/
def Kv.Contents.HasExpired (contents : Contents) (key : String) (nowMs : UInt64) : Prop :=
  (contents key).isSome ∧ contents.read key nowMs = none

/-- No call deletes a key whose item has expired by then. -/
def Kv.Contents.DeletesLive : Contents → List Kv.Event → Prop
  | _, [] => True
  | contents, event :: rest =>
      (∀ key, event.call = .delete key → ¬ contents.HasExpired key event.nowMs)
      ∧ DeletesLive (contents.handle event) rest

/-- The replies to one call are the same unless it deletes an expired key. -/
theorem same_iff {contents : Contents} {event : Kv.Event} {left right : Kv.Reply}
    (first : contents.Answers event left)
    (stored : ∀ key, event.call = .delete key → left = .deleted (contents key).isSome)
    (second : contents.Answers event right)
    (visible
      : ∀ key,
          event.call = .delete key
          → right = .deleted (contents.read key event.nowMs).isSome)
    : left.Same right
      ↔ ∀ key, event.call = .delete key → ¬ contents.HasExpired key event.nowMs := by
  by_cases deletes : ∃ key, event.call = .delete key
  · obtain ⟨key, call⟩ := deletes
    have only : ∀ other, event.call = .delete other ↔ other = key := by
      simp [call, eq_comm]
    rw [stored key call, visible key call]
    simp only [only, forall_eq, Kv.Reply.Same, Kv.Reply.deleted.injEq,
      Kv.Contents.HasExpired]
    cases held : contents key with
    | none => simp [Contents.read, held]
    | some item => cases contents.read key event.nowMs <;> simp
  · simp only [not_exists] at deletes
    exact iff_of_true (first.same second deletes) (fun key call => absurd call (deletes key))

theorem plain_of_fills {engine : LsmEngine} {event : Kv.Event}
    (below : engine.fills event = false)
    : event.call.Plain := by
  obtain ⟨call, nowMs, finishMs⟩ := event
  cases call with
  | compact order copyMs => simp [LsmEngine.fills] at below
  | _ => trivial

/-- Both engines hold the same map: they answer a run alike exactly if it deletes no expired
key.
-/
theorem run_same_iff (clock : Nat → Nat) {stamp : Nat → Nat} {db : KVEngine}
    {world : World} {engine : LsmEngine} {contents : Contents}
    (serves : Serves (fun _ => True) db world contents)
    (holds : Holds engine contents) {events : List Kv.Event}
    (fits : ∀ event ∈ events, event.call.Fits) (below : LsmEngine.staysBelow stamp events engine = true)
    : ∃ left next after right last,
        KVEngine.run clock events db world = .ok (left, next, after)
        ∧ LsmEngine.serveAll stamp events engine = .ok (right, last)
        ∧ (List.Forall₂ Kv.Reply.Same left right ↔ contents.DeletesLive events) := by
  induction events generalizing db world engine contents with
  | nil => exact ⟨[], db, world, [], engine, rfl, rfl, iff_of_true .nil trivial⟩
  | cons event rest ih =>
      simp only [LsmEngine.staysBelow, Bool.and_eq_true, Bool.not_eq_true'] at below
      obtain ⟨front, behind⟩ := below
      have writes : KeptByWrites clock (fun _ => True) := fun _ _ _ => trivial
      obtain ⟨reply, next, after, handled, answers, stored, servesNext⟩ :=
        serves.handle writes (fits event (by simp)) (plain_of_fills front)
      obtain ⟨other, last, served, also, visible, holdsNext⟩ := holds.serve front stamp
      obtain ⟨left, final, world, right, engine, ran, servedAll, same⟩ :=
        ih servesNext holdsNext
          (fun event member => fits event (List.mem_cons_of_mem _ member))
          (by simpa [served, Except.toOption] using behind)
      refine ⟨reply :: left, final, world, other :: right, engine, ?_, ?_, ?_⟩
      · simp [KVEngine.run, handled, ran]
      · simp [LsmEngine.serveAll, served, servedAll]
      · rw [List.forall₂_cons, same, same_iff answers stored also visible,
          Contents.DeletesLive]

/-- A new hash engine, which may roll its segments, and a new LSM engine whose memtable stays
below its threshold give the same reply to every call of a run exactly if no call deletes a
key whose item has expired by then. Two rolls may read the same millisecond.
-/
theorem engines_agree_iff (clock : Nat → Nat) (world : World) (maxSegmentBytes : UInt64)
    (fsyncStrategy : FSyncStrategy) {strategy : StorageStrategy} (new : strategy.New)
    (maxMemtableBytes : Nat) (settings : BlockSettings) (stamp : Nat → Nat)
    {events : List Kv.Event} (fits : ∀ event ∈ events, event.call.Fits)
    (below
      : LsmEngine.staysBelow stamp events (LsmEngine.new maxMemtableBytes strategy settings)
        = true)
    : ∃ left db after right engine,
        KVEngine.run clock events
            (KVEngine.new clock maxSegmentBytes fsyncStrategy world).1
            (KVEngine.new clock maxSegmentBytes fsyncStrategy world).2
          = .ok (left, db, after)
        ∧ LsmEngine.serveAll stamp events
            (LsmEngine.new maxMemtableBytes strategy settings)
          = .ok (right, engine)
        ∧ (List.Forall₂ Kv.Reply.Same left right ↔ Contents.empty.DeletesLive events) :=
  run_same_iff clock ⟨.empty _, mem_segmentCreate _ _, trivial⟩
    (holds_new new maxMemtableBytes settings) fits below

/-- Witness: an expired value is overwritten and deleted, with every segment full and all
rolls in one millisecond.
-/
theorem engines_agree_overwritten
    : let events : List Kv.Event := [
        { call := .setWithTtl "k" "v" (some 5), nowMs := 1, finishMs := 1 },
        { call := .get "k", nowMs := 5, finishMs := 5 },
        { call := .set "k" "w", nowMs := 6, finishMs := 6 },
        { call := .delete "k", nowMs := 7, finishMs := 7 },
        { call := .listKeys .stored, nowMs := 8, finishMs := 8 }
      ]
      ∃ left db after right engine,
        KVEngine.run (fun _ => 7) events (KVEngine.new (fun _ => 7) 10 .always .initial).1
            (KVEngine.new (fun _ => 7) 10 .always .initial).2
          = .ok (left, db, after)
        ∧ LsmEngine.serveAll id events
            (LsmEngine.new 100 (.leveled (Leveled.new 2 4 1000 smallBlocks)) smallBlocks)
          = .ok (right, engine)
        ∧ List.Forall₂ Kv.Reply.Same left right := by
  intro events
  have fits : ∀ event ∈ events, event.call.Fits := by
    simp [events, Call.Fits, Record.Fits]
    decide
  obtain ⟨left, db, after, right, engine, ran, served, agree⟩ :=
    engines_agree_iff (fun _ => 7) .initial 10 .always (.leveled 2 4 1000 smallBlocks) 100
      smallBlocks id fits (by decide +kernel)
  refine ⟨left, db, after, right, engine, ran, served, agree.mpr ?_⟩
  simp [events, Contents.DeletesLive, Contents.HasExpired, Contents.handle, Contents.read,
    Item.read]

/-- Counterexample: the hash engine reports an expired key as deleted, the LSM engine as not
found.
-/
theorem engines_disagree_on_expired
    : let events : List Kv.Event := [
        { call := .setWithTtl "k" "v" (some 5), nowMs := 1, finishMs := 1 },
        { call := .exists "k", nowMs := 5, finishMs := 5 },
        { call := .delete "k", nowMs := 5, finishMs := 5 }
      ]
      (∀ event ∈ events, event.call.Fits)
      ∧ Timely 0 events
      ∧ LsmEngine.staysBelow id events
          (LsmEngine.new 100 (.leveled (Leveled.new 2 4 1000 smallBlocks)) smallBlocks)
        = true
      ∧ ∃ db after engine,
          KVEngine.run id events (KVEngine.new id 100 .always .initial).1
              (KVEngine.new id 100 .always .initial).2
            = .ok ([.done, .exists false, .deleted true], db, after)
          ∧ LsmEngine.serveAll id events
              (LsmEngine.new 100 (.leveled (Leveled.new 2 4 1000 smallBlocks)) smallBlocks)
            = .ok ([.done, .exists false, .deleted false], engine) := by
  intro events
  have ran : (KVEngine.run id events (KVEngine.new id 100 .always .initial).1
      (KVEngine.new id 100 .always .initial).2).toOption.any
      (fun final => final.1 = [.done, .exists false, .deleted true]) = true := by
    decide +kernel
  have served : (LsmEngine.serveAll id events
      (LsmEngine.new 100 (.leveled (Leveled.new 2 4 1000 smallBlocks))
        smallBlocks)).toOption.any
      (fun final => final.1 = [.done, .exists false, .deleted false]) = true := by
    decide +kernel
  simp only [Option.any_eq_true, toOption_eq_some, decide_eq_true_eq] at ran served
  obtain ⟨⟨left, db, after⟩, ran, rfl⟩ := ran
  obtain ⟨⟨right, engine⟩, served, rfl⟩ := served
  refine ⟨?_, ?_, by decide +kernel, db, after, engine, ran, served⟩
  · simp [events, Call.Fits, Record.Fits]
    decide
  · simp [events, Timely, Call.Within]

end Rustikv

import Mathlib.Data.List.TakeWhile
import Rustikv.Server.Dispatch

/-! The map that the server stands for. Whatever engine implements the map, its requests are
answered as the map allows.
-/

namespace Rustikv.Server

open Library Kv

-----------------------------------------------------------------------------------------
-- What a map answers
-----------------------------------------------------------------------------------------

/-- What an engine refuses to write or to delete, and whether it scans ranges. -/
structure Limits where
  refusesItem : String → String → Bool
  refusesKey : String → Bool
  scans : Bool

/-- The answers that a map allows, and the map behind them. An item that has expired may be
reported as deleted or as missing, a listing may come in any order, and the statistics are
left open.
-/
inductive Answered (limits : Limits) (readings : Readings) (contents : Contents)
    : Command → Answer → Contents → Prop
  | wrote {key value : String} (ttl : Option UInt32)
      (admitted : limits.refusesItem key value = false)
    : Answered limits readings contents (.write key value ttl) (.ok, [])
        (contents.set key value (ttl.bind (expiryOf readings.nowMs)))
  | refusedWrite {key value : String} (ttl : Option UInt32)
      (refused : limits.refusesItem key value = true)
    : Answered limits readings contents (.write key value ttl) (errorAnswer sizeError)
        contents
  | found {key value : String}
      (live : contents.read key (readings.clock 0 0) = some value)
    : Answered limits readings contents (.read key) (.ok, [value]) contents
  | missing {key : String} (absent : contents.read key (readings.clock 0 0) = none)
    : Answered limits readings contents (.read key) (.notFound, []) contents
  | deleted {key : String} (admitted : limits.refusesKey key = false)
      (held : (contents key).isSome)
    : Answered limits readings contents (.delete key) (.ok, []) (contents.delete key)
  | nothingDeleted {key : String} (admitted : limits.refusesKey key = false)
      (absent : contents.read key (readings.clock 0 0) = none)
    : Answered limits readings contents (.delete key) (.notFound, []) (contents.delete key)
  | refusedDelete {key : String} (refused : limits.refusesKey key = true)
    : Answered limits readings contents (.delete key) (errorAnswer sizeError) contents
  | compact {status : ResponseStatus} (either : status = .ok ∨ status = .noop)
    : Answered limits readings contents .compact (status, []) contents
  | stats (text : String) : Answered limits readings contents .stats (.ok, [text]) contents
  | invalid (opCode : UInt8)
    : Answered limits readings contents (.invalid opCode)
        (.error, ["Invalid op code: " ++ toString opCode]) contents
  | listed {keys : List String} (once : keys.Nodup)
      (live : ∀ key, key ∈ keys ↔ (contents.read key (readings.clock 0 0)).isSome)
    : Answered limits readings contents .list (.ok, keys) contents
  | present {key : String} (live : (contents.read key (readings.clock 0 0)).isSome)
    : Answered limits readings contents (.exists key) (.ok, []) contents
  | notPresent {key : String} (absent : contents.read key (readings.clock 0 0) = none)
    : Answered limits readings contents (.exists key) (.notFound, []) contents
  | pong : Answered limits readings contents .ping (.ok, ["PONG"]) contents
  | values (keys : List String)
    : Answered limits readings contents (.mget keys)
        (.ok,
          (keys.mapIdx (fun i key => (key, contents.read key (readings.clock i 0)))).flatMap
            (fun item => [item.1, item.2.getD nullValue]))
        contents
  | wroteAll {items : List (String × String × Option UInt32)}
      (admitted : ∀ item ∈ items, limits.refusesItem item.1 item.2.1 = false)
    : Answered limits readings contents (.mset items) (.ok, [])
        (contents.setAll (items.map (withExpiry readings.nowMs)))
  | wroteSome {front back : List (String × String × Option UInt32)}
      {item : String × String × Option UInt32}
      (admitted : ∀ item ∈ front, limits.refusesItem item.1 item.2.1 = false)
      (refused : limits.refusesItem item.1 item.2.1 = true)
    : Answered limits readings contents (.mset (front ++ item :: back))
        (errorAnswer sizeError)
        (contents.setAll (front.map (withExpiry readings.nowMs)))
  | scanned {start finish : String} {pairs : List (String × String)}
      (scans : limits.scans = true)
      (ascending : (pairs.map Prod.fst).Pairwise (· < ·))
      (live
        : ∀ key value,
            (key, value) ∈ pairs
            ↔ start ≤ key
              ∧ key ≤ finish
              ∧ contents.read key (readings.clock 0 0) = some value)
    : Answered limits readings contents (.range start finish)
        (.ok, pairs.flatMap (fun pair => [pair.1, pair.2])) contents
  | unsupported (start finish : String) (scans : limits.scans = false)
    : Answered limits readings contents (.range start finish)
        (.error, ["RANGE not supported by KV engine"]) contents
  | retimed {key value : String} (seconds : UInt32)
      (live : contents.read key (readings.clock 0 0) = some value)
    : Answered limits readings contents (.ttl key seconds) (.ok, [])
        (contents.set key value (expiryOf readings.nowMs seconds))
  | notRetimed {key : String} (seconds : UInt32)
      (absent : contents.read key (readings.clock 0 0) = none)
    : Answered limits readings contents (.ttl key seconds) (.notFound, []) contents

-----------------------------------------------------------------------------------------
-- Engines that implement a map
-----------------------------------------------------------------------------------------

section Implementation

variable {σ : Type} (engine : StorageEngine σ) (limits : Limits)
  (permits : σ → String → Option String → Option UInt64 → Prop)
  (Holds : σ → Contents → UInt64 → Prop)

/-- The calls of the trait do what the map does. `Holds` relates an engine to the map it holds
from some time on, and `permits` says which writes it can take without a background task.
-/
structure Implements : Prop where
  get {state contents since} {key : String} {clock : Nat → UInt64}
    : Holds state contents since
      → since ≤ clock 0
      → engine.get state key clock
        = .ok ((contents.read key (clock 0)).map (fun value => (key, value)))
  set {state contents since} {key value : String} {expiryMs : Option UInt64}
      (stamp : Nat → Nat)
    : Holds state contents since
      → limits.refusesItem key value = false
      → permits state key (some value) expiryMs
      → ∃ next,
          engine.setWithTtl state key value expiryMs stamp = (.ok (), next)
          ∧ Holds next (contents.set key value expiryMs) since
  setRefused {state contents since} {key value : String} (expiryMs : Option UInt64)
      (stamp : Nat → Nat)
    : Holds state contents since
      → limits.refusesItem key value = true
      → engine.setWithTtl state key value expiryMs stamp = (.error sizeError, state)
  delete {state contents since} {key : String} {readings : Readings}
    : Holds state contents since
      → since ≤ readings.clock 0 0
      → limits.refusesKey key = false
      → permits state key none none
      → ∃ found next,
          engine.delete state key readings = (.ok found, next)
          ∧ Holds next (contents.delete key) since
          ∧ if found then (contents key).isSome = true
            else contents.read key (readings.clock 0 0) = none
  deleteRefused {state contents since} {key : String} (readings : Readings)
    : Holds state contents since
      → limits.refusesKey key = true
      → engine.delete state key readings = (.error sizeError, state)
  ttl {state contents since} {key : String} {expiryMs : Option UInt64} {readings : Readings}
    : Holds state contents since
      → since ≤ readings.clock 0 0
      → (∀ value,
          contents.read key (readings.clock 0 0) = some value
          → permits state key (some value) expiryMs)
      → ∃ next,
          match contents.read key (readings.clock 0 0) with
          | none =>
              engine.ttl state key expiryMs readings = (.ok .notFound, next)
              ∧ Holds next contents since
          | some value =>
              engine.ttl state key expiryMs readings
                = (.ok (if expiryMs.isSome then .set else .persisted), next)
              ∧ Holds next (contents.set key value expiryMs) since
  listKeys {state contents since} {readings : Readings}
    : Holds state contents since
      → since ≤ readings.clock 0 0
      → ∃ keys,
          engine.listKeys state readings = .ok keys
          ∧ keys.Nodup
          ∧ ∀ key, key ∈ keys ↔ (contents.read key (readings.clock 0 0)).isSome
  exists? {state contents since} {key : String} {clock : Nat → UInt64}
    : Holds state contents since
      → since ≤ clock 0
      → engine.exists? state key clock = (contents.read key (clock 0)).isSome
  range
    : match engine.range with
      | none => limits.scans = false
      | some range =>
          limits.scans = true
          ∧ ∀ state contents since start finish time,
              Holds state contents since
              → since ≤ time
              → ∃ pairs : List (String × String),
                  range state start finish time = .ok pairs
                  ∧ (pairs.map Prod.fst).Pairwise (· < ·)
                  ∧ ∀ key value,
                      (key, value) ∈ pairs
                      ↔ start ≤ key ∧ key ≤ finish ∧ contents.read key time = some value

/-- The engine can take all writes of an `MSET`, one after the other. -/
def PermitsAll : List (String × String × Option UInt64) → σ → (Nat → Nat) → Prop
  | [], _, _ => True
  | (key, value, expiryMs) :: rest, state, stamp =>
      permits state key (some value) expiryMs
      ∧ PermitsAll rest (engine.setWithTtl state key value expiryMs stamp).2
          (fun i => stamp (i + 1))

/-- The engine can take what a request writes. -/
def Permits (readings : Readings) (state : σ) : Command → Prop
  | .write key value ttl =>
      permits state key (some value) (ttl.bind (expiryOf readings.nowMs))
  | .delete key => permits state key none none
  | .mset items =>
      PermitsAll engine permits (items.map (withExpiry readings.nowMs)) state readings.stamp
  | .ttl key seconds =>
      ∀ found,
        engine.get state key (readings.clock 0) = .ok (some found)
        → permits state key (some found.2) (expiryOf readings.nowMs seconds)
  | _ => True

/-- An engine that can take every write can take what a request writes. -/
theorem permits_anything (readings : Readings) (state : σ) (command : Command)
    : Permits engine (fun _ _ _ _ => True) readings state command := by
  have all (items : List (String × String × Option UInt64))
      : ∀ state stamp, PermitsAll engine (fun _ _ _ _ => True) items state stamp := by
    induction items with
    | nil => exact fun _ _ => trivial
    | cons item rest ih => exact fun _ _ => ⟨trivial, ih _ _⟩
  cases command with
  | mset items => exact all _ _ _
  | ttl key seconds => exact fun _ _ => trivial
  | _ => trivial

theorem database_maybeTriggerCompaction (engine : StorageEngine σ) (cfg : CompactionCfg)
    (process : Process σ) (startMs : UInt64)
    : (process.maybeTriggerCompaction engine cfg startMs).database = process.database := by
  unfold Process.maybeTriggerCompaction
  split <;> rfl

theorem database_finishWrite (engine : StorageEngine σ) (cfg : CompactionCfg)
    (readings : Readings) (process : Process σ) (count : Nat) (outcome : Except IoError Unit × σ)
    : (finishWrite engine cfg readings process count outcome).2.database = outcome.2 := by
  obtain ⟨_ | _, next⟩ := outcome
  · rfl
  · exact database_maybeTriggerCompaction engine cfg _ _

theorem database_finishDelete (engine : StorageEngine σ) (cfg : CompactionCfg)
    (readings : Readings) (process : Process σ) (outcome : Except IoError Bool × σ)
    : (finishDelete engine cfg readings process outcome).2.database = outcome.2 := by
  obtain ⟨_ | _ | _, next⟩ := outcome
  · rfl
  · rfl
  · exact database_maybeTriggerCompaction engine cfg _ _

theorem database_finishTtl (process : Process σ) (outcome : Except IoError TtlOutcome × σ)
    : (finishTtl process outcome).2.database = outcome.2 := by
  obtain ⟨_ | _ | _ | _, next⟩ := outcome <;> rfl

/-- `TTL` does not tell a new expiry from none. -/
theorem answer_retimed (process : Process σ) (expires : Bool) (next : σ)
    : (finishTtl process (.ok (if expires then .set else .persisted), next)).1
      = (.ok, []) := by
  cases expires <;> rfl

namespace Implements

variable {engine limits permits Holds} (implements : Implements engine limits permits Holds)
  {state : σ} {contents : Contents} {since : UInt64}
include implements

theorem mget (holds : Holds state contents since) (keys : List String)
    {clock : Nat → Nat → UInt64} (later : ∀ i, since ≤ clock i 0)
    : engine.mget state keys clock
      = .ok (keys.mapIdx (fun i key => (key, contents.read key (clock i 0)))) := by
  unfold StorageEngine.mget
  induction keys generalizing clock with
  | nil => rfl
  | cons key rest ih =>
      have others := @ih (fun i => clock (i + 1)) (fun i => later (i + 1))
      rw [List.mapIdx_cons, List.mapM_cons, others, implements.get holds (later 0),
        List.mapIdx_cons]
      cases contents.read key (clock 0 0) <;> rfl

/-- The items up to the first refused one are written. -/
theorem mset (holds : Holds state contents since)
    {items : List (String × String × Option UInt64)} {stamp : Nat → Nat}
    (permitted : PermitsAll engine permits items state stamp)
    : (∃ next,
        (∀ item ∈ items, limits.refusesItem item.1 item.2.1 = false)
        ∧ engine.msetWithTtl items state stamp = (.ok (), next)
        ∧ Holds next (contents.setAll items) since)
      ∨ ∃ front item back next,
          items = front ++ item :: back
          ∧ (∀ item ∈ front, limits.refusesItem item.1 item.2.1 = false)
          ∧ limits.refusesItem item.1 item.2.1 = true
          ∧ engine.msetWithTtl items state stamp = (.error sizeError, next)
          ∧ Holds next (contents.setAll front) since := by
  induction items generalizing state contents stamp with
  | nil => exact .inl ⟨state, by simp, rfl, holds⟩
  | cons item rest ih =>
      obtain ⟨key, value, expiryMs⟩ := item
      obtain ⟨here, later⟩ := permitted
      cases refused : limits.refusesItem key value with
      | true =>
          have stopped := implements.setRefused expiryMs stamp holds refused
          refine .inr ⟨[], (key, value, expiryMs), rest, state, rfl, by simp, refused, ?_,
            holds⟩
          rw [StorageEngine.msetWithTtl, stopped]
      | false =>
          obtain ⟨next, written, now⟩ := implements.set stamp holds refused here
          rw [written] at later
          have first : engine.msetWithTtl ((key, value, expiryMs) :: rest) state stamp
              = engine.msetWithTtl rest next (fun i => stamp (i + 1)) := by
            rw [StorageEngine.msetWithTtl, written]
          rcases ih now later with
            ⟨last, admitted, done, final⟩
            | ⟨front, item, back, last, rfl, admitted, stops, done, final⟩
          · exact .inl ⟨last, List.forall_mem_cons.mpr ⟨refused, admitted⟩,
              first.trans done, final⟩
          · exact .inr ⟨(key, value, expiryMs) :: front, item, back, last, rfl,
              List.forall_mem_cons.mpr ⟨refused, admitted⟩, stops, first.trans done, final⟩

/-- One request: the answer is one that the map allows, and the engine goes on holding the
map behind it.
-/
theorem answer {process : Process σ} (holds : Holds process.database contents since)
    (cfg : CompactionCfg) {readings : Readings} (later : ∀ i, since ≤ readings.clock i 0)
    {command : Command} (permitted : Permits engine permits readings process.database command)
    : ∃ changed,
        Answered limits readings contents command
            (Server.answer engine cfg readings process command).1 changed
        ∧ Holds (Server.answer engine cfg readings process command).2.database changed
            since := by
  have starts := later 0
  cases command with
  | invalid opCode => exact ⟨contents, .invalid opCode, holds⟩
  | stats => exact ⟨contents, .stats _, holds⟩
  | ping => exact ⟨contents, .pong, holds⟩
  | read key =>
      simp only [Server.answer, implements.get holds starts]
      cases live : contents.read key (readings.clock 0 0) with
      | none => exact ⟨contents, .missing live, holds⟩
      | some value => exact ⟨contents, .found live, holds⟩
  | write key value ttl =>
      simp only [Server.answer]
      cases refused : limits.refusesItem key value with
      | true =>
          rw [implements.setRefused _ readings.stamp holds refused]
          exact ⟨contents, .refusedWrite ttl refused, holds⟩
      | false =>
          obtain ⟨next, written, now⟩ := implements.set readings.stamp holds refused permitted
          rw [written]
          exact ⟨_, .wrote ttl refused, by rwa [database_finishWrite]⟩
  | delete key =>
      simp only [Server.answer]
      cases refused : limits.refusesKey key with
      | true =>
          rw [implements.deleteRefused readings holds refused]
          exact ⟨contents, .refusedDelete refused, holds⟩
      | false =>
          obtain ⟨found, next, done, now, reported⟩ :=
            implements.delete holds starts refused permitted
          rw [done]
          cases found with
          | true =>
              refine ⟨_, .deleted refused reported, ?_⟩
              rwa [database_finishDelete]
          | false => exact ⟨_, .nothingDeleted refused reported, now⟩
  | compact =>
      simp only [Server.answer]
      split
      · exact ⟨contents, .compact (.inr rfl), holds⟩
      · exact ⟨contents, .compact (.inl rfl), holds⟩
  | list =>
      obtain ⟨keys, listed, once, live⟩ := implements.listKeys holds starts
      simp only [Server.answer, listed]
      exact ⟨contents, .listed once live, holds⟩
  | «exists» key =>
      simp only [Server.answer, implements.exists? holds starts]
      cases live : contents.read key (readings.clock 0 0) with
      | none => exact ⟨contents, .notPresent live, holds⟩
      | some value =>
          exact ⟨contents, .present (by rw [live]; rfl), holds⟩
  | mget keys =>
      simp only [Server.answer, implements.mget holds keys later]
      exact ⟨contents, .values keys, holds⟩
  | mset items =>
      simp only [Server.answer]
      rcases implements.mset holds permitted with
        ⟨next, admitted, done, now⟩ | ⟨front, item, back, next, parts, admitted, refused, done, now⟩
      · rw [done]
        refine ⟨_, .wroteAll ?_, by rwa [database_finishWrite]⟩
        exact fun item member => admitted _ (List.mem_map_of_mem member)
      · obtain ⟨early, other, rfl, rfl, same⟩ := List.map_eq_append_iff.mp parts
        obtain ⟨first, late, rfl, rfl, rfl⟩ := List.map_eq_cons_iff.mp same
        rw [done]
        refine ⟨_, .wroteSome ?_ refused, now⟩
        exact fun item member => admitted _ (List.mem_map_of_mem member)
  | range start finish =>
      have scan := implements.range
      simp only [Server.answer]
      cases supported : engine.range with
      | none =>
          rw [supported] at scan
          exact ⟨contents, .unsupported start finish scan, holds⟩
      | some range =>
          rw [supported] at scan
          obtain ⟨pairs, found, ascending, live⟩ := scan.2 _ _ _ start finish _ holds starts
          simp only [found]
          exact ⟨contents, .scanned scan.1 ascending live, holds⟩
  | ttl key seconds =>
      have granted
          : ∀ value,
              contents.read key (readings.clock 0 0) = some value
              → permits process.database key (some value) (expiryOf readings.nowMs seconds) :=
        fun value live => permitted (key, value) (by rw [implements.get holds starts, live]; rfl)
      obtain ⟨next, outcome⟩ := implements.ttl holds starts granted
      simp only [Server.answer]
      cases live : contents.read key (readings.clock 0 0) with
      | none =>
          rw [live] at outcome
          obtain ⟨done, now⟩ := outcome
          rw [done]
          exact ⟨contents, .notRetimed seconds live, now⟩
      | some value =>
          rw [live] at outcome
          obtain ⟨done, now⟩ := outcome
          rw [done]
          refine ⟨contents.set key value (expiryOf readings.nowMs seconds), ?_, ?_⟩
          · rw [answer_retimed]
            exact .retimed seconds live
          · rwa [database_finishTtl]

end Implements

end Implementation

-----------------------------------------------------------------------------------------
-- Runs of a server process
-----------------------------------------------------------------------------------------

/-- A request is dispatched, or a spawned compaction thread runs. -/
inductive Work
  | request (command : Command)
  | compaction

/-- Work with what it reads and the time it ends. -/
structure Turn where
  work : Work
  readings : Readings
  finishMs : UInt64

/-- The engine's clock readings lie between the turns before and the end of this one. -/
structure Turn.Timely (since : UInt64) (turn : Turn) : Prop where
  starts : ∀ i, since ≤ turn.readings.clock i 0
  ends : ∀ i, turn.readings.clock i 0 ≤ turn.finishMs
  copies : ∀ key, turn.readings.copyMs key ≤ turn.finishMs

def TimelyTurns : UInt64 → List Turn → Prop
  | _, [] => True
  | since, turn :: rest => turn.Timely since ∧ TimelyTurns turn.finishMs rest

namespace Process

variable {σ : Type} (engine : StorageEngine σ) (cfg : CompactionCfg)

/-- A turn, and the response to a request. -/
def turn (process : Process σ) (turn : Turn) : Option Bytes × Process σ :=
  match turn.work with
  | .request command =>
      let (response, process) := dispatch engine cfg turn.readings process command
      (some response, process)
  | .compaction =>
      if process.threads = 0 then (none, process)
      else (none, process.runCompaction engine turn.readings)

/-- The responses of a run. -/
def serve : List Turn → Process σ → List Bytes × Process σ
  | [], process => ([], process)
  | next :: rest, process =>
      let (response, process) := process.turn engine cfg next
      let (responses, process) := serve rest process
      (response.toList ++ responses, process)

end Process

/-- The answers that a map allows to the requests of a run, and the map behind the last one. A
compaction is not seen.
-/
inductive Explained (limits : Limits) : Contents → List Turn → List Answer → Contents → Prop
  | nil (contents : Contents) : Explained limits contents [] [] contents
  | request {contents changed last : Contents} {command : Command} {readings : Readings}
      {answer : Answer} {turns : List Turn} {answers : List Answer} (finishMs : UInt64)
      (answered : Answered limits readings contents command answer changed)
      (rest : Explained limits changed turns answers last)
    : Explained limits contents ({ work := .request command, readings, finishMs } :: turns)
        (answer :: answers) last
  | compaction {contents last : Contents} (readings : Readings) {turns : List Turn}
      {answers : List Answer} (finishMs : UInt64)
      (rest : Explained limits contents turns answers last)
    : Explained limits contents ({ work := .compaction, readings, finishMs } :: turns)
        answers last

/-- The frame of an answer. -/
def Answer.frame (answer : Answer) : Bytes :=
  encodeFrame answer.1 answer.2

-----------------------------------------------------------------------------------------
-- The hash engine
-----------------------------------------------------------------------------------------

/-- The trait's view of a call that only changes the engine where it succeeds. -/
def outcomeOf {σ α : Type} (state : σ) (result : Except IoError (α × σ))
    : Except IoError α × σ :=
  match result with
  | .ok (value, next) => (.ok value, next)
  | .error error => (.error error, state)

/-- The hash engine with its files. -/
def kvStorage (clock : Nat → Nat) : StorageEngine (KVEngine × World) where
  get state key times := state.1.get state.2 key (times 0)
  setWithTtl state key value expiryMs _ :=
    outcomeOf state
      ((state.1.setWithTtl clock state.2 key value expiryMs).map (fun next => ((), next)))
  delete state key _ := outcomeOf state (state.1.delete state.2 key)
  ttl state key expiryMs readings :=
    outcomeOf state (state.1.ttl clock state.2 key expiryMs (readings.clock 0 0))
  listKeys state readings :=
    .ok (KVEngine.listKeys readings.order state.1 (readings.clock 0 0))
  exists? state key times := state.1.exists? key (times 0)
  compact state readings :=
    outcomeOf state
      ((state.1.compact clock readings.order state.2 (readings.clock 0 0) readings.copyMs).map
        (fun next => ((), next)))
  deadBytes state := UInt64.ofNat state.1.deadBytes
  totalBytes state := UInt64.ofNat state.1.totalBytes
  segmentCount state := state.1.segmentCount
  range := none

def kvLimits : Limits where
  refusesItem key value :=
    decide (maxKeySize < key.utf8ByteSize ∨ maxValueSize < value.utf8ByteSize)
  refusesKey key := decide (maxKeySize < key.utf8ByteSize)
  scans := false

/-- The hash engine may have dropped items that have expired. -/
def KvHolds (clock : Nat → Nat) (state : KVEngine × World) (contents : Contents)
    (since : UInt64)
    : Prop :=
  ∃ stored, Ready clock state.1 state.2 stored ∧ Contents.Trims since stored contents

namespace KvHolds

variable {clock : Nat → Nat} {state : KVEngine × World} {contents : Contents} {since : UInt64}

theorem read (holds : KvHolds clock state contents since) (key : String) {nowMs : UInt64}
    (later : since ≤ nowMs)
    : state.1.get state.2 key nowMs
      = .ok ((contents.read key nowMs).map (fun value => (key, value))) := by
  obtain ⟨stored, ready, trims⟩ := holds
  rw [ready.shows.get key UInt64.zero_le, trims.agree key nowMs later]

theorem later {time : UInt64} (holds : KvHolds clock state contents since)
    (order : since ≤ time)
    : KvHolds clock state contents time := by
  obtain ⟨stored, ready, trims⟩ := holds
  exact ⟨stored, ready, trims.later order⟩

/-- Where nothing is stored for a key, nothing can be read. -/
theorem absent_of_trims {stored contents : Contents}
    (trims : Contents.Trims since stored contents) {key : String} (absent : stored key = none)
    {nowMs : UInt64} (later : since ≤ nowMs)
    : contents.read key nowMs = none := by
  rw [← trims.agree key nowMs later, Contents.read, absent]
  rfl

theorem compact (increasing : StrictMono clock) (holds : KvHolds clock state contents since)
    {readings : Readings} {finishMs : UInt64} (starts : since ≤ readings.clock 0 0)
    (ends : readings.clock 0 0 ≤ finishMs) (copies : ∀ key, readings.copyMs key ≤ finishMs)
    : ∃ next,
        (kvStorage clock).compact state readings = (.ok (), next)
        ∧ KvHolds clock next contents finishMs := by
  obtain ⟨stored, ⟨represents, active, fresh⟩, trims⟩ := holds
  obtain ⟨next, after, compacted, done, now, nextActive, nextFresh, fewer⟩ :=
    KVEngine.compact_trims (KVEngine.reserves_fresh increasing) represents fresh
      readings.order ends copies
  refine ⟨(next, after), ?_, compacted, ⟨now, nextActive, nextFresh⟩, ?_⟩
  · simp only [kvStorage, done, Except.map, outcomeOf]
  · exact fewer.trans (trims.later (UInt64.le_trans starts ends))

end KvHolds

theorem fits_of_admitted {key value : String}
    (admitted : kvLimits.refusesItem key value = false)
    : Record.Fits key value := by
  simpa [kvLimits, Record.Fits] using admitted

theorem kvStorage_setRefused {clock : Nat → Nat} {key value : String}
    (refused : kvLimits.refusesItem key value = true) (state : KVEngine × World)
    (expiryMs : Option UInt64) (stamp : Nat → Nat)
    : (kvStorage clock).setWithTtl state key value expiryMs stamp
      = (.error sizeError, state) := by
  have large : maxKeySize < key.utf8ByteSize ∨ maxValueSize < value.utf8ByteSize :=
    of_decide_eq_true refused
  simp only [kvStorage, KVEngine.setWithTtl, if_pos large, Except.map, outcomeOf]

theorem kvStorage_deleteRefused {clock : Nat → Nat} {key : String}
    (refused : kvLimits.refusesKey key = true) (state : KVEngine × World)
    (readings : Readings)
    : (kvStorage clock).delete state key readings = (.error sizeError, state) := by
  have large : maxKeySize < key.utf8ByteSize := of_decide_eq_true refused
  simp only [kvStorage, KVEngine.delete, if_pos large, outcomeOf]

/-- The hash engine implements the map, whatever is written to it. -/
theorem kvStorage_implements {clock : Nat → Nat} (increasing : StrictMono clock)
    : Implements (kvStorage clock) kvLimits (fun _ _ _ _ => True) (KvHolds clock) where
  get holds starts := holds.read _ starts
  set {state contents since key value expiryMs} stamp holds admitted _ := by
    obtain ⟨stored, ready, trims⟩ := holds
    obtain ⟨next, after, written, now⟩ :=
      ready.setWithTtl increasing (fits_of_admitted admitted) expiryMs
    refine ⟨(next, after), ?_, _, now, trims.set key value expiryMs⟩
    simp only [kvStorage, written, Except.map, outcomeOf]
  setRefused {state contents since key value} expiryMs stamp _ refused :=
    kvStorage_setRefused refused state expiryMs stamp
  delete {state contents since key readings} holds starts admitted _ := by
    obtain ⟨stored, ready, trims⟩ := holds
    have fits : key.utf8ByteSize ≤ maxKeySize := not_lt.mp (of_decide_eq_false admitted)
    obtain ⟨next, after, deleted, now⟩ := ready.delete increasing fits
    refine ⟨(stored key).isSome, (next, after), ?_, ⟨_, now, trims.delete key⟩, ?_⟩
    · simp only [kvStorage, deleted, outcomeOf]
    · cases held : stored key with
      | none => exact KvHolds.absent_of_trims trims held starts
      | some item =>
          rcases trims key with same | ⟨dropped, -⟩
          · rw [← same, held]
            rfl
          · cases held.symm.trans dropped
  deleteRefused {state contents since key} readings _ refused :=
    kvStorage_deleteRefused refused state readings
  ttl {state contents since key expiryMs readings} holds starts _ := by
    obtain ⟨stored, ready, trims⟩ := holds
    rw [← trims.agree key (readings.clock 0 0) starts]
    rcases KVEngine.ttl_sound clock ready.represents ready.active key expiryMs
      (readings.clock 0 0) with
      ⟨absent, unchanged⟩ | ⟨value, next, after, live, written, progress, now⟩
    · refine ⟨state, ?_⟩
      rw [absent]
      exact ⟨by simp only [kvStorage, unchanged, outcomeOf], stored, ready, trims⟩
    · refine ⟨(next, after), ?_⟩
      rw [live]
      exact ⟨by simp only [kvStorage, written, outcomeOf], _,
        ready.progress increasing progress now, trims.set key value expiryMs⟩
  listKeys {state contents since readings} holds starts := by
    obtain ⟨stored, ready, trims⟩ := holds
    refine ⟨_, rfl, Shows.nodup_listKeys readings.order state.1 (readings.clock 0 0), ?_⟩
    intro key
    rw [ready.shows.mem_listKeys readings.order key UInt64.zero_le,
      trims.agree key (readings.clock 0 0) starts]
  exists? {state contents since key times} holds starts := by
    obtain ⟨stored, ready, trims⟩ := holds
    rw [← trims.agree key (times 0) starts]
    exact ready.shows.exists? key UInt64.zero_le
  range := rfl

theorem kvHolds_new {clock : Nat → Nat} (increasing : StrictMono clock) {world : World}
    (fresh : KVEngine.Fresh clock world) (maxSegmentBytes : UInt64)
    (fsyncStrategy : FSyncStrategy)
    : KvHolds clock
        (Process.new (KVEngine.new clock maxSegmentBytes fsyncStrategy world)).database
        Contents.empty 0 :=
  ⟨Contents.empty, ready_new increasing fresh maxSegmentBytes fsyncStrategy,
    fun _ => .inl rfl⟩

section HashEngine

variable {clock : Nat → Nat} (increasing : StrictMono clock) (cfg : CompactionCfg)
include increasing

/-- One turn of a process over the hash engine. -/
theorem kv_turn {process : Process (KVEngine × World)} {contents : Contents} {since : UInt64}
    (holds : KvHolds clock process.database contents since) {turn : Turn}
    (timely : turn.Timely since)
    : ∃ answers changed,
        (∀ {turns later last},
          Explained kvLimits changed turns later last
          → Explained kvLimits contents (turn :: turns) (answers ++ later) last)
        ∧ (process.turn (kvStorage clock) cfg turn).1.toList = answers.map Answer.frame
        ∧ KvHolds clock (process.turn (kvStorage clock) cfg turn).2.database changed
            turn.finishMs := by
  have order := UInt64.le_trans (timely.starts 0) (timely.ends 0)
  obtain ⟨work, readings, finishMs⟩ := turn
  cases work with
  | request command =>
      have permitted : Permits (kvStorage clock) (fun _ _ _ _ => True) readings
          process.database command := permits_anything _ _ _ command
      obtain ⟨changed, answered, now⟩ :=
        (kvStorage_implements increasing).answer holds cfg timely.starts permitted
      exact ⟨[_], changed, fun rest => .request finishMs answered rest, rfl, now.later order⟩
  | compaction =>
      refine ⟨[], contents, fun rest => .compaction readings finishMs rest, ?_, ?_⟩
      · simp only [Process.turn]
        split <;> rfl
      · obtain ⟨next, done, now⟩ := holds.compact increasing (timely.starts 0)
          (timely.ends 0) timely.copies
        simp only [Process.turn, Process.runCompaction, done]
        split
        · exact holds.later order
        · exact now

/-- A run of a process over the hash engine, from any map. Witness: induction over the turns.
-/
theorem kv_serve {process : Process (KVEngine × World)} {contents : Contents} {since : UInt64}
    (holds : KvHolds clock process.database contents since) {turns : List Turn}
    (timely : TimelyTurns since turns)
    : ∃ answers last time,
        Explained kvLimits contents turns answers last
        ∧ (process.serve (kvStorage clock) cfg turns).1 = answers.map Answer.frame
        ∧ KvHolds clock (process.serve (kvStorage clock) cfg turns).2.database last time := by
  induction turns generalizing process contents since with
  | nil => exact ⟨[], contents, since, .nil contents, rfl, holds⟩
  | cons turn rest ih =>
      obtain ⟨answers, changed, explains, responses, now⟩ :=
        kv_turn increasing cfg holds timely.1
      obtain ⟨others, last, time, explained, later, final⟩ := ih now timely.2
      refine ⟨answers ++ others, last, time, explains explained, ?_, final⟩
      rw [Process.serve, List.map_append, ← responses, ← later]

/-- A server over a new hash engine answers every run of requests, with compactions between
them, as a map from keys to expiring values does.
-/
theorem served_as_map {world : World} (fresh : KVEngine.Fresh clock world)
    (maxSegmentBytes : UInt64) (fsyncStrategy : FSyncStrategy) {turns : List Turn}
    (timely : TimelyTurns 0 turns)
    : ∃ answers last,
        Explained kvLimits Contents.empty turns answers last
        ∧ (Process.serve (kvStorage clock) cfg turns
            (.new (KVEngine.new clock maxSegmentBytes fsyncStrategy world))).1
          = answers.map Answer.frame := by
  have holds := kvHolds_new increasing fresh maxSegmentBytes fsyncStrategy
  obtain ⟨answers, last, -, explained, responses, -⟩ := kv_serve increasing cfg holds timely
  exact ⟨answers, last, explained, responses⟩

end HashEngine

/-- Every clock reading of a turn is the same. -/
def Work.at (work : Work) (nowMs : UInt64) : Turn :=
  {
    work
    readings := {
      nowMs
      clock := fun _ _ => nowMs
      copyMs := fun _ => nowMs
      stamp := id
      order := .stored
      lockMs := 0
      startMs := nowMs
      endMs := nowMs
    }
    finishMs := nowMs
  }

/-- An item is overwritten and expires, a refused one ends a batch, and a compaction runs. -/
def expiringTurns : List Turn :=
  [
    (Work.request (.write "k" "v" none)).at 1,
    (Work.request (.write "k" "w" (some 1))).at 2,
    (Work.request .compact).at 3,
    Work.compaction.at 4,
    (Work.request (.read "k")).at 5,
    (Work.request (.read "k")).at 1002,
    (Work.request (.delete "k")).at 1003
  ]

theorem Turn.Timely.at {since nowMs : UInt64} {work : Work} (order : since ≤ nowMs)
    : (work.at nowMs).Timely since :=
  ⟨fun _ => order, fun _ => UInt64.le_rfl, fun _ => UInt64.le_rfl⟩

theorem timely_expiringTurns : TimelyTurns 0 expiringTurns :=
  ⟨.at (by decide), .at (by decide), .at (by decide), .at (by decide), .at (by decide),
    .at (by decide), .at (by decide), trivial⟩

theorem fresh_initial (clock : Nat → Nat) : KVEngine.Fresh clock .initial := by
  intro segment present
  simp [World.initial, Disk.empty] at present

/-- Witness: two segments of one record each, compacted on request. -/
theorem served_as_map_expiring
    : ∃ answers last,
        Explained kvLimits Contents.empty expiringTurns answers last
        ∧ (Process.serve (kvStorage id) { ratio := 0, maxSegment := 0 } expiringTurns
            (.new (KVEngine.new id 30 .always .initial))).1
          = answers.map Answer.frame :=
  served_as_map strictMono_id _ (fresh_initial id) 30 .always timely_expiringTurns

-----------------------------------------------------------------------------------------
-- What clients can observe
-----------------------------------------------------------------------------------------

/-- The map behind a request. -/
def after (limits : Limits) (readings : Readings) (contents : Contents) : Command → Contents
  | .write key value ttl =>
      if limits.refusesItem key value then contents
      else contents.set key value (ttl.bind (expiryOf readings.nowMs))
  | .delete key => if limits.refusesKey key then contents else contents.delete key
  | .mset items =>
      contents.setAll
        ((items.takeWhile (fun item => !limits.refusesItem item.1 item.2.1)).map
          (withExpiry readings.nowMs))
  | .ttl key seconds =>
      match contents.read key (readings.clock 0 0) with
      | some value => contents.set key value (expiryOf readings.nowMs seconds)
      | none => contents
  | _ => contents

/-- Two answers to one request. They are the same, but for the order of a listing, the state
of a compaction, and a delete of an item that has expired.
-/
def AlikeAnswers (readings : Readings) (contents : Contents) (command : Command)
    (answer other : Answer)
    : Prop :=
  match command with
  | .list => answer.1 = other.1 ∧ answer.2.Perm other.2
  | .compact => True
  | .stats => True
  | .delete key =>
      answer = other
      ∨ (contents key).isSome ∧ contents.read key (readings.clock 0 0) = none
  | _ => answer = other

def Alike (limits : Limits) : Contents → List (Command × Readings) → List Answer
    → List Answer → Prop
  | _, [], [], [] => True
  | contents, (command, readings) :: requests, answer :: answers, other :: others =>
      AlikeAnswers readings contents command answer other
      ∧ Alike limits (after limits readings contents command) requests answers others
  | _, _, _, _ => False

def Turn.request? (turn : Turn) : Option (Command × Readings) :=
  match turn.work with
  | .request command => some (command, turn.readings)
  | .compaction => none

/-- The requests of a run, without the compactions between them. -/
def requestsOf (turns : List Turn) : List (Command × Readings) :=
  turns.filterMap Turn.request?

section Observation

variable {limits : Limits} {readings : Readings} {contents changed altered : Contents}
  {command : Command} {answer other : Answer}

theorem Answered.after_eq (answered : Answered limits readings contents command answer changed)
    : changed = after limits readings contents command := by
  cases answered with
  | wrote ttl admitted => simp only [after, admitted, Bool.false_eq_true, if_false]
  | refusedWrite ttl refused => simp only [after, refused, if_true]
  | deleted admitted held => simp only [after, admitted, Bool.false_eq_true, if_false]
  | nothingDeleted admitted absent => simp only [after, admitted, Bool.false_eq_true, if_false]
  | refusedDelete refused => simp only [after, refused, if_true]
  | wroteAll admitted =>
      rw [after, List.takeWhile_eq_self_iff.mpr]
      exact fun item member => by simp [admitted item member]
  | @wroteSome front back item admitted refused =>
      rw [after, List.takeWhile_append_of_pos, List.takeWhile_cons_of_neg, List.append_nil]
      · simp [refused]
      · exact fun item member => by simp [admitted item member]
  | retimed seconds live => simp only [after, live]
  | notRetimed seconds absent => simp only [after, absent]
  | _ => rfl

/-- Pairs in ascending order of their keys are determined by which they are. -/
theorem pairs_unique {pairs others : List (String × String)}
    (ascending : (pairs.map Prod.fst).Pairwise (· < ·))
    (alsoAscending : (others.map Prod.fst).Pairwise (· < ·))
    (same : ∀ key value, (key, value) ∈ pairs ↔ (key, value) ∈ others)
    : pairs = others := by
  rw [List.pairwise_map] at ascending alsoAscending
  have once {list : List (String × String)} (sorted : list.Pairwise (·.1 < ·.1))
      : list.Nodup :=
    sorted.imp (fun below => by rintro rfl; exact lt_irrefl _ below)
  have perm : pairs.Perm others :=
    (List.perm_ext_iff_of_nodup (once ascending) (once alsoAscending)).mpr
      (fun pair => same pair.1 pair.2)
  refine List.Perm.eq_of_pairwise ?_ ascending alsoAscending perm
  exact fun first second _ _ below above => absurd below above.asymm

theorem Answered.alike (first : Answered limits readings contents command answer changed)
    (second : Answered limits readings contents command other altered)
    : AlikeAnswers readings contents command answer other := by
  cases first with
  | wrote ttl admitted =>
      cases second with
      | wrote => rfl
      | refusedWrite _ refused => cases admitted.symm.trans refused
  | refusedWrite ttl refused =>
      cases second with
      | wrote _ admitted => cases admitted.symm.trans refused
      | refusedWrite => rfl
  | found live =>
      cases second with
      | found found => rw [Option.some.inj (live.symm.trans found)]; rfl
      | missing absent => cases live.symm.trans absent
  | missing absent =>
      cases second with
      | found live => cases live.symm.trans absent
      | missing => rfl
  | deleted admitted held =>
      cases second with
      | deleted => exact .inl rfl
      | nothingDeleted _ absent => exact .inr ⟨held, absent⟩
      | refusedDelete refused => cases admitted.symm.trans refused
  | nothingDeleted admitted absent =>
      cases second with
      | deleted _ held => exact .inr ⟨held, absent⟩
      | nothingDeleted => exact .inl rfl
      | refusedDelete refused => cases admitted.symm.trans refused
  | refusedDelete refused =>
      cases second with
      | deleted admitted => cases admitted.symm.trans refused
      | nothingDeleted admitted => cases admitted.symm.trans refused
      | refusedDelete => exact .inl rfl
  | compact => trivial
  | stats => trivial
  | invalid => cases second; rfl
  | listed once live =>
      cases second with
      | listed alsoOnce alsoLive =>
          exact ⟨rfl, (List.perm_ext_iff_of_nodup once alsoOnce).mpr
            (fun key => (live key).trans (alsoLive key).symm)⟩
  | present live =>
      cases second with
      | present => rfl
      | notPresent absent => rw [absent] at live; cases live
  | notPresent absent =>
      cases second with
      | present live => rw [absent] at live; cases live
      | notPresent => rfl
  | pong => cases second; rfl
  | values => cases second; rfl
  | wroteAll admitted =>
      cases second with
      | wroteAll => rfl
      | wroteSome _ refused => cases (admitted _ (by simp)).symm.trans refused
  | wroteSome admitted refused =>
      generalize parts : _ ++ _ :: _ = items at second
      cases second with
      | wroteAll all => cases (all _ (by simp [← parts])).symm.trans refused
      | wroteSome => rfl
  | scanned scans ascending live =>
      cases second with
      | scanned _ alsoAscending alsoLive =>
          rw [pairs_unique ascending alsoAscending
            (fun key value => (live key value).trans (alsoLive key value).symm)]
          rfl
      | unsupported _ _ none => cases scans.symm.trans none
  | unsupported _ _ none =>
      cases second with
      | scanned scans => cases scans.symm.trans none
      | unsupported => rfl
  | retimed seconds live =>
      cases second with
      | retimed => rfl
      | notRetimed _ absent => cases live.symm.trans absent
  | notRetimed seconds absent =>
      cases second with
      | retimed _ live => cases live.symm.trans absent
      | notRetimed => rfl

/-- The answers that a map allows to requests, one after the other. -/
inductive AnsweredAll (limits : Limits)
    : Contents → List (Command × Readings) → List Answer → Contents → Prop
  | nil (contents : Contents) : AnsweredAll limits contents [] [] contents
  | cons {contents changed last : Contents} {command : Command} {readings : Readings}
      {answer : Answer} {requests : List (Command × Readings)} {answers : List Answer}
      (answered : Answered limits readings contents command answer changed)
      (rest : AnsweredAll limits changed requests answers last)
    : AnsweredAll limits contents ((command, readings) :: requests) (answer :: answers) last

theorem Explained.answeredAll {turns : List Turn} {answers : List Answer} {last : Contents}
    (explained : Explained limits contents turns answers last)
    : AnsweredAll limits contents (requestsOf turns) answers last := by
  induction explained with
  | nil contents => exact .nil contents
  | request finishMs answered rest ih => exact .cons answered ih
  | compaction readings finishMs rest ih => exact ih

/-- Witness: induction over the requests; the map behind each is the same. -/
theorem AnsweredAll.alike {requests : List (Command × Readings)} {answers others : List Answer}
    {last final : Contents} (first : AnsweredAll limits contents requests answers last)
    (second : AnsweredAll limits contents requests others final)
    : Alike limits contents requests answers others := by
  induction first generalizing others with
  | nil contents =>
      cases second
      trivial
  | cons answered rest ih =>
      cases second with
      | cons alsoAnswered others =>
          refine ⟨answered.alike alsoAnswered, ?_⟩
          rw [← answered.after_eq]
          rw [alsoAnswered.after_eq, ← answered.after_eq] at others
          exact ih others

end Observation

/-- Clients cannot tell when a server over the hash engine compacts, at which ratio, into
segments of which size, and how often it syncs.
-/
theorem compactions_not_observed {clock otherClock : Nat → Nat} (increasing : StrictMono clock)
    (alsoIncreasing : StrictMono otherClock) (cfg otherCfg : CompactionCfg)
    {world otherWorld : World} (fresh : KVEngine.Fresh clock world)
    (alsoFresh : KVEngine.Fresh otherClock otherWorld) (maxSegmentBytes otherBytes : UInt64)
    (fsyncStrategy otherStrategy : FSyncStrategy) {turns others : List Turn}
    (timely : TimelyTurns 0 turns) (alsoTimely : TimelyTurns 0 others)
    (same : requestsOf turns = requestsOf others)
    : ∃ answers answersToo,
        (Process.serve (kvStorage clock) cfg turns
            (.new (KVEngine.new clock maxSegmentBytes fsyncStrategy world))).1
          = answers.map Answer.frame
        ∧ (Process.serve (kvStorage otherClock) otherCfg others
              (.new (KVEngine.new otherClock otherBytes otherStrategy otherWorld))).1
            = answersToo.map Answer.frame
        ∧ Alike kvLimits Contents.empty (requestsOf turns) answers answersToo := by
  obtain ⟨answers, last, -, explained, responses, -⟩ :=
    kv_serve increasing cfg (kvHolds_new increasing fresh maxSegmentBytes fsyncStrategy)
      timely
  obtain ⟨answersToo, final, -, alsoExplained, alsoResponses, -⟩ :=
    kv_serve alsoIncreasing otherCfg
      (kvHolds_new alsoIncreasing alsoFresh otherBytes otherStrategy) alsoTimely
  have second := alsoExplained.answeredAll
  rw [← same] at second
  exact ⟨answers, answersToo, responses, alsoResponses, explained.answeredAll.alike second⟩

/-- Witness: the same requests with and without a compaction, and with large segments. -/
theorem compactions_not_observed_expiring
    : ∃ answers answersToo,
        (Process.serve (kvStorage id) { ratio := 0, maxSegment := 0 } expiringTurns
            (.new (KVEngine.new id 30 .always .initial))).1
          = answers.map Answer.frame
        ∧ (Process.serve (kvStorage id) { ratio := 0, maxSegment := 0 }
              (expiringTurns.eraseIdx 3)
              (.new (KVEngine.new id 3000 .never .initial))).1
            = answersToo.map Answer.frame
        ∧ Alike kvLimits Contents.empty (requestsOf expiringTurns) answers answersToo := by
  have timely : TimelyTurns 0 (expiringTurns.eraseIdx 3) :=
    ⟨.at (by decide), .at (by decide), .at (by decide), .at (by decide), .at (by decide),
      .at (by decide), trivial⟩
  exact compactions_not_observed strictMono_id strictMono_id _ _ (fresh_initial id)
    (fresh_initial id) 30 3000 .always .never timely_expiringTurns timely rfl

end Rustikv.Server

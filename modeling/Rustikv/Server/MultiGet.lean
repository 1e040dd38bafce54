import Rustikv.Kv.Engine
import Rustikv.Lsm.Written
import Rustikv.Server.Responses

/-! The answer to `MGET`: each key and its value in turn, in which a missing value is the
string of one null character.
-/

namespace Rustikv.Server

open Library Kv Lsm

-----------------------------------------------------------------------------------------
-- The request
-----------------------------------------------------------------------------------------

/-- The engine behind the server, the hash engine with its files. -/
inductive Database
  | kv (db : KVEngine) (world : World)
  | lsm (engine : LsmEngine)

/-- `clock i` gives the readings that the `get` of the i-th key makes. -/
def Database.mget (database : Database) (keys : List String) (clock : Nat → Nat → UInt64)
    : Except IoError (List (String × Option String)) :=
  match database with
  | .kv db world => db.mget world (keys.mapIdx (fun i key => (key, clock i 0)))
  | .lsm engine => engine.mget (keys.mapIdx (fun i key => (key, clock i)))

def nullValue : String := "\x00"

/-- The arm of `dispatch` for `Command::Mget`. -/
def mgetResponse (found : Except IoError (List (String × Option String))) : Bytes :=
  match found with
  | .ok items =>
      encodeFrame .ok (items.flatMap (fun item => [item.1, item.2.getD nullValue]))
  | .error error => encodeFrame .error [error.message]

/-- A missing value is shown as the null character. -/
def shownPairs (items : List (String × Option String)) : List (String × String) :=
  items.map (fun item => (item.1, item.2.getD nullValue))

/-- What a response shows of a result; of an error it is the text. -/
def shown (found : Except IoError (List (String × Option String)))
    : Except String (List (String × String)) :=
  match found with
  | .ok items => .ok (shownPairs items)
  | .error error => .error error.message

-----------------------------------------------------------------------------------------
-- Values that came through the protocol
-----------------------------------------------------------------------------------------

/-- The values a command writes. -/
def Command.values : Command → List String
  | .write _ value _ => [value]
  | .mset items => items.map (fun item => item.2.1)
  | _ => []

theorem readValue_small {cur rest : Bytes} {value : String}
    (read : readValue cur = .ok (value, rest))
    : value.utf8ByteSize < 2 ^ 32 := by
  obtain ⟨⟨lenField, afterLen⟩, length, read⟩ := bind_eq_ok.mp read
  obtain ⟨⟨text, afterText⟩, content, read⟩ := bind_eq_ok.mp read
  obtain ⟨decoded, utf8, read⟩ := bind_eq_ok.mp read
  obtain ⟨rfl, rfl⟩ := Prod.mk.inj (Except.ok.inj read)
  obtain ⟨-, rfl, rfl⟩ := readExact_eq_ok.mp length
  obtain ⟨-, rfl, -⟩ := readExact_eq_ok.mp content
  have bound := ofBigEndian_lt (cur.take valueLenSize)
  have field : 256 ^ (cur.take valueLenSize).length ≤ 256 ^ 4 := by
    refine Nat.pow_le_pow_right (by decide) ?_
    rw [List.length_take]
    exact Nat.min_le_left _ _
  have size := congrArg List.length (asBytes_of_fromUtf8 utf8)
  rw [length_asBytes, List.length_take] at size
  omega

theorem readItem_small {cur rest : Bytes} {item : String × String × Option UInt32}
    (read : readItem cur = .ok (item, rest))
    : item.2.1.utf8ByteSize < 2 ^ 32 := by
  obtain ⟨⟨flag, afterFlag⟩, -, read⟩ := bind_eq_ok.mp read
  obtain ⟨⟨key, afterKey⟩, -, read⟩ := bind_eq_ok.mp read
  obtain ⟨⟨value, afterValue⟩, found, read⟩ := bind_eq_ok.mp read
  dsimp only at read
  split at read
  · obtain ⟨⟨seconds, afterSeconds⟩, -, read⟩ := bind_eq_ok.mp read
    obtain ⟨rfl, rfl⟩ := Prod.mk.inj (Except.ok.inj read)
    exact readValue_small found
  · obtain ⟨rfl, rfl⟩ := Prod.mk.inj (Except.ok.inj read)
    exact readValue_small found

theorem mem_of_readWhile {α : Type} {read : Bytes → Except IoError (α × Bytes)}
    {size limit fuel : Nat} {cur : Bytes} {items : List α}
    (done : readWhile read size limit fuel cur = .ok items) {item : α} (member : item ∈ items)
    : ∃ before after, read before = .ok (item, after) := by
  induction fuel generalizing cur items with
  | zero =>
      obtain rfl := Except.ok.inj done
      cases member
  | succ fuel ih =>
      unfold readWhile at done
      split at done
      · obtain ⟨⟨first, rest⟩, here, done⟩ := bind_eq_ok.mp done
        obtain ⟨others, later, done⟩ := bind_eq_ok.mp done
        obtain rfl := Except.ok.inj done
        rcases List.mem_cons.mp member with rfl | inside
        · exact ⟨cur, rest, here⟩
        · exact ih later inside
      · obtain rfl := Except.ok.inj done
        cases member

/-- The length field of a value bounds what a command can write. -/
theorem values_small {buffer : Bytes} {command : Command}
    (decoded : decodeInputFrame buffer = .ok command) {value : String}
    (member : value ∈ command.values)
    : value.utf8ByteSize < 2 ^ 32 := by
  obtain ⟨⟨lenBytes, afterLen⟩, -, decoded⟩ := bind_eq_ok.mp decoded
  obtain ⟨⟨opBytes, cur⟩, -, decoded⟩ := bind_eq_ok.mp decoded
  dsimp only at decoded
  split at decoded
  next op named =>
    cases op with
    | write =>
        obtain ⟨⟨⟨key, text, ttl⟩, rest⟩, item, decoded⟩ := bind_eq_ok.mp decoded
        obtain rfl := Except.ok.inj decoded
        obtain rfl := List.mem_singleton.mp member
        exact readItem_small item
    | mset =>
        obtain ⟨items, all, decoded⟩ := bind_eq_ok.mp decoded
        obtain rfl := Except.ok.inj decoded
        obtain ⟨item, inside, rfl⟩ := List.mem_map.mp member
        obtain ⟨before, after, read⟩ := mem_of_readWhile all inside
        exact readItem_small read
    | read | delete | «exists» | mget =>
        obtain ⟨_, -, decoded⟩ := bind_eq_ok.mp decoded
        obtain rfl := Except.ok.inj decoded
        cases member
    | range | ttl =>
        obtain ⟨_, -, decoded⟩ := bind_eq_ok.mp decoded
        obtain ⟨_, -, decoded⟩ := bind_eq_ok.mp decoded
        obtain rfl := Except.ok.inj decoded
        cases member
    | compact | stats | list | ping =>
        obtain rfl := Except.ok.inj decoded
        cases member
  next =>
    obtain rfl := Except.ok.inj decoded
    cases member

-----------------------------------------------------------------------------------------
-- Served states
-----------------------------------------------------------------------------------------

/-- The states of an LSM engine over any log and any tables, one lock section after another.
A value that is written comes from a frame or was found in the engine.
-/
inductive Served : LsmEngine → Prop
  | opened {wal : Bytes} {maxMemtableBytes : Nat} {strategy : StorageStrategy}
      {settings : BlockSettings} {engine : LsmEngine}
      (done : LsmEngine.fromDir wal maxMemtableBytes strategy settings = .ok engine)
    : Served engine
  | wrote {engine : LsmEngine} (served : Served engine) {buffer : Bytes} {command : Command}
      (decoded : decodeInputFrame buffer = .ok command) {value : String}
      (member : value ∈ command.values) (key : String) (expiryMs : Option UInt64)
    : Served (engine.write key (some value) expiryMs)
  | rewrote {engine : LsmEngine} (served : Served engine) {key value : String}
      {nowMs tableMs : UInt64} (found : engine.find key nowMs tableMs = .ok (some value))
      (expiryMs : Option UInt64)
    : Served (engine.write key (some value) expiryMs)
  | deleted {engine : LsmEngine} (served : Served engine) (key : String)
    : Served (engine.write key none none)
  | swapped {engine : LsmEngine} (served : Served engine) : Served engine.swap
  | released {engine : LsmEngine} (served : Served engine)
    : Served { engine with immutable := none }
  | installed {engine next : LsmEngine} (served : Served engine) {timestamp : Nat}
      (done : engine.install timestamp = .ok next)
    : Served next
  | restructured {engine : LsmEngine} (served : Served engine) (strategy : StorageStrategy)
    : Served { engine with strategy }

/-- Any state of the hash engine, whose reader limits what it passes on. -/
def Database.Served : Database → Prop
  | .kv _ _ => True
  | .lsm engine => Server.Served engine

/-- Every value is one that a length field can count. -/
def Carried (memtable : Memtable) : Prop :=
  ∀ key entry value,
    memtable.entry key = some entry
    → entry.value = some value
    → value.utf8ByteSize < 2 ^ 32

theorem carried_new : Carried Memtable.new := by
  intro key entry value held
  cases held

theorem Carried.insert {memtable : Memtable} (carried : Carried memtable) (key : String)
    {value : String} (small : value.utf8ByteSize < 2 ^ 32) (expiryMs : Option UInt64)
    : Carried (memtable.insert key value expiryMs) := by
  intro other entry text held stored
  rw [Memtable.entry_insert] at held
  split at held
  · obtain rfl := Option.some.inj held
    obtain rfl := Option.some.inj stored
    exact small
  · exact carried other entry text held stored

theorem Carried.remove {memtable : Memtable} (carried : Carried memtable) (key : String)
    : Carried (memtable.remove key) := by
  intro other entry text held stored
  rw [Memtable.entry_remove] at held
  split at held
  · obtain rfl := Option.some.inj held
    cases stored
  · exact carried other entry text held stored

theorem value_of_readNext {bytes rest : Bytes} {record : Record}
    (read : Record.readNext bytes = .ok (record, rest))
    : record.value.utf8ByteSize < 2 ^ 32 := by
  obtain ⟨-, -, -, -, limit, value⟩ := Record.readNext_ok read
  have size := congrArg List.length value
  rw [length_asBytes, List.length_take] at size
  simp only [maxValueSize] at limit
  omega

/-- The log is replayed through a reader with a limit. -/
theorem carried_replay {wal : Bytes} {memtable : Memtable}
    (done : Wal.replay wal = .ok memtable)
    : Carried memtable := by
  refine scanFrom_invariant Carried ?_ carried_new done
  intro memtable offset bytes rest record read carried
  unfold Wal.replayRecord
  split
  · exact carried.remove record.key
  · exact carried.insert record.key (value_of_readNext read) record.header.expiryMs

/-- Both memtables of an engine. -/
structure Carries (engine : LsmEngine) : Prop where
  active : Carried engine.active
  immutable : ∀ memtable, engine.immutable = some memtable → Carried memtable

theorem small_of_maxValueSize {value : String} (limit : value.utf8ByteSize ≤ maxValueSize)
    : value.utf8ByteSize < 2 ^ 32 := by
  simp only [maxValueSize] at limit
  omega

theorem Carries.value_of_find {engine : LsmEngine} (carries : Carries engine)
    {key value : String} {nowMs tableMs : UInt64}
    (found : engine.find key nowMs tableMs = .ok (some value))
    : value.utf8ByteSize < 2 ^ 32 := by
  unfold LsmEngine.find Lsm.lookup at found
  split at found
  · next entry held =>
      exact carries.active key entry value held (read_eq_some (Except.ok.inj found))
  · split at found
    · next entry slot =>
        obtain ⟨memtable, filled, held⟩ := Option.bind_eq_some_iff.mp slot
        exact carries.immutable memtable filled key entry value held
          (read_eq_some (Except.ok.inj found))
    · exact small_of_maxValueSize (value_of_lookupTables found)

theorem Served.carries {engine : LsmEngine} (served : Served engine) : Carries engine := by
  induction served with
  | opened done =>
      obtain ⟨active, replayed, done⟩ := bind_eq_ok.mp done
      obtain rfl := Except.ok.inj done
      exact ⟨carried_replay replayed, fun memtable slot => by cases slot⟩
  | wrote served decoded member key expiryMs ih =>
      exact ⟨ih.active.insert key (values_small decoded member) expiryMs, ih.immutable⟩
  | rewrote served found expiryMs ih =>
      exact ⟨ih.active.insert _ (ih.value_of_find found) expiryMs, ih.immutable⟩
  | deleted served key ih => exact ⟨ih.active.remove key, ih.immutable⟩
  | swapped served ih =>
      refine ⟨carried_new, ?_⟩
      rintro memtable ⟨⟩
      exact ih.active
  | released served ih => exact ⟨ih.active, fun memtable slot => by cases slot⟩
  | installed served done ih =>
      obtain ⟨sst, -, done⟩ := bind_eq_ok.mp done
      obtain ⟨strategy, -, done⟩ := bind_eq_ok.mp done
      obtain rfl := Except.ok.inj done
      exact ⟨carried_new, fun memtable slot => by cases slot⟩
  | restructured served strategy ih => exact ⟨ih.active, ih.immutable⟩

-----------------------------------------------------------------------------------------
-- What a response shows
-----------------------------------------------------------------------------------------

/-- Found pairs answer the keys in turn, with values that a length field can count. -/
structure Answers (keys : List String) (items : List (String × Option String)) : Prop where
  named : items.map Prod.fst = keys
  small : ∀ item ∈ items, ∀ value, item.2 = some value → value.utf8ByteSize < 2 ^ 32

theorem map_fst_shownPairs (items : List (String × Option String))
    : (shownPairs items).map Prod.fst = items.map Prod.fst := by
  rw [shownPairs, List.map_map]
  rfl

theorem flatMap_shownPairs (items : List (String × Option String))
    : (shownPairs items).flatMap (fun pair => [pair.1, pair.2])
      = items.flatMap (fun item => [item.1, item.2.getD nullValue]) :=
  List.flatMap_map ..

theorem Answers.small_shown {keys : List String} {items : List (String × Option String)}
    (answers : Answers keys items)
    : ∀ pair ∈ shownPairs items, pair.2.utf8ByteSize < 2 ^ 32 := by
  intro pair member
  obtain ⟨⟨key, value⟩, inside, rfl⟩ := List.mem_map.mp member
  cases value with
  | none =>
      change nullValue.utf8ByteSize < 2 ^ 32
      decide
  | some text => exact answers.small _ inside text rfl

/-- The loop of `mget`, over a `get` that takes clock readings. -/
theorem answers_mapM {κ : Type} {get : String × κ → Except IoError (Option (String × String))}
    (gets
      : ∀ item found,
          get item = .ok (some found) → found.1 = item.1 ∧ found.2.utf8ByteSize < 2 ^ 32)
    {keys : List (String × κ)} {items : List (String × Option String)}
    (done
      : (keys.mapM fun item => do
          match ← get item with
          | some (key, value) => return (key, some value)
          | none => return (item.1, none))
        = .ok items)
    : Answers (keys.map Prod.fst) items := by
  induction keys generalizing items with
  | nil =>
      obtain rfl := Except.ok.inj done
      exact ⟨rfl, by simp⟩
  | cons item rest ih =>
      rw [List.mapM_cons] at done
      obtain ⟨first, here, done⟩ := bind_eq_ok.mp done
      obtain ⟨others, later, done⟩ := bind_eq_ok.mp done
      obtain rfl := Except.ok.inj done
      obtain ⟨named, small⟩ := ih later
      obtain ⟨found, got, here⟩ := bind_eq_ok.mp here
      have answer : first.1 = item.1
          ∧ ∀ value, first.2 = some value → value.utf8ByteSize < 2 ^ 32 := by
        cases found with
        | none =>
            obtain rfl := Except.ok.inj here
            exact ⟨rfl, fun value missing => by cases missing⟩
        | some pair =>
            obtain rfl := Except.ok.inj here
            obtain ⟨same, bound⟩ := gets item pair got
            exact ⟨same, fun value present => Option.some.inj present ▸ bound⟩
      constructor
      · rw [List.map_cons, List.map_cons, answer.1, named]
      · exact List.forall_mem_cons.mpr ⟨answer.2, small⟩

theorem map_fst_mapIdx {κ : Type} (keys : List String) (reading : Nat → κ)
    : (keys.mapIdx (fun i key => (key, reading i))).map Prod.fst = keys := by
  refine List.ext_getElem (by simp) ?_
  intro i inside bound
  simp

theorem value_of_kvLookup {index : HashIndex} {disk : Disk} {activeSegment : Nat}
    {key value : String} {nowMs : UInt64}
    (found : kvLookup index disk activeSegment key nowMs = .ok (some value))
    : value.utf8ByteSize < 2 ^ 32 := by
  unfold kvLookup at found
  split at found
  · cases found
  · split at found
    · cases found
    · split at found
      all_goals
        obtain ⟨file, -, found⟩ := bind_eq_ok.mp found
        obtain ⟨⟨record, rest⟩, read, found⟩ := bind_eq_ok.mp found
        obtain rfl := Option.some.inj (Except.ok.inj found)
        exact value_of_readNext read

theorem answers_mget {database : Database} (served : database.Served) {keys : List String}
    {clock : Nat → Nat → UInt64} {items : List (String × Option String)}
    (done : database.mget keys clock = .ok items)
    : Answers keys items := by
  cases database with
  | kv db world =>
      have answers := answers_mapM (fun item found got => ?_) done
      · rwa [map_fst_mapIdx] at answers
      · obtain ⟨value, looked, got⟩ := bind_eq_ok.mp got
        cases value with
        | none => cases Except.ok.inj got
        | some text =>
            obtain rfl := Option.some.inj (Except.ok.inj got)
            exact ⟨rfl, value_of_kvLookup looked⟩
  | lsm engine =>
      have answers := answers_mapM (fun item found got => ?_) done
      · rwa [map_fst_mapIdx] at answers
      · obtain ⟨value, looked, got⟩ := bind_eq_ok.mp got
        obtain ⟨text, rfl, rfl⟩ := Option.map_eq_some_iff.mp (Except.ok.inj got)
        exact ⟨rfl, Served.carries served |>.value_of_find looked⟩

theorem encodeFrame_injective {status other : ResponseStatus}
    {responses others : List String}
    (same : encodeFrame status responses = encodeFrame other others)
    : status = other ∧ responses.flatMap valueBytes = others.flatMap valueBytes := by
  have payload := (List.append_inj same (by simp)).2
  obtain ⟨first, rest⟩ := List.cons.inj payload
  exact ⟨ResponseStatus.toByte_injective first, rest⟩

/-- Keys that are the same and small values are read off in turn. -/
theorem pairs_of_bytes {pairs others : List (String × String)}
    (named : pairs.map Prod.fst = others.map Prod.fst)
    (small : ∀ pair ∈ pairs, pair.2.utf8ByteSize < 2 ^ 32)
    (smallOthers : ∀ pair ∈ others, pair.2.utf8ByteSize < 2 ^ 32)
    (same
      : (pairs.flatMap (fun pair => [pair.1, pair.2])).flatMap valueBytes
        = (others.flatMap (fun pair => [pair.1, pair.2])).flatMap valueBytes)
    : pairs = others := by
  induction pairs generalizing others with
  | nil => exact (List.map_eq_nil_iff.mp named.symm).symm
  | cons pair rest ih =>
      cases others with
      | nil => cases named
      | cons other later =>
          obtain ⟨key, value⟩ := pair
          obtain ⟨otherKey, otherValue⟩ := other
          obtain ⟨sameKey, names⟩ := List.cons.inj named
          obtain rfl : key = otherKey := sameKey
          obtain ⟨first, front⟩ := List.forall_mem_cons.mp small
          obtain ⟨second, back⟩ := List.forall_mem_cons.mp smallOthers
          simp only [List.flatMap_cons, List.cons_append, List.nil_append] at same
          have behind := List.append_cancel_left same
          have read := readPayload_valueBytes first
            ((rest.flatMap (fun pair => [pair.1, pair.2])).flatMap valueBytes)
          rw [behind, readPayload_valueBytes second] at read
          obtain ⟨rfl, remaining⟩ := Prod.mk.inj (Except.ok.inj read)
          rw [ih names front back remaining.symm]

theorem valueBytes_injective {text other : String} (same : valueBytes text = valueBytes other)
    : text = other :=
  asBytes_injective (List.append_inj same (by simp)).2

/-- Two answers to the same keys are the same bytes exactly if they show the same. -/
theorem mgetResponse_eq_iff {first second : Database} (served : first.Served)
    (alsoServed : second.Served) (keys : List String) (clock later : Nat → Nat → UInt64)
    : mgetResponse (first.mget keys clock) = mgetResponse (second.mget keys later)
      ↔ shown (first.mget keys clock) = shown (second.mget keys later) := by
  cases answer : first.mget keys clock with
  | error error =>
      cases other : second.mget keys later with
      | error failure =>
          simp only [mgetResponse, shown, Except.error.injEq]
          constructor
          · intro same
            have texts := (encodeFrame_injective same).2
            simp only [List.flatMap_singleton] at texts
            exact valueBytes_injective texts
          · intro same
            rw [same]
      | ok items =>
          refine ⟨fun same => ?_, fun same => by cases same⟩
          cases (encodeFrame_injective same).1
  | ok items =>
      cases other : second.mget keys later with
      | error failure =>
          refine ⟨fun same => ?_, fun same => by cases same⟩
          cases (encodeFrame_injective same).1
      | ok others =>
          have found := answers_mget served answer
          have alsoFound := answers_mget alsoServed other
          simp only [mgetResponse, shown, Except.ok.injEq]
          constructor
          · intro same
            refine pairs_of_bytes ?_ found.small_shown alsoFound.small_shown ?_
            · rw [map_fst_shownPairs, map_fst_shownPairs, found.named, alsoFound.named]
            · rw [flatMap_shownPairs, flatMap_shownPairs]
              exact (encodeFrame_injective same).2
          · intro same
            rw [← flatMap_shownPairs, same, flatMap_shownPairs]

/-- Two engines, one with nothing in it and one that holds the null character. -/
def emptyEngine : LsmEngine :=
  LsmEngine.new 100 (.leveled (Leveled.new 2 4 1000 smallBlocks)) smallBlocks

def nullEngine : LsmEngine :=
  emptyEngine.write "k" (some nullValue) none

theorem served_emptyEngine : Served emptyEngine := by
  have done : LsmEngine.fromDir [] 100 (.leveled (Leveled.new 2 4 1000 smallBlocks)) smallBlocks
      = .ok emptyEngine := rfl
  exact .opened done

theorem served_nullEngine : Served nullEngine := by
  have decoded : decodeInputFrame (frame 10 .write (itemBytes ("k", nullValue, none)))
      = .ok (.write "k" nullValue none) := by
    decide +kernel
  exact served_emptyEngine.wrote decoded (by decide) "k" none

/-- Counterexample: an absent key is answered like one that holds the null character. -/
theorem mgetResponse_ambiguous
    : Served emptyEngine
      ∧ Served nullEngine
      ∧ (Database.lsm emptyEngine).mget ["k"] (fun _ _ => 0) = .ok [("k", none)]
      ∧ (Database.lsm nullEngine).mget ["k"] (fun _ _ => 0) = .ok [("k", some "\x00")]
      ∧ mgetResponse ((Database.lsm emptyEngine).mget ["k"] (fun _ _ => 0))
        = mgetResponse ((Database.lsm nullEngine).mget ["k"] (fun _ _ => 0)) := by
  refine ⟨served_emptyEngine, served_nullEngine, ?_, ?_, ?_⟩
  all_goals decide +kernel

/-- Witness: both engines show the same. -/
theorem mgetResponse_eq_iff_null
    : mgetResponse ((Database.lsm emptyEngine).mget ["k"] (fun _ _ => 0))
        = mgetResponse ((Database.lsm nullEngine).mget ["k"] (fun _ _ => 0))
      ↔ shown ((Database.lsm emptyEngine).mget ["k"] (fun _ _ => 0))
        = shown ((Database.lsm nullEngine).mget ["k"] (fun _ _ => 0)) := by
  have first : (Database.lsm emptyEngine).Served := served_emptyEngine
  have second : (Database.lsm nullEngine).Served := served_nullEngine
  exact mgetResponse_eq_iff first second ["k"] _ _

end Rustikv.Server

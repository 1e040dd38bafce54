import Rustikv.Kv.Writes

/-! Segments and WAL as lists of updates. Reading the last update of every key gives the
map the files stand for.
-/

namespace Rustikv.Kv

open Library

-----------------------------------------------------------------------------------------
-- Updates and their records
-----------------------------------------------------------------------------------------

/-- One logged change of a key: its new item or, without one, its removal. -/
structure Update where
  key : String
  item : Option Item
  deriving DecidableEq, Repr

namespace Update

def record (update : Update) : Record :=
  match update.item with
  | some item => (KVEngine.valueRecord update.key item.value item.expiryMs).sealed
  | none => (KVEngine.tombstoneRecord update.key).sealed

def ofRecord (record : Record) : Update :=
  {
    key := record.key
    item :=
      if record.header.isTombstone then none
      else some { value := record.value, expiryMs := record.header.expiryMs }
  }

def ofEntry (entry : String × MemtableEntry) : Update :=
  {
    key := entry.1
    item := entry.2.value.map (fun value => { value, expiryMs := entry.2.expiryMs })
  }

def Fits (update : Update) : Prop :=
  Record.Fits update.key ((update.item.map Item.value).getD "")

theorem valid_record {update : Update} (fits : update.Fits)
    : Record.codec.Valid update.record := by
  obtain ⟨key, item⟩ := update
  cases item with
  | none =>
      have formed := Record.wellFormed_make (⟨fits.1, by decide⟩ : Record.Fits key "") true
        none
      exact ⟨formed.sealed, rfl⟩
  | some item => exact ⟨(wellFormed_valueRecord fits item.expiryMs).sealed, rfl⟩

@[simp]
theorem key_record (update : Update) : update.record.key = update.key := by
  obtain ⟨key, item⟩ := update
  cases item <;> rfl

theorem isTombstone_record (update : Update)
    : update.record.header.isTombstone = update.item.isNone := by
  obtain ⟨key, item⟩ := update
  cases item with
  | none =>
      simp only [record, tombstoneRecord_eq, Wal.record]
      exact Record.isTombstone_flagsOf true none
  | some item =>
      simp only [record, valueRecord_eq, Wal.record]
      exact Record.isTombstone_flagsOf false item.expiryMs

@[simp]
theorem ofRecord_record (update : Update) : ofRecord update.record = update := by
  have tombstone := isTombstone_record update
  obtain ⟨key, item⟩ := update
  cases item with
  | none =>
      simp only [ofRecord, tombstone]
      rfl
  | some item =>
      simp only [ofRecord, tombstone]
      rfl

theorem entry_record (update : Update)
    : ofEntry (update.key, update.record.entry) = update := by
  have tombstone := isTombstone_record update
  obtain ⟨key, item⟩ := update
  cases item with
  | none =>
      simp only [ofEntry, Record.entry, tombstone]
      rfl
  | some item =>
      simp only [ofEntry, Record.entry, tombstone]
      rfl

/-- Updates as the frames of segment files and of the WAL. -/
def codec : FrameCodec Update IoError where
  encode update := update.record.toBeBytes
  decode bytes := (Record.readNext bytes).map (fun read => (ofRecord read.1, read.2))
  Valid := Fits
  decode_encode update fits rest := by
    have formed := (valid_record fits).1
    have same := (valid_record fits).2
    rw [Record.readNext_toBeBytes formed, same]
    simp [Except.map]
  encode_ne_nil update := Record.toBeBytes_ne_nil _

@[simp]
theorem encode_codec (update : Update) : codec.encode update = update.record.toBeBytes := rfl

end Update

/-- A file of updates is a file of their records. -/
theorem encodeAll_records {updates : List Update} (fits : ∀ update ∈ updates, update.Fits)
    : (∀ record ∈ updates.map Update.record, Record.codec.Valid record)
      ∧ Record.codec.encodeAll (updates.map Update.record)
        = Update.codec.encodeAll updates := by
  constructor
  · intro record member
    obtain ⟨update, updateMember, rfl⟩ := List.mem_map.mp member
    exact Update.valid_record (fits update updateMember)
  · exact Record.codec.encodeAll_map Update.codec (fun _ => rfl) updates

namespace Contents

/-- The map that holds, for every key, what its last update says. -/
def replay (updates : List Update) : Contents := fun key =>
  (latest Update.key updates key).bind Update.item

def apply (contents : Contents) (update : Update) : Contents :=
  Function.update contents update.key update.item

@[simp]
theorem replay_concat (updates : List Update) (update : Update)
    : replay (updates ++ [update]) = (replay updates).apply update := by
  funext key
  by_cases same : update.key = key
  · subst same
    simp [replay, apply]
  · simp [replay, apply, same, Function.update_of_ne (Ne.symm same)]

/-- Repeating an update earlier in the log changes nothing. -/
theorem replay_insert (front back : List Update) (update : Update)
    : replay (front ++ [update] ++ (back ++ [update]))
      = (replay (front ++ back)).apply update := by
  funext key
  by_cases same : update.key = key
  · subst same
    simp [replay, apply, latest_append, latest_cons]
  · simp [replay, apply, Function.update_of_ne (Ne.symm same), latest_append, latest_cons, same]

/-- An update of a key that `back` updates anyway goes unnoticed. -/
theorem replay_shadowed (front back : List Update) {update other : Update}
    (shadowed : latest Update.key back update.key = some other)
    : replay (front ++ [update] ++ back) = replay (front ++ back) := by
  funext key
  by_cases same : update.key = key
  · subst same
    simp [replay, latest_append, latest_cons, shadowed]
  · simp [replay, latest_append, latest_cons, same]

theorem replay_congr_right (front : List Update) {left right : List Update}
    (same : ∀ key, latest Update.key left key = latest Update.key right key)
    : replay (front ++ left) = replay (front ++ right) := by
  funext key
  simp [replay, latest_append, same]

/-- Removing an absent key changes nothing. -/
theorem apply_absent {contents : Contents} {update : Update}
    (absent : contents update.key = none) (removes : update.item = none)
    : contents.apply update = contents := by
  rw [apply, removes, ← absent, Function.update_eq_self]

end Contents

-----------------------------------------------------------------------------------------
-- Segment files as logs
-----------------------------------------------------------------------------------------

/-- A segment's timestamp with the updates its file holds. -/
abbrev Log := Nat × List Update

/-- The updates of all segments, in the order recovery reads them. -/
def updatesOf (logs : List Log) : List Update :=
  logs.flatMap Prod.snd

/-- The files are exactly the encodings of the logs, which are listed by ascending
timestamp.
-/
structure Filed (files : SortedMap Nat Bytes) (logs : List Log) : Prop where
  sorted : logs.Pairwise (fun left right => left.1 < right.1)
  file
    : ∀ segment bytes,
        files[segment]? = some bytes
        ↔ ∃ updates,
            (segment, updates) ∈ logs ∧ Update.codec.encodeAll updates = bytes
  fits : ∀ log ∈ logs, ∀ update ∈ log.2, update.Fits

namespace Filed

variable {files : SortedMap Nat Bytes} {logs : List Log}

theorem nil : Filed ∅ [] where
  sorted := .nil
  file segment bytes := by simp
  fits log member := by simp at member

theorem getElem? (filed : Filed files logs) {segment : Nat} {updates : List Update}
    (member : (segment, updates) ∈ logs)
    : files[segment]? = some (Update.codec.encodeAll updates) :=
  (filed.file segment _).mpr ⟨updates, member, rfl⟩

theorem mem_iff (filed : Filed files logs) (segment : Nat)
    : segment ∈ files ↔ ∃ updates, (segment, updates) ∈ logs := by
  rw [SortedMap.mem_iff]
  constructor
  · rintro ⟨bytes, found⟩
    obtain ⟨updates, member, -⟩ := (filed.file segment bytes).mp found
    exact ⟨updates, member⟩
  · rintro ⟨updates, member⟩
    exact ⟨_, filed.getElem? member⟩

theorem toList (filed : Filed files logs)
    : files.toList = logs.map (fun log => (log.1, Update.codec.encodeAll log.2)) := by
  refine SortedMap.toList_eq (List.pairwise_map.mpr filed.sorted) ?_
  intro segment bytes
  rw [filed.file, List.mem_map]
  constructor
  · rintro ⟨⟨other, updates⟩, member, equal⟩
    obtain ⟨rfl, rfl⟩ := Prod.mk.inj equal
    exact ⟨updates, member, rfl⟩
  · rintro ⟨updates, member, rfl⟩
    exact ⟨(segment, updates), member, rfl⟩

theorem keys (filed : Filed files logs) : files.keys = logs.map Prod.fst := by
  rw [← Std.TreeMap.map_fst_toList_eq_keys, filed.toList, List.map_map]
  rfl

/-- Timestamps determine logs. -/
theorem unique (filed : Filed files logs) {segment : Nat} {left right : List Update}
    (first : (segment, left) ∈ logs) (second : (segment, right) ∈ logs)
    : left = right := by
  have distinct : (logs.map Prod.fst).Nodup :=
    List.pairwise_map.mpr (filed.sorted.imp (fun before => before.ne))
  exact (Prod.mk.inj (List.inj_on_of_nodup_map distinct first second rfl)).2

/-- Appending an update to the last segment's file appends it to its log. -/
theorem append {segment : Nat} {updates : List Update}
    (filed : Filed files (logs ++ [(segment, updates)])) {update : Update}
    (fits : update.Fits)
    : Filed (appendTo files segment update.record.toBeBytes)
        (logs ++ [(segment, updates ++ [update])]) := by
  have present := filed.getElem? (by simp : (segment, updates) ∈ logs ++ [(segment, updates)])
  have earlier : ∀ log ∈ logs, log.1 < segment := by
    intro log member
    exact (List.pairwise_append.mp filed.sorted).2.2 log member (segment, updates) (by simp)
  have bytes : Update.codec.encodeAll (updates ++ [update])
      = Update.codec.encodeAll updates ++ update.record.toBeBytes := by
    simp
  refine ⟨?_, ?_, ?_⟩
  · rw [List.pairwise_append]
    refine ⟨(List.pairwise_append.mp filed.sorted).1, List.pairwise_singleton _ _, ?_⟩
    intro log member last lastMember
    rw [List.mem_singleton.mp lastMember]
    exact earlier log member
  · intro other file
    simp only [appendTo, present, SortedMap.getElem?_insert]
    by_cases same : segment = other
    · subst same
      simp only [if_true, Option.some.injEq, List.mem_append, List.mem_singleton,
        Prod.mk.injEq, true_and, ← bytes]
      constructor
      · rintro rfl
        exact ⟨_, Or.inr rfl, rfl⟩
      · rintro ⟨found, old | rfl, rfl⟩
        · exact absurd (earlier _ old) (lt_irrefl _)
        · rfl
    · rw [if_neg same, filed.file]
      simp [Ne.symm same]
  · intro log member written updateMember
    rcases List.mem_append.mp member with old | last
    · exact filed.fits log (by simp [old]) written updateMember
    · rw [List.mem_singleton.mp last] at updateMember
      rcases List.mem_append.mp updateMember with before | new
      · exact filed.fits (segment, updates) (by simp) written before
      · rwa [List.mem_singleton.mp new]

/-- A new last segment starts with an empty log. -/
theorem create (filed : Filed files logs) (segment : Nat)
    (later : ∀ log ∈ logs, log.1 < segment)
    : Filed (files.insert segment []) (logs ++ [(segment, [])]) := by
  refine ⟨?_, ?_, ?_⟩
  · rw [List.pairwise_append]
    refine ⟨filed.sorted, List.pairwise_singleton _ _, ?_⟩
    intro log member last lastMember
    rw [List.mem_singleton.mp lastMember]
    exact later log member
  · intro other file
    rw [SortedMap.getElem?_insert]
    by_cases same : segment = other
    · subst same
      simp only [if_true, Option.some.injEq, List.mem_append, List.mem_singleton,
        Prod.mk.injEq, true_and]
      constructor
      · rintro rfl
        exact ⟨[], Or.inr rfl, rfl⟩
      · rintro ⟨found, old | rfl, rfl⟩
        · exact absurd (later _ old) (lt_irrefl _)
        · rfl
    · rw [if_neg same, filed.file]
      simp [Ne.symm same]
  · intro log member
    rcases List.mem_append.mp member with old | last
    · exact filed.fits log old
    · rw [List.mem_singleton.mp last]
      simp

/-- Removing the first segment removes its log. -/
theorem eraseHead {segment : Nat} {updates : List Update}
    (filed : Filed files ((segment, updates) :: logs))
    : Filed (files.erase segment) logs := by
  obtain ⟨below, sorted⟩ := List.pairwise_cons.mp filed.sorted
  refine ⟨sorted, ?_, fun log member => filed.fits log (List.mem_cons_of_mem _ member)⟩
  intro other file
  rw [SortedMap.getElem?_erase]
  by_cases same : segment = other
  · subst same
    simp only [if_true, reduceCtorEq, false_iff, not_exists, not_and]
    intro found member
    exact absurd (below _ member) (lt_irrefl _)
  · rw [if_neg same, filed.file]
    simp [Ne.symm same]

end Filed

-----------------------------------------------------------------------------------------
-- Where updates lie, and the index over them
-----------------------------------------------------------------------------------------

structure Place where
  segment : Nat
  offset : Nat
  update : Update

/-- The places of updates written to a segment one after the other. -/
def placesFrom (segment start : Nat) (updates : List Update) : List Place :=
  (Update.codec.locate start updates).map
    (fun located => { segment, offset := located.1, update := located.2 })

def placesOf (logs : List Log) : List Place :=
  logs.flatMap (fun log => placesFrom log.1 0 log.2)

/-- What the index remembers of a place, its record's size aside. -/
structure Pointer where
  segment : Nat
  offset : Nat
  expiryMs : Option UInt64
  deriving DecidableEq, Repr

def Place.pointer (place : Place) : Option Pointer :=
  place.update.item.map
    (fun item =>
      { segment := place.segment, offset := place.offset, expiryMs := item.expiryMs })

def pointerOf (entry : IndexEntry) : Pointer :=
  { segment := entry.segmentTimestamp, offset := entry.offset, expiryMs := entry.expiryMs }

/-- The last place holding an update of the key. -/
def lastPlace (places : List Place) (key : String) : Option Place :=
  latest (fun place : Place => place.update.key) places key

/-- The index points every key at its last place, unless that is a removal. -/
def Tracks (index : HashIndex) (places : List Place) : Prop :=
  ∀ key, (index.get key).map pointerOf = (lastPlace places key).bind Place.pointer

@[simp]
theorem placesFrom_nil (segment start : Nat) : placesFrom segment start [] = [] := rfl

theorem placesFrom_append (segment start : Nat) (front back : List Update)
    : placesFrom segment start (front ++ back)
      = placesFrom segment start front
        ++ placesFrom segment (start + (Update.codec.encodeAll front).length) back := by
  simp [placesFrom, FrameCodec.locate_append]

theorem placesFrom_cons (segment start : Nat) (update : Update) (rest : List Update)
    : placesFrom segment start (update :: rest)
      = { segment, offset := start, update }
        :: placesFrom segment (start + update.record.toBeBytes.length) rest := rfl

@[simp]
theorem map_update_placesFrom (segment start : Nat) (updates : List Update)
    : (placesFrom segment start updates).map Place.update = updates := by
  simp only [placesFrom, List.map_map]
  exact Update.codec.map_snd_locate start updates

@[simp]
theorem placesOf_append (front back : List Log)
    : placesOf (front ++ back) = placesOf front ++ placesOf back := by
  simp [placesOf]

@[simp]
theorem updatesOf_append (front back : List Log)
    : updatesOf (front ++ back) = updatesOf front ++ updatesOf back := by
  simp [updatesOf]

@[simp]
theorem updatesOf_singleton (segment : Nat) (updates : List Update)
    : updatesOf [(segment, updates)] = updates := by
  simp [updatesOf]

theorem map_update_placesOf (logs : List Log)
    : (placesOf logs).map Place.update = updatesOf logs := by
  simp [placesOf, updatesOf, List.map_flatMap]

/-- Every place of the logs holds its update's record on the disk. -/
theorem Filed.holdsAt {disk : Disk} {logs : List Log} (filed : Filed disk.segments logs)
    {place : Place} (member : place ∈ placesOf logs)
    : HoldsAt disk place.segment place.offset place.update.record
      ∧ place.update.Fits := by
  obtain ⟨⟨segment, updates⟩, logMember, placeMember⟩ := List.mem_flatMap.mp member
  obtain ⟨⟨offset, update⟩, located, rfl⟩ := List.mem_map.mp placeMember
  obtain ⟨-, rest, found⟩ := Update.codec.drop_of_mem_locate located
  refine ⟨⟨_, rest, filed.getElem? logMember, by simpa using found⟩, ?_⟩
  refine filed.fits (segment, updates) logMember update ?_
  rw [← Update.codec.map_snd_locate 0 updates]
  exact List.mem_map.mpr ⟨_, located, rfl⟩

theorem replay_map_update (places : List Place) (key : String)
    : Contents.replay (places.map Place.update) key
      = (lastPlace places key).bind (fun place => place.update.item) := by
  simp only [Contents.replay, latest_map, Option.bind_map]
  rfl

/-- An index over places of the disk's logs represents what those places say. -/
theorem Tracks.represents {index : HashIndex} {places : List Place} {disk : Disk}
    {logs : List Log} (tracks : Tracks index places) (filed : Filed disk.segments logs)
    (subset : places ⊆ placesOf logs)
    : Represents index disk (Contents.replay (places.map Place.update)) where
  absent key missing := by
    have tracked := tracks key
    rw [missing] at tracked
    rw [replay_map_update]
    cases last : lastPlace places key with
    | none => rfl
    | some place => simpa [last, Place.pointer] using tracked.symm
  present key entry found := by
    have tracked := tracks key
    rw [found] at tracked
    cases last : lastPlace places key with
    | none => simp [last] at tracked
    | some place =>
        obtain ⟨member, same⟩ := latest_some _ last
        obtain ⟨held, fits⟩ := filed.holdsAt (subset member)
        obtain ⟨segment, offset, ⟨other, item⟩⟩ := place
        cases item with
        | none => simp [last, Place.pointer] at tracked
        | some item =>
            simp only [last, Place.pointer, pointerOf, Option.map_some, Option.bind_some,
              Option.some.injEq, Pointer.mk.injEq] at tracked
            obtain ⟨rfl, rfl, expiry⟩ := tracked
            dsimp only at same
            subst same
            refine ⟨item.value, ?_, fits, ?_⟩
            · rw [replay_map_update, last, Option.bind_some, expiry]
            · rw [expiry]
              exact held

/-- Setting a key's entry tracks one more place. -/
theorem Tracks.set {index : HashIndex} {places : List Place} (tracks : Tracks index places)
    (key value : String) (expiryMs : Option UInt64) (segment offset recordSize : Nat)
    : Tracks (index.set key offset segment recordSize expiryMs).2
        (places ++ [{ segment, offset, update := { key, item := some { value, expiryMs } } }])
    := by
  intro other
  by_cases same : key = other
  · subst same
    simp [lastPlace, Place.pointer, pointerOf]
  · simpa [lastPlace, same] using tracks other

theorem Tracks.delete {index : HashIndex} {places : List Place}
    (tracks : Tracks index places) (key : String) (segment offset : Nat)
    : Tracks (index.delete key).2
        (places ++ [{ segment, offset, update := { key, item := none } }]) := by
  intro other
  by_cases same : key = other
  · subst same
    simp [lastPlace, Place.pointer]
  · simpa [lastPlace, same] using tracks other

end Rustikv.Kv

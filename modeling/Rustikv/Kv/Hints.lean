import Rustikv.Kv.LoggedWrites
import Rustikv.Kv.Compaction

/-! Hint files: which places they list, how loading them compares with a scan, and the
hints a compaction writes.
-/

namespace Rustikv.Kv

open Library

-----------------------------------------------------------------------------------------
-- Listed places
-----------------------------------------------------------------------------------------

/-- The hint entry for the item written at a place. -/
def hintOf (place : Place) : HintEntry :=
  {
    keySize := UInt64.ofNat place.update.key.utf8ByteSize
    offset := UInt64.ofNat place.offset
    tombstone := false
    expiryMs := place.update.item.bind Item.expiryMs
    key := place.update.key
  }

/-- `listed` are items written to the segment, for distinct keys and at offsets that fit
their field.
-/
structure Lists (segment : Nat) (places listed : List Place) : Prop where
  subset : ∀ place ∈ listed, place ∈ places ∧ place.segment = segment
  items : ∀ place ∈ listed, place.update.item.isSome ∧ place.offset < 2 ^ 64
  distinct : listed.Pairwise (fun left right => left.update.key ≠ right.update.key)

/-- Every hint file lists places of its own segment. -/
def Hinted (hints : SortedMap Nat Bytes) (places : List Place) : Prop :=
  ∀ segment bytes,
    hints[segment]? = some bytes
    → ∃ listed,
        Lists segment places listed
        ∧ bytes = HintEntry.codec.encodeAll (listed.map hintOf)

theorem Hinted.mono {hints : SortedMap Nat Bytes} {places more : List Place}
    (hinted : Hinted hints places) (subset : places ⊆ more)
    : Hinted hints more := by
  intro segment bytes found
  obtain ⟨listed, lists, encoded⟩ := hinted segment bytes found
  refine ⟨listed, ⟨?_, lists.items, lists.distinct⟩, encoded⟩
  intro place member
  exact ⟨subset (lists.subset place member).1, (lists.subset place member).2⟩

theorem codec_valid_hintOf {place : Place} (fits : place.update.Fits)
    : HintEntry.codec.Valid (hintOf place) := by
  have bound := fits.1
  simp only [maxKeySize] at bound
  simp only [HintEntry.codec, hintOf, UInt64.toNat_ofNat']
  omega

/-- Loading listed items tracks their places. Witness: induction over the list. -/
theorem Tracks.loadHints {segment : Nat} {listed : List Place}
    (items : ∀ place ∈ listed, place.update.item.isSome ∧ place.offset < 2 ^ 64)
    (own : ∀ place ∈ listed, place.segment = segment) {index : HashIndex}
    {places : List Place} (tracks : Tracks index places)
    : Tracks ((listed.map hintOf).foldl (KVEngine.loadHint segment) index)
        (places ++ listed) := by
  induction listed generalizing index places with
  | nil => simpa using tracks
  | cons place rest ih =>
      have first : Tracks (KVEngine.loadHint segment index (hintOf place))
          (places ++ [place]) := by
        obtain ⟨some, small⟩ := items place (by simp)
        obtain rfl := own place (by simp)
        obtain ⟨segment, offset, key, item⟩ := place
        obtain ⟨⟨value, expiryMs⟩, rfl⟩ := Option.isSome_iff_exists.mp some
        have offsetSame : (UInt64.ofNat offset).toNat = offset := by
          rw [UInt64.toNat_ofNat']
          exact Nat.mod_eq_of_lt small
        have set := tracks.set key value expiryMs segment offset 0
        simpa [KVEngine.loadHint, hintOf, offsetSame] using set
      have later := ih (fun other member => items other (List.mem_cons_of_mem _ member))
        (fun other member => own other (List.mem_cons_of_mem _ member)) first
      simpa using later

/-- A hint file is loaded in place of its segment. -/
theorem loadSegment_hinted {disk : Disk} {logs : List Log}
    (filed : Filed disk.segments logs) {log : Log} (member : log ∈ logs)
    {listed : List Place} (lists : Lists log.1 (placesOf logs) listed)
    (found
      : disk.hints[log.1]? = some (HintEntry.codec.encodeAll (listed.map hintOf)))
    {index : HashIndex} {places : List Place} (tracks : Tracks index places)
    : ∃ merged,
        KVEngine.loadSegment disk index log.1 = .ok merged
        ∧ Tracks merged (places ++ listed) := by
  have valid : ∀ entry ∈ listed.map hintOf, HintEntry.codec.Valid entry := by
    intro entry entryMember
    obtain ⟨place, placeMember, rfl⟩ := List.mem_map.mp entryMember
    exact codec_valid_hintOf (filed.holdsAt (lists.subset place placeMember).1).2
  have readable := Hint.readFile_encodeAll valid
  refine ⟨_, ?_, tracks.loadHints lists.items
    (fun place placeMember => (lists.subset place placeMember).2)⟩
  simp [KVEngine.loadSegment, Disk.openSegment, filed.getElem? member, found, readable]

-----------------------------------------------------------------------------------------
-- The hints of a compaction
-----------------------------------------------------------------------------------------

/-- Every offset in the index fits the offset field of a hint entry. -/
def Addressable (index : HashIndex) : Prop :=
  ∀ key entry, index.get key = some entry → entry.offset < 2 ^ 64

namespace KVEngine

/-- A record goes to an offset within the segment limit, or to the start of a new file. -/
theorem appendTarget_size {clock : Nat → Nat} {world : World} (fresh : Fresh clock world)
    (db : KVEngine) (key value : String) (expiryMs : Option UInt64)
    : (db.appendTarget clock world key value expiryMs).2.disk.segmentSize
        (db.appendTarget clock world key value expiryMs).1.activeSegment
      ≤ db.maxSegmentBytes.toNat := by
  unfold appendTarget
  dsimp only
  split
  · rw [rollActive_eq]
    have missing : clock world.ticks ∉ world.disk.segments :=
      fun present => lt_irrefl _ (fresh _ present)
    simp [Disk.segmentSize, World.newSegment, Disk.apply, missing]
  · rename_i small
    dsimp only
    omega

theorem setWithTtl_addressable {clock : Nat → Nat} {db next : KVEngine}
    {world after : World} (fresh : Fresh clock world) (addressable : Addressable db.index)
    {key value : String} {expiryMs : Option UInt64}
    (written : db.setWithTtl clock world key value expiryMs = .ok (next, after))
    : Addressable next.index := by
  have size := appendTarget_size fresh db key value expiryMs
  have limit := db.maxSegmentBytes.toNat_lt
  unfold setWithTtl at written
  split at written
  · cases written
  · have settled := finishWrite_settled (db.kvAppend clock world key value expiryMs).2.1
      (db.kvAppend clock world key value expiryMs).2.2
      (db.kvAppend clock world key value expiryMs).1.1
      (db.kvAppend clock world key value expiryMs).1.2
    have same : ((db.kvAppend clock world key value expiryMs).2.1.finishWrite
        (db.kvAppend clock world key value expiryMs).2.2
        (db.kvAppend clock world key value expiryMs).1.1
        (db.kvAppend clock world key value expiryMs).1.2).1 = next :=
      congrArg Prod.fst (Except.ok.inj written)
    rw [← same, settled.index, kvAppend_eq]
    dsimp only
    rw [index_appendTarget]
    intro other entry found
    by_cases keySame : key = other
    · subst keySame
      simp only [HashIndex.get_set, if_true, Option.some.injEq] at found
      rw [← found]
      dsimp only
      omega
    · simp only [HashIndex.get_set, keySame, if_false] at found
      exact addressable other entry found

/-- The places a hint file of the segment lists, in the index's iteration order. -/
def hintPlaces (order : IterOrder) (newDb : KVEngine) (places : List Place)
    (segment : Nat)
    : List Place :=
  (order.order newDb.index.keys).filterMap
    (fun key =>
      (lastPlace places key).filter
        (fun place => place.segment = segment ∧ place.update.item.isSome))

theorem lastPlace_key {places : List Place} {key : String} {place : Place}
    (last : lastPlace places key = some place)
    : place ∈ places ∧ place.update.key = key :=
  latest_some _ last

/-- The entries written for a segment are the hints of the places its keys point at. -/
theorem hintEntries_eq {newDb : KVEngine} {places : List Place}
    (tracks : Tracks newDb.index places) (order : IterOrder) (segment : Nat)
    : hintEntries order newDb segment
      = (hintPlaces order newDb places segment).map hintOf := by
  unfold hintEntries hintPlaces
  rw [List.map_filterMap]
  apply List.filterMap_congr
  intro key member
  obtain ⟨entry, found⟩ :=
    (newDb.index.mem_keys key).mp ((order.perm _).mem_iff.mp member)
  have tracked := tracks key
  rw [found] at tracked
  cases last : lastPlace places key with
  | none => simp [last] at tracked
  | some place =>
      obtain ⟨-, same⟩ := lastPlace_key last
      obtain ⟨placeSegment, offset, other, item⟩ := place
      dsimp only at same
      subst same
      cases item with
      | none => simp [last, Place.pointer] at tracked
      | some item =>
          simp only [last, Place.pointer, pointerOf, Option.map_some, Option.bind_some,
            Option.some.injEq, Pointer.mk.injEq] at tracked
          obtain ⟨rfl, rfl, expiry⟩ := tracked
          by_cases own : entry.segmentTimestamp = segment
          · simp [found, own, hintOf, expiry]
          · simp [found, own]

theorem hintPlaces_lists {newDb : KVEngine} {places : List Place}
    (tracks : Tracks newDb.index places) (addressable : Addressable newDb.index)
    (order : IterOrder) (segment : Nat)
    : Lists segment places (hintPlaces order newDb places segment) := by
  have members {place : Place}
      (member : place ∈ hintPlaces order newDb places segment)
      : ∃ key,
          lastPlace places key = some place
          ∧ place.segment = segment
          ∧ place.update.item.isSome := by
    obtain ⟨key, -, picked⟩ := List.mem_filterMap.mp member
    obtain ⟨last, accepted⟩ := Option.filter_eq_some_iff.mp picked
    simp only [decide_eq_true_eq] at accepted
    exact ⟨key, last, accepted⟩
  refine ⟨?_, ?_, ?_⟩
  · intro place member
    obtain ⟨key, last, own, -⟩ := members member
    exact ⟨(lastPlace_key last).1, own⟩
  · intro place member
    obtain ⟨key, last, -, some⟩ := members member
    refine ⟨some, ?_⟩
    have tracked := tracks key
    obtain ⟨item, itemFound⟩ := Option.isSome_iff_exists.mp some
    rw [last, Option.bind_some, Place.pointer, itemFound, Option.map_some] at tracked
    obtain ⟨entry, found, pointer⟩ := Option.map_eq_some_iff.mp tracked
    have offset : entry.offset = place.offset := congrArg Pointer.offset pointer
    rw [← offset]
    exact addressable key entry found
  · have distinct : (order.order newDb.index.keys).Nodup :=
      (order.perm _).nodup_iff.mpr newDb.index.nodup_keys
    refine List.Pairwise.filterMap _ ?_ distinct
    intro left right different first picked second pickedSecond same
    have firstKey := (lastPlace_key (Option.filter_eq_some_iff.mp picked).1).2
    have secondKey := (lastPlace_key (Option.filter_eq_some_iff.mp pickedSecond).1).2
    exact different (firstKey.symm.trans (same.trans secondKey))

/-- Writing a hint file replaces the segment's hints and no other file. -/
theorem hints_writeHint (world : World) (segment : Nat) (entries : List HintEntry)
    (other : Nat)
    : (writeHint world segment entries).disk.hints[other]?
      = if segment = other then some (HintEntry.codec.encodeAll entries)
        else world.disk.hints[other]? := by
  have fold (entries : List HintEntry) (start : World) (written : Bytes)
      (found : start.disk.hints[segment]? = some written)
      : (entries.foldl
          (fun world entry => world.perform (.hintAppend segment entry.toBeBytes))
          start).disk.hints[other]?
        = if segment = other then some (written ++ HintEntry.codec.encodeAll entries)
          else start.disk.hints[other]? := by
    induction entries generalizing start written with
    | nil =>
        by_cases same : segment = other
        · subst same
          simp [found]
        · simp [same]
    | cons entry rest ih =>
        have next := ih (start.perform (.hintAppend segment entry.toBeBytes))
          (written ++ entry.toBeBytes) (by simp [Disk.apply, appendTo, found])
        rw [List.foldl_cons, next]
        by_cases same : segment = other
        · simp [same, HintEntry.codec]
        · simp [same, Disk.apply, appendTo, found]
  have written := fold entries (world.perform (.hintCreate segment)) []
    (by simp [Disk.apply])
  unfold writeHint
  rw [written]
  by_cases same : segment = other <;> simp [same, Disk.apply]

/-- After a compaction's hint pass exactly the new segments have new hints. -/
theorem hints_finishCompacted (order : IterOrder) (newDb : KVEngine) (old : List Nat)
    (world : World) (other : Nat)
    : (finishCompacted order newDb old world).disk.hints[other]?
      = if other ∈ world.disk.getSegments.filter (· ∉ old) then
          some (HintEntry.codec.encodeAll (hintEntries order newDb other))
        else world.disk.hints[other]? := by
  have fold (segments : List Nat) (start : World)
      : (segments.foldl
          (fun world segment => writeHint world segment (hintEntries order newDb segment))
          start).disk.hints[other]?
        = if other ∈ segments then
            some (HintEntry.codec.encodeAll (hintEntries order newDb other))
          else start.disk.hints[other]? := by
    induction segments generalizing start with
    | nil => simp
    | cons segment rest ih =>
        rw [List.foldl_cons, ih, hints_writeHint]
        by_cases later : other ∈ rest
        · simp [later]
        · by_cases same : segment = other
          · simp [same, later]
          · simp [same, later, Ne.symm same]
  exact fold _ (world.perform (.segmentSync newDb.activeSegment))

end KVEngine

end Rustikv.Kv

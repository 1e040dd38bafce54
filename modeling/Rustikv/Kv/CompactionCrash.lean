import Rustikv.Kv.CrashRecovery
import Rustikv.Kv.Outcomes
import Rustikv.Kv.Restart

/-! Crashes inside the first compaction of a database. While it copies, the old segments still
hold everything; the hint files it writes hide only records that repeat the old segments; and
these are removed oldest first, when the new ones are complete.
-/

namespace Rustikv.Kv

open Library

-----------------------------------------------------------------------------------------
-- Disks passed through between two worlds
-----------------------------------------------------------------------------------------

/-- The file operations between the two worlds pass only through disks with the property. -/
def Passes (holds : Disk → Prop) (before after : World) : Prop :=
  ∃ operations, Performs before after operations ∧ Throughout holds before.disk operations

namespace Passes

variable {holds other : Disk → Prop} {before middle after : World}

theorem refl (here : holds before.disk) : Passes holds before before :=
  ⟨[], .refl before, here⟩

theorem trans (first : Passes holds before middle) (second : Passes holds middle after)
    : Passes holds before after := by
  obtain ⟨front, performsFront, throughFront⟩ := first
  obtain ⟨back, performsBack, throughBack⟩ := second
  refine ⟨front ++ back, performsFront.trans performsBack, throughFront.append ?_⟩
  rw [← performsFront.disk]
  exact throughBack

theorem perform (passes : Passes holds before after) {operation : FileOp}
    (last : holds after.disk) (next : holds (after.disk.apply operation))
    : Passes holds before (after.perform operation) :=
  passes.trans ⟨[operation], (Performs.refl after).perform operation, last, next⟩

theorem imp (passes : Passes holds before after) (weaker : ∀ disk, holds disk → other disk)
    : Passes other before after := by
  obtain ⟨operations, performs, through⟩ := passes
  exact ⟨operations, performs, through.imp weaker⟩

/-- A crash leaves one of these disks. -/
theorem crash (passes : Passes holds before after) (writes : Nat)
    : holds (before.crash after writes).disk := by
  obtain ⟨operations, performs, through⟩ := passes
  rw [performs.crash]
  exact through.take writes

end Passes

-----------------------------------------------------------------------------------------
-- Disks with hint files
-----------------------------------------------------------------------------------------

/-- The places that loading a segment brings: those its hint file lists, or all of them. -/
def shownBy (listing : Nat → Option (List Place)) (log : Log) : List Place :=
  (listing log.1).getD (placesFrom log.1 0 log.2)

/-- Whole records in the segments and the WAL, and whole entries in the hint files. -/
structure Legible (disk : Disk) (logs : List Log) (wal : List Update)
    (listing : Nat → Option (List Place))
    : Prop where
  stored : Stored disk logs wal
  hints
    : ∀ segment : Nat,
        disk.hints[segment]?
        = (listing segment).map
            (fun listed => HintEntry.codec.encodeAll (listed.map hintOf))
  lists
    : ∀ segment listed, listing segment = some listed → Lists segment (placesOf logs) listed

namespace Legible

variable {disk : Disk} {logs : List Log} {wal : List Update}
  {listing : Nat → Option (List Place)}

theorem shown_subset (legible : Legible disk logs wal listing) {log : Log}
    (member : log ∈ logs)
    : shownBy listing log ⊆ placesOf logs := by
  unfold shownBy
  intro place shown
  cases found : listing log.1 with
  | none =>
      rw [found] at shown
      exact List.mem_flatMap.mpr ⟨log, member, shown⟩
  | some listed =>
      rw [found] at shown
      exact ((legible.lists log.1 listed found).subset place shown).1

theorem loadSegment (legible : Legible disk logs wal listing) {log : Log}
    (member : log ∈ logs) {index : HashIndex} {places : List Place}
    (tracks : Tracks index places)
    : ∃ merged,
        KVEngine.loadSegment disk index log.1 = .ok merged
        ∧ Tracks merged (places ++ shownBy listing log) := by
  have hints := legible.hints log.1
  unfold shownBy
  cases found : listing log.1 with
  | none =>
      rw [found] at hints
      exact loadSegment_scanned legible.stored.filed member hints tracks
  | some listed =>
      rw [found] at hints
      exact loadSegment_hinted legible.stored.filed member
        (legible.lists log.1 listed found) hints tracks

/-- Reopening such a disk brings back what the loaded places say under the WAL. -/
theorem fromDir {world : World} (legible : Legible world.disk logs wal listing)
    (nonempty : logs ≠ []) (maxSegmentBytes : UInt64) (fsyncStrategy : FSyncStrategy)
    : ∃ db after,
        KVEngine.fromDir maxSegmentBytes fsyncStrategy world = .ok (some db, after)
        ∧ Represents db.index after.disk
            (Contents.replay
              ((logs.flatMap (shownBy listing)).map Place.update ++ wal)) := by
  obtain ⟨front, ⟨segment, updates⟩, rfl⟩ :=
    List.eq_nil_or_concat logs |>.resolve_left nonempty
  rw [List.concat_eq_append] at legible ⊢
  have stored := legible.stored
  obtain ⟨index, loaded, tracks⟩ := loadSegments_tracks world.disk (shownBy listing)
    (fun log member index places tracks => legible.loadSegment member tracks) tracks_new
  rw [← stored.filed.keys] at loaded
  obtain ⟨db, after, recovered, reopened, -, filed, finalTracks, -, -, -, -, same, -⟩ :=
    fromDir_sound stored.filed stored.logged stored.fits loaded tracks maxSegmentBytes
      fsyncStrategy
  have grown : placesOf (front ++ [(segment, updates ++ recovered)])
      = placesOf (front ++ [(segment, updates)])
        ++ placesFrom segment (Update.codec.encodeAll updates).length recovered := by
    simp [placesOf, placesFrom_append]
  have represents := finalTracks.represents filed (by
    rw [grown, List.nil_append]
    refine List.append_subset.mpr ⟨?_, List.subset_append_right _ _⟩
    intro place shown
    obtain ⟨log, member, own⟩ := List.mem_flatMap.mp shown
    exact List.mem_append_left _ (legible.shown_subset member own))
  rw [List.nil_append, List.map_append, map_update_placesFrom,
    Contents.replay_congr_right _ same] at represents
  exact ⟨db, after, reopened, represents⟩

end Legible

/-- Reopening the disk brings back the map, expired items aside. -/
def Salvageable (finish : UInt64) (contents : Contents) (disk : Disk) : Prop :=
  ∃ logs wal listing,
    logs ≠ []
    ∧ Legible disk logs wal listing
    ∧ Contents.AgreeFrom finish
        (Contents.replay ((logs.flatMap (shownBy listing)).map Place.update ++ wal)) contents

theorem Salvageable.fromDir {finish : UInt64} {contents : Contents} {world : World}
    (salvageable : Salvageable finish contents world.disk) (maxSegmentBytes : UInt64)
    (fsyncStrategy : FSyncStrategy)
    : ∃ db after,
        KVEngine.fromDir maxSegmentBytes fsyncStrategy world = .ok (some db, after)
        ∧ Shows db after contents finish := by
  obtain ⟨logs, wal, listing, nonempty, legible, agree⟩ := salvageable
  obtain ⟨db, after, reopened, represents⟩ :=
    legible.fromDir nonempty maxSegmentBytes fsyncStrategy
  exact ⟨db, after, reopened, _, represents, agree⟩

theorem flatMap_shownBy_unhinted {listing : Nat → Option (List Place)} {logs : List Log}
    (unhinted : ∀ log ∈ logs, listing log.1 = none)
    : logs.flatMap (shownBy listing) = placesOf logs := by
  unfold placesOf
  apply List.flatMap_congr
  intro log member
  rw [shownBy, unhinted log member]
  rfl

theorem Durable.salvageable {limit : Nat} {contents : Contents} {disk : Disk}
    (durable : Durable limit contents disk) (finish : UInt64)
    : Salvageable finish contents disk := by
  obtain ⟨hints, logs, wal, nonempty, stored, replayed, -⟩ := durable
  refine ⟨logs, wal, fun _ => none, nonempty, ⟨stored, hints, by simp⟩, ?_⟩
  rw [flatMap_shownBy_unhinted (by simp), map_update_placesOf, replayed]
  exact fun _ _ _ => rfl

-----------------------------------------------------------------------------------------
-- Updates that repeat the map
-----------------------------------------------------------------------------------------

namespace Contents

/-- The last update of every key in the list says what the map says. -/
def Echoes (contents : Contents) (updates : List Update) : Prop :=
  ∀ key update, latest Update.key updates key = some update → update.item = contents key

theorem echoes_of_forall {contents : Contents} {updates : List Update}
    (repeats : ∀ update ∈ updates, update.item = contents update.key)
    : contents.Echoes updates := by
  intro key update found
  obtain ⟨member, rfl⟩ := latest_some Update.key found
  exact repeats update member

/-- Updates read last agree with what is read in the end. -/
theorem echoes_of_replay {contents : Contents} {front back : List Update}
    (replayed : replay (front ++ back) = contents)
    : contents.Echoes back := by
  intro key update found
  rw [← replayed]
  simp [replay, latest_append, found]

theorem Echoes.append {contents : Contents} {front back : List Update}
    (first : contents.Echoes front) (second : contents.Echoes back)
    : contents.Echoes (front ++ back) := by
  intro key update found
  rw [latest_append] at found
  cases last : latest Update.key back key with
  | none => exact first key update (by simpa [last] using found)
  | some other =>
      obtain rfl : other = update := by simpa [last] using found
      exact second key other last

/-- Repeating the map behind a log of it changes nothing. -/
theorem Echoes.replay {contents : Contents} {front back : List Update}
    (echoes : contents.Echoes back) (replayed : replay front = contents)
    : Contents.replay (front ++ back) = contents := by
  funext key
  cases last : latest Update.key back key with
  | none =>
      rw [← replayed]
      simp [Contents.replay, latest_append, last]
  | some update =>
      rw [← echoes key update last]
      simp [Contents.replay, latest_append, last]

end Contents

-----------------------------------------------------------------------------------------
-- Copying
-----------------------------------------------------------------------------------------

/-- The old logs hold the whole map, no hint file is there yet, and all that is written
behind the old logs repeats the map.
-/
structure Copying (clock : Nat → Nat) (db newDb : KVEngine) (world : World)
    (contents : Contents) (old own : List Log) (updates wal : List Update)
    (hints : SortedMap Nat Bytes)
    : Prop
    extends Rebuilding clock db newDb world contents old own updates wal hints where
  unhinted : ∀ segment : Nat, world.disk.hints[segment]? = none
  whole : Contents.replay (updatesOf old) = contents
  repeats
    : ∀ update ∈ updatesOf (own ++ [(newDb.activeSegment, updates)]),
        update.item = contents update.key
  overlaid
    : Contents.replay (updatesOf (old ++ own ++ [(newDb.activeSegment, updates)]) ++ wal)
      = contents

namespace Copying

variable {clock : Nat → Nat} {db newDb : KVEngine} {world : World} {contents : Contents}
  {old own : List Log} {updates wal : List Update} {hints : SortedMap Nat Bytes}

theorem mirrors (copying : Copying clock db newDb world contents old own updates wal hints)
    : Mirrors contents (updatesOf (old ++ own ++ [(newDb.activeSegment, updates)])) wal where
  alone := by
    rw [List.append_assoc, updatesOf_append]
    exact (Contents.echoes_of_forall copying.repeats).replay copying.whole
  overlaid := copying.overlaid

theorem salvageable
    (copying : Copying clock db newDb world contents old own updates wal hints)
    : Salvageable 0 contents world.disk :=
  (copying.stored.durable le_rfl copying.unhinted copying.overlaid).salvageable 0

/-- Copying a key passes through disks that all bring back the map. -/
theorem copyKey (increasing : StrictMono clock)
    (copying : Copying clock db newDb world contents old own updates wal hints)
    {item : String × Option UInt64} {rest : List (String × Option UInt64)}
    {finish nowMs : UInt64}
    (copies
      : Contents.Copies contents
          (Contents.replay (updatesOf (own ++ [(newDb.activeSegment, updates)])))
          (item :: rest) finish)
    (order : nowMs ≤ finish)
    : ∃ next after more last newWal,
        KVEngine.copyKey clock db newDb world item nowMs = .ok (next, after)
        ∧ Copying clock db next after contents old (own ++ more) last newWal hints
        ∧ Contents.Copies contents
            (Contents.replay (updatesOf (own ++ more ++ [(next.activeSegment, last)])))
            rest finish
        ∧ Passes (Salvageable 0 contents) world after := by
  have moved := copies.copyItem order
  obtain ⟨next, after, more, last, newWal, copied, rebuilding, nothing | written⟩ :=
    copying.toRebuilding.copyKey increasing item nowMs
  · obtain ⟨absent, rfl, rfl, rfl, rfl, rfl⟩ := nothing
    refine ⟨_, _, [], last, newWal, copied, by simpa using copying, ?_,
      .refl copying.salvageable⟩
    simpa [Contents.copyItem, absent] using moved
  · obtain ⟨value, added, operations, live, effect⟩ := written
    have same := copies.item_eq (by simp) live
    have unchanged
        : contents.apply (KVEngine.valueUpdate item.1 value item.2) = contents := by
      simp [Contents.apply, ← same]
    have placed : added.map Place.update = [KVEngine.valueUpdate item.1 value item.2] := by
      rcases effect.written with ⟨placed, -⟩ | ⟨-, -, removes, -⟩
      · exact placed
      · simp at removes
    have mirrored := copying.mirrors.write (effect.written.imp_right
      (fun unplaced => absurd unplaced.2.2.1 (by simp)))
    rw [unchanged, ← effect.updatesOf_eq] at mirrored
    refine ⟨next, after, more, last, newWal, copied, ?_, ?_, operations, effect.performs, ?_⟩
    · refine {
        toRebuilding := rebuilding
        unhinted := fun segment => by rw [effect.hints, copying.unhinted]
        whole := copying.whole
        repeats := ?_
        overlaid := by simpa using mirrored.overlaid
      }
      intro update member
      rw [effect.updatesOf_eq own, placed, List.mem_append, List.mem_singleton] at member
      rcases member with before | rfl
      · exact copying.repeats update before
      · exact same.symm
    · rw [effect.updatesOf_eq own, placed, Contents.replay_concat]
      rw [Contents.copyItem, live] at moved
      exact moved
    · refine (effect.durable copying.mirrors ?_ copying.unhinted).imp ?_
      · intro _ removes
        simp at removes
      · rw [unchanged]
        rintro disk (durable | durable) <;> exact durable.salvageable 0

/-- Copying all keys of a snapshot. Witness: induction over the keys still to be copied. -/
theorem copyKeys (increasing : StrictMono clock) {copyMs : String → UInt64}
    {finish : UInt64} (bound : ∀ key, copyMs key ≤ finish)
    {rest : List (String × Option UInt64)}
    (copying : Copying clock db newDb world contents old own updates wal hints)
    (copies
      : Contents.Copies contents
          (Contents.replay (updatesOf (own ++ [(newDb.activeSegment, updates)]))) rest
          finish)
    : ∃ next after newOwn last newWal,
        rest.foldlM
          (fun state item =>
            KVEngine.copyKey clock db state.1 state.2 item (copyMs item.1))
          (newDb, world)
        = .ok (next, after)
        ∧ Copying clock db next after contents old newOwn last newWal hints
        ∧ Contents.Trims finish
            (Contents.replay (updatesOf (newOwn ++ [(next.activeSegment, last)]))) contents
        ∧ Passes (Salvageable 0 contents) world after := by
  induction rest generalizing newDb world own updates wal with
  | nil =>
      exact ⟨newDb, world, own, updates, wal, rfl, copying,
        fun key => copies.done key (by simp), .refl copying.salvageable⟩
  | cons item rest ih =>
      obtain ⟨next, after, more, last, newWal, copied, ongoing, remaining, passes⟩ :=
        copying.copyKey increasing copies (bound item.1)
      obtain ⟨final, later, newOwn, newest, finalWal, ran, finished, trims, others⟩ :=
        ih ongoing remaining
      refine ⟨final, later, newOwn, newest, finalWal, ?_, finished, trims,
        passes.trans others⟩
      rw [List.foldlM_cons, copied]
      exact ran

end Copying

-----------------------------------------------------------------------------------------
-- Hint files behind the old segments
-----------------------------------------------------------------------------------------

theorem Lists.sublist {segment : Nat} {places listed more : List Place}
    (lists : Lists segment places more) (sublist : listed.Sublist more)
    : Lists segment places listed where
  subset place member := lists.subset place (sublist.subset member)
  items place member := lists.items place (sublist.subset member)
  distinct := lists.distinct.sublist sublist

/-- Two groups of logs, the second with hint files. -/
structure HintedBehind (disk : Disk) (front own : List Log) (wal : List Update)
    (listing : Nat → Option (List Place))
    : Prop where
  stored : Stored disk (front ++ own) wal
  hints
    : ∀ segment : Nat,
        disk.hints[segment]?
        = (listing segment).map
            (fun listed => HintEntry.codec.encodeAll (listed.map hintOf))
  lists
    : ∀ segment listed, listing segment = some listed → Lists segment (placesOf own) listed
  unlisted : ∀ log ∈ front, listing log.1 = none
  nonempty : own ≠ []

/-- The updates that loading the hinted logs brings. -/
def shownUpdates (listing : Nat → Option (List Place)) (own : List Log) : List Update :=
  (own.flatMap (shownBy listing)).map Place.update

namespace HintedBehind

variable {disk : Disk} {front own : List Log} {wal : List Update}
  {listing : Nat → Option (List Place)} {contents : Contents}

theorem legible (hinted : HintedBehind disk front own wal listing)
    : Legible disk (front ++ own) wal listing where
  stored := hinted.stored
  hints := hinted.hints
  lists segment listed found := by
    have lists := hinted.lists segment listed found
    refine ⟨?_, lists.items, lists.distinct⟩
    intro place member
    rw [placesOf_append]
    exact ⟨List.mem_append_right _ (lists.subset place member).1,
      (lists.subset place member).2⟩

/-- Hint files show nothing that is not in the logs. -/
theorem shown_subset (hinted : HintedBehind disk front own wal listing)
    : shownUpdates listing own ⊆ updatesOf own := by
  rw [← map_update_placesOf]
  refine List.map_subset _ ?_
  intro place shown
  obtain ⟨log, member, own⟩ := List.mem_flatMap.mp shown
  unfold shownBy at own
  cases found : listing log.1 with
  | none =>
      rw [found] at own
      exact List.mem_flatMap.mpr ⟨log, member, own⟩
  | some listed =>
      rw [found] at own
      exact ((hinted.lists log.1 listed found).subset place own).1

theorem echoes (hinted : HintedBehind disk front own wal listing)
    (repeats : ∀ update ∈ updatesOf own, update.item = contents update.key)
    : contents.Echoes (shownUpdates listing own) :=
  Contents.echoes_of_forall
    (fun update member => repeats update (hinted.shown_subset member))

theorem salvageable (hinted : HintedBehind disk front own wal listing) {start : UInt64}
    (agree
      : Contents.AgreeFrom start
          (Contents.replay (updatesOf front ++ (shownUpdates listing own ++ wal)))
          contents)
    : Salvageable start contents disk := by
  refine ⟨front ++ own, wal, listing, by simp [hinted.nonempty], hinted.legible, ?_⟩
  rw [List.flatMap_append, flatMap_shownBy_unhinted hinted.unlisted, List.map_append,
    map_update_placesOf, List.append_assoc]
  exact agree

/-- While the front logs hold the map, hint files behind them hide nothing. -/
theorem salvageable_whole (hinted : HintedBehind disk front own wal listing)
    (whole : Contents.replay (updatesOf front) = contents)
    (repeats : ∀ update ∈ updatesOf own, update.item = contents update.key)
    (logged : contents.Echoes wal)
    : Salvageable 0 contents disk := by
  refine hinted.salvageable ?_
  rw [((hinted.echoes repeats).append logged).replay whole]
  exact fun _ _ _ => rfl

/-- Writing one segment's hint file anew. -/
theorem list (hinted : HintedBehind disk front own wal listing) {segment : Nat}
    (behind : ∀ log ∈ front, log.1 ≠ segment) {listed : List Place}
    (lists : Lists segment (placesOf own) listed) {next : Disk}
    (segments : next.segments = disk.segments) (sameWal : next.wal = disk.wal)
    (written
      : ∀ other : Nat,
          next.hints[other]?
          = if segment = other then some (HintEntry.codec.encodeAll (listed.map hintOf))
            else disk.hints[other]?)
    : HintedBehind next front own wal (Function.update listing segment (some listed)) where
  stored := ⟨segments ▸ hinted.stored.filed, sameWal ▸ hinted.stored.logged,
    hinted.stored.fits⟩
  hints other := by
    rw [written other]
    by_cases same : segment = other
    · subst same
      simp
    · rw [if_neg same, Function.update_of_ne (Ne.symm same)]
      exact hinted.hints other
  lists other otherListed found := by
    by_cases same : segment = other
    · subst same
      rw [Function.update_self] at found
      exact Option.some.inj found ▸ lists
    · rw [Function.update_of_ne (Ne.symm same)] at found
      exact hinted.lists other otherListed found
  unlisted log member := by
    rw [Function.update_of_ne (behind log member)]
    exact hinted.unlisted log member
  nonempty := hinted.nonempty

theorem walTruncate (hinted : HintedBehind disk front own wal listing)
    : HintedBehind (disk.apply .walTruncate) front own [] listing :=
  { hinted with stored := hinted.stored.walTruncate }

end HintedBehind

section WritingHints

variable {front own : List Log} {wal : List Update} {contents : Contents}
  (whole : Contents.replay (updatesOf front) = contents)
  (repeats : ∀ update ∈ updatesOf own, update.item = contents update.key)
  (logged : contents.Echoes wal)

include whole repeats logged

/-- Every entry appended to a hint file leaves a disk that brings back the map. Witness:
induction over the entries to come.
-/
theorem HintedBehind.appendHints {segment : Nat} (behind : ∀ log ∈ front, log.1 ≠ segment)
    {rest : List Place} {world : World} {listing : Nat → Option (List Place)}
    {listed : List Place} (lists : Lists segment (placesOf own) (listed ++ rest))
    (hinted
      : HintedBehind world.disk front own wal
          (Function.update listing segment (some listed)))
    : let final := (rest.map hintOf).foldl
        (fun world entry => world.perform (.hintAppend segment entry.toBeBytes)) world
      Passes (Salvageable 0 contents) world final
      ∧ HintedBehind final.disk front own wal
          (Function.update listing segment (some (listed ++ rest))) := by
  induction rest generalizing world listed with
  | nil =>
      refine ⟨.refl (hinted.salvageable_whole whole repeats logged), ?_⟩
      simpa using hinted
  | cons place rest ih =>
      have here : world.disk.hints[segment]?
          = some (HintEntry.codec.encodeAll (listed.map hintOf)) := by
        simpa using hinted.hints segment
      have extended : HintedBehind
          (world.perform (.hintAppend segment (hintOf place).toBeBytes)).disk front own wal
          (Function.update listing segment (some (listed ++ [place]))) := by
        have shorter : Lists segment (placesOf own) (listed ++ [place]) :=
          lists.sublist (by simp)
        have next : HintedBehind
            (world.disk.apply (.hintAppend segment (hintOf place).toBeBytes)) front own wal
            (Function.update (Function.update listing segment (some listed)) segment
              (some (listed ++ [place]))) := by
          refine hinted.list behind shorter rfl rfl ?_
          intro other
          by_cases same : segment = other
          · subst same
            simp [Disk.apply, appendTo, here, HintEntry.codec]
          · simp [Disk.apply, appendTo, here, same]
        rwa [Function.update_idem] at next
      obtain ⟨passes, finished⟩ := ih (by simpa using lists) extended
      refine ⟨Passes.trans ?_ passes, by simpa using finished⟩
      exact (Passes.refl (hinted.salvageable_whole whole repeats logged)).perform
        (hinted.salvageable_whole whole repeats logged)
        (extended.salvageable_whole whole repeats logged)

theorem HintedBehind.writeHint {segment : Nat} (behind : ∀ log ∈ front, log.1 ≠ segment)
    {listed : List Place} (lists : Lists segment (placesOf own) listed) {world : World}
    {listing : Nat → Option (List Place)}
    (hinted : HintedBehind world.disk front own wal listing)
    : let final := KVEngine.writeHint world segment (listed.map hintOf)
      Passes (Salvageable 0 contents) world final
      ∧ HintedBehind final.disk front own wal
          (Function.update listing segment (some listed)) := by
  have created : HintedBehind (world.perform (.hintCreate segment)).disk front own wal
      (Function.update listing segment (some [])) := by
    refine hinted.list behind ⟨by simp, by simp, .nil⟩ rfl rfl ?_
    intro other
    by_cases same : segment = other <;> simp [Disk.apply, same]
  obtain ⟨passes, finished⟩ :=
    created.appendHints whole repeats logged behind (by simpa using lists)
  refine ⟨Passes.trans ?_ passes, finished⟩
  exact (Passes.refl (hinted.salvageable_whole whole repeats logged)).perform
    (hinted.salvageable_whole whole repeats logged)
    (created.salvageable_whole whole repeats logged)

/-- The hint files of several segments. Witness: induction over the segments. -/
theorem HintedBehind.writeHints {listed : Nat → List Place}
    (lists : ∀ segment, Lists segment (placesOf own) (listed segment))
    {segments : List Nat} (behind : ∀ segment ∈ segments, ∀ log ∈ front, log.1 ≠ segment)
    {world : World} {listing : Nat → Option (List Place)}
    (hinted : HintedBehind world.disk front own wal listing)
    : let final := segments.foldl
        (fun world segment => KVEngine.writeHint world segment ((listed segment).map hintOf))
        world
      Passes (Salvageable 0 contents) world final
      ∧ HintedBehind final.disk front own wal
          (fun segment =>
            if segment ∈ segments then some (listed segment) else listing segment) := by
  induction segments generalizing world listing with
  | nil =>
      refine ⟨.refl (hinted.salvageable_whole whole repeats logged), ?_⟩
      simpa using hinted
  | cons segment rest ih =>
      obtain ⟨first, now⟩ := hinted.writeHint whole repeats logged (behind segment (by simp))
        (lists segment)
      obtain ⟨others, finished⟩ :=
        ih (fun other member => behind other (List.mem_cons_of_mem _ member)) now
      refine ⟨first.trans others, ?_⟩
      have same : (fun other => if other ∈ rest then some (listed other)
            else Function.update listing segment (some (listed segment)) other)
          = (fun other => if other ∈ segment :: rest then some (listed other)
            else listing other) := by
        funext other
        by_cases equal : other = segment
        · subst equal
          simp
        · simp [equal]
      rw [List.foldl_cons, ← same]
      exact finished

end WritingHints

-----------------------------------------------------------------------------------------
-- Removing the old segments
-----------------------------------------------------------------------------------------

/-- The end of a log, behind it an echo of the map that names every key still readable. -/
theorem Contents.trims_of_suffix {contents : Contents} {gone rest echo : List Update}
    {finish : UInt64} (whole : replay (gone ++ rest) = contents)
    (echoes : contents.Echoes echo)
    (covered
      : ∀ key, latest Update.key echo key = none → contents.read key finish = none)
    : Trims finish (replay (rest ++ echo)) contents := by
  intro key
  cases last : latest Update.key echo key with
  | some update =>
      left
      rw [← echoes key update last]
      simp [replay, latest_append, last]
  | none =>
      cases earlier : latest Update.key rest key with
      | some update =>
          left
          rw [← whole]
          simp [replay, latest_append, last, earlier]
      | none =>
          right
          exact ⟨by simp [replay, latest_append, last, earlier], covered key last⟩

/-- Reopening the disk brings back the map. Items expired by `finish` may be missing, but
only once one of the segments is.
-/
def Recovers (segments : List Nat) (finish : UInt64) (contents : Contents) (disk : Disk)
    : Prop :=
  Salvageable 0 contents disk
  ∨ (Salvageable finish contents disk ∧ ∃ segment ∈ segments, segment ∉ disk.segments)

/-- Removing the segments of the front logs, oldest first. Witness: induction over the logs
still there; the last record of a key is never removed before an older one.
-/
theorem HintedBehind.removeSegments {gone front own : List Log} {contents : Contents}
    {listing : Nat → Option (List Place)} {finish : UInt64} {segments : List Nat}
    (whole : Contents.replay (updatesOf gone ++ updatesOf front) = contents)
    (repeats : ∀ update ∈ updatesOf own, update.item = contents update.key)
    (covered
      : ∀ key,
          latest Update.key (shownUpdates listing own) key = none
          → contents.read key finish = none)
    (known : front.map Prod.fst ⊆ segments) {world : World}
    (hinted : HintedBehind world.disk front own [] listing)
    (here : Recovers segments finish contents world.disk)
    : ∃ after,
        (front.map Prod.fst).foldlM KVEngine.removeSegment world = .ok after
        ∧ Passes (Recovers segments finish contents) world after := by
  induction front generalizing gone world with
  | nil => exact ⟨world, rfl, .refl here⟩
  | cons log rest ih =>
      obtain ⟨segment, updates⟩ := log
      have opened := hinted.stored.filed.getElem?
        (by simp : (segment, updates) ∈ (segment, updates) :: rest ++ own)
      have removed : KVEngine.removeSegment world segment
          = .ok ((world.perform (.segmentRemove segment)).perform (.hintRemove segment)) := by
        simp [KVEngine.removeSegment, Disk.openSegment, opened, pure, Except.pure]
      have erased : HintedBehind (world.disk.apply (.segmentRemove segment)) rest own []
          listing := {
        stored := ⟨hinted.stored.filed.eraseHead, hinted.stored.logged, by simp⟩
        hints := hinted.hints
        lists := hinted.lists
        unlisted := fun log member => hinted.unlisted log (List.mem_cons_of_mem _ member)
        nonempty := hinted.nonempty
      }
      have unhinted : HintedBehind
          ((world.perform (.segmentRemove segment)).perform (.hintRemove segment)).disk rest
          own [] listing := by
        refine { erased with
          stored := ⟨erased.stored.filed, erased.stored.logged, by simp⟩
          hints := ?_
        }
        intro other
        rw [← erased.hints other]
        by_cases same : segment = other
        · have none : world.disk.hints[segment]? = none := by
            rw [hinted.hints, hinted.unlisted (segment, updates) (by simp), Option.map_none]
          subst same
          simp [Disk.apply, none]
        · simp [Disk.apply, same]
      have shorter : Contents.replay
          (updatesOf (gone ++ [(segment, updates)]) ++ updatesOf rest) = contents := by
        rw [← whole]
        simp [updatesOf]
      have recovers {disk : Disk} (behind : HintedBehind disk rest own [] listing)
          (missing : segment ∉ disk.segments)
          : Recovers segments finish contents disk := by
        refine Or.inr ⟨behind.salvageable ?_, segment, known (by simp), missing⟩
        rw [List.append_nil]
        exact (Contents.trims_of_suffix shorter (behind.echoes repeats) covered).agree
      have first := recovers erased (by simp [Disk.apply])
      have second := recovers unhinted (by simp [Disk.apply])
      obtain ⟨after, ran, passes⟩ := ih shorter
        (fun other member => known (List.mem_cons_of_mem _ member)) unhinted second
      refine ⟨after, ?_, Passes.trans ?_ passes⟩
      · rw [List.map_cons, List.foldlM_cons, removed]
        exact ran
      · exact ((Passes.refl here).perform here first).perform first second

namespace Copying

variable {clock : Nat → Nat} {db newDb : KVEngine} {world : World} {contents : Contents}
  {old own : List Log} {updates wal : List Update} {hints : SortedMap Nat Bytes}

theorem hintedBehind
    (copying : Copying clock db newDb world contents old own updates wal hints)
    : HintedBehind world.disk old (own ++ [(newDb.activeSegment, updates)]) wal
        (fun _ => none) where
  stored := by
    rw [← List.append_assoc]
    exact copying.stored
  hints := copying.unhinted
  lists segment listed found := by cases found
  unlisted log member := rfl
  nonempty := by simp

/-- The new segments are those the compaction did not find when it started. -/
theorem mem_newSegments
    (copying : Copying clock db newDb world contents old own updates wal hints)
    {segment : Nat}
    : segment ∈ world.disk.getSegments.filter (· ∉ old.map Prod.fst)
      ↔ segment ∈ (own ++ [(newDb.activeSegment, updates)]).map Prod.fst := by
  have filed := copying.hintedBehind.stored.filed
  have sorted : ((old ++ (own ++ [(newDb.activeSegment, updates)])).map Prod.fst).Pairwise
      (fun left right => left < right) := List.pairwise_map.mpr filed.sorted
  rw [List.map_append] at sorted
  have apart := (List.pairwise_append.mp sorted).2.2
  rw [List.mem_filter, Disk.getSegments, filed.keys, List.map_append, List.mem_append,
    decide_eq_true_eq]
  constructor
  · rintro ⟨present, unlisted⟩
    exact present.resolve_left unlisted
  · intro member
    exact ⟨Or.inr member, fun listed => lt_irrefl _ (apart segment listed segment member)⟩

/-- The hint files the compaction writes. -/
def listing (order : IterOrder) (newDb : KVEngine) (segments : List Nat) (own : List Log)
    (segment : Nat)
    : Option (List Place) :=
  if segment ∈ segments then
    some (KVEngine.hintPlaces order newDb (placesOf own) segment)
  else
    none

/-- The hint files name every key that can still be read. -/
theorem covered
    (copying : Copying clock db newDb world contents old own updates wal hints)
    {finish : UInt64}
    (trims
      : Contents.Trims finish
          (Contents.replay (updatesOf (own ++ [(newDb.activeSegment, updates)]))) contents)
    (order : IterOrder) {segments : List Nat}
    (complete
      : ∀ segment ∈ (own ++ [(newDb.activeSegment, updates)]).map Prod.fst,
          segment ∈ segments)
    (key : String)
    (unlisted
      : latest Update.key
          (shownUpdates
            (listing order newDb segments (own ++ [(newDb.activeSegment, updates)]))
            (own ++ [(newDb.activeSegment, updates)])) key
        = none)
    : contents.read key finish = none := by
  rcases trims key with same | ⟨-, expired⟩
  · cases found : contents key with
    | none => simp [Contents.read, found]
    | some item =>
        exfalso
        rw [found, ← map_update_placesOf, replay_map_update] at same
        obtain ⟨place, last, written⟩ := Option.bind_eq_some_iff.mp same
        obtain ⟨member, rfl⟩ := KVEngine.lastPlace_key last
        obtain ⟨log, logMember, logged⟩ := List.mem_flatMap.mp member
        have segment : place.segment = log.1 := by
          obtain ⟨located, -, rfl⟩ := List.mem_map.mp logged
          rfl
        have tracked := copying.tracks place.update.key
        rw [last, Option.bind_some, Place.pointer, written, Option.map_some] at tracked
        obtain ⟨entry, indexed, -⟩ := Option.map_eq_some_iff.mp tracked
        have listed : place ∈ shownBy
            (listing order newDb segments (own ++ [(newDb.activeSegment, updates)])) log := by
          rw [shownBy, listing, if_pos (complete log.1 (List.mem_map_of_mem logMember)),
            Option.getD_some]
          refine List.mem_filterMap.mpr ⟨place.update.key, ?_, ?_⟩
          · exact (order.perm _).mem_iff.mpr ((newDb.index.mem_keys _).mpr ⟨entry, indexed⟩)
          · rw [last]
            simp [segment, written]
        refine (latest_none Update.key).mp unlisted place.update ?_ rfl
        exact List.mem_map_of_mem (List.mem_flatMap.mpr ⟨log, logMember, listed⟩)
  · exact expired

/-- Hints, WAL reset and removal pass through disks that bring back the map. -/
theorem finish
    (copying : Copying clock db newDb world contents old own updates wal hints)
    {finish : UInt64}
    (trims
      : Contents.Trims finish
          (Contents.replay (updatesOf (own ++ [(newDb.activeSegment, updates)]))) contents)
    (order : IterOrder)
    : ∃ after,
        (old.map Prod.fst).foldlM KVEngine.removeSegment
          (db.swapCompacted newDb
            (KVEngine.finishCompacted order newDb (old.map Prod.fst) world)).2
        = .ok after
        ∧ Passes (Recovers (old.map Prod.fst) finish contents) world after := by
  let synced := world.perform (.segmentSync newDb.activeSegment)
  let segments := world.disk.getSegments.filter (· ∉ old.map Prod.fst)
  have logged : contents.Echoes wal := Contents.echoes_of_replay copying.overlaid
  have start : HintedBehind synced.disk old (own ++ [(newDb.activeSegment, updates)]) wal
      (fun _ => none) := copying.hintedBehind
  have behind : ∀ segment ∈ segments, ∀ log ∈ old, log.1 ≠ segment := by
    rintro segment member log logMember rfl
    obtain ⟨-, unlisted⟩ := List.mem_filter.mp member
    rw [decide_eq_true_eq] at unlisted
    exact unlisted (List.mem_map_of_mem logMember)
  obtain ⟨hintPasses, hinted⟩ := start.writeHints copying.whole copying.repeats logged
    (KVEngine.hintPlaces_lists copying.tracks copying.addressable order) behind
  simp only [← KVEngine.hintEntries_eq copying.tracks] at hintPasses hinted
  have full := hinted.salvageable_whole copying.whole copying.repeats logged
  have truncated : HintedBehind
      (db.swapCompacted newDb
        (KVEngine.finishCompacted order newDb (old.map Prod.fst) world)).2.disk old
      (own ++ [(newDb.activeSegment, updates)]) []
      (listing order newDb segments (own ++ [(newDb.activeSegment, updates)])) :=
    hinted.walTruncate
  have emptied := truncated.salvageable_whole copying.whole copying.repeats
    (fun key update found => by simp at found)
  have noneGone : Contents.replay (updatesOf [] ++ updatesOf old) = contents := copying.whole
  obtain ⟨after, removed, removals⟩ := truncated.removeSegments noneGone copying.repeats
    (copying.covered trims order (fun segment member => copying.mem_newSegments.mpr member))
    (List.Subset.refl _) (Or.inl emptied)
  have upToReset : Passes (Salvageable 0 contents) world
      (db.swapCompacted newDb
        (KVEngine.finishCompacted order newDb (old.map Prod.fst) world)).2 := by
    have sync : Passes (Salvageable 0 contents) world synced :=
      (Passes.refl copying.salvageable).perform copying.salvageable copying.salvageable
    exact (sync.trans hintPasses).perform full emptied
  exact ⟨after, removed, (upToReset.imp (fun _ => Or.inl)).trans removals⟩

end Copying

-----------------------------------------------------------------------------------------
-- The first compaction
-----------------------------------------------------------------------------------------

/-- Before the first compaction there are no hint files. -/
theorem RunningOn.restartable {clock : Nat → Nat} {db : KVEngine} {world : World}
    {contents : Contents} {logs : List Log} {updates wal : List Update}
    (running : RunningOn clock db world contents logs updates wal)
    (fresh : KVEngine.Fresh clock world)
    : Restartable clock db world logs updates wal where
  stored := running.stored
  tracks := running.tracks
  overlaid := by rw [running.mirrors.overlaid, running.mirrors.alone]
  hinted segment bytes found := by
    rw [running.hints] at found
    cases found
  owned segment member := by
    obtain ⟨bytes, found⟩ := (SortedMap.mem_iff _ _).mp member
    rw [running.hints] at found
    cases found
  fresh := fresh

/-- The engine a first compaction starts with. -/
theorem RunningOn.copying {clock : Nat → Nat} (increasing : StrictMono clock)
    {db : KVEngine} {world : World} {contents : Contents} {logs : List Log}
    {updates wal : List Update}
    (running : RunningOn clock db world contents logs updates wal)
    (fresh : KVEngine.Fresh clock world)
    : Copying clock db
        (KVEngine.new clock db.maxSegmentBytes db.fsyncStrategy world).1
        (KVEngine.new clock db.maxSegmentBytes db.fsyncStrategy world).2 contents
        (logs ++ [(db.activeSegment, updates)]) [] [] wal world.disk.hints := by
  have restartable := running.restartable fresh
  have rebuilding := rebuilding_new increasing restartable.represents restartable.stored
    restartable.fresh
  rw [running.mirrors.alone] at rebuilding
  refine {
    toRebuilding := rebuilding
    unhinted := fun segment => by rw [rebuilding.hints, running.hints]
    whole := running.mirrors.alone
    repeats := by simp
    overlaid := ?_
  }
  rw [List.append_nil, updatesOf_append, updatesOf_singleton, List.append_nil]
  exact running.mirrors.overlaid

/-- A crash anywhere in the first compaction leaves a disk that brings back the map. -/
theorem RunningOn.compact {clock : Nat → Nat} (increasing : StrictMono clock)
    {db : KVEngine} {world : World} {contents : Contents} {logs : List Log}
    {updates wal : List Update}
    (running : RunningOn clock db world contents logs updates wal)
    (fresh : KVEngine.Fresh clock world) (order : IterOrder) {nowMs finish : UInt64}
    {copyMs : String → UInt64} (start : nowMs ≤ finish) (bound : ∀ key, copyMs key ≤ finish)
    : ∃ next after,
        db.compact clock order world nowMs copyMs = .ok (next, after)
        ∧ Passes (Recovers world.disk.getSegments finish contents) world after := by
  have oldSegments : world.disk.getSegments
      = (logs ++ [(db.activeSegment, updates)]).map Prod.fst := running.stored.filed.keys
  have copying := running.copying increasing fresh
  have created : Passes (Salvageable 0 contents) world
      (KVEngine.new clock db.maxSegmentBytes db.fsyncStrategy world).2 :=
    ⟨[.segmentCreate (clock world.ticks)], ⟨rfl, rfl⟩, running.durable.salvageable 0,
      copying.salvageable⟩
  have copies := (KVEngine.snapshotKeys_copies running.represents order nowMs).later start
  obtain ⟨newDb, filled, own, last, newWal, copied, complete, trims, copyPasses⟩ :=
    copying.copyKeys increasing bound copies
  obtain ⟨after, removed, finishPasses⟩ := complete.finish trims order
  refine ⟨(db.swapCompacted newDb (KVEngine.finishCompacted order newDb
    world.disk.getSegments filled)).1, after, ?_, ?_⟩
  · rw [← oldSegments] at removed
    simp only [KVEngine.compact, KVEngine.buildCompacted, copied, ok_bind]
    simp only [pure, Except.pure, ok_bind, removed]
  · rw [oldSegments]
    exact ((created.trans copyPasses).imp (fun _ => Or.inl)).trans finishPasses

/-- Calls that return have keys and values within the limits. -/
theorem KVEngine.fits_of_handle {clock : Nat → Nat} {event : Event} {db next : KVEngine}
    {world after : World} {reply : Reply} (single : event.call.Single)
    (handled : KVEngine.handle clock event db world = .ok (reply, next, after))
    : event.call.Fits := by
  obtain ⟨call, nowMs, finishMs⟩ := event
  cases call with
  | set key value =>
      obtain ⟨⟨written, later⟩, set, -⟩ := bind_eq_ok.mp handled
      exact (KVEngine.setWithTtl_cases set).1
  | setWithTtl key value expiryMs =>
      obtain ⟨⟨written, later⟩, set, -⟩ := bind_eq_ok.mp handled
      exact (KVEngine.setWithTtl_cases set).1
  | delete key =>
      obtain ⟨⟨found, written, later⟩, deleted, -⟩ := bind_eq_ok.mp handled
      exact (KVEngine.delete_cases deleted).1
  | ttl key expiryMs => trivial
  | get key => trivial
  | mget keys => trivial
  | «exists» key => trivial
  | listKeys order => trivial
  | msetWithTtl _ => exact single.elim
  | compact _ _ => exact single.elim

theorem Call.Single.plain {call : Call} (single : call.Single) : call.Plain := by
  cases call with
  | compact _ _ => exact single.elim
  | _ => trivial

/-- Calls before the first compaction keep the engine running with a fresh clock. Witness:
induction over the calls.
-/
theorem Running.filled {clock : Nat → Nat} (increasing : StrictMono clock)
    {events : List Event} (single : ∀ event ∈ events, event.call.Single)
    {db last : KVEngine} {world after : World} {replies : List Reply} {contents : Contents}
    (running : Running clock db world contents) (ready : Ready clock db world contents)
    (ran : KVEngine.run clock events db world = .ok (replies, last, after))
    : ∃ filled, Running clock last after filled ∧ Ready clock last after filled := by
  induction events generalizing db world replies contents with
  | nil =>
      obtain ⟨rfl, rfl⟩ := Prod.mk.inj (Prod.mk.inj (Except.ok.inj ran)).2
      exact ⟨contents, running, ready⟩
  | cons event rest ih =>
      obtain ⟨⟨reply, next, middle⟩, handled, others⟩ := bind_eq_ok.mp ran
      obtain ⟨⟨more, final, end'⟩, ranRest, same⟩ := bind_eq_ok.mp others
      obtain ⟨-, same⟩ := Prod.mk.inj (Except.ok.inj same)
      obtain ⟨rfl, rfl⟩ := Prod.mk.inj same
      have first := single event (by simp)
      have fits := KVEngine.fits_of_handle first handled
      obtain ⟨_, _, _, again, -, nowRunning, -⟩ :=
        running.handle increasing.monotone fits first
      obtain ⟨-, same⟩ := Prod.mk.inj (Except.ok.inj (handled.symm.trans again))
      obtain ⟨rfl, rfl⟩ := Prod.mk.inj same
      obtain ⟨_, _, _, again, -, -, nowReady⟩ := ready.handle increasing fits first.plain
      obtain ⟨-, same⟩ := Prod.mk.inj (Except.ok.inj (handled.symm.trans again))
      obtain ⟨rfl, rfl⟩ := Prod.mk.inj same
      exact ih (fun other member => single other (List.mem_cons_of_mem _ member)) nowRunning
        nowReady ranRest

/-- A crash after any file operation of the first compaction loses nothing: reopening gives
an engine that reads as the one before, at any time while all old segments are there and
from the end of the compaction on in any case.
-/
theorem first_compaction_crash_safe {clock : Nat → Nat} (increasing : StrictMono clock)
    (maxSegmentBytes : UInt64) (fsyncStrategy : FSyncStrategy) {events : List Event}
    (single : ∀ event ∈ events, event.call.Single) {replies : List Reply} {db : KVEngine}
    {world : World}
    (filled
      : KVEngine.run clock events
            (KVEngine.new clock maxSegmentBytes fsyncStrategy World.initial).1
            (KVEngine.new clock maxSegmentBytes fsyncStrategy World.initial).2
          = .ok (replies, db, world))
    (order : IterOrder) {nowMs finish : UInt64} {copyMs : String → UInt64}
    (start : nowMs ≤ finish) (bound : ∀ key, copyMs key ≤ finish)
    : ∃ next after,
        db.compact clock order world nowMs copyMs = .ok (next, after)
        ∧ ∀ writes newMaxBytes newStrategy,
            let crashed := world.crash after writes
            ∃ reopened later,
              KVEngine.fromDir newMaxBytes newStrategy crashed = .ok (some reopened, later)
              ∧ ∀ key time,
                  (finish ≤ time
                    ∨ ∀ segment ∈ world.disk.segments, segment ∈ crashed.disk.segments)
                  → reopened.get later key time = db.get world key time := by
  obtain ⟨contents, ⟨logs, updates, wal, running⟩, ready⟩ :=
    (running_new increasing.monotone maxSegmentBytes fsyncStrategy).filled increasing single
      (ready_initial increasing maxSegmentBytes fsyncStrategy) filled
  obtain ⟨next, after, compacted, passes⟩ :=
    running.compact increasing ready.fresh order start bound
  refine ⟨next, after, compacted, ?_⟩
  intro writes newMaxBytes newStrategy
  rcases passes.crash writes with kept | ⟨salvaged, segment, listed, missing⟩
  · obtain ⟨reopened, later, opened, shows⟩ := kept.fromDir newMaxBytes newStrategy
    refine ⟨reopened, later, opened, fun key time _ => ?_⟩
    rw [shows.get key UInt64.zero_le, ready.shows.get key UInt64.zero_le]
  · obtain ⟨reopened, later, opened, shows⟩ := salvaged.fromDir newMaxBytes newStrategy
    refine ⟨reopened, later, opened, ?_⟩
    rintro key time (afterwards | complete)
    · rw [shows.get key afterwards, ready.shows.get key UInt64.zero_le]
    · exact absurd (complete segment (world.disk.mem_getSegments.mp listed)) missing

/-- An overwrite that rolls, a key that expires during the compaction, and a delete. -/
def overwriteExpiringDelete : List Event :=
  [
    { call := .set "k" "v", nowMs := 1, finishMs := 1 },
    { call := .set "k" "w", nowMs := 2, finishMs := 2 },
    { call := .setWithTtl "t" "u" (some 6), nowMs := 3, finishMs := 3 },
    { call := .set "d" "x", nowMs := 4, finishMs := 4 },
    { call := .delete "d", nowMs := 5, finishMs := 5 }
  ]

/-- Witness: three segments, one of whose keys expires before the compaction copies it. -/
theorem first_compaction_crash_safe_expiring
    : ∃ replies db world next after,
        KVEngine.run id overwriteExpiringDelete (KVEngine.new id 30 .never .initial).1
            (KVEngine.new id 30 .never .initial).2
          = .ok (replies, db, world)
        ∧ db.compact id .stored world 5 (fun _ => 7) = .ok (next, after)
        ∧ ∀ writes newMaxBytes newStrategy,
            let crashed := world.crash after writes
            ∃ reopened later,
              KVEngine.fromDir newMaxBytes newStrategy crashed = .ok (some reopened, later)
              ∧ ∀ key time,
                  ((7 : UInt64) ≤ time
                    ∨ ∀ segment ∈ world.disk.segments, segment ∈ crashed.disk.segments)
                  → reopened.get later key time = db.get world key time := by
  have computed : (KVEngine.run id overwriteExpiringDelete
      (KVEngine.new id 30 .never .initial).1
      (KVEngine.new id 30 .never .initial).2).toOption.isSome = true := by
    decide +kernel
  obtain ⟨⟨replies, db, world⟩, found⟩ := Option.isSome_iff_exists.mp computed
  have filled := toOption_eq_some.mp found
  have single : ∀ event ∈ overwriteExpiringDelete, event.call.Single := by
    simp [overwriteExpiringDelete, Call.Single]
  have start : (5 : UInt64) ≤ 7 := by decide
  have bound : ∀ key : String, (fun _ : String => (7 : UInt64)) key ≤ 7 :=
    fun _ => UInt64.le_rfl
  obtain ⟨next, after, compacted, safe⟩ := first_compaction_crash_safe strictMono_id 30 .never
    single filled .stored start bound
  exact ⟨replies, db, world, next, after, filled, compacted, safe⟩

end Rustikv.Kv

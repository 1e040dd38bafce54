import Rustikv.Kv.Outcomes
import Rustikv.Kv.Restart

/-! What holds of the files in every run, stale restarts included: whole logs, hint files
that list their records, and an index that points at records.
-/

namespace Rustikv.Kv

open Library

-----------------------------------------------------------------------------------------
-- An invariant of all runs
-----------------------------------------------------------------------------------------

/-- The files hold the logs and hints of them, and the index tracks some of their records;
not the last of every key, since a restart may have missed that one.
-/
structure Coherent (clock : Nat → Nat) (db : KVEngine) (world : World) (logs : List Log)
    (updates wal : List Update)
    : Prop where
  stored : Stored world.disk (logs ++ [(db.activeSegment, updates)]) wal
  tracks
    : ∃ places,
        Tracks db.index places ∧ places ⊆ placesOf (logs ++ [(db.activeSegment, updates)])
  hinted
    : Hinted world.disk.hints (placesOf (logs ++ [(db.activeSegment, updates)]))
  owned : ∀ segment ∈ world.disk.hints, segment ∈ world.disk.segments
  fresh : KVEngine.Fresh clock world

theorem Restartable.coherent {clock : Nat → Nat} {db : KVEngine} {world : World}
    {logs : List Log} {updates wal : List Update}
    (restartable : Restartable clock db world logs updates wal)
    : Coherent clock db world logs updates wal where
  stored := restartable.stored
  tracks := ⟨_, restartable.tracks, List.Subset.refl _⟩
  hinted := restartable.hinted
  owned := restartable.owned
  fresh := restartable.fresh

/-- Some logs make the engine coherent. -/
def Coheres (clock : Nat → Nat) (db : KVEngine) (world : World) : Prop :=
  ∃ logs updates wal, Coherent clock db world logs updates wal

theorem Keeping.coheres {clock : Nat → Nat} {db : KVEngine} {world : World}
    (keeping : Keeping clock db world)
    : Coheres clock db world := by
  obtain ⟨logs, updates, wal, restartable⟩ := keeping
  exact ⟨logs, updates, wal, restartable.coherent⟩

namespace Coherent

variable {clock : Nat → Nat} {db next : KVEngine} {world after : World} {logs : List Log}
  {updates wal : List Update}

theorem represents (coherent : Coherent clock db world logs updates wal)
    : ∃ contents, Represents db.index world.disk contents := by
  obtain ⟨places, tracks, subset⟩ := coherent.tracks
  exact ⟨_, tracks.represents coherent.stored.filed subset⟩

theorem active (coherent : Coherent clock db world logs updates wal)
    : db.activeSegment ∈ world.disk.segments :=
  (coherent.stored.filed.mem_iff _).mpr ⟨updates, by simp⟩

theorem bound (coherent : Coherent clock db world logs updates wal)
    : db.activeSegment ≤ clock world.ticks :=
  (coherent.fresh _ coherent.active).le

theorem write (increasing : StrictMono clock)
    (coherent : Coherent clock db world logs updates wal) {update : Update}
    {more : List Log} {last newWal : List Update} {added : List Place}
    {operations : List FileOp}
    (effect : KVEngine.WriteEffect clock update db next world after logs more updates last wal
      newWal added operations)
    (progress : KVEngine.Progress clock db next world after)
    : Coherent clock next after (logs ++ more) last newWal where
  stored := effect.stored
  tracks := by
    obtain ⟨places, tracks, subset⟩ := coherent.tracks
    refine ⟨places ++ added, effect.tracks places tracks, ?_⟩
    rw [effect.placesOf_eq]
    exact List.append_subset.mpr
      ⟨List.Subset.trans subset (List.subset_append_left _ _),
        List.subset_append_right _ _⟩
  hinted := by
    rw [effect.placesOf_eq, effect.hints]
    exact coherent.hinted.mono (List.subset_append_left _ _)
  owned := by
    intro segment member
    rw [effect.hints] at member
    exact progress.keeps.present (coherent.owned segment member)
  fresh := coherent.fresh.progress increasing coherent.active progress

/-- Reopening loads records that the hint files list, or all. -/
theorem fromDir (coherent : Coherent clock db world logs updates wal)
    {maxSegmentBytes : UInt64} {fsyncStrategy : FSyncStrategy}
    (reopened
      : KVEngine.fromDir maxSegmentBytes fsyncStrategy world = .ok (some next, after))
    : ∃ recovered, Coherent clock next after logs (updates ++ recovered) [] := by
  have filed := coherent.stored.filed
  obtain ⟨contributes, index, spec, loaded, tracks⟩ :=
    loadSegments_hinted filed coherent.hinted
  obtain ⟨other, later, recovered, again, active, finalFiled, finalTracks, -, emptied, hints,
    ticks, -, -⟩ :=
    fromDir_sound filed coherent.stored.logged coherent.stored.fits loaded tracks
      maxSegmentBytes fsyncStrategy
  obtain ⟨same, rfl⟩ := Prod.mk.inj (Except.ok.inj (again.symm.trans reopened))
  obtain rfl := Option.some.inj same
  have places : placesOf (logs ++ [(other.activeSegment, updates ++ recovered)])
      = placesOf (logs ++ [(db.activeSegment, updates)])
        ++ placesFrom db.activeSegment (Update.codec.encodeAll updates).length recovered := by
    simp [active, placesOf, placesFrom_append]
  have sameSegments (segment : Nat)
      : segment ∈ later.disk.segments ↔ segment ∈ world.disk.segments := by
    rw [SortedMap.mem_iff, ← SortedMap.mem_keys, finalFiled.keys, SortedMap.mem_iff,
      ← SortedMap.mem_keys, filed.keys]
    simp
  refine ⟨recovered, ⟨active ▸ finalFiled, emptied, by simp⟩, ⟨_, finalTracks, ?_⟩, ?_, ?_, ?_⟩
  · rw [places]
    refine List.append_subset.mpr ⟨?_, List.subset_append_right _ _⟩
    intro place shown
    obtain ⟨log, member, own⟩ := List.mem_flatMap.mp shown
    exact List.mem_append_left _
      (List.mem_flatMap.mpr ⟨log, member, (spec log member).subset own⟩)
  · rw [places, hints]
    exact coherent.hinted.mono (List.subset_append_left _ _)
  · intro segment member
    rw [hints] at member
    exact (sameSegments segment).mpr (coherent.owned segment member)
  · intro segment present
    rw [ticks]
    exact coherent.fresh segment ((sameSegments segment).mp present)

end Coherent

namespace Coheres

variable {clock : Nat → Nat} {db next : KVEngine} {world after : World}

theorem setWithTtl (increasing : StrictMono clock) (coheres : Coheres clock db world)
    {key value : String} {expiryMs : Option UInt64}
    (written : db.setWithTtl clock world key value expiryMs = .ok (next, after))
    : Coheres clock next after := by
  obtain ⟨logs, updates, wal, coherent⟩ := coheres
  obtain ⟨contents, represents⟩ := coherent.represents
  have fits := (KVEngine.setWithTtl_cases written).1
  obtain ⟨_, _, more, last, newWal, added, operations, again, effect⟩ :=
    KVEngine.setWithTtl_effect increasing.monotone coherent.stored coherent.bound fits expiryMs
  obtain ⟨rfl, rfl⟩ := Prod.mk.inj (Except.ok.inj (written.symm.trans again))
  obtain ⟨_, _, again, progress, -⟩ :=
    KVEngine.setWithTtl_sound clock represents coherent.active fits expiryMs
  obtain ⟨rfl, rfl⟩ := Prod.mk.inj (Except.ok.inj (written.symm.trans again))
  exact ⟨_, _, _, coherent.write increasing effect progress⟩

theorem delete (increasing : StrictMono clock) (coheres : Coheres clock db world)
    {key : String} {found : Bool}
    (deleted : db.delete world key = .ok (found, next, after))
    : Coheres clock next after := by
  obtain ⟨logs, updates, wal, coherent⟩ := coheres
  obtain ⟨contents, represents⟩ := coherent.represents
  have fits := (KVEngine.delete_cases deleted).1
  obtain ⟨_, _, _, last, newWal, added, operations, again, effect⟩ :=
    KVEngine.delete_effect coherent.stored coherent.bound fits
  obtain ⟨rfl, same⟩ := Prod.mk.inj (Except.ok.inj (deleted.symm.trans again))
  obtain ⟨rfl, rfl⟩ := Prod.mk.inj same
  obtain ⟨_, _, _, again, progress, -⟩ :=
    KVEngine.delete_sound clock represents coherent.active fits
  obtain ⟨-, same⟩ := Prod.mk.inj (Except.ok.inj (deleted.symm.trans again))
  obtain ⟨rfl, rfl⟩ := Prod.mk.inj same
  exact ⟨_, _, _, coherent.write increasing effect progress⟩

theorem compact (increasing : StrictMono clock) (coheres : Coheres clock db world)
    {order : IterOrder} {nowMs : UInt64} {copyMs : String → UInt64}
    (compacted : db.compact clock order world nowMs copyMs = .ok (next, after))
    : Coheres clock next after := by
  obtain ⟨logs, updates, wal, coherent⟩ := coheres
  obtain ⟨contents, represents⟩ := coherent.represents
  obtain ⟨_, _, again, keeping⟩ := compact_keeping increasing represents coherent.stored
    coherent.owned coherent.fresh order nowMs copyMs
  obtain ⟨rfl, rfl⟩ := Prod.mk.inj (Except.ok.inj (compacted.symm.trans again))
  exact keeping.coheres

end Coheres

/-- Every run is coherent, whatever its restarts find. -/
theorem coheres_of_trail {clock : Nat → Nat} (increasing : StrictMono clock)
    {Allowed : Event → KVEngine → World → Prop} {Reopens : UInt64 → KVEngine → World → Prop}
    {db : KVEngine} {world : World} (trail : Trail clock Allowed Reopens db world)
    : Coheres clock db world := by
  induction trail with
  | new maxSegmentBytes fsyncStrategy =>
      exact ((Reaches.new maxSegmentBytes fsyncStrategy).keeping increasing).coheres
  | @call db next world after event reply trail allowed handled ih =>
      obtain ⟨contents, represents⟩ := ih.choose_spec.choose_spec.choose_spec.represents
      cases KVEngine.handle_cases represents handled with
      | unchanged adds same sameWorld => exact same ▸ sameWorld ▸ ih
      | written adds items done =>
          refine foldlM_induction (motive := fun _ state => Coheres clock state.1 state.2) ?_
            ih done
          intro item rest state next coheres written
          exact coheres.setWithTtl increasing written
      | deleted key found call done => exact ih.delete increasing done
      | compacted order copyMs call done => exact ih.compact increasing done
  | reopen trail reopens reopened ih =>
      obtain ⟨logs, updates, wal, coherent⟩ := ih
      obtain ⟨recovered, now⟩ := coherent.fromDir reopened
      exact ⟨_, _, _, now⟩

-----------------------------------------------------------------------------------------
-- The engine a compaction fills
-----------------------------------------------------------------------------------------

/-- The replacement is coherent itself, behind the files of the start. -/
structure Replacing (clock : Nat → Nat) (db : KVEngine) (start : World) (newDb : KVEngine)
    (world : World)
    : Prop where
  coheres : Coheres clock newDb world
  grows : Grows start.disk world.disk
  apart : newDb.activeSegment ∉ start.disk.segments
  limit : newDb.maxSegmentBytes = db.maxSegmentBytes

namespace Replacing

variable {clock : Nat → Nat} {db newDb next : KVEngine} {start world after : World}

theorem new (increasing : StrictMono clock) (coheres : Coheres clock db start)
    : Replacing clock db start
        (KVEngine.new clock db.maxSegmentBytes db.fsyncStrategy start).1
        (KVEngine.new clock db.maxSegmentBytes db.fsyncStrategy start).2 := by
  obtain ⟨logs, updates, wal, coherent⟩ := coheres
  obtain ⟨contents, represents⟩ := coherent.represents
  have rebuilding := rebuilding_new increasing represents coherent.stored coherent.fresh
  have grows : Grows start.disk
      (KVEngine.new clock db.maxSegmentBytes db.fsyncStrategy start).2.disk :=
    .apply start.disk (.segmentCreate (clock start.ticks)) (by simp)
  refine ⟨⟨logs ++ [(db.activeSegment, updates)], [], wal, ?_⟩, grows,
    coherent.fresh.unused increasing _ le_rfl, rfl⟩
  refine {
    stored := by simpa using rebuilding.stored
    tracks := ⟨[], tracks_new, List.nil_subset _⟩
    hinted := ?_
    owned := ?_
    fresh := rebuilding.fresh
  }
  · rw [rebuilding.hints]
    refine coherent.hinted.mono ?_
    rw [placesOf_append (logs ++ [(db.activeSegment, updates)])]
    exact List.subset_append_left _ _
  · intro segment member
    rw [rebuilding.hints] at member
    obtain ⟨file, found⟩ :=
      (start.disk.segments.mem_iff _).mp (coherent.owned segment member)
    obtain ⟨more, kept⟩ := grows segment file found
    exact (SortedMap.mem_iff _ _).mpr ⟨_, kept⟩

/-- A value the growing files give was there at the start. -/
theorem get_start {contents : Contents}
    (represents : Represents db.index start.disk contents)
    (replacing : Replacing clock db start newDb world) {key : String} {nowMs : UInt64}
    {found : String × String} (read : db.get world key nowMs = .ok (some found))
    : db.get start key nowMs = .ok (some found) := by
  have lookup := represents.kvLookup db.activeSegment key nowMs
  obtain ⟨entry, -, -, -, held, live, -⟩ := KVEngine.get_eq_some.mp read
  cases stored : contents.read key nowMs with
  | none =>
      have absent : db.get start key nowMs = .ok none := by
        rw [KVEngine.get_eq_map, lookup, stored]
        rfl
      have expired := KVEngine.get_eq_none.mp absent entry held
      rw [live] at expired
      cases expired
  | some value =>
      have before : db.get start key nowMs = .ok (some (key, value)) := by
        rw [KVEngine.get_eq_map, lookup, stored]
        rfl
      have again := KVEngine.get_of_grows before replacing.grows (fun other otherHeld => by
        obtain rfl := Option.some.inj (held.symm.trans otherHeld)
        exact live)
      rw [before, ← again, read]

/-- Copying a key writes its record, or nothing where the key does not read. -/
theorem copyKey (increasing : StrictMono clock) {contents : Contents}
    (represents : Represents db.index start.disk contents)
    (replacing : Replacing clock db start newDb world) {copyMs : String → UInt64}
    {item : String × Option UInt64}
    (done
      : KVEngine.copyKey clock db newDb world item (copyMs item.1) = .ok (next, after))
    : Replacing clock db start next after
      ∧ ((KVEngine.copiedRecord db start copyMs item = none
            ∧ next = newDb
            ∧ after = world)
        ∨ ∃ record,
            KVEngine.copiedRecord db start copyMs item = some record
            ∧ record.WellFormed
            ∧ Written record newDb next world after) := by
  rcases KVEngine.copyKey_cases done with ⟨absent, rfl, rfl⟩ | ⟨value, read, written⟩
  · have unread : db.get start item.1 (copyMs item.1) = .ok none :=
      KVEngine.get_eq_none.mpr (KVEngine.get_eq_none.mp absent)
    exact ⟨replacing, Or.inl ⟨by simp [KVEngine.copiedRecord, unread], rfl, rfl⟩⟩
  · have before := replacing.get_start represents read
    obtain ⟨logs, updates, wal, coherent⟩ := replacing.coheres
    have change := KVEngine.setWithTtl_written coherent.active
      (coherent.fresh.unused increasing _ le_rfl) written
    have fits := (KVEngine.setWithTtl_cases written).1
    have apart : next.activeSegment ∉ start.disk.segments := by
      cases change with
      | stayed file present small active count files => exact active ▸ replacing.apart
      | rolled file present large new count files =>
          intro old
          obtain ⟨file, found⟩ := (SortedMap.mem_iff _ _).mp old
          obtain ⟨more, kept⟩ := replacing.grows _ file found
          exact new ((SortedMap.mem_iff _ _).mpr ⟨_, kept⟩)
    exact ⟨⟨replacing.coheres.setWithTtl increasing written,
        replacing.grows.trans (KVEngine.setWithTtl_grows written), apart,
        (KVEngine.setWithTtl_limit written).trans replacing.limit⟩,
      Or.inr ⟨_, by simp [KVEngine.copiedRecord, before], wellFormed_valueRecord fits item.2,
        change⟩⟩

end Replacing

end Rustikv.Kv

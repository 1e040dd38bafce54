import Rustikv.Lsm.Runs

/-! Reads of a leveled engine return the last write, unless a merge into the last level drops
a dead record whose older versions it keeps.
-/

namespace Rustikv.Lsm

open Library

namespace LsmEngine

/-- On a leveled engine: no merge into the last level that the call makes meets a key whose
first record is dead while a later one is live.
-/
def mergesSafely (engine : LsmEngine) (event : Event) : Bool :=
  match engine.strategy, event.call with
  | .leveled strategy, .compactStep => strategy.safeStep (event.clock 0)
  | .leveled _, .compact =>
      match engine.finishFlush (event.stamp 0) >>= fun flushed =>
        flushed.install (event.stamp 1) with
      | .ok installed =>
          installed.strategy.safeAll event.clock (fun i => event.stamp (i + 2))
      | .error _ => true
  | .leveled _, _ => true
  | .sizeTiered _, _ => false

theorem leveled_finishFlush {engine next : LsmEngine} {strategy : Leveled}
    (kind : engine.strategy = .leveled strategy) {timestamp : Nat}
    (done : engine.finishFlush timestamp = .ok next)
    : ∃ other, next.strategy = .leveled other := by
  unfold finishFlush at done
  split at done
  next memtable slot =>
    obtain ⟨sst, -, rest⟩ := bind_eq_ok.mp done
    obtain ⟨added, adds, rest⟩ := bind_eq_ok.mp rest
    obtain rfl := Except.ok.inj rest
    rw [kind] at adds
    obtain ⟨other, -, rest⟩ := bind_eq_ok.mp adds
    exact ⟨other, (Except.ok.inj rest).symm⟩
  next =>
    obtain rfl := Except.ok.inj done
    exact ⟨strategy, kind⟩

/-- A new table of a leveled engine is always read first. -/
theorem keeps_of_mergesSafely {engine : LsmEngine} {event : Event}
    (safe : engine.mergesSafely event = true) (key : String)
    : engine.keeps event key = true := by
  obtain ⟨call, clock, stamp, finishMs⟩ := event
  cases kind : engine.strategy with
  | sizeTiered strategy => simp [mergesSafely, kind] at safe
  | leveled strategy =>
      have front : engine.flushesInFront (stamp 0) key = true := by
        cases slot : engine.immutable <;>
          simp [flushesInFront, slot, StorageStrategy.addsInFront, kind]
      cases call with
      | compactStep => simpa [mergesSafely, keeps, flushes, kind] using safe
      | compact =>
          simp only [mergesSafely, kind] at safe
          simp only [keeps, front, Bool.or_true, Bool.true_and]
          split
          next flushed finished =>
            obtain ⟨other, leveled⟩ := leveled_finishFlush kind finished
            simp only [finished, ok_bind] at safe
            cases installs : flushed.install (stamp 1) with
            | error error => simp [StorageStrategy.addsInFront, leveled]
            | ok installed =>
                simpa [StorageStrategy.addsInFront, leveled, installs] using safe
          next => rfl
      | _ => simp [keeps, front]

end LsmEngine

/-- In every run of a leveled engine whose merges into the last level drop safely, a get
returns the last write of its key, unless that was a delete or has expired.
-/
theorem leveled_read_latest (numLevels l0Threshold l1MaxBytes maxMemtableBytes : Nat)
    (settings tableSettings : BlockSettings) {engine : LsmEngine} {written : Writes} {since : UInt64}
    (reached
      : Runs (fun engine event => event.call.fits && engine.mergesSafely event)
          (LsmEngine.new maxMemtableBytes
            (.leveled (Leveled.new numLevels l0Threshold l1MaxBytes tableSettings)) settings)
          engine written since)
    (key : String) (clock : Nat → UInt64) (starts : since ≤ clock 0)
    (order : clock 0 ≤ clock 1)
    : ∃ readMs,
        (readMs = clock 0 ∨ readMs = clock 1)
        ∧ engine.get key clock
          = .ok ((readAt (written key) readMs).map (fun value => (key, value))) := by
  obtain ⟨healthy, stands⟩ := reached.standsFor
    (LsmEngine.healthy_new
      (StorageStrategy.New.leveled numLevels l0Threshold l1MaxBytes tableSettings).sound _ _)
    (LsmEngine.version_new
      (StorageStrategy.New.leveled numLevels l0Threshold l1MaxBytes tableSettings).iterAll _
      _)
    (fun _ _ allowed => (Bool.and_eq_true_iff.mp allowed).1)
  have front := stands key (fun _ _ _ allowed =>
    LsmEngine.keeps_of_mergesSafely (Bool.and_eq_true_iff.mp allowed).2 key)
  exact LsmEngine.get_written healthy front clock starts order

/-- A call at one moment, with table names from `timestamp` on. -/
def Call.at (call : Call) (nowMs : UInt64) (timestamp : Nat) : Event :=
  {
    call
    clock := fun _ => nowMs
    stamp := fun i => timestamp + i
    finishMs := nowMs
  }

/-- One call after the other, each at one moment. -/
def script (calls : List (Call × UInt64 × Nat)) : List Event :=
  calls.map (fun item => item.1.at item.2.1 item.2.2)

def ordered : UInt64 → List (Call × UInt64 × Nat) → Bool
  | _, [] => true
  | since, item :: rest => since ≤ item.2.1 && ordered item.2.1 rest

theorem timelyFrom_script {since : UInt64} {calls : List (Call × UInt64 × Nat)}
    (increasing : ordered since calls = true)
    : TimelyFrom since (script calls) := by
  induction calls generalizing since with
  | nil => trivial
  | cons item rest ih =>
      simp only [ordered, Bool.and_eq_true, decide_eq_true_eq] at increasing
      refine ⟨?_, ih increasing.2⟩
      exact ⟨increasing.1, fun _ _ _ => UInt64.le_rfl, fun _ => UInt64.le_rfl⟩

/-- Witness: two flushed versions of a key are merged twice, the newer one expired in
between.
-/
theorem leveled_read_latest_expired
    : ∃ engine written,
        Runs (fun engine event => event.call.fits && engine.mergesSafely event)
          (LsmEngine.new 1000 (.leveled (Leveled.new 3 4 1000 smallBlocks)) smallBlocks)
          engine written 30
        ∧ engine.get "k" (fun _ => 30)
          = .ok ((readAt (written "k") 30).map (fun value => ("k", value))) := by
  let calls : List (Call × UInt64 × Nat) := [(.set "k" "v", 10, 0), (.flush, 10, 10),
    (.setWithTtl "k" "w" (some 20), 10, 20), (.compact, 30, 30), (.ttl "k" none, 30, 40)]
  have timely : TimelyFrom 0 (script calls) := timelyFrom_script (by decide)
  have computed : (run (fun engine event => event.call.fits && engine.mergesSafely event)
      (script calls)
      (LsmEngine.new 1000 (.leveled (Leveled.new 3 4 1000 smallBlocks)) smallBlocks)
      Writes.none).isSome = true := by
    decide +kernel
  obtain ⟨⟨engine, written⟩, ran⟩ := Option.isSome_iff_exists.mp computed
  have reached := Runs.start.run timely ran
  obtain ⟨readMs, rfl | rfl, found⟩ :=
    leveled_read_latest 3 4 1000 1000 smallBlocks smallBlocks reached "k"
      (fun _ => 30) (by decide) UInt64.le_rfl
  · exact ⟨engine, written, reached, found⟩
  · exact ⟨engine, written, reached, found⟩

/-- A flushed value, then a delete, then a full compaction. -/
def deleteThenCompact : List (Call × UInt64 × Nat) :=
  [(.set "k" "v", 10, 0), (.flush, 10, 10), (.delete "k", 10, 20), (.compact, 10, 30)]

/-- The merge into the last level drops the tombstone and keeps the value it shadowed: the
deleted key is back.
-/
theorem leveled_restores_deleted_value
    : ∃ engine written,
        Runs (fun _ event => event.call.fits)
          (LsmEngine.new 1000 (.leveled (Leveled.new 2 4 1000 smallBlocks)) smallBlocks)
          engine written 10
        ∧ readAt (written "k") 10 = none
        ∧ engine.get "k" (fun _ => 10) = .ok (some ("k", "v")) := by
  have timely : TimelyFrom 0 (script deleteThenCompact) := timelyFrom_script (by decide)
  have computed : (run (fun _ event => event.call.fits) (script deleteThenCompact)
      (LsmEngine.new 1000 (.leveled (Leveled.new 2 4 1000 smallBlocks)) smallBlocks)
      Writes.none).any
      (fun final =>
        readAt (final.2 "k") 10 = none
        && (final.1.get "k" (fun _ => 10)).toOption = some (some ("k", "v"))) = true := by
    decide +kernel
  simp only [Option.any_eq_true, toOption_eq_some, Bool.and_eq_true, decide_eq_true_eq]
    at computed
  obtain ⟨⟨engine, written⟩, ran, deleted, found⟩ := computed
  exact ⟨engine, written, Runs.start.run timely ran, deleted, found⟩

end Rustikv.Lsm

import Rustikv.Lsm.ReadLatest

/-! Reads of a size-tiered engine that never compacts return the last write as long as no
table is filed behind a bucket that holds the same key.
-/

namespace Rustikv.Lsm

open Library

namespace SizeTiered

def mayHold (key : String) (table : SSTable) : Bool :=
  table.bloom.mightContain key

/-- No table read before the new one may hold the key, if the new one may. -/
def InOrder (strategy : SizeTiered) (sst : SSTable) (key : String) : Prop :=
  mayHold key sst = true → ∀ table ∈ strategy.laterTables sst, mayHold key table = false

instance (strategy : SizeTiered) (sst : SSTable) (key : String)
    : Decidable (strategy.InOrder sst key) :=
  inferInstanceAs (Decidable (_ → _))

/-- Every table of the list is filed in order, one after the other. -/
def FiledInOrder (key : String) : SizeTiered → List SSTable → Prop
  | _, [] => True
  | strategy, sst :: rest =>
      strategy.InOrder sst key ∧ FiledInOrder key (strategy.addSstable sst) rest

def addAll (strategy : SizeTiered) (tables : List SSTable) : SizeTiered :=
  tables.foldl addSstable strategy

def iterForKey (strategy : SizeTiered) (key : String) : List SSTable :=
  strategy.iterAll.filter (mayHold key)

theorem version_of_not_mayHold {table : SSTable} (valid : table.Valid) {key : String}
    (absent : mayHold key table = false)
    : table.version key = none := by
  rw [SSTable.version_eq_none]
  rintro record member rfl
  have held := valid.mightContain member
  rw [← mayHold, absent] at held
  cases held

theorem FiledInFront.of_inOrder {strategy : SizeTiered} (sound : strategy.Sound)
    {sst : SSTable} (valid : sst.Valid) {key : String} (filed : strategy.InOrder sst key)
    : strategy.FiledInFront sst key := by
  cases held : mayHold key sst with
  | false => exact .inr (version_of_not_mayHold valid held)
  | true =>
      left
      rw [versionIn_eq_none]
      intro table member
      have later := List.mem_reverse.mp member
      obtain ⟨front, before, -⟩ := addSstable_split strategy sst
      exact version_of_not_mayHold (sound.valid table (by simp [before, later]))
        (filed held table later)

-----------------------------------------------------------------------------------------
-- The order of a lookup
-----------------------------------------------------------------------------------------

/-- Two members of a list without duplicates come in one order only. -/
theorem pair_order {items : List SSTable} (distinct : items.Nodup) {first second : SSTable}
    (before : [first, second].Sublist items) (after : [second, first].Sublist items)
    : False := by
  induction items with
  | nil => cases before
  | cons item rest ih =>
      obtain ⟨fresh, tail⟩ := List.nodup_cons.mp distinct
      cases before with
      | cons _ before =>
          cases after with
          | cons _ after => exact ih tail before after
          | cons_cons _ after => exact fresh (before.subset (by simp))
      | cons_cons _ before =>
          cases after with
          | cons _ after => exact fresh (after.subset (by simp))
          | cons_cons _ after => exact fresh (before.subset (by simp))

/-- Filing a table moves no other. -/
theorem iterForKey_sublist_addAll (strategy : SizeTiered) (tables : List SSTable)
    (key : String)
    : (strategy.iterForKey key).Sublist ((strategy.addAll tables).iterForKey key) := by
  induction tables generalizing strategy with
  | nil => exact List.Sublist.refl _
  | cons sst rest ih =>
      obtain ⟨front, before, after⟩ := addSstable_split strategy sst
      refine List.Sublist.trans ?_ (ih (strategy.addSstable sst))
      refine List.Sublist.filter _ ?_
      rw [iterAll, iterAll, before, after]
      exact ((List.Sublist.refl _).append (List.sublist_cons_self _ _)).reverse

theorem mem_addSstable {strategy : SizeTiered} {sst table : SSTable}
    : table ∈ (strategy.addSstable sst).sstables.flatten
      ↔ table = sst ∨ table ∈ strategy.sstables.flatten := by
  obtain ⟨front, before, after⟩ := addSstable_split strategy sst
  rw [before, after]
  simp only [List.mem_append, List.mem_cons]
  tauto

theorem iterForKey_addSstable {strategy : SizeTiered} {sst : SSTable} {key : String}
    (filed : strategy.InOrder sst key)
    : (strategy.addSstable sst).iterForKey key
      = [sst].filter (mayHold key) ++ strategy.iterForKey key := by
  obtain ⟨front, before, after⟩ := addSstable_split strategy sst
  rw [iterForKey, iterForKey, iterAll, iterAll, before, after]
  cases held : mayHold key sst with
  | false => simp [held, List.filter_append]
  | true =>
      have none : (strategy.laterTables sst).reverse.filter (mayHold key) = [] := by
        rw [List.filter_eq_nil_iff]
        intro table member
        rw [filed held table (List.mem_reverse.mp member)]
        exact Bool.false_ne_true
      simp [held, List.filter_append, none]

/-- Tables filed in order are visited from the newest to the oldest. -/
theorem iterForKey_of_filedInOrder {strategy : SizeTiered} (added : List SSTable)
    {tables : List SSTable} {key : String}
    (visited : strategy.iterForKey key = (added.filter (mayHold key)).reverse)
    (filed : FiledInOrder key strategy tables)
    : (strategy.addAll tables).iterForKey key
      = ((added ++ tables).filter (mayHold key)).reverse := by
  induction tables generalizing strategy added with
  | nil => simpa [addAll] using visited
  | cons sst rest ih =>
      have next : (strategy.addSstable sst).iterForKey key
          = ((added ++ [sst]).filter (mayHold key)).reverse := by
        rw [iterForKey_addSstable filed.1, visited, List.filter_append, List.reverse_append]
        congr 1
        cases held : mayHold key sst <;> simp [held]
      simpa [addAll] using ih (added ++ [sst]) next filed.2

/-- A table filed out of order is visited after an older one for good. Witness: the pair
keeps its place while tables are added, and the newest-first order has it the other way.
-/
theorem filedInOrder_of_iterForKey {strategy : SizeTiered} (added : List SSTable)
    {tables : List SSTable} {key : String} (members : ∀ table ∈ strategy.sstables.flatten, table ∈ added)
    (distinct : (added ++ tables).Nodup)
    (visited
      : (strategy.addAll tables).iterForKey key
        = ((added ++ tables).filter (mayHold key)).reverse)
    : FiledInOrder key strategy tables := by
  induction tables generalizing strategy added with
  | nil => trivial
  | cons sst rest ih =>
      refine ⟨?_, ?_⟩
      · intro held table later
        by_contra both
        rw [Bool.not_eq_false] at both
        obtain ⟨front, before, after⟩ := addSstable_split strategy sst
        have isAdded : table ∈ added := members table (by simp [before, later])
        have early : [table, sst].Sublist ((strategy.addSstable sst).iterForKey key) := by
          rw [iterForKey, iterAll, after, List.reverse_append, List.reverse_cons]
          have pair : [table, sst].Sublist
              ((strategy.laterTables sst).reverse ++ [sst] ++ front.reverse) :=
            ((List.singleton_sublist.mpr (List.mem_reverse.mpr later)).append
              (List.Sublist.refl [sst])).trans (List.sublist_append_left _ _)
          have kept := pair.filter (mayHold key)
          rwa [List.filter_cons_of_pos both, List.filter_cons_of_pos held,
            List.filter_nil] at kept
        have late : [sst, table].Sublist ((strategy.addAll (sst :: rest)).iterForKey key) := by
          rw [visited]
          have pair : [table, sst].Sublist (added ++ sst :: rest) :=
            (List.singleton_sublist.mpr isAdded).append
              (List.singleton_sublist.mpr (by simp))
          have kept := (pair.filter (mayHold key)).reverse
          rwa [List.filter_cons_of_pos both, List.filter_cons_of_pos held,
            List.filter_nil] at kept
        have unique : ((strategy.addAll (sst :: rest)).iterForKey key).Nodup := by
          rw [visited, List.nodup_reverse]
          exact distinct.filter _
        exact pair_order unique
          (early.trans (iterForKey_sublist_addAll (strategy.addSstable sst) rest key)) late
      · refine ih (added ++ [sst]) ?_ (by simpa using distinct)
          (by simpa [addAll] using visited)
        intro table member
        rcases mem_addSstable.mp member with rfl | old
        · simp
        · simp [members table old]

end SizeTiered

-----------------------------------------------------------------------------------------
-- Runs without compaction
-----------------------------------------------------------------------------------------

namespace LsmEngine

/-- The pending flush, if there is one, files its table in order. -/
def flushesInOrder (engine : LsmEngine) (timestamp : Nat) (key : String) : Bool :=
  match engine.strategy with
  | .sizeTiered strategy =>
      engine.immutable.all
        (fun memtable => strategy.InOrder (engine.tableFor memtable timestamp) key)
  | .leveled _ => false

/-- On a size-tiered engine: the call compacts nothing, and a flush it completes files its
table in order.
-/
def filesInOrder (engine : LsmEngine) (event : Event) (key : String) : Bool :=
  match event.call with
  | .compactStep => false
  | .compact => false
  | _ => !engine.flushes event || engine.flushesInOrder (event.stamp 0) key

theorem Healthy.flushesInFront {engine : LsmEngine} (healthy : engine.Healthy)
    {timestamp : Nat} {key : String}
    (filed : engine.flushesInOrder timestamp key = true)
    : engine.flushesInFront timestamp key = true := by
  unfold flushesInOrder at filed
  unfold LsmEngine.flushesInFront
  have sound := healthy.sound
  cases kind : engine.strategy with
  | leveled strategy => simp [kind] at filed
  | sizeTiered strategy =>
      simp only [kind] at filed sound
      cases slot : engine.immutable with
      | none => rfl
      | some memtable =>
          simp only [slot, Option.all_some, decide_eq_true_eq,
            StorageStrategy.addsInFront] at filed ⊢
          exact SizeTiered.FiledInFront.of_inOrder sound
            (SSTable.valid_fromMemtable _ _ (healthy.immutable memtable slot)) filed

theorem Healthy.keeps_of_filesInOrder {engine : LsmEngine} (healthy : engine.Healthy)
    {event : Event} {key : String} (filed : engine.filesInOrder event key = true)
    : engine.keeps event key = true := by
  obtain ⟨call, clock, stamp, finishMs⟩ := event
  have front (flush : (!engine.flushes ⟨call, clock, stamp, finishMs⟩
      || engine.flushesInOrder (stamp 0) key) = true)
      : (!engine.flushes ⟨call, clock, stamp, finishMs⟩
        || engine.flushesInFront (stamp 0) key) = true := by
    rw [Bool.or_eq_true] at flush ⊢
    exact flush.imp_right healthy.flushesInFront
  cases call with
  | compactStep => simp [filesInOrder] at filed
  | compact => simp [filesInOrder] at filed
  | _ =>
      simp only [keeps, Bool.and_true]
      exact front filed

end LsmEngine

/-- For each key, and however the sizes are rounded, `id` and `roundBinary64` included: a
size-tiered engine whose flushes file in order reads the last write, and the tables that may
hold the key are visited newest first exactly if they were filed in order.
-/
theorem size_tiered_read_latest (round : ℚ → ℚ)
    (minThreshold maxThreshold maxMemtableBytes : Nat)
    (settings tableSettings : BlockSettings) (key : String)
    : let strategy := { SizeTiered.new minThreshold maxThreshold tableSettings with round }
      (∀ engine written since,
        Runs (fun engine event => event.call.fits && engine.filesInOrder event key)
          (LsmEngine.new maxMemtableBytes (.sizeTiered strategy) settings)
          engine written since
        → ∀ clock : Nat → UInt64,
            since ≤ clock 0
            → clock 0 ≤ clock 1
            → ∃ readMs,
                (readMs = clock 0 ∨ readMs = clock 1)
                ∧ engine.get key clock
                  = .ok ((readAt (written key) readMs).map (fun value => (key, value))))
      ∧ ∀ added : List SSTable,
          added.Nodup
          → (StorageStrategy.iterForKey (.sizeTiered (strategy.addAll added)) key
              = (added.filter (fun sst => sst.bloom.mightContain key)).reverse
            ↔ SizeTiered.FiledInOrder key strategy added) := by
  intro strategy
  constructor
  · intro engine written since reached clock starts order
    have sound : StorageStrategy.Sound (.sizeTiered strategy) :=
      { SizeTiered.sound_new minThreshold maxThreshold tableSettings with }
    obtain ⟨healthy, stands⟩ := reached.standsFor (LsmEngine.healthy_new sound _ _)
      (LsmEngine.version_new rfl _ _)
      (fun _ _ allowed => (Bool.and_eq_true_iff.mp allowed).1)
    have front := stands key (fun _ _ healthy allowed =>
      healthy.keeps_of_filesInOrder (Bool.and_eq_true_iff.mp allowed).2)
    exact LsmEngine.get_written healthy front clock starts order
  · intro added distinct
    constructor
    · intro visited
      exact SizeTiered.filedInOrder_of_iterForKey [] (by simp [strategy, SizeTiered.new])
        distinct visited
    · intro filed
      exact SizeTiered.iterForKey_of_filedInOrder [] rfl filed

/-- Witness: a key is overwritten by a table of the same bucket, while a larger table holds
another key.
-/
theorem size_tiered_read_latest_same_bucket
    : ∃ engine written,
        Runs (fun engine event => event.call.fits && engine.filesInOrder event "k")
          (LsmEngine.new 1000 (.sizeTiered (SizeTiered.new 4 32 smallBlocks)) smallBlocks)
          engine written 10
        ∧ engine.get "k" (fun _ => 10)
          = .ok ((readAt (written "k") 10).map (fun value => ("k", value))) := by
  let calls : List (Call × UInt64 × Nat) := [(.set "k" "v", 10, 0), (.flush, 10, 10),
    (.background, 10, 20), (.set "other" "a value that needs a larger table", 10, 30),
    (.flush, 10, 40), (.background, 10, 50), (.set "k" "w", 10, 60), (.flush, 10, 70),
    (.background, 10, 80)]
  have timely : TimelyFrom 0 (script calls) := timelyFrom_script (by decide)
  have computed : (run
      (fun engine event => event.call.fits && engine.filesInOrder event "k") (script calls)
      (LsmEngine.new 1000 (.sizeTiered (SizeTiered.new 4 32 smallBlocks)) smallBlocks)
      Writes.none).isSome = true := by
    decide +kernel
  obtain ⟨⟨engine, written⟩, ran⟩ := Option.isSome_iff_exists.mp computed
  have reached := Runs.start.run timely ran
  obtain ⟨readMs, rfl | rfl, found⟩ :=
    (size_tiered_read_latest roundBinary64 4 32 1000 smallBlocks smallBlocks "k").1 engine
      written 10 reached (fun _ => 10) (by decide) UInt64.le_rfl
  · exact ⟨engine, written, reached, found⟩
  · exact ⟨engine, written, reached, found⟩

/-- A small table, a large one with the key, and a small one that overwrites it. -/
def overwriteAfterLarge : List (Call × UInt64 × Nat) :=
  [(.set "z" "v", 10, 0), (.flush, 10, 10), (.background, 10, 20), (.set "a" "v", 10, 30),
    (.set "b" "v", 10, 30), (.set "k" "v", 10, 30), (.flush, 10, 40), (.background, 10, 50),
    (.set "k" "w", 10, 60), (.flush, 10, 70), (.background, 10, 80)]

theorem reads_overwritten_of_run {strategy : SizeTiered}
    (computed
      : (run (fun _ event => event.call.fits) (script overwriteAfterLarge)
            (LsmEngine.new 1000 (.sizeTiered strategy) smallBlocks) Writes.none).any
          (fun final =>
            readAt (final.2 "k") 10 = some "w"
            && (final.1.get "k" (fun _ => 10)).toOption = some (some ("k", "v")))
        = true)
    : ∃ engine written,
        Runs (fun _ event => event.call.fits)
          (LsmEngine.new 1000 (.sizeTiered strategy) smallBlocks) engine written 10
        ∧ readAt (written "k") 10 = some "w"
        ∧ engine.get "k" (fun _ => 10) = .ok (some ("k", "v")) := by
  have timely : TimelyFrom 0 (script overwriteAfterLarge) := timelyFrom_script (by decide)
  simp only [Option.any_eq_true, toOption_eq_some, Bool.and_eq_true, decide_eq_true_eq]
    at computed
  obtain ⟨⟨engine, written⟩, ran, expected, found⟩ := computed
  exact ⟨engine, written, Runs.start.run timely ran, expected, found⟩

/-- The last table joins the first bucket and is read after the large one: the overwritten
value is back, in `f64` and with exact ratios.
-/
theorem size_tiered_reads_overwritten_value
    : (∃ engine written,
        Runs (fun _ event => event.call.fits)
          (LsmEngine.new 1000 (.sizeTiered (SizeTiered.new 4 32 smallBlocks)) smallBlocks)
          engine written 10
        ∧ readAt (written "k") 10 = some "w"
        ∧ engine.get "k" (fun _ => 10) = .ok (some ("k", "v")))
      ∧ ∃ engine written,
          Runs (fun _ event => event.call.fits)
            (LsmEngine.new 1000
              (.sizeTiered { SizeTiered.new 4 32 smallBlocks with round := id }) smallBlocks)
            engine written 10
          ∧ readAt (written "k") 10 = some "w"
          ∧ engine.get "k" (fun _ => 10) = .ok (some ("k", "v")) :=
  ⟨reads_overwritten_of_run (by decide +kernel), reads_overwritten_of_run (by decide +kernel)⟩

end Rustikv.Lsm

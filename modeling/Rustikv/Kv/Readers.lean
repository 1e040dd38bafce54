import Rustikv.Kv.Interleaving
import Rustikv.Kv.Refinement

/-! Reading calls beside a compaction, with no writer among them. A `get` reads the clock,
clones the active segment under its lock, and resolves the key under the index lock, which
it holds while it reads the segment file.
-/

namespace Rustikv.Kv

open Library

-----------------------------------------------------------------------------------------
-- Readers and their steps
-----------------------------------------------------------------------------------------

inductive ReadCall
  | get (key : String)
  | mget (keys : List String)
  deriving DecidableEq, Repr

namespace ReadCall

def keys : ReadCall → List String
  | .get key => [key]
  | .mget keys => keys

/-- What the call returns once every key is read. -/
def reply (found : List (String × Option String)) : ReadCall → Reply
  | .get _ =>
      .value (found.head?.bind (fun item => item.2.map (fun value => (item.1, value))))
  | .mget _ => .values found

end ReadCall

/-- Where the `get` of the next key stands. -/
inductive ReadPhase
  | called
  | timed (nowMs : UInt64)
  | located (nowMs : UInt64) (activeSegment : Nat)
  deriving DecidableEq, Repr

structure Reader where
  call : ReadCall
  startMs : UInt64
  found : List (String × Option String)
  rest : List String
  phase : ReadPhase
  deriving DecidableEq, Repr

/-- A call that has returned. -/
structure Answer where
  call : ReadCall
  startMs : UInt64
  finishMs : UInt64
  result : Except IoError Reply

/-- The engine with its compaction, the readers, and the answers given so far. -/
structure ReadSystem where
  system : System
  readers : SortedMap Nat Reader
  answers : List Answer

inductive ReadAction
  | other (action : Action)
  | call (thread : Nat) (call : ReadCall)
  | readClock (thread : Nat)
  | cloneSegment (thread : Nat)
  | lookup (thread : Nat)
  | finish (thread : Nat)

/-- Steps of the compaction, and the passing of time. -/
def Action.compacts : Action → Bool
  | .tick _ => true
  | .listSegments => true
  | .openNew => true
  | .snapshot _ _ => true
  | .copy _ => true
  | .hints _ => true
  | .swap => true
  | .remove => true
  | _ => false

namespace ReadSystem

def start (db : KVEngine) (world : World) : ReadSystem :=
  { system := System.start db world, readers := ∅, answers := [] }

def setReader (state : ReadSystem) (thread : Nat) (reader : Reader) : ReadSystem :=
  { state with readers := state.readers.insert thread reader }

def answer (state : ReadSystem) (thread : Nat) (reader : Reader)
    (result : Except IoError Reply)
    : ReadSystem :=
  {
    state with
    readers := state.readers.erase thread
    answers :=
      state.answers
      ++ [{
          call := reader.call
          startMs := reader.startMs
          finishMs := state.system.timeMs
          result
        }]
  }

/-- The lookup of `get` under the index lock. An error ends the call. -/
def lookup (state : ReadSystem) (thread : Nat) (reader : Reader) (key : String)
    (rest : List String) (nowMs : UInt64) (activeSegment : Nat)
    : ReadSystem :=
  match kvLookup state.system.db.index state.system.world.disk activeSegment key nowMs with
  | .error error => state.answer thread reader (.error error)
  | .ok value =>
      state.setReader thread {
        reader with
        found := reader.found ++ [(key, value)]
        rest
        phase := .called
      }

def step (clock : Nat → Nat) (state : ReadSystem) : ReadAction → Except Refusal ReadSystem
  | .other action =>
      if action.compacts then do
        let system ← state.system.step clock action
        return { state with system }
      else
        .error .disabled
  | .call thread call =>
      match state.readers[thread]? with
      | none =>
          .ok (state.setReader thread {
            call
            startMs := state.system.timeMs
            found := []
            rest := call.keys
            phase := .called
          })
      | some _ => .error .disabled
  | .readClock thread =>
      match state.readers[thread]? with
      | some reader =>
          if reader.phase = .called then
            .ok (state.setReader thread { reader with phase := .timed state.system.timeMs })
          else
            .error .disabled
      | none => .error .disabled
  | .cloneSegment thread =>
      match state.readers[thread]? with
      | some reader =>
          match reader.phase with
          | .timed nowMs =>
              .ok (state.setReader thread
                { reader with phase := .located nowMs state.system.db.activeSegment })
          | _ => .error .disabled
      | none => .error .disabled
  | .lookup thread =>
      match state.readers[thread]? with
      | some reader =>
          match reader.phase, reader.rest with
          | .located nowMs activeSegment, key :: rest =>
              .ok (state.lookup thread reader key rest nowMs activeSegment)
          | _, _ => .error .disabled
      | none => .error .disabled
  | .finish thread =>
      match state.readers[thread]? with
      | some reader =>
          if reader.rest = [] then
            .ok (state.answer thread reader (.ok (reader.call.reply reader.found)))
          else
            .error .disabled
      | none => .error .disabled

end ReadSystem

/-- The states that readers and compactions lead to, from an engine that holds
`contents`.
-/
inductive Reads (clock : Nat → Nat) (contents : Contents) : ReadSystem → Prop
  | start {db : KVEngine} {world : World} (usable : Usable clock db world contents)
    : Reads clock contents (ReadSystem.start db world)
  | step {state next : ReadSystem} {action : ReadAction}
      (reached : Reads clock contents state)
      (taken : state.step clock action = .ok next)
    : Reads clock contents next

-----------------------------------------------------------------------------------------
-- What readers have seen
-----------------------------------------------------------------------------------------

/-- The item read for the key is what the map shows at some moment of the interval. -/
def Contents.ReadBetween (contents : Contents) (start finish : UInt64) (key : String)
    (item : String × Option String)
    : Prop :=
  item.1 = key ∧ ∃ readMs, start ≤ readMs ∧ readMs ≤ finish ∧ item.2 = contents.read key readMs

/-- The call succeeded, and each key was read at some moment of the call. -/
def Answer.Correct (contents : Contents) (answer : Answer) : Prop :=
  ∃ found,
    answer.result = .ok (answer.call.reply found)
    ∧ List.Forall₂ (contents.ReadBetween answer.startMs answer.finishMs) answer.call.keys
        found

/-- The clock reading of the current `get` was taken during the call. -/
def ReadPhase.Within (start finish : UInt64) : ReadPhase → Prop
  | .called => True
  | .timed nowMs => start ≤ nowMs ∧ nowMs ≤ finish
  | .located nowMs _ => start ≤ nowMs ∧ nowMs ≤ finish

/-- What a reader has found so far is correct at the given time. -/
structure Reader.Correct (contents : Contents) (timeMs : UInt64) (reader : Reader)
    : Prop where
  started : reader.startMs ≤ timeMs
  phase : reader.phase.Within reader.startMs timeMs
  found
    : ∃ done,
        reader.call.keys = done ++ reader.rest
        ∧ List.Forall₂ (contents.ReadBetween reader.startMs timeMs) done reader.found

/-- The engine is consistent with the map, and so are all readers and answers. -/
structure ReadSystem.Correct (clock : Nat → Nat) (contents : Contents) (state : ReadSystem)
    : Prop where
  consistent : state.system.Consistent clock contents
  readers
    : ∀ (thread : Nat) reader,
        state.readers[thread]? = some reader
        → reader.Correct contents state.system.timeMs
  answers : ∀ answer ∈ state.answers, answer.Correct contents

theorem Contents.ReadBetween.later {contents : Contents} {start finish later : UInt64}
    {key : String} {item : String × Option String}
    (between : contents.ReadBetween start finish key item) (order : finish ≤ later)
    : contents.ReadBetween start later key item := by
  obtain ⟨same, readMs, low, high, value⟩ := between
  exact ⟨same, readMs, low, UInt64.le_trans high order, value⟩

theorem Reader.Correct.later {contents : Contents} {timeMs later : UInt64} {reader : Reader}
    (correct : reader.Correct contents timeMs) (order : timeMs ≤ later)
    : reader.Correct contents later := by
  obtain ⟨started, phase, done, split, found⟩ := correct
  refine ⟨UInt64.le_trans started order, ?_, done, split,
    found.imp (fun _ _ between => between.later order)⟩
  cases held : reader.phase with
  | called => trivial
  | timed nowMs =>
      rw [held] at phase
      exact ⟨phase.1, UInt64.le_trans phase.2 order⟩
  | located nowMs activeSegment =>
      rw [held] at phase
      exact ⟨phase.1, UInt64.le_trans phase.2 order⟩

/-- A lookup in a consistent system succeeds, whichever segment the reader takes for the
active one. It shows the map at the reader's time or, if the compaction has dropped the key,
at the present.
-/
theorem System.Consistent.lookup {clock : Nat → Nat} {system : System} {contents : Contents}
    (consistent : system.Consistent clock contents) (activeSegment : Nat) (key : String)
    (nowMs : UInt64)
    : ∃ readMs,
        (readMs = nowMs ∨ readMs = system.timeMs)
        ∧ kvLookup system.db.index system.world.disk activeSegment key nowMs
          = .ok (contents.read key readMs) := by
  obtain ⟨stored, usable, trims, -⟩ := consistent
  rw [usable.represents.kvLookup activeSegment key nowMs]
  rcases trims key with same | ⟨dropped, expired⟩
  · exact ⟨nowMs, Or.inl rfl, by simp [Contents.read, same]⟩
  · exact ⟨system.timeMs, Or.inr rfl, by rw [expired]; simp [Contents.read, dropped]⟩

namespace Action

variable {clock : Nat → Nat} {system next : System} {action : Action}

theorem after_of_compacts (compacts : action.compacts = true) (contents : Contents)
    : contents.after system action = contents := by
  cases action <;> first | rfl | simp [Action.compacts] at compacts

theorem undisturbed_of_compacts (compacts : action.compacts = true)
    : system.undisturbed action = true := by
  cases action <;> first | rfl | simp [Action.compacts] at compacts

/-- Time does not run backwards. -/
theorem timeMs_of_compacts (compacts : action.compacts = true)
    (taken : system.step clock action = .ok next)
    : system.timeMs ≤ next.timeMs := by
  cases action with
  | tick later =>
      simp only [System.step] at taken
      split at taken
      · rename_i order
        obtain rfl := Except.ok.inj taken
        exact order
      · cases taken
  | append _ _ _ _ => simp [Action.compacts] at compacts
  | ttl _ _ _ _ => simp [Action.compacts] at compacts
  | finish _ => simp [Action.compacts] at compacts
  | deleteWal _ _ => simp [Action.compacts] at compacts
  | deleteIndex _ => simp [Action.compacts] at compacts
  | deleteRecord _ => simp [Action.compacts] at compacts
  | _ =>
      -- every other step of the compaction leaves the time alone
      have same : next.timeMs = system.timeMs := by
        simp only [System.step] at taken
        repeat' split at taken
        all_goals first | cases taken; rfl | cases taken
      exact same ▸ UInt64.le_rfl

end Action

namespace ReadSystem

variable {clock : Nat → Nat} {contents : Contents} {state next : ReadSystem}

theorem Correct.setReader (correct : state.Correct clock contents) (thread : Nat)
    {reader : Reader} (good : reader.Correct contents state.system.timeMs)
    : (state.setReader thread reader).Correct clock contents where
  consistent := correct.consistent
  readers other held present := by
    simp only [ReadSystem.setReader, SortedMap.getElem?_insert] at present
    split at present
    · obtain rfl := Option.some.inj present
      exact good
    · exact correct.readers other held present
  answers := correct.answers

theorem Correct.answer (correct : state.Correct clock contents) (thread : Nat)
    {reader : Reader} {result : Except IoError Reply}
    (good
      : (Answer.mk reader.call reader.startMs state.system.timeMs result).Correct contents)
    : (state.answer thread reader result).Correct clock contents where
  consistent := correct.consistent
  readers other held present := by
    simp only [ReadSystem.answer, SortedMap.getElem?_erase] at present
    split at present
    · cases present
    · exact correct.readers other held present
  answers answer member := by
    rcases List.mem_append.mp member with old | new
    · exact correct.answers answer old
    · rw [List.mem_singleton.mp new]
      exact good

/-- The lookup of the next key adds a correct item. -/
theorem Correct.lookup (correct : state.Correct clock contents) {thread : Nat}
    {reader : Reader} {key : String} {rest : List String} {nowMs : UInt64}
    {activeSegment : Nat} (present : state.readers[thread]? = some reader)
    (phase : reader.phase = .located nowMs activeSegment) (next : reader.rest = key :: rest)
    : (state.lookup thread reader key rest nowMs activeSegment).Correct clock contents := by
  obtain ⟨started, within, done, split, found⟩ := correct.readers thread reader present
  rw [phase] at within
  obtain ⟨readMs, moment, read⟩ :=
    correct.consistent.lookup activeSegment key nowMs
  have between : contents.ReadBetween reader.startMs state.system.timeMs key
      (key, contents.read key readMs) := by
    refine ⟨rfl, readMs, ?_, ?_, rfl⟩
    · rcases moment with rfl | rfl
      · exact within.1
      · exact started
    · rcases moment with rfl | rfl
      · exact within.2
      · exact UInt64.le_rfl
  rw [ReadSystem.lookup, read]
  refine correct.setReader thread ⟨started, trivial, done ++ [key], ?_, ?_⟩
  · rw [List.append_assoc, List.singleton_append, ← next]
    exact split
  · exact List.rel_append found (.cons between .nil)

/-- Every step keeps readers and answers correct. -/
theorem Correct.step (injective : Function.Injective clock)
    (correct : state.Correct clock contents) {action : ReadAction}
    (taken : state.step clock action = .ok next)
    : next.Correct clock contents := by
  cases action with
  | other action =>
      simp only [ReadSystem.step] at taken
      split at taken
      · rename_i compacts
        obtain ⟨system, moved, rest⟩ := bind_eq_ok.mp taken
        obtain rfl := Except.ok.inj rest
        have kept := correct.consistent.step injective
          (Action.undisturbed_of_compacts compacts) moved
        rw [Action.after_of_compacts compacts] at kept
        have later := Action.timeMs_of_compacts compacts moved
        exact ⟨kept,
          fun thread reader present => (correct.readers thread reader present).later later,
          correct.answers⟩
      · cases taken
  | call thread call =>
      simp only [ReadSystem.step] at taken
      split at taken
      · obtain rfl := Except.ok.inj taken
        exact correct.setReader thread ⟨UInt64.le_rfl, trivial, [], rfl, .nil⟩
      · cases taken
  | readClock thread =>
      simp only [ReadSystem.step] at taken
      split at taken
      · rename_i reader present
        split at taken
        · obtain rfl := Except.ok.inj taken
          obtain ⟨started, -, found⟩ := correct.readers thread reader present
          exact correct.setReader thread ⟨started, ⟨started, UInt64.le_rfl⟩, found⟩
        · cases taken
      · cases taken
  | cloneSegment thread =>
      simp only [ReadSystem.step] at taken
      split at taken
      · rename_i reader present
        split at taken
        · rename_i nowMs phase
          obtain rfl := Except.ok.inj taken
          obtain ⟨started, within, found⟩ := correct.readers thread reader present
          rw [phase] at within
          exact correct.setReader thread ⟨started, within, found⟩
        · cases taken
      · cases taken
  | lookup thread =>
      simp only [ReadSystem.step] at taken
      split at taken
      · rename_i reader present
        split at taken
        · rename_i nowMs activeSegment key rest phase next
          obtain rfl := Except.ok.inj taken
          exact correct.lookup present phase next
        · cases taken
      · cases taken
  | finish thread =>
      simp only [ReadSystem.step] at taken
      split at taken
      · rename_i reader present
        split at taken
        · rename_i finished
          obtain rfl := Except.ok.inj taken
          obtain ⟨-, -, done, split, found⟩ := correct.readers thread reader present
          refine correct.answer thread ⟨reader.found, rfl, ?_⟩
          rw [split, finished, List.append_nil]
          exact found
        · cases taken
      · cases taken

end ReadSystem

theorem Reads.correct {clock : Nat → Nat} (injective : Function.Injective clock)
    {contents : Contents} {state : ReadSystem} (reached : Reads clock contents state)
    : state.Correct clock contents := by
  induction reached with
  | start usable =>
      refine ⟨⟨_, usable, fun _ => Or.inl rfl, trivial⟩, ?_, by simp [ReadSystem.start]⟩
      intro thread reader present
      simp [ReadSystem.start] at present
  | step _ taken correct => exact correct.step injective taken

/-- In every interleaving of reading calls with compactions, every call that has returned
succeeded, and each of its keys reads as the map does at some moment of the call.
-/
theorem reads_during_compaction {clock : Nat → Nat} (injective : Function.Injective clock)
    {contents : Contents} {state : ReadSystem} (reached : Reads clock contents state)
    {answer : Answer} (given : answer ∈ state.answers)
    : answer.Correct contents :=
  (reached.correct injective).answers answer given

namespace ReadSystem

def run (clock : Nat → Nat) (actions : List ReadAction) (state : ReadSystem)
    : Except Refusal ReadSystem :=
  actions.foldlM (fun state action => state.step clock action) state

theorem reads_run {clock : Nat → Nat} {contents : Contents} {actions : List ReadAction}
    {state final : ReadSystem} (reached : Reads clock contents state)
    (ran : run clock actions state = .ok final)
    : Reads clock contents final := by
  unfold run at ran
  induction actions generalizing state with
  | nil =>
      obtain rfl := Except.ok.inj ran
      exact reached
  | cons action rest ih =>
      rw [List.foldlM_cons] at ran
      obtain ⟨next, taken, others⟩ := bind_eq_ok.mp ran
      exact ih (reached.step taken) others

end ReadSystem

/-- A reader clones the active segment before a compaction swaps the engine's and removes
that file, and reads its key afterwards.
-/
def readAcrossSwap : List ReadAction :=
  [
    .call 0 (.get "k"),
    .readClock 0,
    .cloneSegment 0,
    .other .listSegments,
    .other .openNew,
    .other (.snapshot .stored 0),
    .other (.copy 0),
    .other (.hints .stored),
    .other .swap,
    .other .remove,
    .other .remove,
    .lookup 0,
    .finish 0
  ]

/-- Witness: the reader whose segment is gone gets the value. -/
theorem reads_during_compaction_across_swap
    : ∃ state,
        ∃ answer ∈ state.answers,
          Reads id (Contents.empty.set "k" "v" none) state
          ∧ (0 ∉ state.system.world.disk.segments)
          ∧ answer.call = .get "k"
          ∧ answer.Correct (Contents.empty.set "k" "v" none) := by
  obtain ⟨db, world, written, ready⟩ :=
    (ready_initial strictMono_id 100 .never).setWithTtl strictMono_id
      (by decide : Record.Fits "k" "v") none
  have computed : ((KVEngine.new id 100 .never .initial).1.setWithTtl id
      (KVEngine.new id 100 .never .initial).2 "k" "v" none).toOption.any
      (fun made =>
        (ReadSystem.run id readAcrossSwap
          (ReadSystem.start made.1 made.2)).toOption.any
          (fun final =>
            final.answers.any (fun answer => answer.call = .get "k")
            && decide (0 ∉ final.system.world.disk.segments))) = true := by
    decide +kernel
  simp only [Option.any_eq_true, toOption_eq_some, Bool.and_eq_true, List.any_eq_true,
    decide_eq_true_eq] at computed
  obtain ⟨made, again, final, ran, ⟨answer, given, call⟩, gone⟩ := computed
  obtain rfl := Except.ok.inj (written.symm.trans again)
  have reached := ReadSystem.reads_run (.start (ready.usable strictMono_id)) ran
  exact ⟨final, answer, given, reached, gone, call,
    reads_during_compaction strictMono_id.injective reached given⟩

end Rustikv.Kv

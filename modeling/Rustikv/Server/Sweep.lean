import Rustikv.Server.EventLoop

/-! The sweep for idle connections. One timer at a time drives it, so that a connection is
dropped soon after its time is up, and not before.
-/

namespace Rustikv.Server.EventLoop

open Library

-----------------------------------------------------------------------------------------
-- What a sweep leaves
-----------------------------------------------------------------------------------------

/-- The connection is in the map or being handled. -/
def Has (loop : EventLoop) (entry : Entry) : Prop :=
  (∃ token : Nat, loop.handler.conns[token]? = some entry)
  ∨ ∃ handling, loop.handling = some handling ∧ handling.entry = entry

theorem mem_stale {loop : EventLoop} {timeout token : Nat}
    : token ∈ loop.stale timeout
      ↔ ∃ entry,
          loop.handler.conns[token]? = some entry
          ∧ timeout < loop.nowMs - entry.lastActivity := by
  simp only [stale, List.mem_map, List.mem_filter, decide_eq_true_eq, Prod.exists]
  constructor
  · rintro ⟨key, entry, ⟨member, idle⟩, rfl⟩
    exact ⟨entry, (SortedMap.mem_toList _ _ _).mp member, idle⟩
  · rintro ⟨entry, found, idle⟩
    exact ⟨token, entry, ⟨(SortedMap.mem_toList _ _ _).mpr found, idle⟩, rfl⟩

/-- Only the map of connections is touched. -/
structure Same (loop next : EventLoop) : Prop where
  registry : next.registry = loop.registry
  nowMs : next.nowMs = loop.nowMs
  handling : next.handling = loop.handling
  readTimeout : next.handler.readTimeout = loop.handler.readTimeout
  sweepTimer : next.handler.sweepTimer = loop.handler.sweepTimer

theorem Same.trans {first second third : EventLoop} (front : first.Same second)
    (back : second.Same third)
    : first.Same third :=
  ⟨back.registry.trans front.registry, back.nowMs.trans front.nowMs,
    back.handling.trans front.handling, back.readTimeout.trans front.readTimeout,
    back.sweepTimer.trans front.sweepTimer⟩

theorem sweep_same (loop : EventLoop) (token : Nat) : loop.Same (loop.sweep token) := by
  unfold sweep
  split <;> exact ⟨rfl, rfl, rfl, rfl, rfl⟩

theorem sweepAll_same (loop : EventLoop) (tokens : List Nat)
    : loop.Same (tokens.foldl sweep loop) := by
  induction tokens generalizing loop with
  | nil => exact ⟨rfl, rfl, rfl, rfl, rfl⟩
  | cons token tokens ih => exact (sweep_same loop token).trans (ih (loop.sweep token))

theorem register_same (loop : EventLoop) (stream : Nat) (registers : Bool)
    : loop.Same (loop.register stream registers) := by
  unfold register
  dsimp only
  split <;> exact ⟨rfl, rfl, rfl, rfl, rfl⟩

theorem registerAll_same (streams : List Nat) (registers : List Bool) (loop : EventLoop)
    : loop.Same (registerAll streams registers loop) := by
  induction streams generalizing registers loop with
  | nil => exact ⟨rfl, rfl, rfl, rfl, rfl⟩
  | cons stream streams ih =>
      exact (register_same loop stream (registers.headD true)).trans (ih registers.tail _)

theorem conns_sweep (loop : EventLoop) (token other : Nat)
    : (loop.sweep token).handler.conns[other]?
      = if token = other then none else loop.handler.conns[other]? := by
  unfold sweep
  cases found : loop.handler.conns[token]? with
  | none =>
      dsimp only
      split
      · rename_i same
        rw [← same, found]
      · rfl
  | some entry => simp [setConns, note]

theorem conns_sweepAll (loop : EventLoop) (tokens : List Nat) (other : Nat)
    : (tokens.foldl sweep loop).handler.conns[other]?
      = if other ∈ tokens then none else loop.handler.conns[other]? := by
  induction tokens generalizing loop with
  | nil => simp
  | cons token tokens ih =>
      rw [List.foldl_cons, ih, conns_sweep]
      by_cases later : other ∈ tokens
      · simp [later]
      · by_cases here : token = other
        · simp [here]
        · simp [later, here, Ne.symm here]

/-- What a sweep leaves has not been idle for longer than the timeout. -/
theorem conns_swept {loop : EventLoop} {timeout token : Nat} {entry : Entry}
    (left : ((loop.stale timeout).foldl sweep loop).handler.conns[token]? = some entry)
    : loop.handler.conns[token]? = some entry
      ∧ loop.nowMs ≤ entry.lastActivity + timeout := by
  rw [conns_sweepAll] at left
  split at left
  · cases left
  · rename_i active
    refine ⟨left, ?_⟩
    have awake : ¬ timeout < loop.nowMs - entry.lastActivity :=
      fun idle => active (mem_stale.mpr ⟨entry, left, idle⟩)
    omega

-----------------------------------------------------------------------------------------
-- Streams that are registered
-----------------------------------------------------------------------------------------

/-- A connection is new or was there before. -/
theorem conns_registerAll {streams : List Nat} {registers : List Bool} {loop : EventLoop}
    {token : Nat} {entry : Entry}
    (found : (registerAll streams registers loop).handler.conns[token]? = some entry)
    : loop.handler.conns[token]? = some entry ∨ entry.lastActivity = loop.nowMs := by
  induction streams generalizing registers loop with
  | nil => exact .inl found
  | cons stream streams ih =>
      have one := register_same loop stream (registers.headD true)
      rcases ih found with earlier | now
      · unfold register at earlier
        dsimp only at earlier
        split at earlier
        · rw [SortedMap.getElem?_insert] at earlier
          split at earlier
          · obtain rfl := Option.some.inj earlier
            exact .inr rfl
          · exact .inl earlier
        · exact .inl earlier
      · exact .inr (now.trans one.nowMs)

-----------------------------------------------------------------------------------------
-- The sweep timer
-----------------------------------------------------------------------------------------

/-- One timer is pending, it fires soon enough for every connection, and the clock has not
run far past it. Before the first stream arrives there is none.
-/
structure Watched (timeout delay : Nat) (loop : EventLoop) : Prop where
  readTimeout : loop.handler.readTimeout = some timeout
  timer
    : (loop.handler.sweepTimer = none
        ∧ loop.registry.timers = []
        ∧ ∀ entry, ¬ loop.Has entry)
      ∨ ∃ timerId deadline,
          loop.handler.sweepTimer = some timerId
          ∧ loop.registry.timers = [(timerId, deadline)]
          ∧ deadline ≤ loop.nowMs + sweepInterval
          ∧ loop.nowMs ≤ deadline + delay
          ∧ ∀ entry,
              loop.Has entry
              → deadline ≤ entry.lastActivity + timeout + sweepInterval

/-- The loop does not let its timers wait for longer than this delay. -/
def onTime (delay : Nat) (loop : EventLoop) : LoopAction → Bool
  | .tick laterMs => loop.registry.timers.all (fun timer => laterMs ≤ timer.2 + delay)
  | _ => true

def punctual (delay : Nat) (loop : EventLoop) : List LoopAction → Bool
  | [] => true
  | action :: actions =>
      loop.onTime delay action
      && (loop.step action).all (fun next => next.punctual delay actions)

section Watching

variable {timeout delay : Nat} {loop next : EventLoop}

/-- There is a timer as soon as there is a connection. -/
theorem Watched.awake (watched : loop.Watched timeout delay) {entry : Entry}
    (has : loop.Has entry)
    : loop.handler.sweepTimer ≠ none := by
  intro off
  rcases watched.timer with ⟨-, -, nothing⟩ | ⟨timerId, deadline, on, -⟩
  · exact nothing entry has
  · cases off.symm.trans on

/-- A change of connections that makes none of them less active. -/
theorem Watched.change (watched : loop.Watched timeout delay)
    (registry : next.registry = loop.registry) (nowMs : next.nowMs = loop.nowMs)
    (readTimeout : next.handler.readTimeout = loop.handler.readTimeout)
    (sweepTimer : next.handler.sweepTimer = loop.handler.sweepTimer)
    (active
      : ∀ entry,
          next.Has entry
          → (∃ before, loop.Has before ∧ before.lastActivity = entry.lastActivity)
            ∨ (loop.handler.sweepTimer ≠ none ∧ loop.nowMs ≤ entry.lastActivity))
    : next.Watched timeout delay := by
  refine ⟨readTimeout.trans watched.readTimeout, ?_⟩
  rw [sweepTimer, registry, nowMs]
  rcases watched.timer with
    ⟨off, none, nothing⟩
    | ⟨timerId, deadline, on, one, soon, late, all⟩
  · refine .inl ⟨off, none, fun entry has => ?_⟩
    rcases active entry has with ⟨before, had, -⟩ | ⟨on, -⟩
    · exact nothing before had
    · exact on off
  · refine .inr ⟨timerId, deadline, on, one, soon, late, fun entry has => ?_⟩
    rcases active entry has with ⟨before, had, same⟩ | ⟨-, now⟩
    · exact same ▸ all before had
    · omega

theorem watched_startSweeping (readTimeout : loop.handler.readTimeout = some timeout)
    (idle : loop.registry.timers = [])
    (active : ∀ entry, loop.Has entry → loop.nowMs ≤ entry.lastActivity + timeout)
    : loop.startSweeping.Watched timeout delay := by
  unfold startSweeping
  rw [readTimeout]
  refine ⟨readTimeout, .inr ⟨loop.registry.nextTimer, loop.nowMs + sweepInterval, rfl, ?_,
    Nat.le_refl _, ?_, fun entry has => ?_⟩⟩
  · simp [Registry.insertTimer, idle]
  · change loop.nowMs ≤ loop.nowMs + sweepInterval + delay
    omega
  · have recent := active entry has
    omega

theorem Watched.onWake (watched : loop.Watched timeout delay) (free : loop.handling = none)
    (registers : List Bool)
    : (loop.onWake registers).Watched timeout delay := by
  have taking {started : EventLoop} (watched : started.Watched timeout delay)
      (awake : started.handler.sweepTimer ≠ none) (free : started.handling = none)
      : (registerAll started.handler.incoming registers
          { started with handler := { started.handler with incoming := [] } }).Watched
          timeout delay := by
    let emptied : EventLoop :=
      { started with handler := { started.handler with incoming := [] } }
    have same := registerAll_same started.handler.incoming registers emptied
    refine watched.change same.registry same.nowMs same.readTimeout same.sweepTimer
      (fun entry has => ?_)
    rcases has with ⟨token, found⟩ | ⟨handling, held, -⟩
    · rcases conns_registerAll found with before | now
      · exact .inl ⟨entry, .inl ⟨token, before⟩, rfl⟩
      · exact .inr ⟨awake, now.ge⟩
    · cases free.symm.trans (same.handling.symm.trans held)
  unfold EventLoop.onWake
  dsimp only
  split
  · rename_i asleep
    obtain ⟨off, -⟩ := Bool.and_eq_true_iff.mp asleep
    have off := Option.isNone_iff_eq_none.mp off
    rcases watched.timer with ⟨-, none, nothing⟩ | ⟨timerId, deadline, on, -⟩
    · refine taking ?_ ?_ ?_
      · exact watched_startSweeping watched.readTimeout none
          (fun entry has => absurd has (nothing entry))
      · simp [startSweeping, watched.readTimeout]
      · simp [startSweeping, watched.readTimeout, free]
    · cases off.symm.trans on
  · rename_i awake
    refine taking watched (fun off => awake ?_) free
    simp [off, watched.readTimeout]

theorem Watched.fire (watched : loop.Watched timeout delay) (free : loop.handling = none)
    {timerId : Nat} (fired : loop.fire timerId = some next)
    : next.Watched timeout delay := by
  unfold EventLoop.fire at fired
  split at fired
  · cases fired
  · rename_i timer found
    obtain ⟨-, ⟨⟩⟩ := Option.ite_none_right_eq_some.mp fired
    have member := List.mem_of_find?_eq_some found
    have named : timer.1 = timerId := by
      have chosen := List.find?_some found
      exact of_decide_eq_true chosen
    rcases watched.timer with ⟨-, none, -⟩ | ⟨sweepId, deadline, on, one, -, -, -⟩
    · rw [none] at member
      cases member
    · rw [one, List.mem_singleton] at member
      obtain rfl := member
      obtain rfl : sweepId = timerId := named
      unfold onTimer
      simp only [on, ne_eq, not_true, if_false, watched.readTimeout]
      have same := sweepAll_same
        {
          loop with
          registry :=
            { loop.registry with timers := loop.registry.timers.erase (sweepId, deadline) }
        }
        (stale
          {
            loop with
            registry :=
              { loop.registry with timers := loop.registry.timers.erase (sweepId, deadline) }
          }
          timeout)
      refine watched_startSweeping (same.readTimeout.trans watched.readTimeout) ?_
        (fun entry has => ?_)
      · rw [same.registry]
        simp [one]
      · rcases has with ⟨token, left⟩ | ⟨handling, held, -⟩
        · rw [same.nowMs]
          exact (conns_swept left).2
        · rw [same.handling] at held
          cases free.symm.trans held

theorem begin_lastActivity (entry : Entry) (token : Nat) (event : Event) (nowMs : Nat)
    : (entry.begin token event nowMs).entry.lastActivity = entry.lastActivity
      ∨ (entry.begin token event nowMs).entry.lastActivity = nowMs := by
  have either : entry.activityAfter event.reads nowMs = entry.lastActivity
      ∨ entry.activityAfter event.reads nowMs = nowMs := by
    unfold Entry.activityAfter
    split
    · exact .inl rfl
    · exact .inr rfl
  unfold Entry.begin
  dsimp only
  split
  · split <;> exact either
  · exact .inl rfl

theorem Watched.onEvent (watched : loop.Watched timeout delay) (token : Nat) (event : Event)
    : (loop.onEvent token event).Watched timeout delay := by
  unfold EventLoop.onEvent
  cases found : loop.handler.conns[token]? with
  | none => exact watched
  | some entry =>
      have had : loop.Has entry := .inl ⟨token, found⟩
      refine watched.change rfl rfl rfl rfl (fun other has => ?_)
      rcases has with ⟨key, left⟩ | ⟨handling, held, rfl⟩
      · have left : (loop.handler.conns.erase token)[key]? = some other := left
        rw [SortedMap.getElem?_erase] at left
        obtain ⟨-, before⟩ := Option.ite_none_left_eq_some.mp left
        exact .inl ⟨other, .inl ⟨key, before⟩, rfl⟩
      · obtain rfl := Option.some.inj held
        rcases begin_lastActivity entry token event loop.nowMs with same | now
        · exact .inl ⟨entry, had, same.symm⟩
        · exact .inr ⟨watched.awake had, now.ge⟩

theorem Watched.answer (watched : loop.Watched timeout delay) {handling : Handling}
    (held : loop.handling = some handling) {response : Bytes}
    (answered : loop.answer handling response = some next)
    : next.Watched timeout delay := by
  unfold EventLoop.answer at answered
  split at answered
  · cases answered
  · obtain rfl := Option.some.inj answered
    refine watched.change rfl rfl rfl rfl (fun other has => .inl ?_)
    rcases has with kept | ⟨changed, same, rfl⟩
    · exact ⟨other, .inl kept, rfl⟩
    · obtain rfl := Option.some.inj same
      exact ⟨handling.entry, .inr ⟨handling, held, rfl⟩, rfl⟩

theorem Watched.finish (watched : loop.Watched timeout delay) {handling : Handling}
    (held : loop.handling = some handling)
    : (loop.finish handling).Watched timeout delay := by
  unfold EventLoop.finish
  dsimp only
  split
  · refine watched.change rfl rfl rfl rfl (fun other has => .inl ?_)
    rcases has with ⟨key, found⟩ | ⟨changed, none, -⟩
    · have found : (loop.handler.conns.insert handling.token _)[key]? = some other := found
      rw [SortedMap.getElem?_insert] at found
      split at found
      · obtain rfl := Option.some.inj found
        exact ⟨handling.entry, .inr ⟨handling, held, rfl⟩, rfl⟩
      · exact ⟨other, .inl ⟨key, found⟩, rfl⟩
    · cases none
  · refine watched.change rfl rfl rfl rfl (fun other has => .inl ?_)
    rcases has with kept | ⟨changed, none, -⟩
    · exact ⟨other, .inl kept, rfl⟩
    · cases none

theorem Watched.step (watched : loop.Watched timeout delay) {action : LoopAction}
    (taken : loop.step action = some next)
    (onTime : loop.onTime delay action = true)
    : next.Watched timeout delay := by
  cases action with
  | tick laterMs =>
      obtain ⟨later, ⟨⟩⟩ := Option.ite_none_right_eq_some.mp taken
      refine ⟨watched.readTimeout, ?_⟩
      rcases watched.timer with quiet | ⟨timerId, deadline, on, one, soon, -, all⟩
      · exact .inl quiet
      · have bound : laterMs ≤ deadline + delay := by
          simpa [EventLoop.onTime, one] using onTime
        exact .inr ⟨timerId, deadline, on, one, soon.trans (Nat.add_le_add_right later _),
          bound, all⟩
  | hand stream =>
      obtain rfl := Option.some.inj taken
      exact ⟨watched.readTimeout, watched.timer⟩
  | wake registers =>
      obtain ⟨free, ⟨⟩⟩ := Option.ite_none_right_eq_some.mp taken
      exact watched.onWake (Option.isNone_iff_eq_none.mp free) registers
  | timer timerId =>
      obtain ⟨free, fired⟩ := Option.ite_none_right_eq_some.mp taken
      exact watched.fire (Option.isNone_iff_eq_none.mp free) fired
  | event token event =>
      obtain ⟨-, ⟨⟩⟩ := Option.ite_none_right_eq_some.mp taken
      exact watched.onEvent token event
  | answer response =>
      obtain ⟨handling, held, answered⟩ := Option.bind_eq_some_iff.mp taken
      exact watched.answer held answered
  | finish =>
      obtain ⟨handling, held, finished⟩ := Option.bind_eq_some_iff.mp taken
      obtain ⟨-, ⟨⟩⟩ := Option.ite_none_right_eq_some.mp finished
      exact watched.finish held

end Watching

-----------------------------------------------------------------------------------------
-- Which connections are swept
-----------------------------------------------------------------------------------------

theorem ending_update (past : Nat → Past) (token other : Nat) {changed : Past}
    (spared : changed.ending = some .swept → (past token).ending = some .swept)
    (swept : (Function.update past token changed other).ending = some .swept)
    : (past other).ending = some .swept := by
  by_cases here : other = token
  · subst here
    rw [Function.update_self] at swept
    exact spared swept
  · rwa [Function.update_of_ne here] at swept

/-- A sweep ends connections of the map only. -/
theorem ending_sweepAll {loop : EventLoop} {tokens : List Nat} {token : Nat}
    (swept : ((tokens.foldl sweep loop).past token).ending = some .swept)
    : (loop.past token).ending = some .swept ∨ token ∈ tokens := by
  induction tokens generalizing loop with
  | nil => exact .inl swept
  | cons first tokens ih =>
      rcases ih swept with before | later
      · by_cases here : token = first
        · exact .inr (here ▸ List.mem_cons_self)
        · left
          unfold sweep at before
          split at before
          · exact before
          · simpa [setConns, note, here] using before
      · exact .inr (List.mem_cons_of_mem _ later)

theorem ending_ne_swept (conn : Connection) (hardClose : Bool)
    : conn.ending hardClose ≠ .swept := by
  unfold Connection.ending
  split
  · exact nofun
  · split <;> exact nofun

/-- Only a timer makes a connection swept, and only one that was idle for too long. -/
theorem ending_step {loop next : EventLoop} {action : LoopAction} {timeout token : Nat}
    (readTimeout : loop.handler.readTimeout = some timeout)
    (taken : loop.step action = some next)
    (going : (loop.past token).ending = none)
    (swept : (next.past token).ending = some .swept)
    : ∃ entry,
        loop.handler.conns[token]? = some entry
        ∧ entry.lastActivity + timeout < loop.nowMs := by
  have unswept {other : EventLoop} (same : other.past = loop.past)
      (swept : (other.past token).ending = some .swept)
      : False := by
    rw [same, going] at swept
    cases swept
  cases action with
  | tick laterMs =>
      obtain ⟨-, ⟨⟩⟩ := Option.ite_none_right_eq_some.mp taken
      exact (unswept rfl swept).elim
  | hand stream =>
      obtain rfl := Option.some.inj taken
      exact (unswept rfl swept).elim
  | wake registers =>
      obtain ⟨-, ⟨⟩⟩ := Option.ite_none_right_eq_some.mp taken
      exact (unswept (past_onWake loop registers) swept).elim
  | event other event =>
      obtain ⟨-, ⟨⟩⟩ := Option.ite_none_right_eq_some.mp taken
      unfold onEvent at swept
      split at swept
      · exact (unswept rfl swept).elim
      · refine (unswept rfl (ending_update loop.past other token ?_ swept)).elim
        exact fun same => same
  | answer response =>
      obtain ⟨handling, held, answered⟩ := Option.bind_eq_some_iff.mp taken
      unfold answer at answered
      split at answered
      · cases answered
      · obtain rfl := Option.some.inj answered
        refine (unswept rfl (ending_update loop.past handling.token token ?_ swept)).elim
        exact fun same => same
  | finish =>
      obtain ⟨handling, held, finished⟩ := Option.bind_eq_some_iff.mp taken
      obtain ⟨-, ⟨⟩⟩ := Option.ite_none_right_eq_some.mp finished
      unfold finish at swept
      dsimp only at swept
      split at swept
      · refine (unswept rfl (ending_update loop.past handling.token token ?_ swept)).elim
        exact fun same => same
      · have written := ending_update _ handling.token token ?_ swept
        · refine (unswept rfl (ending_update loop.past handling.token token ?_ written)).elim
          exact fun same => same
        · intro same
          exact absurd (Option.some.inj same) (ending_ne_swept _ _)
  | timer timerId =>
      obtain ⟨-, fired⟩ := Option.ite_none_right_eq_some.mp taken
      unfold fire at fired
      split at fired
      · cases fired
      · obtain ⟨-, ⟨⟩⟩ := Option.ite_none_right_eq_some.mp fired
        unfold onTimer at swept
        split at swept
        · exact (unswept rfl swept).elim
        · simp only [readTimeout, past_startSweeping] at swept
          rcases ending_sweepAll swept with before | member
          · exact (unswept rfl before).elim
          · obtain ⟨entry, found, idle⟩ := mem_stale.mp member
            refine ⟨entry, found, ?_⟩
            have idle : timeout < loop.nowMs - entry.lastActivity := idle
            omega

theorem watched_execute {timeout delay : Nat} {loop last : EventLoop}
    {actions : List LoopAction} (watched : loop.Watched timeout delay)
    (run : loop.execute actions = some last) (punctual : loop.punctual delay actions = true)
    : last.Watched timeout delay := by
  induction actions generalizing loop with
  | nil =>
      obtain rfl := Option.some.inj run
      exact watched
  | cons action actions ih =>
      obtain ⟨next, taken, rest⟩ := Option.bind_eq_some_iff.mp run
      obtain ⟨onTime, later⟩ := Bool.and_eq_true_iff.mp punctual
      rw [taken] at later
      exact ih (watched.step taken onTime) rest later

theorem watched_new (timeout delay : Nat) : (new (some timeout)).Watched timeout delay := by
  refine ⟨rfl, .inl ⟨rfl, rfl, fun entry has => ?_⟩⟩
  rcases has with ⟨token, found⟩ | ⟨handling, held, -⟩
  · simp [new] at found
  · cases held

/-- In every run of a worker whose loop fires its timers with a delay of at most `delay`,
there is one timer at most, no connection has been idle for longer than the timeout, a sweep
interval and the delay together, and the next step can only sweep one that has been idle for
longer than the timeout.
-/
theorem idle_swept_in_time (timeout delay : Nat) (actions : List LoopAction)
    (last : EventLoop) (run : (new (some timeout)).execute actions = some last)
    (punctual : (new (some timeout)).punctual delay actions = true)
    : last.registry.timers.length ≤ 1
      ∧ (∀ entry,
          last.Has entry
          → last.nowMs ≤ entry.lastActivity + timeout + sweepInterval + delay)
      ∧ ∀ action next token,
          last.step action = some next
          → (last.past token).ending = none
          → (next.past token).ending = some .swept
          → ∃ entry,
              last.handler.conns[token]? = some entry
              ∧ entry.lastActivity + timeout < last.nowMs := by
  have watched := watched_execute (watched_new timeout delay) run punctual
  refine ⟨?_, fun entry has => ?_, fun action next token taken going swept =>
    ending_step watched.readTimeout taken going swept⟩
  · rcases watched.timer with ⟨-, none, -⟩ | ⟨timerId, deadline, -, one, -⟩
    · simp [none]
    · simp [one]
  · rcases watched.timer with ⟨-, -, nothing⟩ | ⟨timerId, deadline, -, -, -, late, all⟩
    · exact absurd has (nothing entry)
    · have soon := all entry has
      omega

/-- A client connects and stays silent; the first sweep comes too early for it. -/
def silentClient : List LoopAction :=
  [.hand 7, .wake [], .tick 110, .timer 0, .tick 215]

/-- Witness: the connection is still there, and the second sweep will end it. -/
theorem idle_swept_in_time_silent
    : ∃ last,
        (new (some 150)).execute silentClient = some last
        ∧ last.registry.timers.length ≤ 1
        ∧ ∀ entry, last.Has entry → last.nowMs ≤ entry.lastActivity + 150 + 100 + 15 := by
  have ran : ((new (some 150)).execute silentClient).isSome := by decide +kernel
  obtain ⟨last, run⟩ := Option.isSome_iff_exists.mp ran
  obtain ⟨one, bound, -⟩ :=
    idle_swept_in_time 150 15 silentClient last run (by decide +kernel)
  exact ⟨last, run, one, bound⟩

end Rustikv.Server.EventLoop

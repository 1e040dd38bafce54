import Rustikv.Server.Cli
import Rustikv.Server.Lifecycle
import Rustikv.Server.Responses

/-! The command line client. Whatever its user types and whoever else talks to the server, it
shows the answers to its own commands, and it is never left waiting.
-/

namespace Rustikv.Server

open Library Kv

-----------------------------------------------------------------------------------------
-- The loop of the client
-----------------------------------------------------------------------------------------

/-- The prompt, and lines on the standard output or for errors. -/
inductive Printed
  | prompt
  | out (text : String)
  | err (text : String)
  deriving DecidableEq, Repr

/-- The rows printed for a response. -/
def rows (status : ResponseStatus) (payload : List String) : List Printed :=
  match status with
  | .ok => payload.map .out
  | .error => .out "Error >" :: payload.map .out
  | .notFound => [.out "Not found"]
  | .noop => [.out "NOOP"]

def printResponse (full : Bytes) : List Printed :=
  match decodeResponseFrame full with
  | .ok response => rows response.status response.payload
  | .error error => [.err ("Error reading server response: " ++ error.message)]

/-- `line.trim()` -/
def trim (line : String) : String :=
  String.ofList
    ((line.toList.dropWhile isWhitespace).reverse.dropWhile isWhitespace).reverse

/-- The length, and then as many bytes. The client waits as long as there are too few. -/
def readResponse (incoming : Bytes) : Except IoError (Bytes × Bytes) := do
  let (lenBuf, incoming) ← readExact frameLenSize incoming
  let (payload, incoming) ← readExact (u32OfBytes lenBuf).toNat incoming
  return (lenBuf ++ payload, incoming)

/-- What a client has sent and printed, and whether it is waiting for a response. -/
structure Console where
  sent : Bytes
  printed : List Printed
  waiting : Bool
  deriving DecidableEq, Repr

/-- The client goes on behind what was sent and printed. -/
def Console.behind (later : Console) (sent : Bytes) (printed : List Printed) : Console :=
  { later with sent := sent ++ later.sent, printed := printed ++ later.printed }

/-- The loop of `main`, over the lines typed and the bytes received so far. The client reads
a line only after it has shown the response to the last one.
-/
def rustikli : List String → Bytes → Console
  | [], _ => { sent := [], printed := [.prompt], waiting := false }
  | line :: lines, incoming =>
      match parseCommand (trim line) with
      | .cmd command =>
          match encodeCommand command with
          | some cmd =>
              match readResponse incoming with
              | .ok (full, incoming) =>
                  (rustikli lines incoming).behind cmd (.prompt :: printResponse full)
              | .error _ => { sent := cmd, printed := [.prompt], waiting := true }
          -- unreachable: no line is parsed as the sentinel
          | none => { sent := [], printed := [.prompt], waiting := false }
      | .quit => { sent := [], printed := [.prompt, .out "Cya!"], waiting := false }
      | .invalidInput msg =>
          (rustikli lines incoming).behind []
            (.prompt :: if msg.isEmpty then [] else [.err msg])

-----------------------------------------------------------------------------------------
-- What a user expects
-----------------------------------------------------------------------------------------

/-- The commands among the lines. -/
def asked : List String → List Command
  | [] => []
  | line :: lines =>
      match parseCommand (trim line) with
      | .cmd command => command :: asked lines
      | .quit => []
      | .invalidInput _ => asked lines

/-- The lines with the answers to their commands, as far as there are answers. -/
def transcript : List String → List Answer → List Printed
  | [], _ => [.prompt]
  | line :: lines, answers =>
      match parseCommand (trim line) with
      | .cmd _ =>
          match answers with
          | answer :: answers => .prompt :: rows answer.1 answer.2 ++ transcript lines answers
          | [] => [.prompt]
      | .quit => [.prompt, .out "Cya!"]
      | .invalidInput msg =>
          .prompt :: (if msg.isEmpty then [] else [.err msg]) ++ transcript lines answers

/-- The frames of commands. -/
def wire (commands : List Command) : Bytes :=
  commands.flatMap (fun command => (encodeCommand command).getD [])

/-- The length of an answer fits its field. -/
def Answer.Fits (answer : Answer) : Prop :=
  (responsePayload answer.1 answer.2).length < 2 ^ 32

-----------------------------------------------------------------------------------------
-- One response
-----------------------------------------------------------------------------------------

theorem readResponse_frame {answer : Answer} (fits : answer.Fits) (rest : Bytes)
    : readResponse (answer.frame ++ rest) = .ok (answer.frame, rest) := by
  have count : (UInt32.ofNat (responsePayload answer.1 answer.2).length).toNat
      = (responsePayload answer.1 answer.2).length :=
    UInt32.toNat_ofNat_of_lt' fits
  have length : (u32Bytes (UInt32.ofNat (responsePayload answer.1 answer.2).length)).length
      = frameLenSize := by
    simp [frameLenSize]
  simp only [readResponse, Answer.frame, encodeFrame, List.append_assoc,
    readExact_append length, ok_bind, u32OfBytes_u32Bytes, count, readExact_append rfl]
  rfl

theorem steady_readResponse : Steady readResponse := by
  refine (steady_readExact frameLenSize).bind fun lenBuf => ?_
  refine (steady_readExact (u32OfBytes lenBuf).toNat).bind fun payload => ?_
  exact Steady.done (lenBuf ++ payload)

/-- What has arrived of some responses is either not a whole one, or the first of them and
what has arrived of the others.
-/
theorem readResponse_of_prefix {incoming full rest tail : Bytes} {answer : Answer}
    (fits : answer.Fits) (received : incoming <+: answer.frame ++ tail)
    (read : readResponse incoming = .ok (full, rest))
    : full = answer.frame ∧ incoming = answer.frame ++ rest ∧ rest <+: tail := by
  obtain ⟨missing, parts⟩ := received
  have whole := steady_readResponse.ok read missing
  rw [parts, readResponse_frame fits tail] at whole
  obtain ⟨rfl, rfl⟩ := Prod.mk.inj (Except.ok.inj whole)
  rw [← List.append_assoc] at parts
  exact ⟨rfl, List.append_cancel_right parts, List.prefix_append rest missing⟩

/-- The rows of an answer come out of its frame. -/
theorem printResponse_frame {answer : Answer} (fits : answer.Fits)
    : printResponse answer.frame = rows answer.1 answer.2 := by
  obtain ⟨status, payload⟩ := answer
  have count : (UInt32.ofNat (responsePayload status payload).length).toNat
      = (responsePayload status payload).length :=
    UInt32.toNat_ofNat_of_lt' fits
  have length : (u32Bytes (UInt32.ofNat (responsePayload status payload).length)).length
      = frameLenSize := by
    simp [frameLenSize]
  have op : ([status.toByte] : Bytes).length = opCodeSize := rfl
  have size : (responsePayload status payload).length
      = opCodeSize + (payload.flatMap valueBytes).length := by
    rw [responsePayload, List.length_append, op]
  have whole : (Answer.frame (status, payload)).length
      = (responsePayload status payload).length + frameLenSize := by
    rw [Answer.frame, encodeFrame, List.length_append, length, Nat.add_comm]
  have small : ∀ text ∈ payload, text.utf8ByteSize < 2 ^ 32 := by
    intro text member
    have inside := length_valueBytes_le member
    rw [length_valueBytes] at inside
    change (responsePayload status payload).length < 2 ^ 32 at fits
    omega
  have read := @readWhile_encodeAll _ payloadCodec payload small
    ((responsePayload status payload).length + frameLenSize)
    ((payload.flatMap valueBytes).length + 1)
    (by change (payload.flatMap valueBytes).length ≤ _; omega) (Nat.le_succ _)
  have rest : decodeResponseFrame (Answer.frame (status, payload))
      = (readWhile readPayload ((responsePayload status payload).length + frameLenSize)
          ((responsePayload status payload).length + frameLenSize)
          ((payload.flatMap valueBytes).length + 1) (payload.flatMap valueBytes)).map
          (fun texts => { payload := texts, status }) := by
    rw [decodeResponseFrame, whole, Answer.frame, encodeFrame, readExact_append length,
      ok_bind]
    dsimp only
    rw [u32OfBytes_u32Bytes, count]
    conv_lhs =>
      enter [1]
      rw [responsePayload, readExact_append op]
    rw [ok_bind, List.headD_cons, ResponseStatus.tryFrom_toByte]
    cases readWhile readPayload _ _ _ (payload.flatMap valueBytes) <;> rfl
  change readWhile readPayload _ _ _ (payload.flatMap valueBytes) = _ at read
  rw [printResponse, rest, read]
  rfl

-----------------------------------------------------------------------------------------
-- The responses that have arrived
-----------------------------------------------------------------------------------------

/-- What the loop has done when some of the responses to its commands have arrived. -/
structure Console.Shows (console : Console) (lines : List String) (answers : List Answer)
    (incoming : Bytes) (shown : List Answer)
    : Prop where
  first : shown <+: answers
  printed : console.printed = transcript lines shown
  sent : console.sent = wire ((asked lines).take (shown.length + console.waiting.toNat))
  done : console.waiting = false → shown.length = (asked lines).length
  waiting
    : console.waiting = true
      → shown.length < (asked lines).length
        ∧ (incoming = (answers.map Answer.frame).flatten → shown = answers)

/-- Witness: induction over the lines, with the answers that are still to come. -/
theorem rustikli_shows {lines : List String} {incoming : Bytes} {answers : List Answer}
    (sendable : ∀ command ∈ asked lines, (encodeCommand command).isSome)
    (fit : ∀ answer ∈ answers, answer.Fits)
    (received : incoming <+: (answers.map Answer.frame).flatten)
    : ∃ shown, (rustikli lines incoming).Shows lines answers incoming shown := by
  induction lines generalizing incoming answers with
  | nil =>
      exact ⟨[], List.nil_prefix, rfl, rfl, fun _ => rfl, fun waits => by cases waits⟩
  | cons line lines ih =>
      obtain ⟨result, parsed⟩ : ∃ result, parseCommand (trim line) = result := ⟨_, rfl⟩
      cases result with
      | quit =>
          have typed : asked (line :: lines) = [] := by simp [asked, parsed]
          refine ⟨[], List.nil_prefix, ?_, ?_, ?_, ?_⟩ <;>
            simp [rustikli, transcript, parsed, typed, wire]
      | invalidInput msg =>
          have typed : asked (line :: lines) = asked lines := by simp [asked, parsed]
          rw [typed] at sendable
          obtain ⟨shown, shows⟩ := ih sendable fit received
          refine ⟨shown, shows.first, ?_, ?_, ?_, ?_⟩
          · simp [rustikli, transcript, parsed, Console.behind, shows.printed]
          · simpa [rustikli, parsed, Console.behind, typed] using shows.sent
          · simpa [rustikli, parsed, Console.behind, typed] using shows.done
          · simpa [rustikli, parsed, Console.behind, typed] using shows.waiting
      | cmd command =>
          have typed : asked (line :: lines) = command :: asked lines := by
            simp [asked, parsed]
          rw [typed] at sendable
          obtain ⟨cmd, encoded⟩ :=
            Option.isSome_iff_exists.mp (sendable command List.mem_cons_self)
          cases read : readResponse incoming with
          | error error =>
              have sole : rustikli (line :: lines) incoming
                  = { sent := cmd, printed := [.prompt], waiting := true } := by
                simp [rustikli, parsed, encoded, read]
              refine ⟨[], List.nil_prefix, ?_, ?_, ?_, fun _ => ⟨?_, fun all => ?_⟩⟩
              · simp [sole, transcript, parsed]
              · simp [sole, typed, wire, encoded]
              · simp [sole]
              · simp [typed]
              · cases answers with
                | nil => rfl
                | cons answer answers =>
                    rw [all, List.map_cons, List.flatten_cons,
                      readResponse_frame (fit answer List.mem_cons_self)] at read
                    cases read
          | ok found =>
              obtain ⟨full, rest⟩ := found
              have goes : rustikli (line :: lines) incoming
                  = (rustikli lines rest).behind cmd (.prompt :: printResponse full) := by
                simp [rustikli, parsed, encoded, read]
              cases answers with
              | nil =>
                  obtain rfl := List.prefix_nil.mp received
                  cases read
              | cons answer answers =>
                  have fits := fit answer List.mem_cons_self
                  rw [List.map_cons, List.flatten_cons] at received
                  obtain ⟨rfl, parts, later⟩ := readResponse_of_prefix fits received read
                  obtain ⟨shown, shows⟩ := ih
                    (fun other member => sendable other (List.mem_cons_of_mem _ member))
                    (fun other member => fit other (List.mem_cons_of_mem _ member)) later
                  have rows := printResponse_frame fits
                  refine ⟨answer :: shown, ?_, ?_, ?_, fun done => ?_, fun waits => ?_⟩
                  · exact (List.prefix_cons_inj answer).mpr shows.first
                  · simp [goes, Console.behind, transcript, parsed, rows, shows.printed]
                  · have more : (answer :: shown).length = shown.length + 1 := rfl
                    rw [goes, typed, more, Nat.add_right_comm, List.take_succ_cons]
                    simp [Console.behind, wire, encoded, shows.sent]
                  · rw [goes] at done
                    rw [typed, List.length_cons, List.length_cons, shows.done done]
                  · rw [goes] at waits
                    obtain ⟨fewer, complete⟩ := shows.waiting waits
                    refine ⟨?_, fun all => ?_⟩
                    · rw [typed, List.length_cons, List.length_cons]
                      exact Nat.succ_lt_succ fewer
                    · rw [List.map_cons, List.flatten_cons, parts] at all
                      rw [complete (List.append_cancel_left all)]

-----------------------------------------------------------------------------------------
-- A client of a server
-----------------------------------------------------------------------------------------

/-- The answers to one connection, among those to all. -/
def ServerState.own {σ : Type} (server : ServerState σ) (answers : List Answer)
    (worker token : Nat)
    : List Answer :=
  ((server.log.zip answers).filter
      (fun entry => entry.1.worker = worker ∧ entry.1.token = token)).map Prod.snd

theorem map_answeredTo {σ : Type} {server : ServerState σ} {answers : List Answer}
    (responses : server.log.map Line.response = answers.map Answer.frame)
    (worker token : Nat)
    : (server.answeredTo worker token).map Prod.snd
      = (server.own answers worker token).map Answer.frame := by
  unfold ServerState.answeredTo ServerState.own
  generalize server.log = log at responses
  induction log generalizing answers with
  | nil => rfl
  | cons line log ih =>
      cases answers with
      | nil => cases responses
      | cons answer answers =>
          obtain ⟨first, later⟩ := List.cons.inj responses
          have rest := ih later
          by_cases own : line.worker = worker ∧ line.token = token
          · simpa [own, first] using rest
          · simpa [own] using rest

theorem parse_wire {commands : List Command}
    (requests : ∀ command ∈ commands, ∃ bytes, Request command bytes)
    : requestParser.parse (wire commands) = .ok (commands, false, []) := by
  let frames := commands.map (fun command => ((encodeCommand command).getD [], command))
  have whole : requestParser.Frames frames := by
    intro frame member
    obtain ⟨command, among, rfl⟩ := List.mem_map.mp member
    obtain ⟨bytes, request⟩ := requests command among
    simpa [request.encoded] using request.next
  have parsed := requestParser.parse_frames whole []
  have bytes : (frames.map Prod.fst).flatten = wire commands := by
    simp [frames, wire, List.flatMap_def, Function.comp_def]
  have values : frames.map Prod.snd = commands := by
    simp [frames, Function.comp_def]
  rw [bytes, values, List.append_nil] at parsed
  rw [parsed]
  change Except.ok (commands ++ [], false, []) = _
  rw [List.append_nil]

/-- Commands understood from the first bytes of some requests are the first of them. -/
theorem Understood.first {heard : Bytes} {commands asked : List Command}
    (understood : Understood heard commands)
    (requests : ∀ command ∈ asked, ∃ bytes, Request command bytes)
    (within : heard <+: wire asked)
    : commands <+: asked := by
  obtain ⟨front, stopped, left, begins, parsed⟩ := understood
  obtain ⟨back, parts⟩ := begins.trans within
  have whole := parse_wire requests
  rw [← parts] at whole
  rcases requestParser.parse_append_ok whole with
    ⟨_, -, ended⟩ | ⟨found, rest, more, again, -, rfl⟩
  · cases ended
  · rw [parsed] at again
    obtain ⟨rfl, -⟩ := Prod.mk.inj (Except.ok.inj again)
    exact List.prefix_append commands more

theorem wire_take (commands : List Command) (count : Nat)
    : wire (commands.take count) <+: wire commands := by
  refine ⟨wire (commands.drop count), ?_⟩
  rw [wire, wire, wire, ← List.flatMap_append, List.take_append_drop]

theorem fits_of_response {answer : Answer} (small : answer.frame.length < 2 ^ 32)
    : answer.Fits := by
  have size : answer.frame.length = 4 + (responsePayload answer.1 answer.2).length := by
    simp [Answer.frame, encodeFrame]
  unfold Answer.Fits
  omega

namespace ServerState

/-- Witness: what was sent determines the commands, and they determine the answers. -/
theorem Sound.shows {σ : Type} {server : ServerState σ} (sound : server.Sound)
    {index token : Nat} {loop : EventLoop} (found : server.workers[index]? = some loop)
    {answers : List Answer}
    (responses : server.log.map Line.response = answers.map Answer.frame)
    (fit : ∀ answer ∈ answers, answer.Fits) {lines : List String} {incoming : Bytes}
    (requests : ∀ command ∈ asked lines, ∃ bytes, Request command bytes)
    (up : (loop.past token).heard <+: (rustikli lines incoming).sent)
    (down : incoming <+: (loop.past token).sent)
    : (server.answeredTo index token).map Prod.fst <+: asked lines
      ∧ ∃ shown,
          shown <+: server.own answers index token
          ∧ (rustikli lines incoming).printed = transcript lines shown
          ∧ ∀ entry,
              loop.place token = .kept entry
              → entry.conn.pendingClose = false
              → entry.conn.pending = []
              → (loop.past token).heard = (rustikli lines incoming).sent
              → incoming = (loop.past token).sent
              → (rustikli lines incoming).waiting = false
                ∧ shown = server.own answers index token
                ∧ shown.length = (asked lines).length := by
  have faithful := sound.faithful index loop found token
  have logged := sound.logged index loop found token
  have sent : (loop.past token).responses
      = ((server.own answers index token).map Answer.frame).flatten := by
    rw [Past.responses, logged, map_answeredTo responses]
  have fitOwn : ∀ answer ∈ server.own answers index token, answer.Fits := by
    intro answer member
    obtain ⟨entry, among, rfl⟩ := List.mem_map.mp member
    exact fit _ (List.of_mem_zip (List.mem_filter.mp among).1).2
  have sendable : ∀ command ∈ asked lines, (encodeCommand command).isSome := by
    intro command member
    obtain ⟨bytes, request⟩ := requests command member
    exact Option.isSome_iff_exists.mpr ⟨bytes, request.encoded⟩
  have received : incoming
      <+: ((server.own answers index token).map Answer.frame).flatten := by
    rw [← sent]
    exact down.trans faithful.within
  obtain ⟨shown, shows⟩ := rustikli_shows sendable fitOwn received
  constructor
  · obtain ⟨waiting, understood⟩ := faithful.understood
    have within : (loop.past token).heard <+: wire (asked lines) := by
      refine up.trans ?_
      rw [shows.sent]
      exact wire_take (asked lines) _
    have first := understood.first requests within
    rw [← logged]
    exact (List.prefix_append _ _).trans first
  · refine ⟨shown, shows.first, shows.printed, ?_⟩
    intro entry place going nothing heard all
    have kept := faithful
    unfold Client.Faithful EventLoop.client at kept
    dsimp only at kept
    rw [place] at kept
    obtain ⟨follows, owes, -⟩ := kept
    -- Everything has been dispatched and everything has been sent.
    have parsed := (follows.complete going rfl).2
    rw [heard, shows.sent, parse_wire (fun command member =>
      requests command (List.mem_of_mem_take member))] at parsed
    obtain ⟨commands, -⟩ := Prod.mk.inj (Except.ok.inj parsed)
    have complete : incoming = ((server.own answers index token).map Answer.frame).flatten := by
      rw [all, ← sent, ← owes.responses, nothing, List.append_nil]
    have count : (server.own answers index token).length
        = ((asked lines).take
            (shown.length + (rustikli lines incoming).waiting.toNat)).length := by
      have same := congrArg List.length (map_answeredTo responses index token)
      rw [commands, Past.commands, logged, List.length_map]
      rw [List.length_map, List.length_map] at same
      exact same.symm
    rw [List.length_take] at count
    have fewer := shows.first.length_le
    cases waits : (rustikli lines incoming).waiting with
    | true =>
        obtain ⟨unfinished, same⟩ := shows.waiting waits
        rw [← same complete, waits] at count
        simp only [Bool.toNat_true] at count
        omega
    | false =>
        have done := shows.done waits
        rw [waits] at count
        simp only [Bool.toNat_false] at count
        exact ⟨rfl, shows.first.eq_of_length (by omega), done⟩

section HashEngine

variable {clock : Nat → Nat} (increasing : StrictMono clock) (cfg : CompactionCfg)
include increasing

/-- A client of a running server, whatever its other clients do and however far the bytes on
their way have come: it shows its lines with the first of the answers to its own commands,
which are answers of the one map behind the server. When nothing is on its way any more, it
has shown all answers and waits for none.
-/
theorem client_shows_own_answers {world : World} (fresh : KVEngine.Fresh clock world)
    (maxSegmentBytes : UInt64) (fsyncStrategy : FSyncStrategy) (workers : Nat)
    (readTimeout : Option Nat) {actions : List ServerAction}
    {last : ServerState (KVEngine × World)}
    (run
      : (start (KVEngine.new clock maxSegmentBytes fsyncStrategy world) workers
            readTimeout).execute (kvStorage clock) cfg actions
        = some last)
    (timely : TimelyActions 0 actions) {index token : Nat} {loop : EventLoop}
    (found : last.workers[index]? = some loop)
    (small : ∀ line ∈ last.log, line.response.length < 2 ^ 32) {lines : List String}
    {incoming : Bytes} (requests : ∀ command ∈ asked lines, ∃ bytes, Request command bytes)
    (up : (loop.past token).heard <+: (rustikli lines incoming).sent)
    (down : incoming <+: (loop.past token).sent)
    : ∃ answers contents shown,
        Explained kvLimits Contents.empty last.turns answers contents
        ∧ last.log.map Line.command = (requestsOf last.turns).map Prod.fst
        ∧ last.log.map Line.response = answers.map Answer.frame
        ∧ (last.answeredTo index token).map Prod.fst <+: asked lines
        ∧ shown <+: last.own answers index token
        ∧ (rustikli lines incoming).printed = transcript lines shown
        ∧ ∀ entry,
            loop.place token = .kept entry
            → entry.conn.pendingClose = false
            → entry.conn.pending = []
            → (loop.past token).heard = (rustikli lines incoming).sent
            → incoming = (loop.past token).sent
            → (rustikli lines incoming).waiting = false
              ∧ shown = last.own answers index token
              ∧ shown.length = (asked lines).length := by
  have first : (start (KVEngine.new clock maxSegmentBytes fsyncStrategy world) workers
      readTimeout).Explains clock 0 :=
    ⟨rfl, [], Contents.empty, .nil _, rfl,
      kvHolds_new increasing fresh maxSegmentBytes fsyncStrategy⟩
  obtain ⟨time, explains⟩ := explains_execute increasing cfg first run timely
  obtain ⟨answers, contents, explained, responses, -⟩ := explains.responses
  have sound := sound_execute (sound_start _ workers readTimeout) run
  have fit : ∀ answer ∈ answers, answer.Fits := by
    intro answer member
    have sent := List.mem_map_of_mem (f := Answer.frame) member
    rw [← responses] at sent
    obtain ⟨line, among, same⟩ := List.mem_map.mp sent
    exact fits_of_response (same ▸ small line among)
  obtain ⟨commands, shown, firsts, printed, idle⟩ :=
    sound.shows found responses fit requests up down
  exact ⟨answers, contents, shown, explained, explains.commands, responses, commands, firsts,
    printed, idle⟩

end HashEngine

/-- A client types two pings and a word that is no command. The first ping is answered. -/
def pingedLines : List String :=
  ["PING", "hello", " ping"]

def pingedOnce : List ServerAction :=
  let event : Event :=
    {
      readable := true
      reads := [.data pingFrame]
      writes := [.wrote 13]
      reregisters := true
    }
  [
    .loop 0 (.hand 7), .loop 0 (.wake []), .loop 0 (.event 0 event),
    .dispatch 0 (Work.compaction.at 1).readings 1, .loop 0 .finish
  ]

theorem timely_pingedOnce : TimelyActions 0 pingedOnce :=
  ⟨trivial, trivial, trivial, fun _ => .at (by decide), trivial, trivial⟩

/-- Witness: the response to the first ping has arrived, and the second ping is on its way. -/
theorem client_shows_own_answers_pinged
    : ∃ last answers shown,
        (start (KVEngine.new id 30 .always .initial) 1 none).execute (kvStorage id)
          { ratio := 0, maxSegment := 0 } pingedOnce
        = some last
        ∧ last.log.map Line.response = answers.map Answer.frame
        ∧ shown <+: last.own answers 0 0
        ∧ (rustikli pingedLines (Answer.frame (.ok, ["PONG"]))).printed
          = transcript pingedLines shown := by
  have ran : ((start (KVEngine.new id 30 .always .initial) 1 none).execute (kvStorage id)
      { ratio := 0, maxSegment := 0 } pingedOnce).any (fun last =>
        last.log.all (fun line => decide (line.response.length < 2 ^ 32))
        && last.workers[0]?.any (fun loop =>
            (loop.past 0).heard = pingFrame
            && (loop.past 0).sent = Answer.frame (.ok, ["PONG"]))) := by
    decide +kernel
  obtain ⟨last, run, facts⟩ := (Option.any_eq_true _ _).mp ran
  rw [Bool.and_eq_true, List.all_eq_true, Option.any_eq_true] at facts
  obtain ⟨small, loop, found, facts⟩ := facts
  rw [Bool.and_eq_true, decide_eq_true_eq, decide_eq_true_eq] at facts
  obtain ⟨heard, sent⟩ := facts
  have typed : asked pingedLines = [.ping, .ping] := by decide +kernel
  have asks : (rustikli pingedLines (Answer.frame (.ok, ["PONG"]))).sent
      = pingFrame ++ pingFrame := by
    decide +kernel
  have request : Request .ping pingFrame := ⟨by decide +kernel, nofun, by decide⟩
  have requests : ∀ command ∈ asked pingedLines, ∃ bytes, Request command bytes := by
    intro command member
    rw [typed] at member
    obtain rfl : command = .ping := by simpa using member
    exact ⟨pingFrame, request⟩
  obtain ⟨answers, -, shown, -, -, responses, -, firsts, printed, -⟩ :=
    client_shows_own_answers strictMono_id _ (fresh_initial id) 30 .always 1 none run
      timely_pingedOnce found (fun line member => of_decide_eq_true (small line member))
      requests (by rw [heard, asks]; exact List.prefix_append _ _)
      ⟨[], by rw [List.append_nil, sent]⟩
  exact ⟨last, answers, shown, run, responses, firsts, printed⟩

end ServerState

end Rustikv.Server

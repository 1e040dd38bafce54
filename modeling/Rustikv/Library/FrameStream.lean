import Rustikv.Library.BigEndian

/-! Parsers fed with a byte stream piece by piece. What they produce does not depend on
where the stream is cut.
-/

namespace Rustikv.Library

theorem map_eq_ok {ε α β : Type} {result : Except ε α} {read : α → β} {value : β}
    : result.map read = .ok value ↔ ∃ found, result = .ok found ∧ read found = value := by
  cases result <;> simp [Except.map]

/-- Results that read the same are one error, or two values that read the same. -/
theorem map_eq_map_cases {ε α β γ : Type} {left : Except ε α} {right : Except ε β}
    {readLeft : α → γ} {readRight : β → γ} (same : left.map readLeft = right.map readRight)
    : (∃ error, left = .error error ∧ right = .error error)
      ∨ ∃ first second,
          left = .ok first ∧ right = .ok second ∧ readLeft first = readRight second := by
  cases right with
  | error error =>
      cases left with
      | error other =>
          obtain rfl : other = error := Except.error.inj same
          exact .inl ⟨other, rfl, rfl⟩
      | ok first => cases same
  | ok second =>
      obtain ⟨first, rfl, agree⟩ := map_eq_ok.mp same
      exact .inr ⟨first, second, rfl, rfl, agree⟩

/-- What the bytes received so far allow: nothing yet, one more frame with the bytes behind
it, the end of parsing, or an error.
-/
inductive NextFrame (α ε : Type)
  | more
  | frame (value : α) (rest : Bytes)
  | stop
  | fail (error : ε)

/-- A rule for the next frame. Every outcome but `more` is final: bytes that arrive later do
not change it.
-/
structure StreamParser (α ε : Type) where
  next : Bytes → NextFrame α ε
  shrinks
    : ∀ bytes value rest, next bytes = .frame value rest → rest.length < bytes.length
  frame_append
    : ∀ front back value rest,
        next front = .frame value rest → next (front ++ back) = .frame value (rest ++ back)
  stop_append : ∀ front back, next front = .stop → next (front ++ back) = .stop
  fail_append
    : ∀ front back error, next front = .fail error → next (front ++ back) = .fail error

namespace StreamParser

variable {α ε : Type} (parser : StreamParser α ε)

/-- Frames until no further one is complete; the flag tells whether parsing has ended. -/
def drain : Nat → Bytes → Except ε (List α × Bool × Bytes)
  | 0, bytes => .ok ([], false, bytes)
  | fuel + 1, bytes =>
      match parser.next bytes with
      | .more => .ok ([], false, bytes)
      | .stop => .ok ([], true, bytes)
      | .fail error => .error error
      | .frame value rest =>
          (drain fuel rest).map (fun drained => (value :: drained.1, drained.2))

/-- Every frame takes bytes, so their number is enough fuel. -/
def parse (bytes : Bytes) : Except ε (List α × Bool × Bytes) :=
  parser.drain (bytes.length + 1) bytes

theorem drain_eq_parse {fuel : Nat} {bytes : Bytes} (enough : bytes.length < fuel)
    : parser.drain fuel bytes = parser.parse bytes := by
  have same (left right : Nat) (bytes : Bytes) (leftEnough : bytes.length < left)
      (rightEnough : bytes.length < right)
      : parser.drain left bytes = parser.drain right bytes := by
    induction left generalizing right bytes with
    | zero => omega
    | succ left ih =>
        cases right with
        | zero => omega
        | succ right =>
            unfold drain
            cases found : parser.next bytes with
            | frame value rest =>
                have smaller := parser.shrinks bytes value rest found
                simp only [ih right rest (by omega) (by omega)]
            | _ => rfl
  exact same fuel (bytes.length + 1) bytes enough (Nat.lt_succ_self _)

/-- One frame at a time. -/
theorem parse_eq (bytes : Bytes)
    : parser.parse bytes
      = match parser.next bytes with
        | .more => .ok ([], false, bytes)
        | .stop => .ok ([], true, bytes)
        | .fail error => .error error
        | .frame value rest =>
            (parser.parse rest).map (fun drained => (value :: drained.1, drained.2)) := by
  rw [parse, drain]
  cases found : parser.next bytes with
  | frame value rest =>
      simp only [parser.drain_eq_parse (parser.shrinks bytes value rest found)]
  | _ => rfl

/-- Parsing more bytes continues with those that were left over. -/
def continueWith (drained : List α × Bool × Bytes) (back : Bytes)
    : Except ε (List α × Bool × Bytes) :=
  if drained.2.1 then
    .ok (drained.1, true, drained.2.2 ++ back)
  else
    (parser.parse (drained.2.2 ++ back)).map
      (fun more => (drained.1 ++ more.1, more.2))

theorem continueWith_cons (value : α) (drained : List α × Bool × Bytes) (back : Bytes)
    : parser.continueWith (value :: drained.1, drained.2) back
      = (parser.continueWith drained back).map
          (fun result => (value :: result.1, result.2)) := by
  unfold continueWith
  split
  · rfl
  · cases parser.parse (drained.2.2 ++ back) <;> rfl

/-- Parsing a stream is parsing its front and continuing. Witness: induction on the front. -/
theorem parse_append (front back : Bytes)
    : parser.parse (front ++ back)
      = parser.parse front >>= fun drained => parser.continueWith drained back := by
  induction size : front.length using Nat.strong_induction_on generalizing front with
  | _ count ih =>
      subst size
      rw [parser.parse_eq front]
      cases found : parser.next front with
      | more =>
          change _ = parser.continueWith ([], false, front) back
          unfold continueWith
          cases parser.parse (front ++ back) <;> rfl
      | stop =>
          rw [parser.parse_eq, parser.stop_append front back found]
          rfl
      | fail error =>
          rw [parser.parse_eq, parser.fail_append front back error found]
          rfl
      | frame value rest =>
          rw [parser.parse_eq, parser.frame_append front back value rest found]
          dsimp only
          rw [ih rest.length (parser.shrinks front value rest found) rest rfl]
          cases parser.parse rest with
          | error error => rfl
          | ok drained => exact (parser.continueWith_cons value drained back).symm

/-- A stream that parses was parsed as far as its front went, and then on from there. -/
theorem parse_append_ok {front back : Bytes} {values : List α} {stopped : Bool}
    {rest : Bytes} (parsed : parser.parse (front ++ back) = .ok (values, stopped, rest))
    : (∃ left, parser.parse front = .ok (values, true, left) ∧ stopped = true)
      ∨ ∃ found left more,
          parser.parse front = .ok (found, false, left)
          ∧ parser.parse (left ++ back) = .ok (more, stopped, rest)
          ∧ values = found ++ more := by
  rw [parser.parse_append] at parsed
  cases first : parser.parse front with
  | error error =>
      rw [first] at parsed
      cases parsed
  | ok drained =>
      obtain ⟨found, ended, left⟩ := drained
      rw [first] at parsed
      change parser.continueWith (found, ended, left) back = _ at parsed
      cases ended with
      | true =>
          obtain ⟨rfl, same⟩ := Prod.mk.inj (Except.ok.inj parsed)
          obtain ⟨rfl, -⟩ := Prod.mk.inj same
          exact .inl ⟨left, rfl, rfl⟩
      | false =>
          unfold continueWith at parsed
          cases later : parser.parse (left ++ back) with
          | error error =>
              simp only [later] at parsed
              cases parsed
          | ok final =>
              obtain ⟨more, final, last⟩ := final
              simp only [later] at parsed
              obtain ⟨rfl, same⟩ := Prod.mk.inj (Except.ok.inj parsed)
              obtain ⟨rfl, rfl⟩ := Prod.mk.inj same
              exact .inr ⟨found, left, more, rfl, later, rfl⟩

/-- Left-over bytes hold no further frame. -/
theorem parse_rest {bytes : Bytes} {values : List α} {rest : Bytes}
    (parsed : parser.parse bytes = .ok (values, false, rest))
    : parser.next rest = .more := by
  induction size : bytes.length using Nat.strong_induction_on generalizing bytes values with
  | _ count ih =>
      subst size
      rw [parser.parse_eq] at parsed
      cases found : parser.next bytes with
      | more =>
          rw [found] at parsed
          obtain ⟨-, same⟩ := Prod.mk.inj (Except.ok.inj parsed)
          obtain ⟨-, rfl⟩ := Prod.mk.inj same
          exact found
      | stop =>
          rw [found] at parsed
          cases parsed
      | fail error =>
          rw [found] at parsed
          cases parsed
      | frame value remaining =>
          rw [found] at parsed
          dsimp only at parsed
          cases tail : parser.parse remaining with
          | error error =>
              rw [tail] at parsed
              cases parsed
          | ok drained =>
              rw [tail] at parsed
              obtain ⟨-, same⟩ := Prod.mk.inj (Except.ok.inj parsed)
              obtain ⟨values, stopped, last⟩ := drained
              obtain ⟨rfl, rfl⟩ := Prod.mk.inj same
              exact ih remaining.length
                (parser.shrinks bytes value remaining found) tail rfl

/-- What holds of no values, and one frame more of the values behind it, holds of the values
that are parsed.
-/
theorem parse_induction {motive : Bytes → List α → Prop} (none : ∀ bytes, motive bytes [])
    (frame
      : ∀ bytes value rest values,
          parser.next bytes = .frame value rest
          → motive rest values
          → motive bytes (value :: values))
    {bytes : Bytes} {values : List α} {left : Bool × Bytes}
    (parsed : parser.parse bytes = .ok (values, left))
    : motive bytes values := by
  induction size : bytes.length using Nat.strong_induction_on
    generalizing bytes values left with
  | _ count ih =>
      subst size
      rw [parser.parse_eq] at parsed
      cases found : parser.next bytes with
      | more =>
          rw [found] at parsed
          obtain ⟨rfl, -⟩ := Prod.mk.inj (Except.ok.inj parsed)
          exact none bytes
      | stop =>
          rw [found] at parsed
          obtain ⟨rfl, -⟩ := Prod.mk.inj (Except.ok.inj parsed)
          exact none bytes
      | fail error =>
          rw [found] at parsed
          cases parsed
      | frame value rest =>
          rw [found] at parsed
          obtain ⟨drained, tail, same⟩ := map_eq_ok.mp parsed
          obtain ⟨rfl, -⟩ := Prod.mk.inj same
          exact frame bytes value rest drained.1 found
            (ih rest.length (parser.shrinks bytes value rest found) tail rfl)

/-- Feeding a stream in pieces until parsing ends. -/
def feedAll : Bytes → List Bytes → Except ε (List α × Bool × Bytes)
  | rest, [] => .ok ([], false, rest)
  | rest, piece :: pieces =>
      parser.parse (rest ++ piece) >>= fun drained =>
        if drained.2.1 then
          .ok drained
        else
          (feedAll drained.2.2 pieces).map (fun more => (drained.1 ++ more.1, more.2))

/-- However a stream is cut, the same frames are found and parsing ends or not. Witness:
induction over the pieces.
-/
theorem feedAll_eq (rest : Bytes) (idle : parser.next rest = .more) (pieces : List Bytes)
    : (parser.feedAll rest pieces).map (fun fed => (fed.1, fed.2.1))
      = (parser.parse (rest ++ pieces.flatten)).map (fun fed => (fed.1, fed.2.1)) := by
  induction pieces generalizing rest with
  | nil =>
      rw [List.flatten_nil, List.append_nil, parser.parse_eq, idle]
      rfl
  | cons piece pieces ih =>
      rw [List.flatten_cons, ← List.append_assoc, parser.parse_append, feedAll]
      cases parsed : parser.parse (rest ++ piece) with
      | error error => rfl
      | ok drained =>
          obtain ⟨values, stopped, left⟩ := drained
          cases stopped with
          | true => rfl
          | false =>
              have next := ih left (parser.parse_rest parsed)
              simp only [bind, Except.bind, Bool.false_eq_true, if_false, continueWith]
              rcases map_eq_map_cases next with
                ⟨error, fed, whole⟩ | ⟨final, result, fed, whole, agree⟩
              · rw [fed, whole]
              · obtain ⟨items, ended⟩ := Prod.mk.inj agree
                simp only [fed, whole, Except.map, items, ended]

/-- A whole frame is not recognised before its last byte. -/
theorem next_of_prefix {front back : Bytes} {value : α}
    (whole : parser.next (front ++ back) = .frame value []) (missing : back ≠ [])
    : parser.next front = .more := by
  cases found : parser.next front with
  | more => rfl
  | stop =>
      rw [parser.stop_append front back found] at whole
      cases whole
  | fail error =>
      rw [parser.fail_append front back error found] at whole
      cases whole
  | frame other rest =>
      rw [parser.frame_append front back other rest found] at whole
      obtain ⟨-, empty⟩ := NextFrame.frame.inj whole
      exact absurd (List.append_eq_nil_iff.mp empty).2 missing

/-- Whole frames, one behind the other. -/
def Frames (frames : List (Bytes × α)) : Prop :=
  ∀ frame ∈ frames, parser.next frame.1 = .frame frame.2 []

/-- Whole frames are all found, and what follows them is parsed next. -/
theorem parse_frames {frames : List (Bytes × α)} (whole : parser.Frames frames)
    (back : Bytes)
    : parser.parse ((frames.map Prod.fst).flatten ++ back)
      = (parser.parse back).map
          (fun drained => (frames.map Prod.snd ++ drained.1, drained.2)) := by
  induction frames with
  | nil => cases parsed : parser.parse back <;> simp [parsed, Except.map]
  | cons frame rest ih =>
      have first := whole frame (by simp)
      have others := ih (fun other member => whole other (List.mem_cons_of_mem _ member))
      rw [List.map_cons, List.flatten_cons, List.append_assoc, parser.parse_eq,
        parser.frame_append frame.1 _ frame.2 [] first]
      dsimp only
      rw [List.nil_append, others]
      cases parser.parse back <;> rfl

/-- With bytes missing at the end, frames are missing too. Witness: induction over the
frames.
-/
theorem parse_of_prefix {frames : List (Bytes × α)} (whole : parser.Frames frames)
    {front back : Bytes} (cut : (frames.map Prod.fst).flatten = front ++ back)
    (missing : back ≠ [])
    : ∃ values rest,
        parser.parse front = .ok (values, false, rest) ∧ values ≠ frames.map Prod.snd := by
  induction frames generalizing front with
  | nil =>
      have empty := List.append_eq_nil_iff.mp cut.symm
      exact absurd empty.2 missing
  | cons frame rest ih =>
      have first := whole frame (by simp)
      rw [List.map_cons, List.flatten_cons] at cut
      rcases List.append_eq_append_iff.mp cut with ⟨more, rfl, tail⟩ | ⟨more, same, tail⟩
      · obtain ⟨values, left, parsed, fewer⟩ :=
          ih (fun other member => whole other (List.mem_cons_of_mem _ member)) tail
        refine ⟨frame.2 :: values, left, ?_, by simpa using fewer⟩
        rw [parser.parse_eq, parser.frame_append frame.1 more frame.2 [] first]
        dsimp only
        rw [List.nil_append, parsed]
        rfl
      · by_cases complete : more = []
        · subst complete
          rw [List.append_nil] at same
          rw [List.nil_append] at tail
          obtain ⟨values, left, parsed, fewer⟩ :=
            ih (fun other member => whole other (List.mem_cons_of_mem _ member))
              (tail.symm.trans (List.nil_append back).symm)
          refine ⟨frame.2 :: values, left, ?_, by simpa using fewer⟩
          rw [← same, parser.parse_eq, first]
          dsimp only
          rw [parsed]
          rfl
        · rw [same] at first
          refine ⟨[], front, ?_, by simp⟩
          rw [parser.parse_eq, parser.next_of_prefix first complete]

end StreamParser

end Rustikv.Library

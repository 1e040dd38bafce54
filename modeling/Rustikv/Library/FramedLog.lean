import Rustikv.Library.BigEndian

/-! Append-only logs of self-delimiting frames: locating frames by byte offset and
scanning a whole log.
-/

namespace Rustikv.Library

/-- A frame format: every valid frame is decoded from the head of any byte sequence that
starts with its encoding, and leaves the rest unread.
-/
structure FrameCodec (α ε : Type) where
  encode : α → Bytes
  decode : Bytes → Except ε (α × Bytes)
  Valid : α → Prop
  decode_encode
    : ∀ frame, Valid frame → ∀ rest, decode (encode frame ++ rest) = .ok (frame, rest)
  encode_ne_nil : ∀ frame, encode frame ≠ []

/-- The scanning loop shared by log readers: decode the next frame until the end of the
bytes, passing each frame with its start offset to `step`. An error accepted by `stops`
ends the loop with what was read so far; any other error is returned. Every iteration
consumes input, so the byte count is enough fuel.
-/
def scanFrom {α ε σ : Type} (decode : Bytes → Except ε (α × Bytes)) (stops : ε → Bool)
    (step : σ → Nat → α → σ)
    : Nat → Nat → Bytes → σ → Except ε σ
  | 0, _, _, state => .ok state
  | fuel + 1, offset, bytes, state =>
      if bytes.isEmpty then
        .ok state
      else
        match decode bytes with
        | .error error => if stops error then .ok state else .error error
        | .ok (frame, rest) =>
            scanFrom decode stops step fuel (offset + (bytes.length - rest.length)) rest
              (step state offset frame)

/-- What every step preserves holds at the end of a scan. -/
theorem scanFrom_invariant {α ε σ : Type} {decode : Bytes → Except ε (α × Bytes)}
    {stops : ε → Bool} {step : σ → Nat → α → σ} (good : σ → Prop)
    (keeps
      : ∀ state offset bytes rest frame,
          decode bytes = .ok (frame, rest) → good state → good (step state offset frame))
    {fuel offset : Nat} {bytes : Bytes} {state final : σ} (start : good state)
    (done : scanFrom decode stops step fuel offset bytes state = .ok final)
    : good final := by
  induction fuel generalizing offset bytes state with
  | zero =>
      obtain rfl := Except.ok.inj done
      exact start
  | succ fuel ih =>
      unfold scanFrom at done
      split at done
      · obtain rfl := Except.ok.inj done
        exact start
      · split at done
        · split at done
          · obtain rfl := Except.ok.inj done
            exact start
          · cases done
        next frame rest read => exact ih (keeps state offset bytes rest frame read start) done

namespace FrameCodec

variable {α ε σ : Type} (codec : FrameCodec α ε)

def encodeAll (frames : List α) : Bytes :=
  frames.flatMap codec.encode

/-- Each frame with the byte offset it starts at, when the first starts at `offset`. -/
def locate : Nat → List α → List (Nat × α)
  | _, [] => []
  | offset, frame :: rest =>
      (offset, frame) :: locate (offset + (codec.encode frame).length) rest

@[simp]
theorem encodeAll_nil : codec.encodeAll [] = [] := rfl

@[simp]
theorem encodeAll_cons (frame : α) (rest : List α)
    : codec.encodeAll (frame :: rest) = codec.encode frame ++ codec.encodeAll rest := by
  simp [encodeAll]

@[simp]
theorem encodeAll_append (front back : List α)
    : codec.encodeAll (front ++ back) = codec.encodeAll front ++ codec.encodeAll back := by
  simp [encodeAll]

theorem locate_append (offset : Nat) (front back : List α)
    : codec.locate offset (front ++ back)
      = codec.locate offset front
        ++ codec.locate (offset + (codec.encodeAll front).length) back := by
  induction front generalizing offset with
  | nil => simp [locate]
  | cons frame rest ih => simp [locate, ih, Nat.add_assoc]

@[simp]
theorem map_snd_locate (offset : Nat) (frames : List α)
    : (codec.locate offset frames).map Prod.snd = frames := by
  induction frames generalizing offset with
  | nil => rfl
  | cons frame rest ih => simp [locate, ih]

/-- Two frame types with the same encodings give the same bytes. -/
theorem encodeAll_map {β : Type} (other : FrameCodec β ε) {f : β → α}
    (same : ∀ frame, codec.encode (f frame) = other.encode frame) (frames : List β)
    : codec.encodeAll (frames.map f) = other.encodeAll frames := by
  simp [encodeAll, List.flatMap_map, same]

theorem locate_map {β : Type} (other : FrameCodec β ε) {f : β → α}
    (same : ∀ frame, codec.encode (f frame) = other.encode frame) (offset : Nat)
    (frames : List β)
    : codec.locate offset (frames.map f)
      = (other.locate offset frames).map (fun located => (located.1, f located.2)) := by
  induction frames generalizing offset with
  | nil => rfl
  | cons frame rest ih => simp [locate, ih, same]

/-- A located frame is what the log holds at that offset. Witness: induction over the
frames, with everything before the log's first frame dropped.
-/
theorem drop_of_mem_locate {frames : List α} {start offset : Nat} {frame : α}
    (member : (offset, frame) ∈ codec.locate start frames)
    : start ≤ offset
      ∧ ∃ rest,
          (codec.encodeAll frames).drop (offset - start) = codec.encode frame ++ rest := by
  induction frames generalizing start with
  | nil => simp [locate] at member
  | cons first more ih =>
      rcases List.mem_cons.mp member with same | later
      · obtain ⟨rfl, rfl⟩ := Prod.mk.inj same
        exact ⟨le_refl _, codec.encodeAll more, by simp⟩
      · obtain ⟨bound, rest, found⟩ := ih later
        have past : offset - start
            = (codec.encode first).length
              + (offset - (start + (codec.encode first).length)) := by
          omega
        refine ⟨by omega, rest, ?_⟩
        rw [encodeAll_cons, past, ← List.drop_drop, List.drop_left, found]

/-- Scanning visits every frame of an intact front once, in order, at its offset, and goes
on behind it. Witness: induction over the frames.
-/
theorem scanFrom_append (stops : ε → Bool) (step : σ → Nat → α → σ) {frames : List α}
    (valid : ∀ frame ∈ frames, codec.Valid frame) {fuel : Nat} (offset : Nat) (back : Bytes)
    (enough : (codec.encodeAll frames ++ back).length ≤ fuel) (state : σ)
    : ∃ left,
        back.length ≤ left
        ∧ scanFrom codec.decode stops step fuel offset (codec.encodeAll frames ++ back) state
          = scanFrom codec.decode stops step left
              (offset + (codec.encodeAll frames).length) back
              ((codec.locate offset frames).foldl
                (fun state located => step state located.1 located.2) state) := by
  induction frames generalizing fuel offset state with
  | nil => exact ⟨fuel, enough, by simp [locate]⟩
  | cons frame rest ih =>
      have nonempty : 0 < (codec.encode frame).length :=
        List.length_pos_iff.mpr (codec.encode_ne_nil frame)
      simp only [encodeAll_cons, List.append_assoc, List.length_append] at enough
      cases fuel with
      | zero => omega
      | succ fuel =>
          have decoded := codec.decode_encode frame (valid frame (by simp))
            (codec.encodeAll rest ++ back)
          have fewer : (codec.encodeAll rest ++ back).length ≤ fuel := by
            rw [List.length_append]
            omega
          obtain ⟨left, fits, tail⟩ := ih
            (fun other member => valid other (List.mem_cons_of_mem _ member))
            (offset + (codec.encode frame).length) fewer (step state offset frame)
          refine ⟨left, fits, ?_⟩
          simp [scanFrom, decoded, codec.encode_ne_nil frame, locate, tail, Nat.add_assoc]

/-- Scanning a log of valid frames visits every frame once, in order, at its offset. -/
theorem scanFrom_encodeAll (stops : ε → Bool) (step : σ → Nat → α → σ) {frames : List α}
    (valid : ∀ frame ∈ frames, codec.Valid frame) {fuel : Nat} (offset : Nat)
    (enough : (codec.encodeAll frames).length ≤ fuel) (state : σ)
    : scanFrom codec.decode stops step fuel offset (codec.encodeAll frames) state
      = .ok ((codec.locate offset frames).foldl
          (fun state located => step state located.1 located.2) state) := by
  obtain ⟨left, -, scanned⟩ := codec.scanFrom_append stops step valid offset []
    (by simpa using enough) state
  rw [List.append_nil] at scanned
  rw [scanned]
  cases left <;> simp [scanFrom]

/-- Bytes that do not decode end the scan with their error, unless `stops` accepts it. -/
theorem scanFrom_unread (stops : ε → Bool) (step : σ → Nat → α → σ) {frames : List α}
    (valid : ∀ frame ∈ frames, codec.Valid frame) {fuel : Nat} (offset : Nat) {back : Bytes}
    (some : back ≠ []) {error : ε} (unread : codec.decode back = .error error)
    (reported : stops error = false)
    (enough : (codec.encodeAll frames ++ back).length ≤ fuel) (state : σ)
    : scanFrom codec.decode stops step fuel offset (codec.encodeAll frames ++ back) state
      = .error error := by
  obtain ⟨left, fits, scanned⟩ :=
    codec.scanFrom_append stops step valid offset back enough state
  have nonempty : 0 < back.length := List.length_pos_iff.mpr some
  rw [scanned]
  cases left with
  | zero => omega
  | succ left => simp [scanFrom, some, unread, reported]

/-- A log that is cut off holds whole frames and the beginning of the next one, if it is cut
inside a frame. The whole frames are those that end before the cut.
-/
theorem take_encodeAll (frames : List α) (cut : Nat)
    : ∃ whole torn,
        (codec.encodeAll frames).take cut = codec.encodeAll (frames.take whole) ++ torn
        ∧ (torn = []
          ∨ ∃ frame ∈ frames, ∃ missing,
              torn ++ missing = codec.encode frame ∧ missing ≠ [])
        ∧ ∀ index < frames.length,
            index < whole ↔ (codec.encodeAll (frames.take (index + 1))).length ≤ cut := by
  induction frames generalizing cut with
  | nil => exact ⟨0, [], by simp⟩
  | cons first rest ih =>
      rw [encodeAll_cons]
      by_cases ends : (codec.encode first).length ≤ cut
      · obtain ⟨whole, torn, same, begun, inside⟩ := ih (cut - (codec.encode first).length)
        refine ⟨whole + 1, torn, ?_, ?_, ?_⟩
        · rw [List.take_append, List.take_of_length_le ends, same, List.take_succ_cons,
            encodeAll_cons, List.append_assoc]
        · refine begun.imp id ?_
          rintro ⟨frame, member, found⟩
          exact ⟨frame, List.mem_cons_of_mem _ member, found⟩
        · intro index bound
          rw [List.take_succ_cons, encodeAll_cons, List.length_append]
          cases index with
          | zero => simpa using ends
          | succ index =>
              have later := inside index (Nat.lt_of_succ_lt_succ bound)
              omega
      · refine ⟨0, (codec.encode first).take cut, ?_, .inr ⟨first, by simp, ?_⟩, ?_⟩
        · rw [List.take_append_of_le_length (by omega), List.take_zero, encodeAll_nil,
            List.nil_append]
        · exact ⟨(codec.encode first).drop cut, List.take_append_drop _ _,
            by rw [ne_eq, List.drop_eq_nil_iff]; exact ends⟩
        · intro index bound
          rw [List.take_succ_cons, encodeAll_cons, List.length_append]
          omega

/-- Scanning a log that is cut off visits the frames that end before the cut, when a reader
stops at the beginning of a frame.
-/
theorem scanFrom_take (stops : ε → Bool) (step : σ → Nat → α → σ) {frames : List α}
    (valid : ∀ frame ∈ frames, codec.Valid frame)
    (halts
      : ∀ frame ∈ frames, ∀ torn missing,
        torn ++ missing = codec.encode frame
        → missing ≠ []
        → ∃ error, codec.decode torn = .error error ∧ stops error = true)
    (cut fuel : Nat) (offset : Nat)
    (enough : ((codec.encodeAll frames).take cut).length ≤ fuel) (state : σ)
    : ∃ whole,
        scanFrom codec.decode stops step fuel offset ((codec.encodeAll frames).take cut) state
          = .ok ((codec.locate offset (frames.take whole)).foldl
              (fun state located => step state located.1 located.2) state)
        ∧ ∀ index < frames.length,
            index < whole ↔ (codec.encodeAll (frames.take (index + 1))).length ≤ cut := by
  obtain ⟨whole, torn, same, begun, inside⟩ := codec.take_encodeAll frames cut
  rw [same] at enough ⊢
  refine ⟨whole, ?_, inside⟩
  obtain ⟨left, -, scanned⟩ := codec.scanFrom_append stops step
    (fun frame member => valid frame (List.mem_of_mem_take member)) offset torn enough state
  rw [scanned]
  cases left with
  | zero => rfl
  | succ left =>
      rcases begun with rfl | ⟨frame, member, missing, parts, lost⟩
      · simp [scanFrom]
      · obtain ⟨error, failed, accepted⟩ := halts frame member torn missing parts lost
        simp [scanFrom, failed, accepted]

end FrameCodec

end Rustikv.Library

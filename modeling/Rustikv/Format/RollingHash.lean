import Rustikv.Format.Lz77
import Rustikv.Library.LinkedChain

/-! The rolling hash of the LZ77 encoder, turn by turn. Behind a match the loop feeds a byte
that the match has fed already, and where that changes the hash, the next positions are
looked up and entered under a hash that is not their own.
-/

namespace Rustikv.Lz77

open Library

-----------------------------------------------------------------------------------------
-- Three bytes
-----------------------------------------------------------------------------------------

/-- The hash of the three bytes from a position on. -/
def trigramHash (data : Bytes) (pos : Nat) : UInt32 :=
  feed data (feed data (feed data 0 pos) (pos + 1)) (pos + 2)

theorem toNat_rollingHash (prev : UInt32) (byte : UInt8)
    : (rollingHash prev byte).toNat = (prev.toNat <<< 5 ^^^ byte.toNat) % 2 ^ 15 := by
  have mask : (UInt32.ofNat hashSize - 1).toNat = 2 ^ 15 - 1 := rfl
  have shift : hShift.toNat = 5 := rfl
  rw [rollingHash, UInt32.toNat_and, UInt32.toNat_xor, UInt32.toNat_shiftLeft, mask, shift,
    Nat.and_two_pow_sub_one_eq_mod, Nat.xor_mod_two_pow, Nat.xor_mod_two_pow]
  congr 1
  exact Nat.mod_mod_of_dvd _ (by decide)

theorem testBit_rollingHash (prev : UInt32) (byte : UInt8) (i : Nat)
    : (rollingHash prev byte).toNat.testBit i
      = (decide (i < 15)
        && ((decide (5 ≤ i) && prev.toNat.testBit (i - 5)) ^^ byte.toNat.testBit i)) := by
  rw [toNat_rollingHash, Nat.testBit_mod_two_pow, Nat.testBit_xor, Nat.testBit_shiftLeft]

/-- Three more bytes leave nothing of what was hashed before. -/
theorem rollingHash_forgets (prev other : UInt32) (a b c : UInt8)
    : rollingHash (rollingHash (rollingHash prev a) b) c
      = rollingHash (rollingHash (rollingHash other a) b) c := by
  refine UInt32.toNat_inj.mp (Nat.eq_of_testBit_eq fun i => ?_)
  simp only [testBit_rollingHash]
  by_cases low : i < 15
  · have gone : ¬ 5 ≤ i - 5 - 5 := by
      omega
    simp [gone]
  · simp [low]

theorem testBit_byte (byte : UInt8) {i : Nat} (high : 8 ≤ i)
    : byte.toNat.testBit i = false :=
  Nat.testBit_lt_two_pow (byte.toNat_lt.trans_le (Nat.pow_le_pow_right (by decide) high))

/-- The next byte shifts the low ten bits up and the others out. -/
theorem rollingHash_eq_iff {prev other : UInt32} {byte : UInt8}
    : rollingHash prev byte = rollingHash other byte
      ↔ ∀ j < 10, prev.toNat.testBit j = other.toNat.testBit j := by
  constructor
  · intro same j low
    have shifted := congrArg (fun hash => hash.toNat.testBit (j + 5)) same
    have inside : j + 5 < 15 := by
      omega
    simpa [testBit_rollingHash, inside] using shifted
  · intro same
    refine UInt32.toNat_inj.mp (Nat.eq_of_testBit_eq fun i => ?_)
    rw [testBit_rollingHash, testBit_rollingHash]
    by_cases low : i < 15
    · rw [same (i - 5) (by omega)]
    · simp [low]

/-- The low ten bits come from the last two bytes. -/
theorem testBit_twoBytes (prev : UInt32) (a b : UInt8) {j : Nat} (low : j < 10)
    : (rollingHash (rollingHash prev a) b).toNat.testBit j
      = ((decide (5 ≤ j) && a.toNat.testBit (j - 5)) ^^ b.toNat.testBit j) := by
  have small : j < 15 := by
    omega
  have near : j - 5 < 15 := by
    omega
  have gone : ¬ 5 ≤ j - 5 := by
    omega
  simp [testBit_rollingHash, small, near, gone]

theorem xor_eq_xor_iff
    : ∀ high x y z w : Bool,
        ((high && y) ^^ w) = ((high && x) ^^ z) ↔ (z ^^ w) = (high && (x ^^ y)) := by
  decide

/-- Feeding the last of three bytes again changes their hash, unless the last two differ just
where the low five bits of the first two differ, five bits further up.
-/
theorem rollingHash_again_iff (a b c : UInt8)
    : rollingHash (rollingHash (rollingHash (rollingHash 0 a) b) c) c
        = rollingHash (rollingHash (rollingHash 0 a) b) c
      ↔ (b ^^^ c).toNat = (a ^^^ b).toNat % 2 ^ 5 * 2 ^ 5 := by
  have left : ∀ j,
      (b ^^^ c).toNat.testBit j = (b.toNat.testBit j ^^ c.toNat.testBit j) := by
    intro j
    rw [UInt8.toNat_xor, Nat.testBit_xor]
  have right : ∀ j,
      ((a ^^^ b).toNat % 2 ^ 5 * 2 ^ 5).testBit j
      = (decide (5 ≤ j)
        && (decide (j - 5 < 5) && (a.toNat.testBit (j - 5) ^^ b.toNat.testBit (j - 5)))) := by
    intro j
    rw [Nat.testBit_mul_two_pow, Nat.testBit_mod_two_pow, UInt8.toNat_xor, Nat.testBit_xor]
  have near : ∀ j < 10,
      ((rollingHash (rollingHash (rollingHash 0 a) b) c).toNat.testBit j
        = (rollingHash (rollingHash 0 a) b).toNat.testBit j)
      ↔ (b ^^^ c).toNat.testBit j = ((a ^^^ b).toNat % 2 ^ 5 * 2 ^ 5).testBit j := by
    intro j low
    have inside : j - 5 < 5 := by
      omega
    rw [testBit_twoBytes _ b c low, testBit_twoBytes _ a b low, left, right,
      decide_eq_true inside, Bool.true_and]
    exact xor_eq_xor_iff ..
  rw [rollingHash_eq_iff]
  constructor
  · intro same
    refine Nat.eq_of_testBit_eq fun j => ?_
    by_cases low : j < 10
    · exact (near j low).mp (same j low)
    · have far : ¬ j - 5 < 5 := by
        omega
      rw [left, right, testBit_byte b (by omega), testBit_byte c (by omega)]
      simp [far]
  · intro same j low
    rw [near j low, same]

variable {data : Bytes} {pos : Nat}

theorem feed_eq (inside : pos < data.length) (hash : UInt32)
    : feed data hash pos = rollingHash hash data[pos] := by
  rw [feed, List.getElem?_eq_getElem inside]

theorem trigramHash_eq (inside : pos + 3 ≤ data.length)
    : trigramHash data pos
      = rollingHash (rollingHash (rollingHash 0 data[pos]) data[pos + 1]) data[pos + 2] := by
  rw [trigramHash, feed_eq (by omega), feed_eq (by omega), feed_eq (by omega)]

/-- The byte behind a trigram leads to the next one. -/
theorem feed_trigramHash (inside : pos + 4 ≤ data.length)
    : feed data (trigramHash data pos) (pos + 3) = trigramHash data (pos + 1) := by
  rw [trigramHash_eq (by omega), trigramHash_eq (by omega), feed_eq (by omega)]
  exact rollingHash_forgets _ 0 ..

/-- The three bytes from a position on have a hash that the last of them may be fed to once
more without a change, such as three equal bytes; or there are fewer than three.
-/
def Spared (data : Bytes) (pos : Nat) : Prop :=
  match data[pos]?, data[pos + 1]?, data[pos + 2]? with
  | some a, some b, some c => (b ^^^ c).toNat = (a ^^^ b).toNat % 2 ^ 5 * 2 ^ 5
  | _, _, _ => True

theorem spared_iff
    : Spared data pos
      ↔ (pos + 3 ≤ data.length
        → feed data (trigramHash data pos) (pos + 2) = trigramHash data pos) := by
  by_cases inside : pos + 3 ≤ data.length
  · have bytes : Spared data pos
        = ((data[pos + 1] ^^^ data[pos + 2]).toNat
          = (data[pos] ^^^ data[pos + 1]).toNat % 2 ^ 5 * 2 ^ 5) := by
      rw [Spared, List.getElem?_eq_getElem (by omega), List.getElem?_eq_getElem (by omega),
        List.getElem?_eq_getElem (by omega)]
    rw [bytes, ← rollingHash_again_iff, trigramHash_eq inside, feed_eq (by omega)]
    exact ⟨fun again _ => again, fun again => again inside⟩
  · refine ⟨fun _ within => absurd within inside, fun _ => ?_⟩
    have past : data[pos + 2]? = none := List.getElem?_eq_none (by omega)
    unfold Spared
    rw [past]
    split
    next impossible => cases impossible
    next => trivial

-----------------------------------------------------------------------------------------
-- Positions under their hashes
-----------------------------------------------------------------------------------------

/-- The positions before this one whose trigrams have a hash, the latest first. -/
def positions (data : Bytes) (hash : UInt32) : Nat → List Nat
  | 0 => []
  | pos + 1 =>
      if pos + 3 ≤ data.length ∧ trigramHash data pos = hash then
        pos :: positions data hash pos
      else
        positions data hash pos

theorem mem_positions {hash : UInt32} {earlier : Nat}
    : earlier ∈ positions data hash pos
      ↔ earlier < pos ∧ earlier + 3 ≤ data.length ∧ trigramHash data earlier = hash := by
  induction pos with
  | zero => simp [positions]
  | succ pos ih =>
      unfold positions
      split
      next own =>
        rw [List.mem_cons, ih]
        constructor
        · rintro (rfl | ⟨before, held⟩)
          · exact ⟨Nat.lt_succ_self _, own⟩
          · exact ⟨by omega, held⟩
        · rintro ⟨before, held⟩
          rcases Nat.lt_succ_iff_lt_or_eq.mp before with earlier | rfl
          · exact .inr ⟨earlier, held⟩
          · exact .inl rfl
      next other =>
        rw [ih]
        constructor
        · rintro ⟨before, held⟩
          exact ⟨by omega, held⟩
        · rintro ⟨before, held⟩
          refine ⟨?_, held⟩
          rcases Nat.lt_succ_iff_lt_or_eq.mp before with earlier | rfl
          · exact earlier
          · exact absurd held other

theorem descending_positions (data : Bytes) (hash : UInt32) (pos : Nat)
    : (positions data hash pos).Pairwise (· > ·) := by
  induction pos with
  | zero => exact .nil
  | succ pos ih =>
      unfold positions
      split
      · exact List.pairwise_cons.mpr ⟨fun earlier member => (mem_positions.mp member).1, ih⟩
      · exact ih

namespace Tables

variable {tables : Tables} {hash : UInt32}

/-- The latest position entered under a hash. -/
def head (tables : Tables) (hash : UInt32) : Option Nat :=
  if tables.table hash.toNat = emptySlot then none
  else some (tables.table hash.toNat).toNat

/-- The positions before this one are entered under their own hashes, and no others. -/
structure Indexed (tables : Tables) (data : Bytes) (pos : Nat) : Prop where
  follows : ∀ hash, Follows tables.chain (tables.head hash) (positions data hash pos)
  fresh : ∀ index, pos ≤ index → tables.chain index = none

theorem indexed_new (data : Bytes) : Tables.new.Indexed data 0 where
  follows _ := rfl
  fresh _ _ := rfl

theorem head_insert (other : UInt32) (small : pos < 2 ^ 32 - 1)
    : (tables.insert hash pos).head other = if other = hash then some pos else tables.head other
    := by
  have kept : (UInt32.ofNat pos).toNat = pos :=
    UInt32.toNat_ofNat_of_lt' (by simp only [UInt32.size]; omega)
  have filled : UInt32.ofNat pos ≠ emptySlot := by
    intro same
    have value := congrArg UInt32.toNat same
    rw [kept] at value
    have limit : emptySlot.toNat = 2 ^ 32 - 1 := rfl
    omega
  by_cases same : other = hash
  · subst same
    simp [head, insert, filled, kept]
  · have apart : other.toNat ≠ hash.toNat := fun equal => same (UInt32.toNat_inj.mp equal)
    simp [head, insert, apart, same]

theorem chain_insert (index : Nat)
    : (tables.insert hash pos).chain index
      = if index = pos ∧ tables.head hash ≠ none then tables.head hash
        else tables.chain index := by
  unfold insert head
  by_cases filled : tables.table hash.toNat = emptySlot
  · simp [filled]
  · by_cases here : index = pos <;> simp [filled, here]

/-- A position is entered in front of those of its hash. -/
theorem Indexed.insert (indexed : tables.Indexed data pos) (inside : pos + 3 ≤ data.length)
    (small : pos < 2 ^ 32 - 1)
    : (tables.insert (trigramHash data pos) pos).Indexed data (pos + 1) where
  follows other := by
    have kept : ∀ hash, ∀ index ∈ positions data hash pos,
        tables.chain index = (tables.insert (trigramHash data pos) pos).chain index := by
      intro hash index member
      have before := (mem_positions.mp member).1
      rw [chain_insert, if_neg (by omega)]
    rw [head_insert other small]
    by_cases same : other = trigramHash data pos
    · subst same
      have link : (tables.insert (trigramHash data pos) pos).chain pos
          = tables.head (trigramHash data pos) := by
        rw [chain_insert]
        split
        · rfl
        next empty =>
          rw [indexed.fresh pos le_rfl]
          have none : tables.head (trigramHash data pos) = none := by simpa using empty
          exact none.symm
      rw [if_pos rfl, positions, if_pos ⟨inside, rfl⟩]
      refine ⟨rfl, ?_⟩
      rw [link]
      exact (indexed.follows _).congr (kept _)
    · rw [if_neg same, positions, if_neg (fun own => same own.2.symm)]
      exact (indexed.follows other).congr (kept other)
  fresh index later := by
    rw [chain_insert, if_neg (by omega)]
    exact indexed.fresh index (by omega)

/-- A position without a trigram is not entered. -/
theorem Indexed.skip (indexed : tables.Indexed data pos) (outside : ¬ pos + 3 ≤ data.length)
    : tables.Indexed data (pos + 1) where
  follows hash := by
    rw [positions, if_neg (fun own => outside own.1)]
    exact indexed.follows hash
  fresh index later := indexed.fresh index (by omega)

end Tables

/-- Behind a match the hash is that of the position there. Witness: induction on the length of
the match.
-/
theorem insertMatched_hash {hash : UInt32} (tables : Tables)
    (own : pos + 3 ≤ data.length → hash = trigramHash data pos) {count : Nat}
    (behind : pos + count + 3 ≤ data.length)
    : (insertMatched data count pos tables hash).2 = trigramHash data (pos + count) := by
  induction count generalizing pos tables hash with
  | zero => exact own behind
  | succ count ih =>
      rw [insertMatched, Nat.add_comm count, ← Nat.add_assoc]
      refine ih _ (fun inside => ?_) (by omega)
      rw [own (by omega)]
      exact feed_trigramHash (by omega)

/-- The positions of a match are entered under their own hashes. Witness: induction on its
length.
-/
theorem insertMatched_indexed {tables : Tables} {hash : UInt32}
    (indexed : tables.Indexed data pos) (small : data.length ≤ 2 ^ 32 + 1)
    (own : pos + 3 ≤ data.length → hash = trigramHash data pos) (count : Nat)
    : (insertMatched data count pos tables hash).1.Indexed data (pos + count) := by
  induction count generalizing pos tables hash with
  | zero => exact indexed
  | succ count ih =>
      rw [insertMatched, Nat.add_comm count, ← Nat.add_assoc]
      refine ih ?_ (fun inside => ?_)
      · split
        next inside =>
          rw [own inside]
          exact indexed.insert inside (by omega)
        next outside => exact indexed.skip outside
      · rw [own (by omega)]
        exact feed_trigramHash (by omega)

-----------------------------------------------------------------------------------------
-- What the search finds
-----------------------------------------------------------------------------------------

/-- How long the data at a position agree with those at an earlier one. -/
def agreement (data : Bytes) (earlier pos : Nat) : Nat :=
  commonLength (data.drop earlier) ((data.drop pos).take lookaheadWindow)

/-- The search keeps what it has found, and finds as much as any candidate of the window
gives that it comes to. Witness: induction on the candidates left.
-/
theorem searchChain_finds {chain : Nat → Option Nat} {candidate : Nat} {items : List Nat}
    (follows : Follows chain (some candidate) items) (descending : items.Pairwise (· > ·))
    (before : ∀ item ∈ items, item < pos) (fuel : Nat) (best : Match)
    : ∃ found,
        searchChain data pos chain fuel candidate best = some found
        ∧ best.len ≤ found.len
        ∧ ∀ earlier ∈ items.take fuel,
            pos ≤ earlier + searchWindow → agreement data earlier pos ≤ found.len := by
  induction fuel generalizing candidate items best with
  | zero => exact ⟨best, rfl, le_rfl, by simp⟩
  | succ fuel ih =>
      cases items with
      | nil => cases follows
      | cons item rest =>
          obtain ⟨same, behind⟩ := follows
          obtain rfl := Option.some.inj same
          obtain ⟨above, descending⟩ := List.pairwise_cons.mp descending
          obtain ⟨here, before⟩ := List.forall_mem_cons.mp before
          rw [searchChain, if_neg (not_le.mpr here), List.take_succ_cons]
          split
          next far =>
            refine ⟨best, rfl, le_rfl, ?_⟩
            intro earlier member near
            rcases List.mem_cons.mp member with rfl | later
            · omega
            · have lower := above earlier (List.mem_of_mem_take later)
              omega
          next near =>
            let longer : Match :=
              if best.len < agreement data candidate pos then
                { offset := pos - candidate, len := agreement data candidate pos }
              else
                best
            have kept : best.len ≤ longer.len := by
              simp only [longer]
              split
              next improves => exact improves.le
              next => exact le_rfl
            have measured : agreement data candidate pos ≤ longer.len := by
              simp only [longer]
              split
              next => exact le_rfl
              next enough => exact not_lt.mp enough
            cases next : chain candidate with
            | none =>
                refine ⟨longer, rfl, kept, ?_⟩
                intro earlier member within
                cases rest with
                | nil =>
                    rw [List.take_nil, List.mem_singleton] at member
                    rwa [member]
                | cons other more =>
                    rw [next] at behind
                    cases behind.1
            | some prev =>
                rw [next] at behind
                obtain ⟨found, searched, longest, others⟩ :=
                  ih behind descending before longer
                refine ⟨found, searched, kept.trans longest, ?_⟩
                intro earlier member within
                rcases List.mem_cons.mp member with rfl | later
                · exact measured.trans longest
                · exact others earlier later within

/-- An earlier occurrence within the window and the chain limit is found, or a longer one. -/
theorem findLongestMatch_finds {tables : Tables} (indexed : tables.Indexed data pos)
    (inside : pos + 3 ≤ data.length) {earlier : Nat}
    (listed : earlier ∈ (positions data (trigramHash data pos) pos).take maxChain)
    (near : pos ≤ earlier + searchWindow) (occurs : 3 ≤ agreement data earlier pos)
    : ∃ best,
        findLongestMatch data pos (trigramHash data pos) tables = some (some best)
        ∧ agreement data earlier pos ≤ best.len := by
  have size : ¬ ((data.drop pos).take lookaheadWindow).length < 3 := by
    simp only [List.length_take, List.length_drop, lookaheadWindow]
    omega
  have follows := indexed.follows (trigramHash data pos)
  have filled : tables.table (trigramHash data pos).toNat ≠ emptySlot := by
    intro empty
    have first : tables.head (trigramHash data pos) = none := if_pos empty
    rw [first] at follows
    cases listing : positions data (trigramHash data pos) pos with
    | nil =>
        rw [listing] at listed
        simp at listed
    | cons item rest =>
        rw [listing] at follows
        cases follows.1
  have head : tables.head (trigramHash data pos)
      = some (tables.table (trigramHash data pos).toNat).toNat :=
    if_neg filled
  rw [head] at follows
  obtain ⟨found, searched, -, longest⟩ := searchChain_finds follows
    (descending_positions data _ pos) (fun item member => (mem_positions.mp member).1) maxChain
    { offset := 0, len := 0 }
  have long := longest earlier listed near
  refine ⟨found, ?_, long⟩
  have enough : ¬ found.len < 3 := by
    omega
  rw [findLongestMatch, if_neg size]
  dsimp only
  rw [if_neg filled, searched]
  simp [enough]

-----------------------------------------------------------------------------------------
-- Turns of the loop
-----------------------------------------------------------------------------------------

/-- The variables of `encode` at the top of its loop. -/
structure EncodeState where
  pos : Nat
  tables : Tables
  hash : UInt32

namespace EncodeState

variable (data : Bytes) (state : EncodeState)

def start : EncodeState :=
  { pos := 0, tables := .new, hash := feed data (feed data 0 0) 1 }

/-- The hash that is passed to `find_longest_match`. -/
def passed : UInt32 :=
  feed data state.hash (state.pos + 2)

def found : Option (Option Match) :=
  findLongestMatch data state.pos (state.passed data) state.tables

/-- One turn: the token that is written, and the variables behind it. -/
def turn : Option (Bytes × EncodeState) := do
  match ← state.found data with
  | some best =>
      let (tables, hash) :=
        insertMatched data best.len state.pos state.tables (state.passed data)
      return (1 :: (encodeVarint (best.offset % 2 ^ 32) ++ encodeVarint (best.len % 2 ^ 32)),
        { pos := state.pos + best.len, tables, hash })
  | none =>
      let byte ← data[state.pos]?
      let tables :=
        if state.pos + 3 ≤ data.length then
          state.tables.insert (state.passed data) state.pos
        else
          state.tables
      return ([0, byte], { pos := state.pos + 1, tables, hash := state.passed data })

/-- The loop is made of such turns. -/
theorem encodeLoop_eq (fuel : Nat) (inside : state.pos < data.length)
    : encodeLoop data (fuel + 1) state.pos state.tables state.hash
      = (do
          let (token, next) ← state.turn data
          let output ← encodeLoop data fuel next.pos next.tables next.hash
          return token ++ output) := by
  rw [encodeLoop, if_neg (not_le.mpr inside)]
  unfold turn found passed
  dsimp only
  cases findLongestMatch data state.pos (feed data state.hash (state.pos + 2))
      state.tables with
  | none => rfl
  | some found =>
      cases found with
      | none =>
          cases data[state.pos]? with
          | none => rfl
          | some byte => rfl
      | some best =>
          cases insertMatched data best.len state.pos state.tables
              (feed data state.hash (state.pos + 2)) with
          | mk tables hash =>
              simp [List.append_assoc]

end EncodeState

/-- The states the loop comes to. -/
inductive Reached (data : Bytes) : EncodeState → Prop
  | start : Reached data (.start data)
  | turn {state next : EncodeState} {token : Bytes} (reached : Reached data state)
      (inside : state.pos < data.length) (done : state.turn data = some (token, next))
    : Reached data next

/-- A turn takes a match, or it enters one position. -/
theorem EncodeState.turn_cases {state next : EncodeState} {token : Bytes}
    (done : state.turn data = some (token, next))
    : (∃ best,
          state.found data = some (some best)
          ∧ next.pos = state.pos + best.len
          ∧ (next.tables, next.hash)
            = insertMatched data best.len state.pos state.tables (state.passed data))
      ∨ (state.found data = some none
        ∧ next
          = {
            pos := state.pos + 1
            tables :=
              if state.pos + 3 ≤ data.length then
                state.tables.insert (state.passed data) state.pos
              else
                state.tables
            hash := state.passed data
          }) := by
  obtain ⟨found, searched, done⟩ := Option.bind_eq_some_iff.mp done
  cases found with
  | some best =>
      obtain ⟨-, rfl⟩ := Prod.mk.inj (Option.some.inj done)
      exact .inl ⟨best, searched, rfl, rfl⟩
  | none =>
      obtain ⟨byte, -, done⟩ := Option.bind_eq_some_iff.mp done
      obtain ⟨-, rfl⟩ := Prod.mk.inj (Option.some.inj done)
      exact .inr ⟨searched, rfl⟩

/-- The hash is that of the position, under which it is looked up and entered. -/
structure EncodeState.Own (data : Bytes) (state : EncodeState) : Prop where
  passed : state.pos + 3 ≤ data.length → state.passed data = trigramHash data state.pos
  indexed : state.tables.Indexed data state.pos

theorem EncodeState.own_start (data : Bytes) : (EncodeState.start data).Own data :=
  ⟨fun _ => rfl, Tables.indexed_new data⟩

/-- The hash at the turn behind a match: the last byte of the trigram is fed twice. -/
theorem EncodeState.passed_of_match {state next : EncodeState} {best : Match}
    (own : state.pos + 3 ≤ data.length → state.passed data = trigramHash data state.pos)
    (position : next.pos = state.pos + best.len)
    (inserted
      : (next.tables, next.hash)
        = insertMatched data best.len state.pos state.tables (state.passed data))
    (inside : next.pos + 3 ≤ data.length)
    : next.passed data = feed data (trigramHash data next.pos) (next.pos + 2) := by
  have rolled : next.hash = trigramHash data next.pos := by
    rw [position] at inside ⊢
    rw [← insertMatched_hash state.tables own inside, ← inserted]
  rw [EncodeState.passed, rolled]

/-- A turn keeps the hash in step, unless it takes a match with the wrong bytes behind it. -/
theorem EncodeState.Own.turn {state next : EncodeState} {token : Bytes} (own : state.Own data)
    (small : data.length ≤ 2 ^ 32 + 1)
    (spared
      : ∀ best, state.found data = some (some best) → Spared data (state.pos + best.len))
    (done : state.turn data = some (token, next))
    : next.Own data := by
  rcases EncodeState.turn_cases done with ⟨best, found, position, inserted⟩ | ⟨-, rfl⟩
  · have indexed := insertMatched_indexed own.indexed small own.passed best.len
    rw [← inserted, ← position] at indexed
    refine ⟨fun inside => ?_, indexed⟩
    have again := spared_iff.mp (spared best found)
    rw [← position] at again
    rw [EncodeState.passed_of_match own.passed position inserted inside]
    exact again inside
  · constructor
    · intro inside
      change feed data (state.passed data) (state.pos + 3) = _
      change state.pos + 1 + 3 ≤ _ at inside
      rw [own.passed (by omega)]
      exact feed_trigramHash (by omega)
    · dsimp only
      split
      next inside =>
        rw [own.passed inside]
        exact own.indexed.insert inside (by omega)
      next outside => exact own.indexed.skip outside

/-- In a run whose matches all have harmless bytes behind them, every hash is in step.
Witness: induction over the turns.
-/
theorem own_of_reached (small : data.length ≤ 2 ^ 32 + 1)
    (spared
      : ∀ state best,
          Reached data state
          → state.found data = some (some best)
          → Spared data (state.pos + best.len))
    {state : EncodeState} (reached : Reached data state)
    : state.Own data := by
  induction reached with
  | start => exact EncodeState.own_start data
  | turn reached inside done ih => exact ih.turn small (spared _ · reached) done

-----------------------------------------------------------------------------------------
-- Runs that stay in step
-----------------------------------------------------------------------------------------

/-- At every turn the hash is that of the position, every position before is entered under
its own hash, and an earlier occurrence within the window and the chain limit is found.
-/
structure InStep (data : Bytes) : Prop where
  passed
    : ∀ state,
        Reached data state
        → state.pos + 3 ≤ data.length
        → state.passed data = trigramHash data state.pos
  entered
    : ∀ state,
        Reached data state
        → ∀ pos < state.pos,
          pos + 3 ≤ data.length
          → Linked state.tables.chain (state.tables.head (trigramHash data pos)) pos
  finds
    : ∀ state,
        Reached data state
        → state.pos + 3 ≤ data.length
        → ∀ earlier ∈ (positions data (trigramHash data state.pos) state.pos).take maxChain,
          state.pos ≤ earlier + searchWindow
          → 3 ≤ agreement data earlier state.pos
          → ∃ best,
              state.found data = some (some best)
              ∧ agreement data earlier state.pos ≤ best.len

theorem inStep_of_own (own : ∀ state, Reached data state → state.Own data) : InStep data where
  passed state reached := (own state reached).passed
  entered state reached pos before inside :=
    ((own state reached).indexed.follows _).linked (mem_positions.mpr ⟨before, inside, rfl⟩)
  finds state reached inside earlier listed near occurs := by
    obtain ⟨passed, indexed⟩ := own state reached
    obtain ⟨best, searched, long⟩ := findLongestMatch_finds indexed inside listed near occurs
    refine ⟨best, ?_, long⟩
    rw [EncodeState.found, passed inside]
    exact searched

/-- The position that marks an empty slot is not entered. -/
def Tables.Unmarked (tables : Tables) : Prop :=
  ∀ index, tables.chain index ≠ some emptySlot.toNat

theorem Tables.head_ne_mark (tables : Tables) (hash : UInt32)
    : tables.head hash ≠ some emptySlot.toNat := by
  unfold head
  split
  next => exact nofun
  next filled => exact fun same => filled (UInt32.toNat_inj.mp (Option.some.inj same))

theorem Tables.Unmarked.insert {tables : Tables} (unmarked : tables.Unmarked)
    (hash : UInt32) (pos : Nat)
    : (tables.insert hash pos).Unmarked := by
  intro index
  rw [chain_insert]
  split
  next => exact tables.head_ne_mark hash
  next => exact unmarked index

theorem Tables.Unmarked.insertMatched {tables : Tables} (unmarked : tables.Unmarked)
    (count pos : Nat) (hash : UInt32)
    : (Lz77.insertMatched data count pos tables hash).1.Unmarked := by
  induction count generalizing pos tables hash with
  | zero => exact unmarked
  | succ count ih =>
      rw [Lz77.insertMatched]
      refine ih ?_ _ _
      split
      next => exact unmarked.insert hash pos
      next => exact unmarked

/-- What holds of the tables of every run, in step or not. -/
theorem tables_of_reached {state : EncodeState} (reached : Reached data state)
    : state.tables.Before state.pos ∧ state.tables.Unmarked := by
  induction reached with
  | start => exact ⟨Tables.before_new, fun index => nofun⟩
  | @turn state next token reached inside done ih =>
      obtain ⟨before, unmarked⟩ := ih
      rcases EncodeState.turn_cases done with ⟨best, -, position, inserted⟩ | ⟨-, rfl⟩
      · have tables : next.tables
            = (insertMatched data best.len state.pos state.tables (state.passed data)).1 :=
          congrArg Prod.fst inserted
        rw [tables, position]
        exact ⟨before.insertMatched best.len _, unmarked.insertMatched best.len _ _⟩
      · dsimp only
        split
        next => exact ⟨before.insert _, unmarked.insert _ _⟩
        next => exact ⟨before.mono (Nat.le_succ _), unmarked⟩

/-- A search at a position inside the data leads on to a next turn. -/
theorem Reached.advance {state : EncodeState} (reached : Reached data state)
    (inside : state.pos < data.length)
    : ∃ token next, state.turn data = some (token, next) ∧ state.pos < next.pos := by
  obtain ⟨found, searched, sound⟩ := findLongestMatch_sound (tables_of_reached reached).1
    inside (state.passed data)
  have search : state.found data = some found := searched
  unfold EncodeState.turn
  rw [search]
  cases found with
  | none =>
      have byte : data[state.pos]? = some data[state.pos] := List.getElem?_eq_getElem inside
      exact ⟨_, _, by rw [Option.bind_eq_bind, Option.bind_some, byte]; rfl,
        Nat.lt_succ_self _⟩
  | some best =>
      have long := (sound best rfl).1
      exact ⟨_, _, rfl, Nat.lt_add_of_pos_right (by omega)⟩

/-- The loop comes to the end of the data. Witness: induction on the bytes left. -/
theorem Reached.exists_end {state : EncodeState} (reached : Reached data state)
    : ∃ last, Reached data last ∧ data.length ≤ last.pos := by
  by_cases inside : state.pos < data.length
  · obtain ⟨token, next, done, further⟩ := reached.advance inside
    exact (reached.turn inside done).exists_end
  · exact ⟨state, reached, not_lt.mp inside⟩
termination_by data.length - state.pos

theorem EncodeState.inside_of_found {state : EncodeState} {best : Match}
    (found : state.found data = some (some best))
    : state.pos < data.length := by
  unfold EncodeState.found findLongestMatch at found
  split at found
  next => cases found
  next long =>
    rw [List.length_take, List.length_drop] at long
    omega

/-- The hashes stay in step exactly if all positions fit the table and every match that is
taken has harmless bytes behind it.
-/
theorem inStep_iff (data : Bytes)
    : InStep data
      ↔ data.length ≤ 2 ^ 32 + 1
        ∧ ∀ state best,
            Reached data state
            → state.found data = some (some best)
            → Spared data (state.pos + best.len) := by
  constructor
  · intro inStep
    constructor
    · by_contra large
      have begun : Reached data (.start data) := .start
      obtain ⟨last, reached, ended⟩ := begun.exists_end
      have mark : emptySlot.toNat = 2 ^ 32 - 1 := rfl
      have linked := inStep.entered last reached emptySlot.toNat (by omega) (by omega)
      exact not_linked (last.tables.head_ne_mark _) (tables_of_reached reached).2 linked
    · intro state best reached found
      have inside := EncodeState.inside_of_found found
      obtain ⟨token, next, done, -⟩ := reached.advance inside
      rcases EncodeState.turn_cases done with ⟨other, taken, position, inserted⟩ | ⟨missed, -⟩
      · obtain rfl := Option.some.inj (Option.some.inj (found.symm.trans taken))
        rw [spared_iff, ← position]
        intro within
        rw [← EncodeState.passed_of_match (inStep.passed state reached) position inserted
          within]
        exact inStep.passed next (reached.turn inside done) within
      · rw [found] at missed
        cases missed
  · rintro ⟨small, spared⟩
    exact inStep_of_own (fun state reached => own_of_reached small spared reached)

/-- The state after some turns. -/
def EncodeState.after (data : Bytes) : Nat → Option EncodeState
  | 0 => some (.start data)
  | count + 1 => do
      let state ← EncodeState.after data count
      if state.pos < data.length then (state.turn data).map Prod.snd else none

theorem reached_after {count : Nat} {state : EncodeState}
    (held : EncodeState.after data count = some state)
    : Reached data state := by
  induction count generalizing state with
  | zero =>
      obtain rfl := Option.some.inj held
      exact .start
  | succ count ih =>
      obtain ⟨before, earlier, held⟩ := Option.bind_eq_some_iff.mp held
      split at held
      next inside =>
        obtain ⟨⟨token, next⟩, done, rfl⟩ := Option.map_eq_some_iff.mp held
        exact (ih earlier).turn inside done
      next => cases held

/-- `abcabcdefgXdef`, where `def` follows a match. -/
def behindMatch : Bytes :=
  [97, 98, 99, 97, 98, 99, 100, 101, 102, 103, 88, 100, 101, 102]

/-- Counterexample: behind the match the hash is that of `eff`, and `def` is not found. -/
theorem behindMatch_out_of_step
    : ¬ InStep behindMatch
      ∧ (EncodeState.after behindMatch 4).map
          (fun state => (state.pos, state.passed behindMatch, trigramHash behindMatch 6))
        = some (6, 6310, 7366)
      ∧ (EncodeState.after behindMatch 9).map
          (fun state => (state.pos, agreement behindMatch 6 11, state.found behindMatch))
        = some (11, 3, some none) := by
  have passed : (EncodeState.after behindMatch 4).map
      (fun state => (state.pos, state.passed behindMatch, trigramHash behindMatch 6))
      = some (6, 6310, 7366) := by
    decide +kernel
  refine ⟨fun inStep => ?_, passed, by decide +kernel⟩
  obtain ⟨state, held, same⟩ := Option.map_eq_some_iff.mp passed
  obtain ⟨position, hash, own⟩ := by simpa using same
  have agrees := inStep.passed state (reached_after held) (by rw [position]; decide)
  rw [position, hash, own] at agrees
  exact absurd agrees (by decide)

end Rustikv.Lz77

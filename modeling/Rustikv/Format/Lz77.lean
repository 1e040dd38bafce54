import Rustikv.Format.Reader
import Rustikv.Library.BackReference

/-! The LZ77 codec of compressed blocks. A match the encoder emits has been compared with
the data, whatever its hash table proposes.
-/

namespace Rustikv.Lz77

open Library

def searchWindow : Nat := 32768
def lookaheadWindow : Nat := 258
def maxChain : Nat := 128
def hashSize : Nat := 32768
def hShift : UInt32 := 5

/-- `u32::MAX`, which marks an empty slot of the table. -/
def emptySlot : UInt32 := 4294967295

structure Match where
  offset : Nat
  len : Nat
  deriving DecidableEq, Repr

/-- Feeds one byte; a byte has left the hash after three more. -/
def rollingHash (prev : UInt32) (byte : UInt8) : UInt32 :=
  ((prev <<< hShift) ^^^ byte.toUInt32) &&& (UInt32.ofNat hashSize - 1)

/-- Feeds the byte at a position, if there is one. -/
def feed (data : Bytes) (hash : UInt32) (index : Nat) : UInt32 :=
  match data[index]? with
  | some byte => rollingHash hash byte
  | none => hash

-----------------------------------------------------------------------------------------
-- Variable-length integers
-----------------------------------------------------------------------------------------

/-- The loop of `encode_varint`; a `u32` has five groups of seven bits at most. -/
def encodeVarintLoop : Nat → Nat → Bytes
  | 0, value => [UInt8.ofNat (value % 128)]
  | fuel + 1, value =>
      if 128 ≤ value then
        UInt8.ofNat (value % 128 + 128) :: encodeVarintLoop fuel (value / 128)
      else
        [UInt8.ofNat (value % 128)]

def encodeVarint (value : Nat) : Bytes :=
  encodeVarintLoop 4 value

/-- The loop of `decode_varint`. Nothing is returned where it panics: at the end of the
bytes, and where the shift exceeds the width of a `u32`.
-/
def decodeVarintLoop : Bytes → Nat → Nat → Nat → Option (Nat × Nat)
  | [], _, _, _ => none
  | byte :: rest, shift, value, i =>
      if 32 ≤ shift then
        none
      else
        let value := value ||| ((byte &&& 127).toNat <<< shift) % 2 ^ 32
        if byte &&& 128 = 0 then some (value, i + 1)
        else decodeVarintLoop rest (shift + 7) value (i + 1)

/-- The value and how many bytes it takes. -/
def decodeVarint (encoded : Bytes) : Option (Nat × Nat) :=
  if encoded.isEmpty then some (0, 0) else decodeVarintLoop encoded 0 0 0

-----------------------------------------------------------------------------------------
-- Encoding
-----------------------------------------------------------------------------------------

/-- The last position of each hash, and before each position the previous one of its hash.
-/
structure Tables where
  table : Nat → UInt32
  chain : Nat → Option Nat

namespace Tables

def new : Tables :=
  { table := fun _ => emptySlot, chain := fun _ => none }

def insert (tables : Tables) (hash : UInt32) (pos : Nat) : Tables :=
  let oldHead := tables.table hash.toNat
  {
    table := fun slot =>
      if slot = hash.toNat then UInt32.ofNat pos else tables.table slot
    chain :=
      if oldHead ≠ emptySlot then
        fun index => if index = pos then some oldHead.toNat else tables.chain index
      else
        tables.chain
  }

end Tables

/-- The loop of `find_longest_match` from a candidate on. Nothing is returned where a
candidate outside the data is looked up.
-/
def searchChain (data : Bytes) (pos : Nat) (chain : Nat → Option Nat)
    : Nat → Nat → Match → Option Match
  | 0, _, best => some best
  | fuel + 1, candidate, best =>
      if pos ≤ candidate then
        if candidate < data.length then
          match chain candidate with
          | some prev => searchChain data pos chain fuel prev best
          | none => some best
        else
          none
      else if candidate < pos - searchWindow then
        some best
      else
        let lookahead := (data.drop pos).take lookaheadWindow
        let len := commonLength (data.drop candidate) lookahead
        let best := if best.len < len then { offset := pos - candidate, len } else best
        match chain candidate with
        | some prev => searchChain data pos chain fuel prev best
        | none => some best

def findLongestMatch (data : Bytes) (pos : Nat) (hash : UInt32) (tables : Tables)
    : Option (Option Match) :=
  if ((data.drop pos).take lookaheadWindow).length < 3 then
    some none
  else
    let first := tables.table hash.toNat
    if first = emptySlot then
      some none
    else do
      let best ← searchChain data pos tables.chain maxChain first.toNat
        { offset := 0, len := 0 }
      return if best.len < 3 then none else some best

/-- Enters the positions of a match, rolling the hash forward. -/
def insertMatched (data : Bytes) : Nat → Nat → Tables → UInt32 → Tables × UInt32
  | 0, _, tables, hash => (tables, hash)
  | count + 1, pos, tables, hash =>
      let tables := if pos + 3 ≤ data.length then tables.insert hash pos else tables
      insertMatched data count (pos + 1) tables (feed data hash (pos + 3))

/-- The tokens from a position on; every turn takes a byte at least. -/
def encodeLoop (data : Bytes) : Nat → Nat → Tables → UInt32 → Option Bytes
  | 0, _, _, _ => some []
  | fuel + 1, pos, tables, hash =>
      if data.length ≤ pos then
        some []
      else do
        let hash := feed data hash (pos + 2)
        match ← findLongestMatch data pos hash tables with
        | some best =>
            let (tables, hash) := insertMatched data best.len pos tables hash
            let output ← encodeLoop data fuel (pos + best.len) tables hash
            return 1 :: (encodeVarint (best.offset % 2 ^ 32)
              ++ encodeVarint (best.len % 2 ^ 32) ++ output)
        | none =>
            let byte ← data[pos]?
            let tables := if pos + 3 ≤ data.length then tables.insert hash pos else tables
            let output ← encodeLoop data fuel (pos + 1) tables hash
            return 0 :: byte :: output

/-- The hash begins with the first two bytes. -/
def encode (data : Bytes) : Option Bytes :=
  encodeLoop data data.length 0 .new (feed data (feed data 0 0) 1)

-----------------------------------------------------------------------------------------
-- Decoding
-----------------------------------------------------------------------------------------

/-- The loop of `decode`, which panics where nothing is returned. -/
def decodeLoop : Nat → Bytes → Bytes → Option Bytes
  | _, [], output => some output
  | 0, _ :: _, output => some output
  | fuel + 1, token :: data, output =>
      if token = 0 then
        match data with
        | [] => none
        | byte :: data => decodeLoop fuel data (output ++ [byte])
      else if token = 1 then do
        let (offset, offsetLen) ← decodeVarint data
        let data := data.drop offsetLen
        let (length, lengthLen) ← decodeVarint data
        let data := data.drop lengthLen
        if output.length < offset then
          none
        else do
          let output ← copyWithin length (output.length - offset) output
          decodeLoop fuel data output
      else
        none

/-- Every token takes a byte, so the number of bytes is enough fuel. -/
def decode (data : Bytes) : Option Bytes :=
  decodeLoop data.length data []

-----------------------------------------------------------------------------------------
-- Reading variable-length integers back
-----------------------------------------------------------------------------------------

theorem groups_of_seven
    : ∀ group < 128,
        (UInt8.ofNat group &&& 127).toNat = group
        ∧ UInt8.ofNat group &&& 128 = 0
        ∧ (UInt8.ofNat (group + 128) &&& 127).toNat = group
        ∧ UInt8.ofNat (group + 128) &&& 128 ≠ 0 := by
  decide +kernel

/-- Adding a group of bits above those already read. -/
theorem or_shiftLeft {value group shift : Nat} (below : value < 2 ^ shift)
    (fits : group * 2 ^ shift < 2 ^ 32)
    : value ||| (group <<< shift) % 2 ^ 32 = value + group * 2 ^ shift := by
  have whole : group <<< shift < 2 ^ 32 := by
    rwa [Nat.shiftLeft_eq]
  rw [Nat.mod_eq_of_lt whole, Nat.or_comm, ← Nat.shiftLeft_add_eq_or_of_lt below,
    Nat.shiftLeft_eq, Nat.add_comm]

/-- A value is read back above the bits already read. Witness: induction on its groups. -/
theorem decodeVarintLoop_encode {fuel number shift value : Nat} (i : Nat) (rest : Bytes)
    (small : number < 128 ^ (fuel + 1)) (below : value < 2 ^ shift)
    (room : shift + 7 * fuel < 32) (fits : number * 2 ^ shift < 2 ^ 32)
    : decodeVarintLoop (encodeVarintLoop fuel number ++ rest) shift value i
      = some (value + number * 2 ^ shift, i + (encodeVarintLoop fuel number).length) := by
  induction fuel generalizing number shift value i with
  | zero =>
      rw [Nat.zero_add, Nat.pow_one] at small
      obtain ⟨low, last, -, -⟩ := groups_of_seven number small
      rw [encodeVarintLoop, Nat.mod_eq_of_lt small, List.singleton_append, decodeVarintLoop,
        if_neg (by omega), last, if_pos rfl, low, or_shiftLeft below fits]
      rfl
  | succ fuel ih =>
      rw [encodeVarintLoop]
      split
      · rename_i large
        obtain ⟨-, -, low, more⟩ := groups_of_seven (number % 128) (Nat.mod_lt _ (by decide))
        have power : 2 ^ (shift + 7) = 2 ^ shift * 128 := by
          rw [Nat.pow_add]
        have split : number * 2 ^ shift
            = number % 128 * 2 ^ shift + number / 128 * 2 ^ (shift + 7) := by
          have parts := Nat.div_add_mod number 128
          rw [power]
          calc number * 2 ^ shift
              = (128 * (number / 128) + number % 128) * 2 ^ shift := by rw [parts]
            _ = number % 128 * 2 ^ shift + number / 128 * (2 ^ shift * 128) := by ring
        have group : number % 128 * 2 ^ shift < 2 ^ 32 := by
          omega
        have fewer : number / 128 < 128 ^ (fuel + 1) := by
          rw [Nat.pow_succ] at small
          exact Nat.div_lt_of_lt_mul (by rwa [Nat.mul_comm])
        have above : value + number % 128 * 2 ^ shift < 2 ^ (shift + 7) := by
          have digit : number % 128 < 128 := Nat.mod_lt _ (by decide)
          have bound : number % 128 * 2 ^ shift ≤ 127 * 2 ^ shift :=
            Nat.mul_le_mul_right _ (by omega)
          omega
        have next : decodeVarintLoop (encodeVarintLoop fuel (number / 128) ++ rest)
              (shift + 7) (value + number % 128 * 2 ^ shift) (i + 1)
            = some (value + number % 128 * 2 ^ shift + number / 128 * 2 ^ (shift + 7),
                i + 1 + (encodeVarintLoop fuel (number / 128)).length) :=
          ih (i + 1) fewer above (by omega) (by omega)
        rw [List.cons_append, decodeVarintLoop, if_neg (by omega), if_neg more, low,
          or_shiftLeft below group, next, List.length_cons, split]
        congr 2 <;> omega
      · rename_i large
        rw [not_le] at large
        obtain ⟨low, last, -, -⟩ := groups_of_seven number large
        rw [Nat.mod_eq_of_lt large, List.singleton_append, decodeVarintLoop,
          if_neg (by omega), last, if_pos rfl, low, or_shiftLeft below fits]
        rfl

theorem encodeVarint_ne_nil (number : Nat) : encodeVarint number ≠ [] := by
  unfold encodeVarint encodeVarintLoop
  split <;> simp

theorem decodeVarint_encodeVarint {number : Nat} (small : number < 2 ^ 32) (rest : Bytes)
    : decodeVarint (encodeVarint number ++ rest)
      = some (number, (encodeVarint number).length) := by
  have nonempty : ¬ (encodeVarint number ++ rest).isEmpty = true := by
    simp [encodeVarint_ne_nil]
  have read : decodeVarintLoop (encodeVarintLoop 4 number ++ rest) 0 0 0
      = some (0 + number * 2 ^ 0, 0 + (encodeVarintLoop 4 number).length) :=
    decodeVarintLoop_encode 0 rest (by omega) (by decide) (by decide) (by simpa using small)
  rw [decodeVarint, if_neg nonempty]
  unfold encodeVarint
  rw [read]
  simp

/-- Bytes that end inside a value are read past their end. Witness: induction on the groups
of the value.
-/
theorem decodeVarintLoop_take {fuel number : Nat} (shift value i : Nat) {cut : Nat}
    (short : cut < (encodeVarintLoop fuel number).length)
    : decodeVarintLoop ((encodeVarintLoop fuel number).take cut) shift value i = none := by
  induction fuel generalizing number shift value i cut with
  | zero =>
      obtain rfl : cut = 0 := by
        simpa [encodeVarintLoop] using short
      rfl
  | succ fuel ih =>
      rw [encodeVarintLoop] at short ⊢
      split at short
      · rename_i large
        rw [if_pos large]
        cases cut with
        | zero => rfl
        | succ cut =>
            obtain ⟨-, -, -, more⟩ := groups_of_seven (number % 128) (Nat.mod_lt _ (by decide))
            have later := ih (shift + 7)
              (value ||| ((UInt8.ofNat (number % 128 + 128) &&& 127).toNat <<< shift) % 2 ^ 32)
              (i + 1) (Nat.lt_of_succ_lt_succ short)
            rw [List.take_succ_cons, decodeVarintLoop, if_neg more, later, ite_self]
      · rename_i small
        obtain rfl : cut = 0 := by
          simpa using short
        rfl

/-- At the end of the bytes a value reads as zero, inside one the decoder panics. -/
theorem decodeVarint_take {number cut : Nat} (short : cut < (encodeVarint number).length)
    : decodeVarint ((encodeVarint number).take cut)
      = if cut = 0 then some (0, 0) else none := by
  cases cut with
  | zero => rfl
  | succ cut =>
      have nonempty : ¬ ((encodeVarint number).take (cut + 1)).isEmpty = true := by
        simp [encodeVarint_ne_nil]
      rw [decodeVarint, if_neg nonempty, if_neg (Nat.succ_ne_zero cut)]
      exact decodeVarintLoop_take 0 0 0 short

theorem length_encodeVarintLoop {groups fuel number : Nat}
    (small : number < 128 ^ (groups + 1)) (enough : groups ≤ fuel)
    : (encodeVarintLoop fuel number).length ≤ groups + 1 := by
  induction groups generalizing fuel number with
  | zero =>
      have last : ¬ 128 ≤ number := by
        omega
      cases fuel <;> simp [encodeVarintLoop, last]
  | succ groups ih =>
      cases fuel with
      | zero => omega
      | succ fuel =>
          rw [encodeVarintLoop]
          split
          · have fewer : number / 128 < 128 ^ (groups + 1) := by
              rw [Nat.pow_succ] at small
              exact Nat.div_lt_of_lt_mul (by rwa [Nat.mul_comm])
            have rest := ih fewer (by omega : groups ≤ fuel)
            rw [List.length_cons]
            omega
          · simp

-----------------------------------------------------------------------------------------
-- Matches
-----------------------------------------------------------------------------------------

/-- What the encoder may emit at a position: bytes of the window that occur again. -/
structure Match.Sound (data : Bytes) (pos : Nat) (found : Match) : Prop where
  offset : 1 ≤ found.offset ∧ found.offset ≤ searchWindow
  before : found.offset ≤ pos
  len : found.len ≤ lookaheadWindow
  inside : pos + found.len ≤ data.length
  agree : ∀ i < found.len, data[pos - found.offset + i]? = data[pos + i]?

/-- Every position in the tables lies before this one. -/
structure Tables.Before (tables : Tables) (pos : Nat) : Prop where
  table : ∀ slot, tables.table slot ≠ emptySlot → (tables.table slot).toNat < pos
  chain : ∀ index prev, tables.chain index = some prev → prev < pos

theorem Tables.before_new : Tables.new.Before 0 :=
  ⟨fun _ filled => absurd rfl filled, fun _ _ found => by cases found⟩

theorem Tables.Before.mono {tables : Tables} {pos later : Nat} (before : tables.Before pos)
    (order : pos ≤ later)
    : tables.Before later :=
  ⟨fun slot filled => (before.table slot filled).trans_le order,
    fun index prev found => (before.chain index prev found).trans_le order⟩

/-- A position too large for a slot is entered as a smaller one. -/
theorem Tables.Before.insert {tables : Tables} {pos : Nat} (before : tables.Before pos)
    (hash : UInt32)
    : (tables.insert hash pos).Before (pos + 1) where
  table slot filled := by
    simp only [Tables.insert] at filled ⊢
    split
    · rw [UInt32.toNat_ofNat']
      exact Nat.lt_succ_of_le (Nat.mod_le pos _)
    · rename_i other
      rw [if_neg other] at filled
      exact (before.table slot filled).trans (Nat.lt_succ_self pos)
  chain index prev found := by
    simp only [Tables.insert] at found
    split at found
    · rename_i filled
      dsimp only at found
      split at found
      · obtain rfl := Option.some.inj found
        exact (before.table hash.toNat filled).trans (Nat.lt_succ_self pos)
      · exact (before.chain index prev found).trans (Nat.lt_succ_self pos)
    · exact (before.chain index prev found).trans (Nat.lt_succ_self pos)

/-- Entering the positions of a match keeps them before its end. -/
theorem Tables.Before.insertMatched {data : Bytes} {pos : Nat} {tables : Tables}
    (before : tables.Before pos) (count : Nat) (hash : UInt32)
    : (insertMatched data count pos tables hash).1.Before (pos + count) := by
  induction count generalizing pos tables hash with
  | zero => exact before
  | succ count ih =>
      rw [Lz77.insertMatched, Nat.add_comm count, ← Nat.add_assoc]
      refine ih ?_ _
      split
      · exact before.insert hash
      · exact before.mono (Nat.le_succ pos)

/-- The search finds a sound match or none, and looks up no candidate outside the data.
Witness: induction on the candidates left.
-/
theorem searchChain_sound {data : Bytes} {pos : Nat} {tables : Tables}
    (before : tables.Before pos) (inside : pos < data.length) {fuel candidate : Nat}
    {best : Match} (earlier : candidate < pos)
    (sound : best.len = 0 ∨ best.Sound data pos)
    : ∃ found,
        searchChain data pos tables.chain fuel candidate best = some found
        ∧ (found.len = 0 ∨ found.Sound data pos) := by
  induction fuel generalizing candidate best with
  | zero => exact ⟨best, rfl, sound⟩
  | succ fuel ih =>
      rw [searchChain, if_neg (not_le.mpr earlier)]
      split
      · exact ⟨best, rfl, sound⟩
      · rename_i near
        let lookahead := (data.drop pos).take lookaheadWindow
        let len := commonLength (data.drop candidate) lookahead
        let longer : Match := if best.len < len then { offset := pos - candidate, len } else best
        have better : longer.len = 0 ∨ longer.Sound data pos := by
          by_cases improves : best.len < len
          · have same : longer = { offset := pos - candidate, len } := if_pos improves
            have short : len ≤ lookahead.length := commonLength_le _ _
            have size : lookahead.length = min lookaheadWindow (data.length - pos) := by
              simp [lookahead]
            rw [same]
            refine .inr ⟨⟨by simp only; omega, by simp only; omega⟩, by simp only; omega,
              by simp only; omega, by simp only; omega, ?_⟩
            intro i small
            have agree := getElem?_of_lt_commonLength small
            dsimp only at small ⊢
            rw [List.getElem?_drop] at agree
            rw [show pos - (pos - candidate) = candidate by omega, agree,
              List.getElem?_take_of_lt (by omega), List.getElem?_drop]
          · rw [show longer = best from if_neg improves]
            exact sound
        change ∃ found, (match tables.chain candidate with
          | some prev => searchChain data pos tables.chain fuel prev longer
          | none => some longer) = some found ∧ _
        cases next : tables.chain candidate with
        | none => exact ⟨longer, rfl, better⟩
        | some prev => exact ih (before.chain candidate prev next) better

theorem findLongestMatch_sound {data : Bytes} {pos : Nat} {tables : Tables}
    (before : tables.Before pos) (inside : pos < data.length) (hash : UInt32)
    : ∃ found,
        findLongestMatch data pos hash tables = some found
        ∧ ∀ best, found = some best → 3 ≤ best.len ∧ best.Sound data pos := by
  unfold findLongestMatch
  split
  · exact ⟨none, rfl, fun _ impossible => by cases impossible⟩
  · dsimp only
    split
    · exact ⟨none, rfl, fun _ impossible => by cases impossible⟩
    · rename_i filled
      obtain ⟨best, searched, sound⟩ := searchChain_sound before inside
        (before.table hash.toNat filled) (.inl rfl : (Match.mk 0 0).len = 0 ∨ _)
      rw [searched]
      refine ⟨_, rfl, ?_⟩
      intro found same
      split at same
      · cases same
      · rename_i long
        obtain rfl := Option.some.inj same
        refine ⟨by omega, ?_⟩
        rcases sound with empty | sound
        · omega
        · exact sound

-----------------------------------------------------------------------------------------
-- Tokens
-----------------------------------------------------------------------------------------

/-- Tokens that continue a decoded prefix of the data up to its end. -/
inductive Tokens (data : Bytes) : Nat → Bytes → Prop
  | done {pos : Nat} (past : data.length ≤ pos) : Tokens data pos []
  | literal {pos : Nat} {byte : UInt8} {rest : Bytes} (held : data[pos]? = some byte)
      (tokens : Tokens data (pos + 1) rest)
      : Tokens data pos (0 :: byte :: rest)
  | copy {pos : Nat} {found : Match} {rest : Bytes} (long : 3 ≤ found.len)
      (sound : found.Sound data pos) (tokens : Tokens data (pos + found.len) rest)
      : Tokens data pos (1 :: (encodeVarint found.offset ++ encodeVarint found.len ++ rest))

/-- The encoder emits tokens of the data, whatever the hashes are. Witness: induction on its
turns.
-/
theorem encodeLoop_tokens {data : Bytes} {fuel pos : Nat} {tables : Tables}
    (before : tables.Before pos) (hash : UInt32) (enough : data.length ≤ pos + fuel)
    : ∃ output, encodeLoop data fuel pos tables hash = some output ∧ Tokens data pos output
    := by
  induction fuel generalizing pos tables hash with
  | zero => exact ⟨[], rfl, .done enough⟩
  | succ fuel ih =>
      by_cases past : data.length ≤ pos
      · exact ⟨[], by rw [encodeLoop, if_pos past], .done past⟩
      · rw [not_le] at past
        obtain ⟨found, searched, sound⟩ :=
          findLongestMatch_sound before past (feed data hash (pos + 2))
        rw [encodeLoop, if_neg (not_le.mpr past)]
        dsimp only
        rw [searched]
        cases found with
        | some best =>
            obtain ⟨long, sound⟩ := sound best rfl
            have offset : best.offset % 2 ^ 32 = best.offset := by
              have near := sound.offset.2
              simp only [searchWindow] at near
              omega
            have len : best.len % 2 ^ 32 = best.len := by
              have short := sound.len
              simp only [lookaheadWindow] at short
              omega
            have entered : (insertMatched data best.len pos tables
                (feed data hash (pos + 2))).1.Before (pos + best.len) :=
              before.insertMatched best.len _
            cases inserted : insertMatched data best.len pos tables
              (feed data hash (pos + 2)) with
            | mk later next =>
                rw [inserted] at entered
                obtain ⟨output, encoded, tokens⟩ := ih entered next (by omega)
                refine ⟨_, ?_, .copy long sound tokens⟩
                simp only [Option.bind_eq_bind, Option.bind_some, inserted, encoded, offset,
                  len, List.append_assoc]
                rfl
        | none =>
            have read : data[pos]? = some data[pos] := List.getElem?_eq_getElem past
            let entered :=
              if pos + 3 ≤ data.length then tables.insert (feed data hash (pos + 2)) pos
              else tables
            have earlier : entered.Before (pos + 1) := by
              simp only [entered]
              split
              · exact before.insert _
              · exact before.mono (Nat.le_succ pos)
            obtain ⟨output, encoded, tokens⟩ :=
              ih earlier (feed data hash (pos + 2)) (by omega)
            simp only [entered] at encoded
            exact ⟨_, by simp [read, encoded], .literal read tokens⟩

theorem encode_tokens (data : Bytes)
    : ∃ output, encode data = some output ∧ Tokens data 0 output :=
  encodeLoop_tokens Tables.before_new _ (Nat.zero_add data.length).ge

theorem Match.Sound.offset_lt {data : Bytes} {pos : Nat} {found : Match}
    (sound : found.Sound data pos)
    : found.offset < 128 ^ 3 := by
  have near := sound.offset.2
  simp only [searchWindow] at near
  omega

-----------------------------------------------------------------------------------------
-- The tokens of an output
-----------------------------------------------------------------------------------------

/-- What the encoder writes in one turn. -/
inductive Token
  | literal (byte : UInt8)
  | copy (found : Match)
  deriving DecidableEq, Repr

namespace Token

def bytes : Token → Bytes
  | .literal byte => [0, byte]
  | .copy found => 1 :: (encodeVarint found.offset ++ encodeVarint found.len)

/-- How many bytes of the data it stands for. -/
def span : Token → Nat
  | .literal _ => 1
  | .copy found => found.len

/-- A match within the windows, long enough to be worth its token. -/
def Bounded : Token → Prop
  | .literal _ => True
  | .copy found =>
      3 ≤ found.len
      ∧ found.len ≤ lookaheadWindow
      ∧ 1 ≤ found.offset
      ∧ found.offset ≤ searchWindow

/-- A token takes at most two bytes for each byte it stands for: offsets have three groups of
seven bits and lengths two.
-/
theorem length_bytes_le {token : Token} (bounded : token.Bounded)
    : token.bytes.length ≤ 2 * token.span := by
  cases token with
  | literal byte => exact le_rfl
  | copy found =>
      obtain ⟨long, short, -, near⟩ := bounded
      simp only [lookaheadWindow] at short
      simp only [searchWindow] at near
      have offset := length_encodeVarintLoop
        (by omega : found.offset < 128 ^ (2 + 1)) (by decide : 2 ≤ 4)
      have len := length_encodeVarintLoop
        (by omega : found.len < 128 ^ (1 + 1)) (by decide : 1 ≤ 4)
      simp only [bytes, span, encodeVarint, List.length_cons, List.length_append]
      omega

end Token

/-- An output is made of literals and bounded matches that cover the data. Witness: induction
over the encoder's turns.
-/
theorem Tokens.exists_tokens {data : Bytes} {pos : Nat} {output : Bytes}
    (tokens : Tokens data pos output)
    : ∃ parts : List Token,
        output = parts.flatMap Token.bytes
        ∧ (∀ token ∈ parts, token.Bounded)
        ∧ (parts.map Token.span).sum = data.length - pos := by
  induction tokens with
  | done past => exact ⟨[], rfl, by simp, by simp [Nat.sub_eq_zero_of_le past]⟩
  | @literal pos byte rest held tokens ih =>
      obtain ⟨parts, same, bounded, covered⟩ := ih
      obtain ⟨inside, -⟩ := List.getElem?_eq_some_iff.mp held
      refine ⟨.literal byte :: parts, by simp [Token.bytes, same], ?_, ?_⟩
      · exact List.forall_mem_cons.mpr ⟨trivial, bounded⟩
      · rw [List.map_cons, List.sum_cons, covered, Token.span]
        omega
  | @copy pos found rest long sound tokens ih =>
      obtain ⟨parts, same, bounded, covered⟩ := ih
      have inside := sound.inside
      refine ⟨.copy found :: parts, by simp [Token.bytes, same], ?_, ?_⟩
      · refine List.forall_mem_cons.mpr ⟨?_, bounded⟩
        exact ⟨long, sound.len, sound.offset.1, sound.offset.2⟩
      · rw [List.map_cons, List.sum_cons, covered, Token.span]
        omega

/-- Bounded tokens take at most two bytes for each byte they stand for. -/
theorem length_flatMap_bytes_le {parts : List Token}
    (bounded : ∀ token ∈ parts, token.Bounded)
    : (parts.flatMap Token.bytes).length ≤ 2 * (parts.map Token.span).sum := by
  induction parts with
  | nil => exact le_rfl
  | cons token rest ih =>
      have first := Token.length_bytes_le (bounded token (by simp))
      have later := ih (fun other member => bounded other (List.mem_cons_of_mem _ member))
      rw [List.flatMap_cons, List.length_append, List.map_cons, List.sum_cons]
      omega

/-- Each byte of the data takes at most two bytes of the output. -/
theorem Tokens.length_le {data : Bytes} {pos : Nat} {output : Bytes}
    (tokens : Tokens data pos output)
    : output.length ≤ 2 * (data.length - pos) := by
  obtain ⟨parts, rfl, bounded, covered⟩ := tokens.exists_tokens
  rw [← covered]
  exact length_flatMap_bytes_le bounded

-----------------------------------------------------------------------------------------
-- Round trip
-----------------------------------------------------------------------------------------

theorem decodeLoop_nil {data : Bytes} {pos : Nat} (turns : Nat) (past : data.length ≤ pos)
    : decodeLoop turns [] (data.take pos) = some data := by
  rw [List.take_of_length_le past]
  cases turns <;> rfl

theorem decodeLoop_literal (turns : Nat) (byte : UInt8) (rest output : Bytes)
    : decodeLoop (turns + 1) (0 :: byte :: rest) output
      = decodeLoop turns rest (output ++ [byte]) := rfl

theorem decodeLoop_copy (turns : Nat) (data output : Bytes)
    : decodeLoop (turns + 1) (1 :: data) output
      = (do
          let (offset, offsetLen) ← decodeVarint data
          let data := data.drop offsetLen
          let (length, lengthLen) ← decodeVarint data
          let data := data.drop lengthLen
          if output.length < offset then
            none
          else do
            let output ← copyWithin length (output.length - offset) output
            decodeLoop turns data output) := rfl

/-- A sound match extends the data decoded so far. -/
theorem decodeLoop_match {data : Bytes} {pos : Nat} {found : Match}
    (sound : found.Sound data pos) (turns : Nat) (rest : Bytes)
    : decodeLoop (turns + 1)
        (1 :: (encodeVarint found.offset ++ encodeVarint found.len ++ rest)) (data.take pos)
      = decodeLoop turns rest (data.take (pos + found.len)) := by
  obtain ⟨⟨positive, near⟩, before, short, inside, agree⟩ := sound
  have offset : found.offset < 2 ^ 32 := by
    simp only [searchWindow] at near
    omega
  have len : found.len < 2 ^ 32 := by
    simp only [lookaheadWindow] at short
    omega
  have length : (data.take pos).length = pos := by
    rw [List.length_take]
    omega
  have copied : copyWithin found.len (pos - found.offset) (data.take pos)
      = some (data.take (pos + found.len)) :=
    copyWithin_take (by omega) inside agree
  have reach : ¬ pos < found.offset := by
    omega
  rw [decodeLoop_copy, List.append_assoc, decodeVarint_encodeVarint offset]
  simp only [Option.bind_eq_bind, Option.bind_some, List.drop_left,
    decodeVarint_encodeVarint len, length, reach, if_false, copied]

theorem decodeLoop_byte {data : Bytes} {pos : Nat} {byte : UInt8}
    (held : data[pos]? = some byte) (turns : Nat) (rest : Bytes)
    : decodeLoop (turns + 1) (0 :: byte :: rest) (data.take pos)
      = decodeLoop turns rest (data.take (pos + 1)) := by
  obtain ⟨inside, rfl⟩ := List.getElem?_eq_some_iff.mp held
  have longer : data.take pos ++ [data[pos]] = data.take (pos + 1) :=
    (List.take_succ_eq_append_getElem inside).symm
  rw [decodeLoop_literal, longer]

/-- Tokens decode to the rest of the data. -/
theorem Tokens.decodeLoop_eq {data : Bytes} {pos : Nat} {output : Bytes}
    (tokens : Tokens data pos output) {turns : Nat} (enough : output.length ≤ turns)
    : decodeLoop turns output (data.take pos) = some data := by
  induction tokens generalizing turns with
  | done past => exact decodeLoop_nil turns past
  | literal held tokens ih =>
      simp only [List.length_cons] at enough
      obtain ⟨turns, rfl⟩ : ∃ fewer, turns = fewer + 1 := ⟨turns - 1, by omega⟩
      rw [decodeLoop_byte held]
      exact ih (by omega)
  | copy long sound tokens ih =>
      simp only [List.length_cons, List.length_append] at enough
      obtain ⟨turns, rfl⟩ : ∃ fewer, turns = fewer + 1 := ⟨turns - 1, by omega⟩
      rw [decodeLoop_match sound]
      exact ih (by omega)

/-- Encoded data decodes to itself, and is at most twice as long. -/
theorem encode_spec (data : Bytes)
    : ∃ output,
        encode data = some output
        ∧ output.length ≤ 2 * data.length
        ∧ decode output = some data := by
  obtain ⟨output, encoded, tokens⟩ := encode_tokens data
  exact ⟨output, encoded, tokens.length_le, tokens.decodeLoop_eq (Nat.le_refl _)⟩

/-- A match that ends early copies nothing, or the decoder panics. -/
theorem decodeLoop_cut {offset len : Nat} (small : offset < 2 ^ 32) (turns : Nat)
    {cut : Nat} (short : cut < (encodeVarint offset).length + (encodeVarint len).length)
    {output decoded : Bytes}
    (read : decodeLoop (turns + 1)
        (1 :: (encodeVarint offset ++ encodeVarint len).take cut) output
      = some decoded)
    : decoded = output := by
  rw [decodeLoop_copy, List.take_append] at read
  by_cases far : (encodeVarint offset).length ≤ cut
  · rw [List.take_of_length_le far, decodeVarint_encodeVarint small] at read
    simp only [Option.bind_eq_bind, Option.bind_some, List.drop_left] at read
    rw [decodeVarint_take (by omega)] at read
    by_cases empty : cut - (encodeVarint offset).length = 0
    · by_cases outside : output.length < offset
      · simp [empty, outside] at read
      · simpa [empty, outside, copyWithin, decodeLoop, eq_comm] using read
    · simp [if_neg empty] at read
  · rw [Nat.sub_eq_zero_of_le (by omega), List.take_zero, List.append_nil,
      decodeVarint_take (by omega)] at read
    by_cases empty : cut = 0
    · subst empty
      simpa [decodeVarint, copyWithin, decodeLoop, eq_comm] using read
    · simp [if_neg empty] at read

/-- Tokens that end early decode to less than the data, or the decoder panics. Witness:
induction on the tokens; the last one may end in each of its parts.
-/
theorem Tokens.decodeLoop_take {data : Bytes} {pos : Nat} {output : Bytes}
    (tokens : Tokens data pos output) {cut turns : Nat} (short : cut < output.length)
    (enough : cut ≤ turns) {decoded : Bytes}
    (read : decodeLoop turns (output.take cut) (data.take pos) = some decoded)
    : ∃ reach < data.length, decoded = data.take reach := by
  induction tokens generalizing cut turns with
  | done past => simp at short
  | @literal pos byte rest held tokens ih =>
      have inside : pos < data.length := (List.getElem?_eq_some_iff.mp held).1
      match cut, turns with
      | 0, turns =>
          rw [List.take_zero, decodeLoop] at read
          exact ⟨pos, inside, (Option.some.inj read).symm⟩
      | 1, turns + 1 => cases read
      | cut + 2, turns + 1 =>
          rw [List.take_succ_cons, List.take_succ_cons, decodeLoop_byte held] at read
          simp only [List.length_cons] at short
          exact ih (by omega) (by omega) read
  | @copy pos found rest long sound tokens ih =>
      have inside : pos < data.length := by
        have ends := sound.inside
        omega
      have offset : found.offset < 2 ^ 32 := sound.offset_lt.trans (by decide)
      match cut, turns with
      | 0, turns =>
          rw [List.take_zero, decodeLoop] at read
          exact ⟨pos, inside, (Option.some.inj read).symm⟩
      | cut + 1, turns + 1 =>
          simp only [List.length_cons, List.length_append] at short
          by_cases whole : (encodeVarint found.offset).length
              + (encodeVarint found.len).length ≤ cut
          · have parts : (encodeVarint found.offset ++ encodeVarint found.len ++ rest).take cut
                = encodeVarint found.offset ++ encodeVarint found.len
                  ++ rest.take (cut - ((encodeVarint found.offset).length
                      + (encodeVarint found.len).length)) := by
              rw [List.take_append, List.take_of_length_le (by simpa using whole),
                List.length_append]
            rw [List.take_succ_cons, parts, decodeLoop_match sound] at read
            exact ih (by omega) (by omega) read
          · refine ⟨pos, inside, decodeLoop_cut offset turns (not_le.mp whole) ?_⟩
            rwa [List.take_succ_cons, List.take_append_of_le_length (by simp; omega)] at read

/-- The table has a slot for every hash, so that looking one up does not panic. -/
theorem feed_lt_hashSize (data : Bytes) {hash : UInt32} (small : hash.toNat < hashSize)
    (index : Nat)
    : (feed data hash index).toNat < hashSize := by
  cases held : data[index]? with
  | none => simpa only [feed, held] using small
  | some byte =>
      have masked : (rollingHash hash byte).toNat ≤ (UInt32.ofNat hashSize - 1).toNat := by
        rw [rollingHash, UInt32.toNat_and]
        exact Nat.and_le_right
      simp only [feed, held]
      exact lt_of_le_of_lt masked (by decide)

/-- Encoding returns, no hash leaves the table, and decoding gives the data back. -/
theorem round_trip (data : Bytes)
    : (∃ output, encode data = some output ∧ decode output = some data)
      ∧ ∀ hash index,
          hash.toNat < hashSize → (feed data hash index).toNat < hashSize := by
  obtain ⟨output, encoded, -, decoded⟩ := encode_spec data
  exact ⟨⟨output, encoded, decoded⟩,
    fun _ index small => feed_lt_hashSize data small index⟩

/-- A match that overlaps itself: two bytes, then six copied from two back. -/
example : encode [97, 98, 97, 98, 97, 98, 97, 98] = some [0, 97, 0, 98, 1, 2, 6] := by
  decide +kernel

end Rustikv.Lz77

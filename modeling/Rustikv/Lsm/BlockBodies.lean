import Rustikv.Lsm.StoredTable

/-! The bytes that a block can be read from. The decoder of compressed blocks follows any
tokens it finds, and panics where it cannot.
-/

namespace Rustikv

open Library

namespace Lz77

-----------------------------------------------------------------------------------------
-- Variable-length integers
-----------------------------------------------------------------------------------------

/-- The number made of groups of seven bits, the lowest group first. -/
def groupsValue (groups : Bytes) : Nat :=
  groups.foldr (fun byte value => (byte &&& 127).toNat + 128 * value) 0

/-- A number of at most five groups, of which 32 bits are kept, and the bytes behind it. The
end of the bytes reads as zero.
-/
inductive Varint : Bytes → Nat → Bytes → Prop
  | missing : Varint [] 0 []
  | groups {more : Bytes} {last : UInt8} (rest : Bytes)
      (continued : ∀ byte ∈ more, byte &&& 128 ≠ 0) (ended : last &&& 128 = 0)
      (short : more.length ≤ 4)
      : Varint (more ++ last :: rest) (groupsValue (more ++ [last]) % 2 ^ 32) rest

theorem group_lt (byte : UInt8) : (byte &&& 127).toNat < 128 := by
  rw [UInt8.toNat_and]
  exact Nat.lt_succ_of_le Nat.and_le_right

/-- A group of bits above those already read, cut to the width of a `u32`. -/
theorem or_group {value shift : Nat} (group : Nat) (below : value < 2 ^ shift)
    (narrow : shift ≤ 32)
    : value ||| (group <<< shift) % 2 ^ 32 = (value + group * 2 ^ shift) % 2 ^ 32 := by
  let room := 2 ^ (32 - shift)
  have width : 2 ^ 32 = room * 2 ^ shift := by
    rw [← Nat.pow_add, Nat.sub_add_cancel narrow]
  have kept : (group <<< shift) % 2 ^ 32 = (group % room) <<< shift := by
    rw [Nat.shiftLeft_eq, Nat.shiftLeft_eq, width, Nat.mul_mod_mul_right]
  have small : value + group % room * 2 ^ shift < 2 ^ 32 := by
    have digit : group % room + 1 ≤ room := Nat.mod_lt _ (Nat.two_pow_pos _)
    have bound := Nat.mul_le_mul_right (2 ^ shift) digit
    rw [Nat.add_mul, Nat.one_mul] at bound
    omega
  have split : value + group * 2 ^ shift
      = value + group % room * 2 ^ shift + 2 ^ 32 * (group / room) := by
    conv_lhs => rw [← Nat.mod_add_div group room]
    rw [width]
    ring
  rw [kept, Nat.or_comm, ← Nat.shiftLeft_add_eq_or_of_lt below, Nat.shiftLeft_eq, split,
    Nat.add_mul_mod_self_left, Nat.mod_eq_of_lt small, Nat.add_comm]

theorem decodeVarintLoop_groups {more : Bytes} {last : UInt8} (rest : Bytes)
    (continued : ∀ byte ∈ more, byte &&& 128 ≠ 0) (ended : last &&& 128 = 0)
    {shift value : Nat} (room : shift + 7 * more.length < 32) (below : value < 2 ^ shift)
    (i : Nat)
    : decodeVarintLoop (more ++ last :: rest) shift value i
      = some ((value + groupsValue (more ++ [last]) * 2 ^ shift) % 2 ^ 32,
        i + more.length + 1) := by
  induction more generalizing shift value i with
  | nil =>
      rw [List.nil_append, decodeVarintLoop, if_neg (by simpa using room), if_pos ended,
        or_group _ below (by simpa using room.le)]
      simp [groupsValue]
  | cons byte more ih =>
      rw [List.length_cons] at room
      have power : 2 ^ (shift + 7) = 128 * 2 ^ shift := by
        rw [Nat.pow_add, Nat.mul_comm]
      have above : value + (byte &&& 127).toNat * 2 ^ shift < 2 ^ (shift + 7) := by
        have digit := Nat.mul_le_mul_right (2 ^ shift) (group_lt byte)
        rw [Nat.succ_mul, ← power] at digit
        omega
      have small : 2 ^ (shift + 7) ≤ 2 ^ 32 := Nat.pow_le_pow_right (by decide) (by omega)
      have later := ih (fun byte member => continued byte (List.mem_cons_of_mem _ member))
        (by omega : shift + 7 + 7 * more.length < 32) above (i + 1)
      have total : value + groupsValue (byte :: more ++ [last]) * 2 ^ shift
          = value + (byte &&& 127).toNat * 2 ^ shift
            + groupsValue (more ++ [last]) * 2 ^ (shift + 7) := by
        rw [power]
        change value + ((byte &&& 127).toNat + 128 * groupsValue (more ++ [last])) * 2 ^ shift
          = _
        ring
      rw [List.cons_append, decodeVarintLoop, if_neg (by omega), or_group _ below (by omega),
        Nat.mod_eq_of_lt (above.trans_le small), if_neg (continued byte List.mem_cons_self),
        later, total, List.length_cons]
      congr 2
      omega

theorem decodeVarintLoop_some {bytes : Bytes} {shift value i : Nat} {found : Nat × Nat}
    (decoded : decodeVarintLoop bytes shift value i = some found)
    : ∃ more last rest,
        bytes = more ++ last :: rest
        ∧ (∀ byte ∈ more, byte &&& 128 ≠ 0)
        ∧ last &&& 128 = 0
        ∧ shift + 7 * more.length < 32 := by
  induction bytes generalizing shift value i with
  | nil => cases decoded
  | cons byte bytes ih =>
      rw [decodeVarintLoop] at decoded
      split at decoded
      · cases decoded
      · rename_i narrow
        dsimp only at decoded
        split at decoded
        · rename_i ended
          exact ⟨[], byte, bytes, rfl, by simp, ended, by simpa using narrow⟩
        · rename_i continues
          obtain ⟨more, last, rest, rfl, continued, ended, room⟩ := ih decoded
          refine ⟨byte :: more, last, rest, rfl, ?_, ended, ?_⟩
          · exact List.forall_mem_cons.mpr ⟨continues, continued⟩
          · rw [List.length_cons]
            omega

theorem Varint.decode {bytes rest : Bytes} {value : Nat} (varint : Varint bytes value rest)
    : ∃ length, decodeVarint bytes = some (value, length) ∧ bytes.drop length = rest := by
  cases varint with
  | missing => exact ⟨0, rfl, rfl⟩
  | @groups more last _ continued ended short =>
      refine ⟨more.length + 1, ?_, ?_⟩
      · have nonempty : ¬ (more ++ last :: rest).isEmpty = true := by simp
        have decoded := decodeVarintLoop_groups rest continued ended
          (by omega : 0 + 7 * more.length < 32) (by decide : 0 < 2 ^ 0) 0
        rw [decodeVarint, if_neg nonempty, decoded]
        simp
      · simp

theorem varint_of_decode {bytes : Bytes} {value length : Nat}
    (decoded : decodeVarint bytes = some (value, length))
    : Varint bytes value (bytes.drop length) := by
  by_cases empty : bytes = []
  · subst empty
    obtain ⟨rfl, rfl⟩ := Prod.mk.inj (Option.some.inj decoded)
    exact .missing
  · have looped := decoded
    rw [decodeVarint, if_neg (by simpa using empty)] at looped
    obtain ⟨more, last, rest, rfl, continued, ended, room⟩ := decodeVarintLoop_some looped
    have varint : Varint (more ++ last :: rest) _ rest :=
      .groups rest continued ended (by omega)
    obtain ⟨same, found, behind⟩ := varint.decode
    rw [decoded] at found
    obtain ⟨rfl, rfl⟩ := Prod.mk.inj (Option.some.inj found)
    rw [behind]
    exact varint

-----------------------------------------------------------------------------------------
-- Tokens
-----------------------------------------------------------------------------------------

/-- Tokens that can be followed when so many bytes have been written: literals that have
their byte, and copies that begin inside what has been written.
-/
inductive Followed : Nat → Bytes → Prop
  | done (written : Nat) : Followed written []
  | literal {written : Nat} (byte : UInt8) {rest : Bytes} (tokens : Followed (written + 1) rest)
      : Followed written (0 :: byte :: rest)
  | copy {written offset length : Nat} {data behind rest : Bytes}
      (offsetRead : Varint data offset behind) (lengthRead : Varint behind length rest)
      (inside : offset ≤ written) (source : length = 0 ∨ 0 < offset)
      (tokens : Followed (written + length) rest)
      : Followed written (1 :: data)

/-- Where its tokens can be followed, the decoder returns. Witness: induction on the tokens.
-/
theorem Followed.decodeLoop {written : Nat} {data : Bytes} (tokens : Followed written data)
    {fuel : Nat} (enough : data.length ≤ fuel) {output : Bytes}
    (size : output.length = written)
    : ∃ result, decodeLoop fuel data output = some result := by
  induction tokens generalizing fuel output with
  | done written => exact ⟨output, by cases fuel <;> rfl⟩
  | literal byte tokens ih =>
      cases fuel with
      | zero => cases enough
      | succ fuel =>
          simp only [List.length_cons] at enough
          obtain ⟨result, decoded⟩ := ih (by omega : _ ≤ fuel)
            (by rw [List.length_append, size, List.length_singleton]
              : (output ++ [byte]).length = _)
          exact ⟨result, by rw [decodeLoop_literal, decoded]⟩
  | @copy written offset length data behind rest offsetRead lengthRead inside source tokens
      ih =>
      cases fuel with
      | zero => cases enough
      | succ fuel =>
          obtain ⟨offsetLen, readOffset, rfl⟩ := offsetRead.decode
          obtain ⟨lengthLen, readLength, rfl⟩ := lengthRead.decode
          obtain ⟨longer, copied, total⟩
              : ∃ longer,
                  copyWithin length (output.length - offset) output = some longer
                  ∧ longer.length = output.length + length := by
            rcases source with rfl | before
            · exact ⟨output, rfl, rfl⟩
            · exact copyWithin_inside length (by omega)
          have fits : ((data.drop offsetLen).drop lengthLen).length ≤ fuel := by
            simp only [List.length_drop, List.length_cons] at enough ⊢
            omega
          obtain ⟨result, decoded⟩ := ih fits (by rw [total, size])
          refine ⟨result, ?_⟩
          rw [decodeLoop_copy, readOffset]
          simp only [Option.bind_eq_bind, Option.bind_some, readLength,
            if_neg (not_lt.mpr (size ▸ inside)), copied]
          exact decoded

theorem decodeLoop_other {token : UInt8} (literal : token ≠ 0) (copy : token ≠ 1)
    (turns : Nat) (data output : Bytes)
    : decodeLoop (turns + 1) (token :: data) output = none := by
  change (if token = 0 then _ else if token = 1 then _ else none) = none
  rw [if_neg literal, if_neg copy]

/-- What the decoder returns from are tokens that can be followed. Witness: induction on its
turns.
-/
theorem followed_of_decodeLoop {fuel : Nat} {data output result : Bytes}
    (enough : data.length ≤ fuel) (decoded : decodeLoop fuel data output = some result)
    : Followed output.length data := by
  induction fuel generalizing data output with
  | zero =>
      obtain rfl := List.length_eq_zero_iff.mp (Nat.le_zero.mp enough)
      exact .done _
  | succ fuel ih =>
      cases data with
      | nil => exact .done _
      | cons token data =>
          rw [List.length_cons] at enough
          by_cases literal : token = 0
          · subst literal
            cases data with
            | nil => cases decoded
            | cons byte data =>
                rw [decodeLoop_literal] at decoded
                rw [List.length_cons] at enough
                have later := ih (by omega) decoded
                rw [List.length_append, List.length_singleton] at later
                exact .literal byte later
          · by_cases copies : token = 1
            · subst copies
              rw [decodeLoop_copy] at decoded
              obtain ⟨⟨offset, offsetLen⟩, readOffset, decoded⟩ :=
                Option.bind_eq_some_iff.mp decoded
              obtain ⟨⟨length, lengthLen⟩, readLength, decoded⟩ :=
                Option.bind_eq_some_iff.mp decoded
              dsimp only at readLength decoded
              split at decoded
              · cases decoded
              · rename_i inside
                rw [not_lt] at inside
                obtain ⟨longer, copied, decoded⟩ := Option.bind_eq_some_iff.mp decoded
                have fits : ((data.drop offsetLen).drop lengthLen).length ≤ fuel := by
                  simp only [List.length_drop]
                  omega
                have later := ih fits decoded
                have source : length = 0 ∨ 0 < offset := by
                  by_contra neither
                  rw [not_or] at neither
                  exact neither.1 (copyWithin_outside (by omega) copied)
                have total : longer.length = output.length + length := by
                  rcases source with rfl | before
                  · obtain rfl := Option.some.inj copied
                    rfl
                  · have begins : output.length - offset < output.length := by omega
                    obtain ⟨result, again, total⟩ := copyWithin_inside length begins
                    rw [copied] at again
                    obtain rfl := Option.some.inj again
                    exact total
                rw [total] at later
                exact .copy (varint_of_decode readOffset) (varint_of_decode readLength) inside
                  source later
            · rw [decodeLoop_other literal copies] at decoded
              cases decoded

theorem decode_iff (data : Bytes) : (∃ result, decode data = some result) ↔ Followed 0 data :=
  ⟨fun ⟨_, decoded⟩ => followed_of_decodeLoop (le_refl _) decoded,
    fun tokens => tokens.decodeLoop (le_refl _) rfl⟩

end Lz77

namespace Lsm

-----------------------------------------------------------------------------------------
-- Reading a block
-----------------------------------------------------------------------------------------

/-- Reading a block returns a body or an error exactly when its body is not compressed, or
ends early, or is made of tokens that can be followed.
-/
theorem readBlock_returns_iff (file : Bytes) (header : BlockHeader)
    : (∃ outcome, readBlock file header = some outcome)
      ↔ (header.compressionFlag = 1
        → header.storedSize.toNat ≤ file.length
        → Lz77.Followed 0 (file.take header.storedSize.toNat)) := by
  unfold readBlock
  split
  · rename_i plain
    rw [plain]
    simp
  · split
    · rename_i compressed
      rw [compressed, ← Lz77.decode_iff]
      by_cases enough : header.storedSize.toNat ≤ file.length
      · rw [readExact, if_pos enough]
        cases decoded : Lz77.decode (file.take header.storedSize.toNat) <;>
          simp [enough, decoded]
      · rw [readExact, if_neg enough]
        simp [enough]
    · rename_i unknown
      simp [unknown]

/-- A compressed body of one byte, which is no token. -/
def unknownToken : BlockHeader :=
  { uncompressedSize := 1, storedSize := 1, compressionFlag := 1 }

theorem readBlock_panics
    : ¬ ∀ (file : Bytes) (header : BlockHeader),
        ∃ outcome, readBlock file header = some outcome := by
  intro total
  obtain ⟨outcome, read⟩ := total [2] unknownToken
  have panics : readBlock [2] unknownToken = none := by
    decide +kernel
  rw [panics] at read
  cases read

end Lsm

end Rustikv

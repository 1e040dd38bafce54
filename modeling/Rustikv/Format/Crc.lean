import Rustikv.Format.Reader
import Rustikv.Library.CyclicRedundancy

/-! The table-driven CRC-32 of the record format and of the Bloom filter hashes. -/

namespace Rustikv

open Library

def reflectedPolynomial : UInt32 := 0xEDB88320

/-- One bit of the reflected division. -/
def crcBit (crc : UInt32) : UInt32 :=
  if crc &&& 1 == 1 then (crc >>> 1) ^^^ reflectedPolynomial else crc >>> 1

/-- `LOOKUP_TABLE`: eight bit steps from each byte value. -/
def lookupTable (index : UInt8) : UInt32 :=
  Nat.iterate crcBit 8 index.toUInt32

/-- The loops of `make_lookup_table`, which fill the table entry by entry. -/
def makeLookupTable : List UInt32 :=
  (List.range 256).foldl
    (fun table i =>
      table.set i ((List.range 8).foldl (fun crc _ => crcBit crc) (UInt32.ofNat i)))
    (List.replicate 256 0)

/-- One byte of the register update shared by both checksums. -/
def crcByte (crc : UInt32) (byte : UInt8) : UInt32 :=
  lookupTable (crc.toUInt8 ^^^ byte) ^^^ (crc >>> 8)

def crc32Seeded (data : Bytes) (seed : UInt32) : UInt32 :=
  data.foldl crcByte seed ^^^ 0xFFFFFFFF

def crc32 (data : Bytes) : UInt32 :=
  data.foldl crcByte 0xFFFFFFFF ^^^ 0xFFFFFFFF

/-- The CRC-32 check value of the ASCII digits. -/
example : crc32 (asBytes "123456789") = 0xCBF43926 := by decide +kernel

-----------------------------------------------------------------------------------------
-- The register update as a division
-----------------------------------------------------------------------------------------

open CyclicRedundancy

theorem low_bit (crc : UInt32) : (crc &&& 1 == 1) = crc.toBitVec.getLsbD 0 := by
  have masked : (crc &&& 1).toBitVec
      = (BitVec.ofBool (crc.toBitVec.getLsbD 0)).setWidth 32 :=
    BitVec.and_one_eq_setWidth_ofBool_getLsbD
  rw [Bool.eq_iff_iff, beq_iff_eq, ← UInt32.toBitVec_inj, masked]
  cases crc.toBitVec.getLsbD 0 <;> decide

theorem toBitVec_crcBit (crc : UInt32)
    : (crcBit crc).toBitVec = bitStep reflectedPolynomial.toBitVec crc.toBitVec := by
  unfold crcBit bitStep
  rw [low_bit]
  split <;> simp

theorem toBitVec_iterate_crcBit (count : Nat) (crc : UInt32)
    : (Nat.iterate crcBit count crc).toBitVec
      = bitSteps reflectedPolynomial.toBitVec count crc.toBitVec := by
  induction count generalizing crc with
  | zero => rfl
  | succ count ih =>
      rw [Function.iterate_succ_apply, ih, toBitVec_crcBit]
      rfl

/-- The table holds what the low byte of the register adds when it is divided away. -/
theorem toBitVec_crcByte (crc : UInt32) (byte : UInt8)
    : (crcByte crc byte).toBitVec
      = symbolStep reflectedPolynomial.toBitVec crc.toBitVec byte.toBitVec := by
  have index : ((crc.toUInt8 ^^^ byte).toUInt32).toBitVec
      = ((crc.toBitVec ^^^ byte.toBitVec.setWidth 32).setWidth 8).setWidth 32 := by
    rw [UInt8.toBitVec_toUInt32, UInt8.toBitVec_xor, UInt32.toBitVec_toUInt8]
    apply BitVec.eq_of_getLsbD_eq
    intro index bound
    by_cases low : index < 8 <;> simp [low]
  have shifted : (crc >>> 8).toBitVec
      = (crc.toBitVec ^^^ byte.toBitVec.setWidth 32) >>> 8 := by
    have gone : byte.toBitVec.setWidth 32 >>> 8 = 0#32 := by
      apply BitVec.eq_of_getLsbD_eq
      intro index bound
      simp
    rw [BitVec.ushiftRight_xor_distrib, gone, BitVec.xor_zero]
    rfl
  rw [symbolStep, bitSteps_split _ (by decide), ← index, ← shifted,
    ← toBitVec_iterate_crcBit]
  rfl

theorem toBitVec_foldl_crcByte (crc : UInt32) (data : Bytes)
    : (data.foldl crcByte crc).toBitVec
      = feed reflectedPolynomial.toBitVec crc.toBitVec (data.map UInt8.toBitVec) := by
  induction data generalizing crc with
  | nil => rfl
  | cons byte rest ih =>
      rw [List.foldl_cons, ih, toBitVec_crcByte]
      rfl

-----------------------------------------------------------------------------------------
-- The checksum bit by bit
-----------------------------------------------------------------------------------------

/-- One bit of the data: it joins the bit that the register shifts out. -/
def crcDataBit (crc : UInt32) (bit : Bool) : UInt32 :=
  if (crc &&& 1 == 1) ^^ bit then (crc >>> 1) ^^^ reflectedPolynomial else crc >>> 1

/-- The bits of a byte, the lowest first. -/
def byteBits (byte : UInt8) : List Bool :=
  symbolBits byte.toBitVec

/-- What the checksum is defined as: the reflected division of the data bit by bit, inverted
at the end.
-/
def bitwiseCrc32 (data : Bytes) (seed : UInt32) : UInt32 :=
  (data.flatMap byteBits).foldl crcDataBit seed ^^^ 0xFFFFFFFF

theorem toBitVec_crcDataBit (crc : UInt32) (bit : Bool)
    : (crcDataBit crc bit).toBitVec
      = messageStep reflectedPolynomial.toBitVec crc.toBitVec bit := by
  unfold crcDataBit messageStep
  rw [low_bit]
  split <;> simp

theorem toBitVec_foldl_crcDataBit (crc : UInt32) (bits : List Bool)
    : (bits.foldl crcDataBit crc).toBitVec
      = divide reflectedPolynomial.toBitVec crc.toBitVec bits := by
  induction bits generalizing crc with
  | nil => rfl
  | cons bit rest ih =>
      rw [List.foldl_cons, ih, toBitVec_crcDataBit]
      rfl

theorem foldl_crcByte_eq (data : Bytes) (crc : UInt32)
    : data.foldl crcByte crc = (data.flatMap byteBits).foldl crcDataBit crc := by
  apply UInt32.toBitVec_inj.mp
  rw [toBitVec_foldl_crcByte, toBitVec_foldl_crcDataBit, feed_eq_divide _ (by decide),
    List.flatMap_map]
  rfl

/-- Filling a list place by place. Witness: induction over the places. -/
theorem foldl_set_range {α : Type} (entry : Nat → α) (start : List α) {count : Nat}
    (inside : count ≤ start.length)
    : (List.range count).foldl (fun table i => table.set i (entry i)) start
      = (List.range count).map entry ++ start.drop count := by
  induction count with
  | zero => rfl
  | succ count ih =>
      have held : count < start.length := inside
      have length : ((List.range count).map entry).length = count := by
        simp
      rw [List.range_succ, List.foldl_append, ih (by omega), List.foldl_cons, List.foldl_nil,
        List.set_append_right _ _ length.le, length, Nat.sub_self,
        List.drop_eq_getElem_cons held, List.set_cons_zero, List.map_append,
        List.append_assoc]
      rfl

theorem foldl_crcBit (count : Nat) (crc : UInt32)
    : (List.range count).foldl (fun crc _ => crcBit crc) crc = Nat.iterate crcBit count crc := by
  induction count with
  | zero => rfl
  | succ count ih =>
      rw [List.range_succ, List.foldl_append, ih, Function.iterate_succ_apply']
      rfl

/-- The loops fill in the entry of every byte. -/
theorem makeLookupTable_getElem (index : UInt8)
    : makeLookupTable[index.toNat]? = some (lookupTable index) := by
  have inside : index.toNat < 256 := index.toNat_lt
  have value : UInt32.ofNat index.toNat = index.toUInt32 := UInt32.ofNat_uInt8ToNat index
  have whole : 256 ≤ (List.replicate 256 (0 : UInt32)).length :=
    List.length_replicate.ge
  have listed : (List.range 256)[index.toNat]? = some index.toNat :=
    List.getElem?_range inside
  have front : index.toNat
      < ((List.range 256).map
          (fun i => (List.range 8).foldl (fun crc _ => crcBit crc) (UInt32.ofNat i))).length := by
    rwa [List.length_map, List.length_range]
  rw [makeLookupTable, foldl_set_range _ _ whole, List.getElem?_append_left front,
    List.getElem?_map, listed, Option.map_some, foldl_crcBit, value]
  rfl

/-- From any seed the table-driven checksum is the reflected division bit by bit, and data in
two parts may be divided one part after the other. The two checksums differ in their seed
only.
-/
theorem crc32Seeded_eq (seed : UInt32)
    : (∀ data, crc32Seeded data seed = bitwiseCrc32 data seed)
      ∧ (∀ data, crc32 data = crc32Seeded data 0xFFFFFFFF)
      ∧ (∀ front back,
          crc32Seeded (front ++ back) seed
          = crc32Seeded back (crc32Seeded front seed ^^^ 0xFFFFFFFF))
      ∧ ∀ index : UInt8, makeLookupTable[index.toNat]? = some (lookupTable index) := by
  refine ⟨fun data => ?_, fun _ => rfl, fun front back => ?_, makeLookupTable_getElem⟩
  · rw [crc32Seeded, foldl_crcByte_eq]
    rfl
  · have carried : crc32Seeded front seed ^^^ 0xFFFFFFFF = front.foldl crcByte seed := by
      rw [crc32Seeded, UInt32.xor_assoc, UInt32.xor_self, UInt32.xor_zero]
    rw [carried, crc32Seeded, List.foldl_append]
    rfl

-----------------------------------------------------------------------------------------
-- Bursts
-----------------------------------------------------------------------------------------

/-- The checksum changes with any change within four consecutive bytes. -/
theorem crc32_burst (front back : Bytes) {first second : Bytes}
    (lengths : first.length = second.length) (short : first.length ≤ 4)
    (differ : first ≠ second)
    : crc32 (front ++ first ++ back) ≠ crc32 (front ++ second ++ back) := by
  intro same
  have registers := congrArg UInt32.toBitVec (UInt32.xor_left_inj _ |>.mp same)
  rw [toBitVec_foldl_crcByte, toBitVec_foldl_crcByte] at registers
  simp only [List.map_append] at registers
  refine feed_burst reflectedPolynomial.toBitVec (by decide) _ _ _ ?_ ?_ ?_ registers
  · simpa using lengths
  · rw [List.length_map]
    omega
  · intro windows
    have injective (byte other : UInt8) (bits : byte.toBitVec = other.toBitVec)
        : byte = other :=
      UInt8.toBitVec_inj.mp bits
    exact differ ((List.map_inj_right injective).mp windows)

end Rustikv

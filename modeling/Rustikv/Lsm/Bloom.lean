import Rustikv.Format.Crc

/-! The Bloom filter of an SSTable. -/

namespace Rustikv.Lsm

open Library

def bloomSalt : UInt32 := 0x517CC1B7

structure BloomFilter where
  bits : List UInt8
  hashCount : Nat
  deriving DecidableEq, Repr

namespace BloomFilter

def new (size hashCount : Nat) : BloomFilter :=
  { bits := List.replicate size 0, hashCount }

/-- The `i`-th of the double-hashed bit positions of a key. -/
def bitIndex (size : Nat) (key : String) (i : Nat) : Nat :=
  let h1 := crc32 (asBytes key)
  let h2 := crc32Seeded (asBytes key) bloomSalt
  (h1 + UInt32.ofNat i * h2).toNat % (size * 8)

def bitMask (bitIndex : Nat) : UInt8 :=
  (1 : UInt8) <<< UInt8.ofNat (bitIndex % 8)

def testBit (bits : List UInt8) (bitIndex : Nat) : Bool :=
  bits.getD (bitIndex / 8) 0 &&& bitMask bitIndex != 0

def setBit (bits : List UInt8) (bitIndex : Nat) : List UInt8 :=
  bits.modify (bitIndex / 8) (· ||| bitMask bitIndex)

def mightContain (filter : BloomFilter) (key : String) : Bool :=
  (List.range filter.hashCount).all
    (fun i => testBit filter.bits (bitIndex filter.bits.length key i))

def insert (filter : BloomFilter) (key : String) : BloomFilter :=
  {
    filter with
    bits :=
      (List.range filter.hashCount).foldl
        (fun bits i => setBit bits (bitIndex filter.bits.length key i)) filter.bits
  }

-----------------------------------------------------------------------------------------
-- No false negatives
-----------------------------------------------------------------------------------------

theorem bitMask_ne_zero (bitIndex : Nat) : bitMask bitIndex ≠ 0 := by
  have small : bitIndex % 8 < 8 := Nat.mod_lt _ (by decide)
  have every : ∀ bit < 8, (1 : UInt8) <<< UInt8.ofNat bit ≠ 0 := by decide
  exact every _ small

theorem length_setBit (bits : List UInt8) (bit : Nat)
    : (setBit bits bit).length = bits.length := by
  simp [setBit]

theorem testBit_setBit_self {bits : List UInt8} {bit : Nat} (inside : bit / 8 < bits.length)
    : testBit (setBit bits bit) bit = true := by
  have masked (byte : UInt8) : (byte ||| bitMask bit) &&& bitMask bit = bitMask bit := by
    simp [← UInt8.toBitVec_inj]
    grind
  simp [testBit, setBit, inside, masked, bitMask_ne_zero]

/-- Setting a bit clears none. -/
theorem testBit_setBit {bits : List UInt8} {bit : Nat} (other : Nat)
    (held : testBit bits bit = true)
    : testBit (setBit bits other) bit = true := by
  simp only [testBit, setBit, bne_iff_ne, ne_eq, List.getD_eq_getElem?_getD,
    List.getElem?_modify] at held ⊢
  cases found : bits[bit / 8]? with
  | none => simp [found] at held
  | some byte =>
      simp only [found, Option.getD_some] at held
      by_cases same : other / 8 = bit / 8
      · have spread : (byte ||| bitMask other) &&& bitMask bit
            = byte &&& bitMask bit ||| bitMask other &&& bitMask bit := by
          simp only [← UInt8.toBitVec_inj, UInt8.toBitVec_and, UInt8.toBitVec_or]
          grind
        simp [same, spread, held]
      · simp [same, held]

theorem testBit_foldl_setBit {α : Type} (position : α → Nat) (items : List α)
    {bits : List UInt8} {bit : Nat} (held : testBit bits bit = true)
    : testBit (items.foldl (fun bits item => setBit bits (position item)) bits) bit
      = true := by
  induction items generalizing bits with
  | nil => exact held
  | cons item rest ih => exact ih (testBit_setBit (position item) held)

theorem length_foldl_setBit {α : Type} (position : α → Nat) (items : List α)
    (bits : List UInt8)
    : (items.foldl (fun bits item => setBit bits (position item)) bits).length
      = bits.length := by
  induction items generalizing bits with
  | nil => rfl
  | cons item rest ih => rw [List.foldl_cons, ih, length_setBit]

/-- A fold that visits a position leaves its bit set. -/
theorem testBit_foldl_setBit_self {α : Type} (position : α → Nat) {items : List α}
    {item : α} (member : item ∈ items) {bits : List UInt8}
    (inside : position item / 8 < bits.length)
    : testBit (items.foldl (fun bits item => setBit bits (position item)) bits)
        (position item)
      = true := by
  induction items generalizing bits with
  | nil => simp at member
  | cons first rest ih =>
      rw [List.foldl_cons]
      rcases List.mem_cons.mp member with rfl | later
      · exact testBit_foldl_setBit position rest (testBit_setBit_self inside)
      · exact ih later (by rwa [length_setBit])

@[simp]
theorem length_bits_insert (filter : BloomFilter) (key : String)
    : (filter.insert key).bits.length = filter.bits.length :=
  length_foldl_setBit _ _ _

theorem mightContain_insert_self {filter : BloomFilter} (room : 0 < filter.bits.length)
    (key : String)
    : (filter.insert key).mightContain key = true := by
  simp only [mightContain, length_bits_insert, List.all_eq_true, List.mem_range]
  intro i bound
  refine testBit_foldl_setBit_self (bitIndex filter.bits.length key)
    (List.mem_range.mpr bound) ?_
  have below : bitIndex filter.bits.length key i < filter.bits.length * 8 :=
    Nat.mod_lt _ (by omega)
  omega

theorem mightContain_insert {filter : BloomFilter} {key : String} (other : String)
    (held : filter.mightContain key = true)
    : (filter.insert other).mightContain key = true := by
  simp only [mightContain, length_bits_insert, List.all_eq_true, List.mem_range] at held ⊢
  intro i bound
  exact testBit_foldl_setBit _ _ (held i bound)

theorem mightContain_foldl_insert {filter : BloomFilter} {key : String}
    (others : List String) (held : filter.mightContain key = true)
    : (others.foldl insert filter).mightContain key = true := by
  induction others generalizing filter with
  | nil => exact held
  | cons other rest ih => exact ih (mightContain_insert other held)

/-- A filter filled with a list of keys may contain each of them. -/
theorem mightContain_of_mem {keys : List String} {key : String} (member : key ∈ keys)
    {filter : BloomFilter} (room : 0 < filter.bits.length)
    : (keys.foldl insert filter).mightContain key = true := by
  induction keys generalizing filter with
  | nil => simp at member
  | cons first rest ih =>
      rcases List.mem_cons.mp member with rfl | later
      · exact mightContain_foldl_insert rest (mightContain_insert_self room key)
      · exact ih later (by rwa [length_bits_insert])

end BloomFilter

end Rustikv.Lsm

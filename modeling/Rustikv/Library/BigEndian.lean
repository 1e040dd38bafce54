import Mathlib.Tactic.Ring

/-! Fixed-width big-endian encodings of natural numbers, and their inverse. -/

namespace Rustikv.Library

abbrev Bytes := List UInt8

/-- The low `width` bytes of `value`, most significant byte first. -/
def toBigEndian : Nat → Nat → Bytes
  | 0, _ => []
  | width + 1, value => UInt8.ofNat (value / 256 ^ width) :: toBigEndian width value

/-- The number whose big-endian digits are `bytes`. -/
def ofBigEndian (bytes : Bytes) : Nat :=
  bytes.foldl (fun value byte => value * 256 + byte.toNat) 0

@[simp]
theorem length_toBigEndian (width value : Nat)
    : (toBigEndian width value).length = width := by
  induction width with
  | zero => rfl
  | succ width ih => simp [toBigEndian, ih]

/-- Reading the digits onto an accumulator shifts it by their width. Witness: induction on
the width, splitting the top digit off the remainder.
-/
theorem foldl_toBigEndian (width value start : Nat)
    : (toBigEndian width value).foldl (fun value byte => value * 256 + byte.toNat) start
      = start * 256 ^ width + value % 256 ^ width := by
  induction width generalizing start with
  | zero => simp [toBigEndian, Nat.mod_one]
  | succ width ih =>
      have split : value % 256 ^ (width + 1)
          = value % 256 ^ width + 256 ^ width * (value / 256 ^ width % 256) := by
        rw [pow_succ, Nat.mod_mul]
      simp only [toBigEndian, List.foldl_cons, ih, UInt8.toNat_ofNat', split]
      ring

theorem ofBigEndian_toBigEndian {width value : Nat} (small : value < 256 ^ width)
    : ofBigEndian (toBigEndian width value) = value := by
  simp [ofBigEndian, foldl_toBigEndian, Nat.mod_eq_of_lt small]

theorem foldl_div (bytes : Bytes) (start : Nat)
    : bytes.foldl (fun value byte => value * 256 + byte.toNat) start / 256 ^ bytes.length
      = start := by
  induction bytes generalizing start with
  | nil => simp
  | cons byte rest ih =>
      have small := byte.toNat_lt
      rw [List.foldl_cons, List.length_cons, pow_succ, ← Nat.div_div_eq_div_mul, ih]
      omega

theorem ofBigEndian_lt (bytes : Bytes) : ofBigEndian bytes < 256 ^ bytes.length :=
  (Nat.div_eq_zero_iff_lt (Nat.pow_pos (by decide))).mp (foldl_div bytes 0)

theorem toBigEndian_foldl (bytes : Bytes) (start : Nat)
    : toBigEndian bytes.length
        (bytes.foldl (fun value byte => value * 256 + byte.toNat) start)
      = bytes := by
  induction bytes generalizing start with
  | nil => rfl
  | cons byte rest ih =>
      have digit : UInt8.ofNat (start * 256 + byte.toNat) = byte := by
        apply UInt8.toNat_inj.mp
        have small := byte.toNat_lt
        rw [UInt8.toNat_ofNat']
        omega
      rw [List.foldl_cons, List.length_cons, toBigEndian, foldl_div, digit, ih]

theorem toBigEndian_ofBigEndian (bytes : Bytes)
    : toBigEndian bytes.length (ofBigEndian bytes) = bytes :=
  toBigEndian_foldl bytes 0

end Rustikv.Library

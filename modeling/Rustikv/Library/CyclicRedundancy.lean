import Mathlib.Logic.Function.Iterate

/-! Reflected cyclic redundancy checks over words of any width: the division register, its
table-driven form, and the errors that no register overlooks.
-/

namespace Rustikv.Library

namespace CyclicRedundancy

variable {width size : Nat} (polynomial : BitVec width)

/-- One bit of the reflected division. -/
def bitStep (register : BitVec width) : BitVec width :=
  if register.getLsbD 0 then (register >>> 1) ^^^ polynomial else register >>> 1

def bitSteps (count : Nat) (register : BitVec width) : BitVec width :=
  (bitStep polynomial)^[count] register

/-- One symbol of the message: it is added to the register and divided away. -/
def symbolStep (register : BitVec width) (symbol : BitVec size) : BitVec width :=
  bitSteps polynomial size (register ^^^ symbol.setWidth width)

def feed (register : BitVec width) (message : List (BitVec size)) : BitVec width :=
  message.foldl (symbolStep polynomial) register

-----------------------------------------------------------------------------------------
-- The division is linear and loses nothing
-----------------------------------------------------------------------------------------

theorem bitStep_xor (first second : BitVec width)
    : bitStep polynomial (first ^^^ second)
      = bitStep polynomial first ^^^ bitStep polynomial second := by
  unfold bitStep
  rw [BitVec.getLsbD_xor, BitVec.ushiftRight_xor_distrib]
  cases first.getLsbD 0 <;> cases second.getLsbD 0 <;> simp
  · rw [BitVec.xor_assoc]
  · rw [BitVec.xor_assoc, BitVec.xor_assoc, BitVec.xor_comm polynomial]
  · rw [BitVec.xor_assoc, ← BitVec.xor_assoc polynomial, BitVec.xor_comm polynomial,
      BitVec.xor_assoc, BitVec.xor_self, BitVec.xor_zero]

theorem bitSteps_xor (count : Nat) (first second : BitVec width)
    : bitSteps polynomial count (first ^^^ second)
      = bitSteps polynomial count first ^^^ bitSteps polynomial count second := by
  induction count generalizing first second with
  | zero => rfl
  | succ count ih =>
      simp only [bitSteps, Function.iterate_succ_apply, bitStep_xor] at ih ⊢
      exact ih _ _

theorem bitSteps_add (first second : Nat) (register : BitVec width)
    : bitSteps polynomial (first + second) register
      = bitSteps polynomial second (bitSteps polynomial first register) := by
  rw [bitSteps, Nat.add_comm, Function.iterate_add_apply]
  rfl

/-- The top bit of the polynomial records in the register which bit was shifted out. -/
theorem bitStep_injective (top : polynomial.msb = true)
    : Function.Injective (bitStep polynomial) := by
  intro first second same
  have positive : 0 < width := by
    by_contra none
    obtain rfl : width = 0 := by omega
    simp [BitVec.msb_eq_getLsbD_last] at top
  have topBit (register : BitVec width)
      : (bitStep polynomial register).getLsbD (width - 1) = register.getLsbD 0 := by
    rw [BitVec.msb_eq_getLsbD_last] at top
    have past : register.getLsbD (1 + (width - 1)) = false :=
      BitVec.getLsbD_of_ge _ _ (by omega)
    unfold bitStep
    cases low : register.getLsbD 0 <;> simp [past, top]
  have low : first.getLsbD 0 = second.getLsbD 0 := by
    rw [← topBit first, same, topBit]
  have high : first >>> 1 = second >>> 1 := by
    unfold bitStep at same
    rw [low] at same
    split at same
    · apply (BitVec.xor_right_inj _).mp
      rwa [BitVec.xor_comm, BitVec.xor_comm polynomial]
    · exact same
  apply BitVec.eq_of_getLsbD_eq
  intro index bound
  cases index with
  | zero => exact low
  | succ index =>
      have shifted := congrArg (fun register => register.getLsbD index) high
      simpa only [BitVec.getLsbD_ushiftRight, Nat.add_comm 1] using shifted

theorem bitSteps_injective (top : polynomial.msb = true) (count : Nat)
    : Function.Injective (bitSteps polynomial count) :=
  (bitStep_injective polynomial top).iterate count

/-- Bits that were only shifted in are shifted out again. -/
theorem bitSteps_shiftLeft {register : BitVec width} {count : Nat}
    (room : ∀ index, width - count ≤ index → register.getLsbD index = false)
    : bitSteps polynomial count (register <<< count) = register := by
  induction count with
  | zero => exact BitVec.shiftLeft_zero register
  | succ count ih =>
      have step : bitStep polynomial (register <<< (count + 1)) = register <<< count := by
        have even : (register <<< (count + 1)).getLsbD 0 = false := by simp
        rw [bitStep, if_neg (by rw [even]; exact Bool.false_ne_true)]
        apply BitVec.eq_of_getLsbD_eq
        intro index bound
        rw [BitVec.getLsbD_ushiftRight, BitVec.getLsbD_shiftLeft, BitVec.getLsbD_shiftLeft,
          Nat.add_comm 1 index]
        by_cases last : index + 1 < width
        · simp [last, bound]
        · have none := room (index - count) (by omega)
          simp [last, none]
      rw [bitSteps, Function.iterate_succ_apply, step]
      exact ih (fun index bound => room index (by omega))

/-- The table-driven form: what the low bits add is looked up, the others are shifted. -/
theorem bitSteps_split {count : Nat} (bound : count ≤ width) (register : BitVec width)
    : bitSteps polynomial count register
      = bitSteps polynomial count ((register.setWidth count).setWidth width)
        ^^^ (register >>> count) := by
  have parts : register
      = (register.setWidth count).setWidth width ^^^ ((register >>> count) <<< count) := by
    apply BitVec.eq_of_getLsbD_eq
    intro index inside
    rw [BitVec.getLsbD_xor, BitVec.getLsbD_setWidth, BitVec.getLsbD_setWidth,
      BitVec.getLsbD_shiftLeft, BitVec.getLsbD_ushiftRight]
    by_cases low : index < count
    · simp [inside, low]
    · simp [inside, low, Nat.add_sub_cancel' (Nat.le_of_not_lt low)]
  have shifted : bitSteps polynomial count ((register >>> count) <<< count)
      = register >>> count := by
    refine bitSteps_shiftLeft polynomial fun index past => ?_
    rw [BitVec.getLsbD_ushiftRight]
    exact BitVec.getLsbD_of_ge _ _ (by omega)
  calc
    bitSteps polynomial count register
        = bitSteps polynomial count ((register.setWidth count).setWidth width
            ^^^ ((register >>> count) <<< count)) := congrArg _ parts
    _ = _ := by rw [bitSteps_xor, shifted]

-----------------------------------------------------------------------------------------
-- Bit by bit
-----------------------------------------------------------------------------------------

/-- One bit of the message joins the bit that is shifted out. -/
def messageStep (register : BitVec width) (bit : Bool) : BitVec width :=
  if register.getLsbD 0 ^^ bit then (register >>> 1) ^^^ polynomial else register >>> 1

/-- The bits of a symbol, the lowest first. -/
def symbolBits (symbol : BitVec size) : List Bool :=
  (List.range size).map symbol.getLsbD

/-- The division of a message bit by bit. -/
def divide (register : BitVec width) (message : List Bool) : BitVec width :=
  message.foldl (messageStep polynomial) register

/-- The bits not yet divided away stand beside the register. -/
theorem bitStep_message (register message : BitVec width)
    : bitStep polynomial (register ^^^ message)
      = messageStep polynomial register (message.getLsbD 0) ^^^ (message >>> 1) := by
  unfold bitStep messageStep
  rw [BitVec.getLsbD_xor, BitVec.ushiftRight_xor_distrib]
  cases register.getLsbD 0 ^^ message.getLsbD 0 with
  | false => rfl
  | true =>
      rw [if_pos rfl, if_pos rfl, BitVec.xor_assoc, BitVec.xor_comm (message >>> 1),
        ← BitVec.xor_assoc]

/-- Witness: induction over the bits taken so far. -/
theorem bitSteps_message (register message : BitVec width) (count : Nat)
    : bitSteps polynomial count (register ^^^ message)
      = divide polynomial register ((List.range count).map message.getLsbD)
        ^^^ (message >>> count) := by
  induction count with
  | zero =>
      rw [BitVec.ushiftRight_zero]
      rfl
  | succ count ih =>
      have bit : (message >>> count).getLsbD 0 = message.getLsbD count := by
        rw [BitVec.getLsbD_ushiftRight, Nat.add_zero]
      rw [bitSteps_add, ih, bitSteps, Function.iterate_one, bitStep_message, bit,
        BitVec.shiftRight_add, List.range_succ, List.map_append, divide, divide,
        List.foldl_append]
      rfl

/-- A symbol that fits the register is divided away bit by bit. -/
theorem symbolStep_eq_divide (fits : size ≤ width) (register : BitVec width)
    (symbol : BitVec size)
    : symbolStep polynomial register symbol
      = divide polynomial register (symbolBits symbol) := by
  have bits : (List.range size).map (symbol.setWidth width).getLsbD = symbolBits symbol := by
    refine List.map_congr_left (fun index member => ?_)
    have inside : index < width := Nat.lt_of_lt_of_le (List.mem_range.mp member) fits
    rw [BitVec.getLsbD_setWidth, decide_eq_true inside, Bool.true_and]
  have gone : symbol.setWidth width >>> size = BitVec.ofNat width 0 := by
    apply BitVec.eq_of_getLsbD_eq
    intro index bound
    simp
  rw [symbolStep, bitSteps_message, bits, gone, BitVec.xor_zero]

theorem feed_eq_divide (fits : size ≤ width) (register : BitVec width)
    (message : List (BitVec size))
    : feed polynomial register message
      = divide polynomial register (message.flatMap symbolBits) := by
  induction message generalizing register with
  | nil => rfl
  | cons symbol rest ih =>
      have first := symbolStep_eq_divide polynomial fits register symbol
      rw [feed, List.foldl_cons, first, ← feed, ih, List.flatMap_cons]
      exact (List.foldl_append).symm

-----------------------------------------------------------------------------------------
-- Burst errors
-----------------------------------------------------------------------------------------

/-- A short message as one word, its first symbol in the low bits. -/
def packed : List (BitVec size) → BitVec width
  | [] => 0
  | symbol :: rest => symbol.setWidth width ^^^ (packed rest <<< size)

theorem getLsbD_packed (message : List (BitVec size)) {index : Nat}
    (past : size * message.length ≤ index)
    : (packed message : BitVec width).getLsbD index = false := by
  induction message generalizing index with
  | nil => simp [packed]
  | cons symbol rest ih =>
      rw [List.length_cons, Nat.mul_add, Nat.mul_one] at past
      have none := ih (show size * rest.length ≤ index - size by omega)
      have beyond : symbol.getLsbD index = false :=
        BitVec.getLsbD_of_ge _ _ (by omega)
      simp [packed, beyond, none]

/-- The symbols behind the first lose nothing when they make room for it. -/
theorem bitSteps_packed {symbol : BitVec size} {rest : List (BitVec size)}
    (fits : size * (symbol :: rest).length ≤ width)
    : bitSteps polynomial size ((packed rest : BitVec width) <<< size) = packed rest := by
  refine bitSteps_shiftLeft polynomial fun index bound => getLsbD_packed rest ?_
  rw [List.length_cons, Nat.mul_add, Nat.mul_one] at fits
  omega

/-- A message no longer than the register is divided as one word. -/
theorem feed_eq_packed {message : List (BitVec size)} (fits : size * message.length ≤ width)
    (register : BitVec width)
    : feed polynomial register message
      = bitSteps polynomial (size * message.length) (register ^^^ packed message) := by
  induction message generalizing register with
  | nil => exact (BitVec.xor_zero).symm
  | cons symbol rest ih =>
      have shorter : size * rest.length ≤ width := by
        rw [List.length_cons, Nat.mul_add] at fits
        omega
      have first : symbolStep polynomial register symbol ^^^ packed rest
          = bitSteps polynomial size (register ^^^ packed (symbol :: rest)) := by
        rw [symbolStep, packed, ← BitVec.xor_assoc, bitSteps_xor _ _ (register ^^^ _),
          bitSteps_packed polynomial fits]
      rw [List.length_cons, Nat.mul_add, Nat.mul_one, Nat.add_comm, bitSteps_add, ← first,
        ← ih shorter]
      rfl

theorem packed_injective {first second : List (BitVec size)}
    (lengths : first.length = second.length) (fits : size * first.length ≤ width)
    (same : (packed first : BitVec width) = packed second)
    : first = second := by
  induction first generalizing second with
  | nil => exact (List.length_eq_zero_iff.mp lengths.symm).symm
  | cons symbol rest ih =>
      cases second with
      | nil => simp at lengths
      | cons other others =>
          have long := fits
          rw [List.length_cons, Nat.mul_add, Nat.mul_one] at fits
          have head : symbol = other := by
            apply BitVec.eq_of_getLsbD_eq
            intro index bound
            have inside : index < width := by omega
            have bits := congrArg (fun word : BitVec width => word.getLsbD index) same
            simpa [packed, inside, bound] using bits
          subst head
          rw [packed, packed, BitVec.xor_right_inj] at same
          have longOthers : size * (symbol :: others).length ≤ width := by rwa [← lengths]
          have tail : (packed rest : BitVec width) = packed others := by
            rw [← bitSteps_packed 0 long, same, bitSteps_packed 0 longOthers]
          rw [ih (Nat.succ.inj lengths) (by omega) tail]

/-- Different registers stay different over any message. -/
theorem feed_injective (top : polynomial.msb = true) (message : List (BitVec size))
    : Function.Injective (fun register => feed polynomial register message) := by
  induction message with
  | nil => exact Function.injective_id
  | cons symbol rest ih =>
      intro first second same
      have before := ih same
      exact BitVec.xor_left_inj _ |>.mp (bitSteps_injective polynomial top size before)

/-- A register overlooks no error within as many consecutive bits as it is wide. -/
theorem feed_burst (top : polynomial.msb = true) (register : BitVec width)
    (front back : List (BitVec size)) {first second : List (BitVec size)}
    (lengths : first.length = second.length) (fits : size * first.length ≤ width)
    (differ : first ≠ second)
    : feed polynomial register (front ++ first ++ back)
      ≠ feed polynomial register (front ++ second ++ back) := by
  intro same
  simp only [feed, List.foldl_append] at same
  have window := feed_injective polynomial top back same
  change feed polynomial (feed polynomial register front) first
    = feed polynomial (feed polynomial register front) second at window
  have fitsToo : size * second.length ≤ width := by rwa [← lengths]
  rw [feed_eq_packed polynomial fits (feed polynomial register front),
    feed_eq_packed polynomial fitsToo (feed polynomial register front), ← lengths] at window
  have words := bitSteps_injective polynomial top _ window
  rw [BitVec.xor_right_inj] at words
  exact differ (packed_injective lengths fits words)

end CyclicRedundancy

end Rustikv.Library

import Mathlib.Data.List.Basic

/-! Taking a text apart: suffixes, the last separator, words, decimal numbers. -/

namespace Rustikv.Library

-----------------------------------------------------------------------------------------
-- Suffixes and separators
-----------------------------------------------------------------------------------------

section Split

variable {α : Type} [DecidableEq α]

def stripSuffix (suffix text : List α) : Option (List α) :=
  if suffix.isSuffixOf text then some (text.take (text.length - suffix.length)) else none

/-- The parts before and after the last occurrence of the separator. -/
def rsplitOnce (separator : List α) : List α → Option (List α × List α)
  | [] => none
  | first :: rest =>
      match rsplitOnce separator rest with
      | some (front, back) => some (first :: front, back)
      | none =>
          if separator.isPrefixOf (first :: rest) then
            some ([], (first :: rest).drop separator.length)
          else
            none

theorem stripSuffix_append (text suffix : List α)
    : stripSuffix suffix (text ++ suffix) = some text := by
  simp [stripSuffix]

variable {mark : α} {separator : List α}

theorem rsplitOnce_eq_none {text : List α} (absent : mark ∉ text)
    : rsplitOnce (mark :: separator) text = none := by
  induction text with
  | nil => rfl
  | cons first rest ih =>
      obtain ⟨other, later⟩ := not_or.mp (mt List.mem_cons.mpr absent)
      simp [rsplitOnce, ih later, List.isPrefixOf, other]

/-- A separator behind which its first character does not occur again is the last one. -/
theorem rsplitOnce_append (front : List α) {back : List α} (inside : mark ∉ separator)
    (behind : mark ∉ back)
    : rsplitOnce (mark :: separator) (front ++ (mark :: separator) ++ back)
      = some (front, back) := by
  induction front with
  | nil =>
      have none : rsplitOnce (mark :: separator) (separator ++ back) = none := by
        refine rsplitOnce_eq_none ?_
        simp [inside, behind]
      simp [rsplitOnce, none, List.isPrefixOf_iff_prefix]
  | cons first rest ih => simp only [List.cons_append, rsplitOnce, ih]

theorem append_of_rsplitOnce {text front back : List α}
    (split : rsplitOnce separator text = some (front, back))
    : text = front ++ separator ++ back := by
  induction text generalizing front with
  | nil => cases split
  | cons first rest ih =>
      unfold rsplitOnce at split
      split at split
      next before after found =>
        obtain ⟨rfl, rfl⟩ := Prod.mk.inj (Option.some.inj split)
        rw [ih found, List.cons_append, List.cons_append]
      next =>
        split at split
        next heads =>
          obtain ⟨rfl, rfl⟩ := Prod.mk.inj (Option.some.inj split)
          obtain ⟨behind, same⟩ := List.isPrefixOf_iff_prefix.mp heads
          rw [← same, List.nil_append, List.drop_left]
        next => cases split

/-- The part in front of a separator is shorter than the text. -/
theorem length_of_rsplitOnce {text front back : List α}
    (split : rsplitOnce (mark :: separator) text = some (front, back))
    : front.length < text.length := by
  have total := congrArg List.length (append_of_rsplitOnce split)
  simp only [List.length_append, List.length_cons] at total
  omega

end Split

-----------------------------------------------------------------------------------------
-- Words
-----------------------------------------------------------------------------------------

section Words

variable {α : Type}

/-- The longest runs without a separator, the empty ones left out. -/
def splitRuns (separates : α → Bool) (text : List α) : List (List α) :=
  (text.splitOnP separates).filter (fun run => !run.isEmpty)

/-- Runs behind each other with one separator between them are found again. -/
theorem splitRuns_intercalate {separates : α → Bool} {mark : α}
    (marks : separates mark = true) {runs : List (List α)}
    (solid : ∀ run ∈ runs, run ≠ [] ∧ ∀ char ∈ run, separates char = false)
    : splitRuns separates ([mark].intercalate runs) = runs := by
  induction runs with
  | nil => rfl
  | cons run rest ih =>
      obtain ⟨nonempty, whole⟩ := solid run List.mem_cons_self
      have kept : (!run.isEmpty) = true := by simpa using nonempty
      cases rest with
      | nil =>
          rw [List.intercalate_singleton, splitRuns, List.splitOnP_eq_singleton whole]
          simp [kept]
      | cons next later =>
          have others := ih (fun other member => solid other (List.mem_cons_of_mem run member))
          rw [List.intercalate_cons_cons, List.append_assoc, List.singleton_append, splitRuns,
            List.splitOnP_append_cons_of_forall_mem whole mark marks, List.filter_cons,
            if_pos kept]
          exact congrArg (run :: ·) others

end Words

-----------------------------------------------------------------------------------------
-- Decimal numbers
-----------------------------------------------------------------------------------------

/-- An unsigned number below `bound`, in decimal and with an optional plus sign. -/
def parseUnsigned (bound : Nat) (text : List Char) : Option Nat :=
  let digits :=
    match text with
    | '+' :: rest => rest
    | _ => text
  if digits.isEmpty || !digits.all Char.isDigit then
    none
  else
    let value := Nat.ofDigitChars 10 digits 0
    if value < bound then some value else none

theorem parseUnsigned_toDigits (bound value : Nat)
    : parseUnsigned bound (Nat.toDigits 10 value)
      = if value < bound then some value else none := by
  have digits : ∀ char ∈ Nat.toDigits 10 value, char.isDigit = true :=
    fun char member => Nat.isDigit_of_mem_toDigits (by decide) (by decide) member
  have nonempty : Nat.toDigits 10 value ≠ [] := Nat.toDigits_ne_nil
  have unsigned
      : (match Nat.toDigits 10 value with
        | '+' :: rest => rest
        | _ => Nat.toDigits 10 value)
        = Nat.toDigits 10 value := by
    split
    next rest shape =>
      have plus := digits '+' (by simp [shape])
      cases plus
    next => rfl
  have all : (Nat.toDigits 10 value).all Char.isDigit = true := List.all_eq_true.mpr digits
  simp only [parseUnsigned, unsigned, all, List.isEmpty_iff, nonempty, Bool.not_true,
    Bool.or_false, Nat.ofDigitChars_ten_toDigits, if_false]

/-- What is read as a number is made of digits, behind an optional plus sign. -/
theorem not_mem_of_parseUnsigned {bound value : Nat} {text : List Char}
    (parsed : parseUnsigned bound text = some value) {mark : Char}
    (other : mark.isDigit = false) (unsigned : mark ≠ '+')
    : mark ∉ text := by
  have absent : ∀ digits : List Char,
      (if digits.isEmpty || !digits.all Char.isDigit then none
        else if Nat.ofDigitChars 10 digits 0 < bound then
          some (Nat.ofDigitChars 10 digits 0)
        else none) = some value
      → mark ∉ digits := by
    intro digits parsed member
    split at parsed
    · cases parsed
    next valid =>
      simp only [Bool.or_eq_true, not_or, Bool.not_eq_true, Bool.not_eq_false'] at valid
      rw [List.all_eq_true.mp valid.2 mark member] at other
      cases other
  unfold parseUnsigned at parsed
  split at parsed
  next rest =>
    refine List.not_mem_cons_of_ne_of_not_mem unsigned ?_
    exact absent rest parsed
  next => exact absent text parsed

/-- A decimal number is made of digits. -/
theorem not_mem_toDigits {mark : Char} (other : mark.isDigit = false) (value : Nat)
    : mark ∉ Nat.toDigits 10 value := by
  intro member
  have digit := Nat.isDigit_of_mem_toDigits (by decide) (by decide) member
  rw [other] at digit
  cases digit

end Rustikv.Library

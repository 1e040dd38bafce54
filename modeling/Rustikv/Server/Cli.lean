import Rustikv.Server.Bffp
import Rustikv.Library.SplitText

/-! The grammar of the interactive client: a typed line is split at white space, its first
word is the verb, and the verb decides how the others are read.
-/

namespace Rustikv.Server

open Library

inductive ParseResult
  | cmd (command : Command)
  | quit
  | invalidInput (message : String)
  deriving DecidableEq, Repr

/-- The verbs that `parse_command` matches on. -/
inductive Verb
  | write
  | read
  | delete
  | exists
  | compact
  | stats
  | list
  | ping
  | quit
  | mget
  | mset
  | range
  | ttl
  | writeTtl
  | mwriteTtl
  deriving DecidableEq, Repr

namespace Verb

def name : Verb → String
  | .write => "WRITE"
  | .read => "READ"
  | .delete => "DELETE"
  | .exists => "EXISTS"
  | .compact => "COMPACT"
  | .stats => "STATS"
  | .list => "LIST"
  | .ping => "PING"
  | .quit => "QUIT"
  | .mget => "MGET"
  | .mset => "MSET"
  | .range => "RANGE"
  | .ttl => "TTL"
  | .writeTtl => "WRITETTL"
  | .mwriteTtl => "MWRITETTL"

def ofName (name : String) : Option Verb :=
  match name with
  | "WRITE" => some .write
  | "READ" => some .read
  | "DELETE" => some .delete
  | "EXISTS" => some .exists
  | "COMPACT" => some .compact
  | "STATS" => some .stats
  | "LIST" => some .list
  | "PING" => some .ping
  | "QUIT" => some .quit
  | "MGET" => some .mget
  | "MSET" => some .mset
  | "RANGE" => some .range
  | "TTL" => some .ttl
  | "WRITETTL" => some .writeTtl
  | "MWRITETTL" => some .mwriteTtl
  | _ => none

@[simp]
theorem ofName_name (verb : Verb) : ofName verb.name = some verb := by
  cases verb <;> rfl

end Verb

-----------------------------------------------------------------------------------------
-- Words
-----------------------------------------------------------------------------------------

/-- `char::is_whitespace`: the property `White_Space` of Unicode. -/
def isWhitespace (char : Char) : Bool :=
  let code := char.toNat
  (0x9 ≤ code && code ≤ 0xD) || (0x2000 ≤ code && code ≤ 0x200A)
    || [0x20, 0x85, 0xA0, 0x1680, 0x2028, 0x2029, 0x202F, 0x205F, 0x3000].contains code

def splitWhitespace (line : String) : List String :=
  (splitRuns isWhitespace line.toList).map String.ofList

/-- The upper case of a character, as far as it is made of ASCII letters. A character with
another upper case is kept, which is outside of ASCII too.
-/
def upperCase (char : Char) : List Char :=
  match char.toNat with
  | 0xDF => ['S', 'S']
  | 0x131 => ['I']
  | 0x17F => ['S']
  | 0xFB00 => ['F', 'F']
  | 0xFB01 => ['F', 'I']
  | 0xFB02 => ['F', 'L']
  | 0xFB03 => ['F', 'F', 'I']
  | 0xFB04 => ['F', 'F', 'L']
  | 0xFB05 => ['S', 'T']
  | 0xFB06 => ['S', 'T']
  | _ => [char.toUpper]

/-- `to_uppercase`, for the comparison with ASCII verbs. -/
def toUppercase (word : String) : String :=
  String.ofList (word.toList.flatMap upperCase)

/-- `words.join(" ")` -/
def joinWords (words : List String) : String :=
  " ".intercalate words

/-- `parse::<u32>()`; the error is not looked at. -/
def parseU32 (word : String) : Option UInt32 :=
  (parseUnsigned (2 ^ 32) word.toList).map UInt32.ofNat

/-- `chunks_exact(2)`: a last word without a partner is left out. -/
def chunksExact : List String → List (String × String)
  | first :: second :: rest => (first, second) :: chunksExact rest
  | _ => []

-----------------------------------------------------------------------------------------
-- Parsing
-----------------------------------------------------------------------------------------

/-- `READ`, `DELETE` and `EXISTS` take one key. -/
def parseKey (command : String → Command) (usage : String) (operands : List String)
    : ParseResult :=
  match operands with
  | [key] => .cmd (command key)
  | _ => .invalidInput usage

def parseWriteTtl (operands : List String) : ParseResult :=
  match operands with
  | key :: seconds :: first :: rest =>
      match parseU32 seconds with
      | some 0 =>
          .invalidInput "Usage: WRITETTL <key> <seconds> <value> (seconds must be >= 1)"
      | some expiry => .cmd (.write key (joinWords (first :: rest)) (some expiry))
      | none => .invalidInput "Invalid expiry time"
  | _ => .invalidInput "Usage: WRITETTL <key> <seconds> <value>"

def parseMwriteTtl (operands : List String) : ParseResult :=
  match operands with
  | seconds :: first :: second :: rest =>
      if rest.length % 2 = 0 then
        match parseU32 seconds with
        | some 0 =>
            .invalidInput ("Usage: MWRITETTL <seconds> <key1> <value1> <keyn> <valuen> "
              ++ "(seconds must be >= 1)")
        | some expiry =>
            .cmd
              (.mset
                ((chunksExact (first :: second :: rest)).map
                  (fun chunk => (chunk.1, chunk.2, some expiry))))
        | none => .invalidInput "Invalid expiry time"
      else
        .invalidInput "Usage: MWRITETTL <seconds> <key1> <value1> <keyn> <valuen>"
  | _ => .invalidInput "Usage: MWRITETTL <seconds> <key1> <value1> <keyn> <valuen>"

/-- The arms of `parse_command`, with the words behind the verb. -/
def parseOperands (verb : Verb) (operands : List String) : ParseResult :=
  match verb with
  | .write =>
      match operands with
      | key :: first :: rest => .cmd (.write key (joinWords (first :: rest)) none)
      | _ => .invalidInput "Usage: WRITE <key> <value>"
  | .read => parseKey .read "Usage: READ <key>" operands
  | .delete => parseKey .delete "Usage: DELETE <key>" operands
  | .exists => parseKey .exists "Usage: EXISTS <key>" operands
  | .compact => .cmd .compact
  | .stats => .cmd .stats
  | .list => .cmd .list
  | .ping => .cmd .ping
  | .quit => .quit
  | .mget =>
      if operands.isEmpty then
        .invalidInput "Usage: MGET <key1> <key2> <keyn>"
      else
        .cmd (.mget operands)
  | .mset =>
      if operands.length < 2 then
        .invalidInput "Usage: MSET <key1> <value1> <keyn> <valuen>"
      else
        .cmd (.mset ((chunksExact operands).map (fun chunk => (chunk.1, chunk.2, none))))
  | .range =>
      match operands with
      | [start, finish] => .cmd (.range start finish)
      | _ => .invalidInput "Usage: RANGE <start> <end>"
  | .ttl =>
      match operands with
      | [key, seconds] =>
          match parseU32 seconds with
          | some expiry => .cmd (.ttl key expiry)
          | none => .invalidInput "Invalid expiry time"
      | _ => .invalidInput "Usage: TTL <key> <seconds>"
  | .writeTtl => parseWriteTtl operands
  | .mwriteTtl => parseMwriteTtl operands

def parseCommand (line : String) : ParseResult :=
  match splitWhitespace line with
  | [] => .invalidInput ""
  | head :: operands =>
      match Verb.ofName (toUppercase head) with
      | some verb => parseOperands verb operands
      | none => .invalidInput ("Unknown command: " ++ head)

-----------------------------------------------------------------------------------------
-- The grammar
-----------------------------------------------------------------------------------------

structure IsWord (word : String) : Prop where
  nonempty : word ≠ ""
  solid : ∀ char ∈ word.toList, isWhitespace char = false

def decimal (seconds : UInt32) : String :=
  String.ofList (Nat.toDigits 10 seconds.toNat)

def pairWords (items : List (String × String)) : List String :=
  items.flatMap (fun item => [item.1, item.2])

/-- What each verb is typed with and what it then stands for. -/
inductive Typed : Verb → List String → ParseResult → Prop
  | write {key : String} {words : List String} (name : IsWord key) (given : words ≠ [])
      (solid : ∀ word ∈ words, IsWord word)
    : Typed .write (key :: words) (.cmd (.write key (joinWords words) none))
  | read {key : String} (name : IsWord key) : Typed .read [key] (.cmd (.read key))
  | delete {key : String} (name : IsWord key) : Typed .delete [key] (.cmd (.delete key))
  | exists {key : String} (name : IsWord key) : Typed .exists [key] (.cmd (.exists key))
  | compact : Typed .compact [] (.cmd .compact)
  | stats : Typed .stats [] (.cmd .stats)
  | list : Typed .list [] (.cmd .list)
  | ping : Typed .ping [] (.cmd .ping)
  | quit : Typed .quit [] .quit
  | mget {keys : List String} (given : keys ≠ []) (names : ∀ key ∈ keys, IsWord key)
    : Typed .mget keys (.cmd (.mget keys))
  | mset {items : List (String × String)} (given : items ≠ [])
      (solid : ∀ item ∈ items, IsWord item.1 ∧ IsWord item.2)
    : Typed .mset (pairWords items)
        (.cmd (.mset (items.map (fun item => (item.1, item.2, none)))))
  | range {start finish : String} (first : IsWord start) (last : IsWord finish)
    : Typed .range [start, finish] (.cmd (.range start finish))
  | ttl {key : String} (name : IsWord key) (seconds : UInt32)
    : Typed .ttl [key, decimal seconds] (.cmd (.ttl key seconds))
  | writeTtl {key : String} {seconds : UInt32} {words : List String} (name : IsWord key)
      (positive : 1 ≤ seconds) (given : words ≠ []) (solid : ∀ word ∈ words, IsWord word)
    : Typed .writeTtl (key :: decimal seconds :: words)
        (.cmd (.write key (joinWords words) (some seconds)))
  | mwriteTtl {seconds : UInt32} {items : List (String × String)} (positive : 1 ≤ seconds)
      (given : items ≠ []) (solid : ∀ item ∈ items, IsWord item.1 ∧ IsWord item.2)
    : Typed .mwriteTtl (decimal seconds :: pairWords items)
        (.cmd (.mset (items.map (fun item => (item.1, item.2, some seconds)))))

theorem parseU32_decimal (seconds : UInt32) : parseU32 (decimal seconds) = some seconds := by
  have small : seconds.toNat < 2 ^ 32 := seconds.toNat_lt
  rw [parseU32, decimal, String.toList_ofList, parseUnsigned_toDigits, if_pos small,
    Option.map_some, UInt32.ofNat_toNat]

theorem chunksExact_pairWords (items : List (String × String))
    : chunksExact (pairWords items) = items := by
  induction items with
  | nil => rfl
  | cons item rest ih => exact congrArg (item :: ·) ih

theorem length_pairWords (items : List (String × String))
    : (pairWords items).length = 2 * items.length := by
  induction items with
  | nil => rfl
  | cons item rest ih =>
      simp only [pairWords, List.flatMap_cons, List.length_append, List.length_cons,
        List.length_nil] at ih ⊢
      omega

theorem ne_zero_of_positive {seconds : UInt32} (positive : 1 ≤ seconds) : seconds ≠ 0 := by
  rintro rfl
  exact absurd positive (by decide)

theorem parseWriteTtl_typed {seconds : UInt32} (positive : 1 ≤ seconds) (key : String)
    {words : List String} (given : words ≠ [])
    : parseWriteTtl (key :: decimal seconds :: words)
      = .cmd (.write key (joinWords words) (some seconds)) := by
  obtain ⟨first, rest, rfl⟩ := List.exists_cons_of_ne_nil given
  simp only [parseWriteTtl, parseU32_decimal]
  split
  next zero => exact absurd (Option.some.inj zero) (ne_zero_of_positive positive)
  next expiry same => rw [Option.some.inj same]
  next missing => cases missing

theorem parseMwriteTtl_typed {seconds : UInt32} (positive : 1 ≤ seconds)
    {items : List (String × String)} (given : items ≠ [])
    : parseMwriteTtl (decimal seconds :: pairWords items)
      = .cmd (.mset (items.map (fun item => (item.1, item.2, some seconds)))) := by
  obtain ⟨item, rest, rfl⟩ := List.exists_cons_of_ne_nil given
  have words : pairWords (item :: rest) = item.1 :: item.2 :: pairWords rest := rfl
  have even : (pairWords rest).length % 2 = 0 := by
    rw [length_pairWords]
    omega
  rw [words, parseMwriteTtl, if_pos even, parseU32_decimal, ← words, chunksExact_pairWords]
  split
  next zero => exact absurd (Option.some.inj zero) (ne_zero_of_positive positive)
  next expiry same => rw [Option.some.inj same]
  next missing => cases missing

/-- Operands of the grammar are read as what they are typed for. -/
theorem parseOperands_typed {verb : Verb} {operands : List String} {result : ParseResult}
    (typed : Typed verb operands result)
    : parseOperands verb operands = result := by
  cases typed with
  | write name given solid =>
      obtain ⟨first, rest, rfl⟩ := List.exists_cons_of_ne_nil given
      rfl
  | read => rfl
  | delete => rfl
  | «exists» => rfl
  | compact => rfl
  | stats => rfl
  | list => rfl
  | ping => rfl
  | quit => rfl
  | mget given names => simp [parseOperands, given]
  | @mset items given solid =>
      have enough : ¬ (pairWords items).length < 2 := by
        have filled := List.length_pos_of_ne_nil given
        rw [length_pairWords]
        omega
      rw [parseOperands, if_neg enough, chunksExact_pairWords]
  | range first last => rfl
  | ttl name seconds => simp only [parseOperands, parseU32_decimal]
  | writeTtl name positive given solid => exact parseWriteTtl_typed positive _ given
  | mwriteTtl positive given solid => exact parseMwriteTtl_typed positive given

-----------------------------------------------------------------------------------------
-- Typed lines
-----------------------------------------------------------------------------------------

/-- The codes of white space are no digits and no lower case letters. -/
theorem code_of_isWhitespace {char : Char} (white : isWhitespace char = true)
    : char.toNat ≤ 32 ∨ 128 ≤ char.toNat := by
  simp only [isWhitespace, List.contains_eq_mem, List.mem_cons, List.not_mem_nil, or_false,
    Bool.or_eq_true, Bool.and_eq_true, decide_eq_true_eq] at white
  omega

theorem isDigit_of_isWhitespace {char : Char} (white : isWhitespace char = true)
    : char.isDigit = false := by
  have code := code_of_isWhitespace white
  by_contra digit
  simp only [Bool.not_eq_false, Char.isDigit, Bool.and_eq_true, decide_eq_true_eq,
    UInt32.le_iff_toNat_le] at digit
  have low : 48 ≤ char.toNat := digit.1
  have high : char.toNat ≤ 57 := digit.2
  omega

theorem toUpper_of_not_lower {char : Char} (other : char.toNat < 97 ∨ 122 < char.toNat)
    : char.toUpper = char := by
  refine dif_neg ?_
  rintro ⟨low, high⟩
  rw [UInt32.le_iff_toNat_le] at low high
  have above : 97 ≤ char.toNat := low
  have below : char.toNat ≤ 122 := high
  omega

/-- Only ASCII letters and the listed characters have an upper case in ASCII. -/
theorem upperCase_of_ascii {char : Char} (ascii : char.toUpper.toNat < 128)
    : upperCase char = [char.toUpper] := by
  have code : char.toNat < 128 := by
    by_contra large
    rw [toUpper_of_not_lower (by omega)] at ascii
    exact large ascii
  unfold upperCase
  split
  all_goals first | omega | rfl

theorem Verb.name_letters (verb : Verb) {char : Char} (member : char ∈ verb.name.toList)
    : isWhitespace char = false ∧ char.toNat < 128 := by
  have all : verb.name.toList.all (fun char => !isWhitespace char && char.toNat < 128)
      = true := by
    cases verb <;> rfl
  simpa using List.all_eq_true.mp all char member

section Head

variable {verb : Verb} {head : String}

theorem toUppercase_head (same : head.toList.map Char.toUpper = verb.name.toList)
    : toUppercase head = verb.name := by
  have letters : ∀ char ∈ head.toList, upperCase char = [char.toUpper] := by
    intro char member
    refine upperCase_of_ascii (Verb.name_letters verb ?_).2
    rw [← same]
    exact List.mem_map_of_mem member
  rw [toUppercase, List.flatMap_congr letters, ← List.map_eq_flatMap, same,
    String.ofList_toList]

theorem isWord_head (same : head.toList.map Char.toUpper = verb.name.toList)
    : IsWord head := by
  constructor
  · rintro rfl
    cases verb <;> cases same
  · intro char member
    by_contra white
    rw [Bool.not_eq_false] at white
    have code := code_of_isWhitespace white
    have upper : char.toUpper = char := toUpper_of_not_lower (by omega)
    have inside : char ∈ verb.name.toList := by
      rw [← same, ← upper]
      exact List.mem_map_of_mem member
    rw [(Verb.name_letters verb inside).1] at white
    cases white

end Head

theorem isWord_of_all {word : String} (nonempty : word ≠ "")
    (solid : word.toList.all (fun char => !isWhitespace char) = true)
    : IsWord word where
  nonempty := nonempty
  solid char member := by simpa using List.all_eq_true.mp solid char member

theorem isWord_decimal (seconds : UInt32) : IsWord (decimal seconds) := by
  constructor
  · intro empty
    have digits := congrArg String.toList empty
    rw [decimal, String.toList_ofList] at digits
    exact Nat.toDigits_ne_nil digits
  · intro char member
    rw [decimal, String.toList_ofList] at member
    by_contra white
    rw [Bool.not_eq_false] at white
    exact not_mem_toDigits (isDigit_of_isWhitespace white) _ member

theorem isWord_pairWords {items : List (String × String)}
    (solid : ∀ item ∈ items, IsWord item.1 ∧ IsWord item.2)
    : ∀ word ∈ pairWords items, IsWord word := by
  intro word member
  obtain ⟨item, inside, part⟩ := List.mem_flatMap.mp member
  rcases List.mem_pair.mp part with rfl | rfl
  · exact (solid item inside).1
  · exact (solid item inside).2

/-- Every operand of the grammar is one word. -/
theorem Typed.isWord {verb : Verb} {operands : List String} {result : ParseResult}
    (typed : Typed verb operands result)
    : ∀ word ∈ operands, IsWord word := by
  cases typed with
  | write name given solid => exact List.forall_mem_cons.mpr ⟨name, solid⟩
  | read name => exact List.forall_mem_singleton.mpr name
  | delete name => exact List.forall_mem_singleton.mpr name
  | «exists» name => exact List.forall_mem_singleton.mpr name
  | compact => exact List.forall_mem_nil _
  | stats => exact List.forall_mem_nil _
  | list => exact List.forall_mem_nil _
  | ping => exact List.forall_mem_nil _
  | quit => exact List.forall_mem_nil _
  | mget given names => exact names
  | mset given solid => exact isWord_pairWords solid
  | range first last =>
      exact List.forall_mem_cons.mpr ⟨first, List.forall_mem_singleton.mpr last⟩
  | ttl name seconds =>
      exact List.forall_mem_cons.mpr
        ⟨name, List.forall_mem_singleton.mpr (isWord_decimal seconds)⟩
  | writeTtl name positive given solid =>
      exact List.forall_mem_cons.mpr
        ⟨name, List.forall_mem_cons.mpr ⟨isWord_decimal _, solid⟩⟩
  | mwriteTtl positive given solid =>
      exact List.forall_mem_cons.mpr ⟨isWord_decimal _, isWord_pairWords solid⟩

theorem splitWhitespace_joinWords {words : List String}
    (solid : ∀ word ∈ words, IsWord word)
    : splitWhitespace (joinWords words) = words := by
  have runs : ∀ run ∈ words.map String.toList,
      run ≠ [] ∧ ∀ char ∈ run, isWhitespace char = false := by
    intro run member
    obtain ⟨word, inside, rfl⟩ := List.mem_map.mp member
    obtain ⟨nonempty, whole⟩ := solid word inside
    exact ⟨fun empty => nonempty (String.toList_eq_nil_iff.mp empty), whole⟩
  have space : " ".toList = [' '] := rfl
  rw [splitWhitespace, joinWords, String.toList_intercalate, space,
    splitRuns_intercalate (by decide) runs, List.map_map]
  exact List.map_id'' (fun _ => String.ofList_toList) words

/-- Every line of the grammar is parsed as what it is typed for, in any letter case of its
verb.
-/
theorem parseCommand_typed {verb : Verb} {operands : List String} {result : ParseResult}
    (typed : Typed verb operands result) {head : String}
    (same : head.toList.map Char.toUpper = verb.name.toList)
    : parseCommand (joinWords (head :: operands)) = result := by
  have words : ∀ word ∈ head :: operands, IsWord word :=
    List.forall_mem_cons.mpr ⟨isWord_head same, typed.isWord⟩
  rw [parseCommand, splitWhitespace_joinWords words]
  dsimp only
  rw [toUppercase_head same, Verb.ofName_name]
  exact parseOperands_typed typed

/-- Witness: a value with a number and a verb in it. -/
theorem parseCommand_typed_writeTtl
    : parseCommand (joinWords ("wRiteTtl" :: "k" :: decimal 60 :: ["5", "TTL"]))
      = .cmd (.write "k" (joinWords ["5", "TTL"]) (some 60)) := by
  have key : IsWord "k" := isWord_of_all (by decide) rfl
  have words : ∀ word ∈ ["5", "TTL"], IsWord word :=
    List.forall_mem_cons.mpr
      ⟨isWord_of_all (by decide) rfl,
        List.forall_mem_singleton.mpr (isWord_of_all (by decide) rfl)⟩
  exact parseCommand_typed (.writeTtl key (by decide) (by decide) words) (by decide)

end Rustikv.Server

import Mathlib.Algebra.Group.Int.Defs
import Mathlib.Algebra.Group.Nat.Defs
import Mathlib.Data.Int.Notation
import Mathlib.Data.List.Basic
import Mathlib.Logic.Function.Basic

/-!
# The parsers of environment variables

A parser gets a pointer to the text and one to its result. It skips white space, reads a number with
`strtoul`, and the parsers of sizes and of delays read a unit after it. The list parsers read numbers
that are separated by commas.

A text is the list of its characters before the end. The characters are those of the C locale.
`Outcome` has what a parser returns, the value that it has stored in its result, if any, and where
it leaves the pointer to the text. A list parser is `none` when the size of its array overflows.
-/

namespace Xkblas.Trace.Parser

/-- `isspace` -/
def isSpace (c : Char) : Bool :=
  c == ' ' || (9 ≤ c.toNat && c.toNat ≤ 13)

/-- `eat_space` -/
def eatSpace (str : List Char) : List Char :=
  str.dropWhile isSpace

/-- The value of decimal digits. -/
def decimal (digits : List Char) : ℕ :=
  digits.foldl (fun n c => 10 * n + (c.toNat - '0'.toNat)) 0

/-- What `strtoul` returns, whether it sets `errno`, and its end pointer. -/
structure Strtoul where
  value : ℕ
  erange : Bool
  rest : List Char
  deriving DecidableEq, Repr

/-- The sign of a number, and what follows it. -/
def readSign : List Char → Bool × List Char
  | '-' :: str => (true, str)
  | '+' :: str => (false, str)
  | str => (false, str)

/-- `strtoul` for the base 10. Without digits the value is 0, and the end is the start. -/
def strtoul (str : List Char) : Strtoul :=
  let (negative, text) := readSign (eatSpace str)
  let digits := text.takeWhile Char.isDigit
  if digits = [] then ⟨0, false, str⟩
  else
    let rest := text.dropWhile Char.isDigit
    if 2 ^ 64 ≤ decimal digits then ⟨2 ^ 64 - 1, true, rest⟩
    else if negative = true then ⟨(2 ^ 64 - decimal digits) % 2 ^ 64, false, rest⟩
    else ⟨decimal digits, false, rest⟩

/-- The end of a parser. -/
structure Outcome where
  ok : Bool
  written : Option ℕ
  str : List Char
  deriving DecidableEq, Repr

/-- The parser goes on with the value of another one, or returns false. -/
def Outcome.andThen (o : Outcome) (f : ℕ → List Char → Outcome) : Outcome :=
  match o.written with
  | some value => f value o.str
  | none => ⟨false, none, o.str⟩

/-- `kaapi_parse_unsigned_longlong` -/
def parseUnsignedLonglong (str : List Char) : Outcome :=
  let str := eatSpace str
  if str = [] then ⟨false, none, str⟩
  else
    let r := strtoul str
    if r.erange = true ∨ r.value = 2 ^ 64 - 1 then ⟨false, none, str⟩
    else ⟨true, some r.value, r.rest⟩

/-- The test of a parser against the greatest value of its type. -/
def narrow (max value : ℕ) (str : List Char) : Outcome :=
  if max < value then ⟨false, none, str⟩ else ⟨true, some value, str⟩

/-- `kaapi_parse_unsigned_long` -/
def parseUnsignedLong (str : List Char) : Outcome :=
  (parseUnsignedLonglong str).andThen (narrow (2 ^ 64 - 1))

/-- `kaapi_parse_unsigned_int` -/
def parseUnsignedInt (str : List Char) : Outcome :=
  (parseUnsignedLonglong str).andThen (narrow (2 ^ 32 - 1))

/-- `kaapi_parse_unsigned_short` -/
def parseUnsignedShort (str : List Char) : Outcome :=
  (parseUnsignedLonglong str).andThen (narrow (2 ^ 16 - 1))

/-- `(long)value` -/
def toLong (value : ℕ) : ℤ :=
  if value < 2 ^ 63 then value else value - 2 ^ 64

/-- The test of a parser of a signed type with the greatest value `max`. -/
def narrowSigned (max value : ℕ) (str : List Char) : Outcome :=
  if max < value ∨ toLong value < -(max : ℤ) - 1 then ⟨false, none, str⟩
  else ⟨true, some value, str⟩

/-- `kaapi_parse_int` -/
def parseInt (str : List Char) : Outcome :=
  (parseUnsignedLong str).andThen (narrowSigned (2 ^ 31 - 1))

/-- `kaapi_parse_short` -/
def parseShort (str : List Char) : Outcome :=
  (parseUnsignedLong str).andThen (narrowSigned (2 ^ 15 - 1))

/-- The switch of `kaapi_parse_size` on the unit. -/
def sizeShift (c : Char) : Option ℕ :=
  match c.toLower with
  | 'b' => some 0
  | 'k' => some 10
  | 'm' => some 20
  | 'g' => some 30
  | _ => none

/-- The value is shifted, unless this loses bits. -/
def shiftSize (value shift : ℕ) (str : List Char) : Outcome :=
  let shifted := value * 2 ^ shift % 2 ^ 64
  if shifted / 2 ^ shift ≠ value then ⟨false, none, str⟩ else ⟨true, some shifted, str⟩

/-- `kaapi_parse_size`. Without a unit the value is in KiB. -/
def parseSize (str : List Char) : Outcome :=
  let str := eatSpace str
  let r := strtoul str
  if r.erange = true ∨ r.value = 2 ^ 64 - 1 then ⟨false, none, str⟩
  else
    match eatSpace r.rest with
    | c :: str =>
        if c.isAlpha = true then
          match sizeShift c with
          | some shift => shiftSize r.value shift (eatSpace str)
          | none => ⟨false, none, c :: str⟩
        else shiftSize r.value 10 (c :: str)
    | [] => shiftSize r.value 10 []

/-- `strncasecmp(str, name, strlen(name)) == 0` for a name in lower case. -/
def hasPrefix (str name : List Char) : Bool :=
  (str.take name.length).map Char.toLower == name

/-- `kaapi_parse_delay`. The value is stored before its unit is read, and the test for the end is on
the pointer, which is not null. -/
def parseDelay (str : List Char) : Outcome :=
  (parseUnsignedLonglong str).andThen fun value str =>
    let str := eatSpace str
    if hasPrefix str ['s'] = true then ⟨true, some (value * 1000000000 % 2 ^ 64), str.drop 1⟩
    else if hasPrefix str ['m', 's'] = true then
      ⟨true, some (value * 1000000 % 2 ^ 64), str.drop 2⟩
    else if hasPrefix str ['u', 's'] = true then ⟨true, some (value * 1000 % 2 ^ 64), str.drop 2⟩
    else if hasPrefix str ['n', 's'] = true then ⟨true, some value, str.drop 2⟩
    else ⟨false, some value, str⟩

/-! ## Lists -/

/-- The end of a list parser, with the count and the list that it has stored. -/
structure ListOutcome where
  ok : Bool
  count : Option ℕ
  list : Option (List ℕ)
  str : List Char
  deriving DecidableEq, Repr

/-- The array of a list parser. -/
structure Values where
  count : ℕ
  size : ℕ
  list : ℕ → ℕ

/-- The array grows when it is full. Its size is an `int`. -/
def growSize (size count : ℕ) : Option ℕ :=
  if size < count + 1 then
    if 2 ^ 31 ≤ 2 * size then none
    else some (if 2 * size < count + 2 then (count + 2) * 2 else 2 * size)
  else some size

/-- The code from `redo` on, for a count of `width` bits. -/
def parseListLoop (parse : List Char → Outcome) (width : ℕ) :
    ℕ → Values → List Char → Option ListOutcome
  | 0, _, _ => none
  | fuel + 1, values, str =>
      let o := parse str
      match o.written with
      | none => some ⟨false, some values.count, none, o.str⟩
      | some value =>
          (growSize values.size values.count).bind fun size =>
            let count := (values.count + 1) % 2 ^ width
            let list := Function.update values.list values.count value
            match eatSpace o.str with
            | [] => some ⟨true, some count, some ((List.range count).map list), []⟩
            | c :: str =>
                if c = ',' then parseListLoop parse width fuel ⟨count, size, list⟩ str
                else some ⟨false, some count, none, c :: str⟩

/-- A list parser starts with an empty array. An element has at least its comma. -/
def parseList (parse : List Char → Outcome) (width : ℕ) (str : List Char) : Option ListOutcome :=
  parseListLoop parse width (str.length + 1) ⟨0, 0, fun _ => 0⟩ str

/-- `kaapi_parse_list_unsigned_int64` -/
def parseListUnsignedInt64 (str : List Char) : Option ListOutcome :=
  parseList parseUnsignedLonglong 32 str

/-- `kaapi_parse_list_unsigned_int` -/
def parseListUnsignedInt (str : List Char) : Option ListOutcome :=
  (parseListUnsignedInt64 str).map fun o =>
    { o with list := o.list.map (List.map (· % 2 ^ 32)) }

/-- `kaapi_parse_list_unsigned_short` -/
def parseListUnsignedShort (str : List Char) : Option ListOutcome :=
  parseList parseUnsignedShort 16 str

end Xkblas.Trace.Parser

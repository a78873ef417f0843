import Xkblas.Trace.Parser

/-!
# The parser of lists of keywords

`kaapi_parse_listkeywords` reads a list of names and bit numbers with a separator, and puts the
values together in a mask. The names are those of a table of constants.

The variable `value` of the parser has no initial value, and a number that cannot be read does not
change it. It is an argument of the loop here. The loop is `none` without fuel.
-/

namespace Xkblas.Trace.Keywords

open Trace.Parser

/-- `_kaapi_constant` -/
structure Constant where
  ident : List Char
  value : ℕ
  deriving DecidableEq, Repr

/-- `strcasecmp(a, b) == 0` -/
def sameName (a b : List Char) : Bool :=
  a.map Char.toLower == b.map Char.toLower

/-- The linear search in the table of constants. -/
def lookup (table : List Constant) (name : List Char) : Option ℕ :=
  (table.find? fun constant => sameName name constant.ident).map Constant.value

/-- The letters that are copied into `name[128]`. -/
def readName (str : List Char) : List Char :=
  (str.takeWhile Char.isAlpha).take 127

/-- `_kaapi_parse_ident`. Its error codes are true as values of type `bool`. -/
def parseIdent (table : List Constant) (str : List Char) : Outcome :=
  match str with
  | [] => ⟨true, none, str⟩
  | c :: _ =>
      if c.isDigit = true then ⟨true, none, str⟩
      else
        let name := readName str
        ⟨(lookup table name).isSome, lookup table name, str.drop name.length⟩

/-- `isalpha(**str)` -/
def startsAlpha : List Char → Bool
  | c :: _ => c.isAlpha
  | [] => false

/-- The next token of `kaapi_parse_listkeywords`, after white space. Without a value, the parser
returns `ok`. The error code of a large number is true. -/
def parseKeyword (table : List Constant) (value : ℕ) (str : List Char) : Outcome :=
  if startsAlpha str = true then parseIdent table str
  else
    let o := parseUnsignedLonglong str
    -- a number that is not read leaves the old value, which is tested before the error
    let value := o.written.getD value
    if 63 < value then ⟨true, none, o.str⟩
    else if o.ok = false then ⟨false, none, o.str⟩
    else ⟨true, some (2 ^ value), o.str⟩

/-- The end of `kaapi_parse_listkeywords`. -/
structure MaskOutcome where
  ok : Bool
  mask : ℕ
  str : List Char
  deriving DecidableEq, Repr

/-- The loop of `kaapi_parse_listkeywords`. -/
def parseLoop (table : List Constant) (sep : Char) :
    ℕ → ℕ → ℕ → List Char → Option MaskOutcome
  | 0, _, _, _ => none
  | fuel + 1, mask, value, str =>
      if str = [] then some ⟨true, mask, []⟩
      else
        let o := parseKeyword table value (eatSpace str)
        match o.written with
        | none => some ⟨o.ok, mask, o.str⟩
        | some value =>
            let mask := mask ||| value
            match eatSpace o.str with
            | [] => some ⟨true, mask, []⟩
            | c :: str =>
                if c = sep then parseLoop table sep fuel mask value str
                else some ⟨false, mask, c :: str⟩

/-- `kaapi_parse_listkeywords` with the value that is on the stack for `value`. Each turn of the
loop reads at least a separator. -/
def parseListkeywords (table : List Constant) (sep : Char) (value : ℕ) (str : List Char) :
    Option MaskOutcome :=
  parseLoop table sep (str.length + 1) 0 value str

end Xkblas.Trace.Keywords

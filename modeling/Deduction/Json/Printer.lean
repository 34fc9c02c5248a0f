import Deduction.Json.Basic
import Deduction.Text.Quoted

/-!
# Writing JSON text

Values as text of one field or item a line, two blanks of indent a level. The text is plain
ASCII: every other character is written by its units of sixteen bits. Empty arrays and
objects stay on their line, and no line end follows the value.

## Main definitions

* `Number.text` — a number as it is written;
* `Json.pretty` — the indented text of a value.
-/

namespace Deduction

namespace Decimal

/-- A number as at least two digits. -/
def atLeastTwo (n : Nat) : String :=
  if n < 10 then "0" ++ toString n else toString n

/-- The digits of a decimal around its point: positional for points from -3 to 16, and with an
exponent otherwise. A positional number always shows a digit on either side of the point. -/
def text (d : Decimal) : String :=
  let sign := if d.negative then "-" else ""
  let digits := String.ofList d.digits
  let count : Int := d.digits.length
  let zeros (n : Int) : String := String.ofList (List.replicate n.toNat '0')
  if d.digits.isEmpty then sign ++ "0.0"
  else if -4 < d.point && d.point ≤ 16 then
    if d.point ≤ 0 then sign ++ "0." ++ zeros (-d.point) ++ digits
    else if count ≤ d.point then sign ++ digits ++ zeros (d.point - count) ++ ".0"
    else
      sign ++ String.ofList (d.digits.take d.point.toNat) ++ "."
        ++ String.ofList (d.digits.drop d.point.toNat)
  else
    let rest := String.ofList (d.digits.drop 1)
    let exponent := d.point - 1
    sign ++ String.ofList (d.digits.take 1) ++ (if rest.isEmpty then "" else "." ++ rest)
      ++ "e" ++ (if exponent < 0 then "-" else "+") ++ atLeastTwo exponent.natAbs

end Decimal

namespace Json

/-- A unit of sixteen bits as an escape. -/
def unitEscape (unit : Nat) : List Char := '\\' :: 'u' :: Text.hex 4 unit

/-- A character inside a string. -/
def escapeChar (c : Char) : List Char :=
  if c == '\x22' || c == '\\' then ['\\', c]
  else if c == '\n' then ['\\', 'n']
  else if c == '\r' then ['\\', 'r']
  else if c == '\t' then ['\\', 't']
  else if c == '\x08' then ['\\', 'b']
  else if c == '\x0c' then ['\\', 'f']
  else if 0x20 ≤ c.toNat && c.toNat < 0x7f then [c]
  else if c.toNat < 0x10000 then unitEscape c.toNat
  else
    let n := c.toNat - 0x10000
    unitEscape (0xd800 + n / 0x400) ++ unitEscape (0xdc00 + n % 0x400)

/-- A string between its marks. -/
def stringText (s : String) : String :=
  String.ofList ('\x22' :: s.toList.flatMap escapeChar ++ ['\x22'])

/-- A number as JSON text. -/
def numberText : Number → String
  | .whole n => toString n
  | .decimal d => d.text
  | .infinite negative => if negative then "-Infinity" else "Infinity"
  | .undefined => "NaN"

/-- The start of a line at a level. -/
def newLine (level : Nat) : String :=
  "\n" ++ String.ofList (List.replicate (2 * level) ' ')

mutual

/-- The text of a value whose first line starts at `level`. -/
def prettyAt (level : Nat) : Json → String
  | .null => "null"
  | .bool b => if b then "true" else "false"
  | .number n => numberText n
  | .string s => stringText s
  | .array [] => "[]"
  | .array items =>
    "[" ++ newLine (level + 1) ++ Text.join ("," ++ newLine (level + 1))
      (prettyItems (level + 1) items) ++ newLine level ++ "]"
  | .object [] => "\x7b\x7d"
  | .object fields =>
    "\x7b" ++ newLine (level + 1) ++ Text.join ("," ++ newLine (level + 1))
      (prettyFields (level + 1) fields) ++ newLine level ++ "\x7d"

/-- The texts of the items of an array. -/
def prettyItems (level : Nat) : List Json → List String
  | [] => []
  | item :: items => prettyAt level item :: prettyItems level items

/-- The texts of the fields of an object. -/
def prettyFields (level : Nat) : List (String × Json) → List String
  | [] => []
  | (name, value) :: fields =>
    (stringText name ++ ": " ++ prettyAt level value) :: prettyFields level fields

end

/-- The indented text of a value. -/
def pretty (value : Json) : String := prettyAt 0 value

end Json

end Deduction

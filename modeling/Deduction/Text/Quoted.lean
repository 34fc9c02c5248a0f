import Deduction.Text.Printable

/-!
# Quoted text

Text between quotation marks, as it appears inside messages. A text is put between single
quotes unless it holds a single quote and no double quote; the mark in use and the backslash
are escaped, and so is every character that would not show on a page.

## Main definitions

* `Text.quoted` — a text with its quotation marks and escapes.
-/

namespace Deduction.Text

/-- The lower-case hexadecimal digit of a number below sixteen. -/
def hexDigit (n : Nat) : Char :=
  if n < 10 then Char.ofNat (0x30 + n) else Char.ofNat (0x57 + n)

/-- The last `width` hexadecimal digits of a number. -/
def hex : (width n : Nat) → List Char
  | 0, _ => []
  | width + 1, n => hex width (n / 16) ++ [hexDigit (n % 16)]

/-- The single quotation mark. -/
def singleMark : Char := '\x27'

/-- The double quotation mark. -/
def doubleMark : Char := '\x22'

/-- The mark a text is put between. -/
def markOf (cs : List Char) : Char :=
  if cs.contains singleMark && !cs.contains doubleMark then doubleMark else singleMark

/-- One character between the marks `mark`. -/
def escape (mark c : Char) : List Char :=
  if c == mark || c == '\\' then ['\\', c]
  else if c == '\n' then ['\\', 'n']
  else if c == '\r' then ['\\', 'r']
  else if c == '\t' then ['\\', 't']
  else if isPrintable c then [c]
  else if c.toNat < 0x100 then '\\' :: 'x' :: hex 2 c.toNat
  else if c.toNat < 0x10000 then '\\' :: 'u' :: hex 4 c.toNat
  else '\\' :: 'U' :: hex 8 c.toNat

/-- A text between its quotation marks. -/
def quoted (s : String) : String :=
  let mark := markOf s.toList
  String.ofList (mark :: s.toList.flatMap (escape mark) ++ [mark])

/-- A list of quoted texts in square brackets. -/
def quotedList (names : List String) : String :=
  "[" ++ join ", " (names.map quoted) ++ "]"

end Deduction.Text

import Deduction.Json.Basic
import Deduction.Text.Digit

/-!
# Reading JSON text

Recursive descent over the characters of a text. Every function takes the characters that are
left and gives back the value it read with the characters after it, or the first fault of the
text: it breaks the grammar, or spells a whole number with too many digits. Nesting is bounded
by a budget: each level consumes at least one character, so the length of the text is always
enough.

Besides the grammar of the standard, the words `NaN`, `Infinity` and `-Infinity` are numbers.
Of two fields with one name the later value counts, in the place of the earlier one. A
character of a string given as half of a surrogate pair, with the other half missing, is read
as the replacement character.

## Main definitions

* `Json.Fault` — why a text is no value;
* `Json.parse` — the value of a whole text.
-/

namespace Deduction.Json

/-- Why a text is no value. -/
inductive Fault where
  /-- It breaks the grammar. -/
  | badText
  /-- A whole number has more digits than allowed. -/
  | longNumber (digits : Nat)

/-- What was read, or the fault that the text breaks the grammar. -/
def orBad {α : Type} : Option α → Except Fault α
  | some a => .ok a
  | none => .error .badText

/-- The blanks of the grammar. -/
def isSpace (c : Char) : Bool := c == ' ' || c == '\t' || c == '\n' || c == '\r'

/-- The text after leading blanks. -/
def skip (cs : List Char) : List Char := cs.dropWhile isSpace

/-- A decimal digit. -/
def isDigit (c : Char) : Bool := 0x30 ≤ c.toNat && c.toNat ≤ 0x39

/-- The text after `word`, if it starts with it. -/
def after? : (word cs : List Char) → Option (List Char)
  | [], cs => some cs
  | w :: word, c :: cs => if w == c then after? word cs else none
  | _ :: _, [] => none

/-! ### Numbers -/

/-- The digits of a whole number: a zero alone, or digits that start with another one. -/
def wholeDigits : List Char → Option (List Char × List Char)
  | [] => none
  | c :: rest =>
    if c == '0' then some ([c], rest)
    else if isDigit c then some (c :: rest.takeWhile isDigit, rest.dropWhile isDigit)
    else none

/-- The digits after a point, if a point with at least one digit stands there. -/
def fraction : List Char → Option (List Char) × List Char
  | '.' :: c :: rest =>
    if isDigit c then (some (c :: rest.takeWhile isDigit), rest.dropWhile isDigit)
    else (none, '.' :: c :: rest)
  | cs => (none, cs)

/-- The digits that start a text, as a number, if there are any. -/
def digits? (cs : List Char) : Option (Nat × List Char) :=
  match cs.takeWhile isDigit with
  | [] => none
  | ds => some (Decimal.natOfDigits ds, cs.dropWhile isDigit)

/-- The exponent, if a complete one stands there. -/
def exponent (cs : List Char) : Option Int × List Char :=
  match cs with
  | e :: rest =>
    if e == 'e' || e == 'E' then
      let (sign, rest) : Int × List Char := match rest with
        | '-' :: r => (-1, r)
        | '+' :: r => (1, r)
        | r => (1, r)
      match digits? rest with
      | some (n, rest) => (some (sign * n), rest)
      | none => (none, cs)
    else (none, cs)
  | [] => (none, [])

/-- The number that a decimal stands for. -/
def ofDecimal (d : Decimal) : Number :=
  match d.rounded? with
  | some r => .decimal r
  | none => .infinite d.negative

/-- A number without its sign. -/
def unsigned (negative : Bool) (cs : List Char) : Except Fault (Number × List Char) := do
  let (ds, rest) ← orBad (wholeDigits cs)
  let (frac, rest) := fraction rest
  let (exp, rest) := exponent rest
  match frac, exp with
  | none, none =>
    if Text.digitLimit < ds.length then throw (.longNumber ds.length)
    let n : Int := Decimal.natOfDigits ds
    return (.whole (if negative then -n else n), rest)
  | _, _ => return (ofDecimal (.ofSpelling negative ds (frac.getD []) (exp.getD 0)), rest)

/-- A number. -/
def numeral (cs : List Char) : Except Fault (Number × List Char) :=
  match cs with
  | '-' :: rest =>
    match after? "Infinity".toList rest with
    | some rest => .ok (.infinite true, rest)
    | none => unsigned true rest
  | cs => unsigned false cs

/-! ### Strings -/

/-- The value of a hexadecimal digit. -/
def hexValue? (c : Char) : Option Nat :=
  let n := c.toNat
  if 0x30 ≤ n && n ≤ 0x39 then some (n - 0x30)
  else if 0x41 ≤ n && n ≤ 0x46 then some (n - 0x37)
  else if 0x61 ≤ n && n ≤ 0x66 then some (n - 0x57)
  else none

/-- The unit of sixteen bits that four hexadecimal digits spell. -/
def unit? : List Char → Option (Nat × List Char)
  | a :: b :: c :: d :: rest => do
    let a ← hexValue? a
    let b ← hexValue? b
    let c ← hexValue? c
    let d ← hexValue? d
    return (((a * 16 + b) * 16 + c) * 16 + d, rest)
  | _ => none

/-- The character that replaces an unpaired surrogate. -/
def replacement : Char := Char.ofNat 0xfffd

/-- The character named by a unit, and how much of the text its second half takes. -/
def ofUnit (unit : Nat) (rest : List Char) : Char × List Char :=
  if 0xd800 ≤ unit && unit < 0xdc00 then
    match rest with
    | '\\' :: 'u' :: more =>
      match unit? more with
      | some (low, more) =>
        if 0xdc00 ≤ low && low < 0xe000 then
          (Char.ofNat (0x10000 + (unit - 0xd800) * 0x400 + (low - 0xdc00)), more)
        else (replacement, rest)
      | none => (replacement, rest)
    | _ => (replacement, rest)
  else if 0xdc00 ≤ unit && unit < 0xe000 then (replacement, rest)
  else (Char.ofNat unit, rest)

/-- The character that a letter after a backslash stands for. -/
def ofEscape? : Char → Option Char
  | '\x22' => some '\x22'
  | '\\' => some '\\'
  | '/' => some '/'
  | 'b' => some '\x08'
  | 'f' => some '\x0c'
  | 'n' => some '\n'
  | 'r' => some '\r'
  | 't' => some '\t'
  | _ => none

/-- The rest of a string after its opening mark, within a budget of characters. -/
def stringTail : Nat → List Char → Option (List Char × List Char)
  | 0, _ => none
  | _ + 1, [] => none
  | budget + 1, c :: rest =>
    if c == '\x22' then some ([], rest)
    else if c == '\\' then
      match rest with
      | 'u' :: more => do
        let (unit, more) ← unit? more
        let (c, more) := ofUnit unit more
        let (cs, more) ← stringTail budget more
        return (c :: cs, more)
      | e :: more => do
        let c ← ofEscape? e
        let (cs, more) ← stringTail budget more
        return (c :: cs, more)
      | [] => none
    else if c.toNat < 0x20 then none
    else do
      let (cs, more) ← stringTail budget rest
      return (c :: cs, more)

/-! ### Values -/

/-- The words that are values. -/
def words : List (String × Json) :=
  [("null", .null), ("true", .bool true), ("false", .bool false), ("NaN", .number .undefined),
   ("Infinity", .number (.infinite false))]

/-- The value of a word that starts a text. -/
def word? (cs : List Char) : Option (Json × List Char) :=
  words.findSome? fun (name, value) => (after? name.toList cs).map (value, ·)

mutual

/-- A value, leading blanks skipped. -/
def value : Nat → List Char → Except Fault (Json × List Char)
  | 0, _ => .error .badText
  | budget + 1, cs =>
    match skip cs with
    | '\x22' :: rest => do
      let (text, rest) ← orBad (stringTail (rest.length + 1) rest)
      return (.string (String.ofList text), rest)
    | '[' :: rest =>
      match skip rest with
      | ']' :: rest => .ok (.array [], rest)
      | rest => do
        let (items, rest) ← items budget rest
        return (.array items, rest)
    | '\x7b' :: rest =>
      match skip rest with
      | '\x7d' :: rest => .ok (.object [], rest)
      | rest => do
        let (fields, rest) ← fields budget [] rest
        return (.object fields, rest)
    | cs =>
      match word? cs with
      | some found => .ok found
      | none => do
        let (n, rest) ← numeral cs
        return (.number n, rest)

/-- The items of an array up to its closing bracket, at least one. -/
def items : Nat → List Char → Except Fault (List Json × List Char)
  | 0, _ => .error .badText
  | budget + 1, cs => do
    let (item, rest) ← value budget cs
    match skip rest with
    | ']' :: rest => return ([item], rest)
    | ',' :: rest =>
      let (others, rest) ← items budget rest
      return (item :: others, rest)
    | _ => throw .badText

/-- The fields of an object up to its closing brace, at least one, after those in `before`. -/
def fields : Nat → List (String × Json) → List Char →
    Except Fault (List (String × Json) × List Char)
  | 0, _, _ => .error .badText
  | budget + 1, before, cs =>
    match skip cs with
    | '\x22' :: rest => do
      let (name, rest) ← orBad (stringTail (rest.length + 1) rest)
      match skip rest with
      | ':' :: rest =>
        let (field, rest) ← value budget rest
        let all := setField (String.ofList name) field before
        match skip rest with
        | '\x7d' :: rest => return (all, rest)
        | ',' :: rest => fields budget all rest
        | _ => throw .badText
      | _ => throw .badText
    | _ => .error .badText

end

/-- The value of a text that holds one value and blanks around it. -/
def parse (text : String) : Except Fault Json := do
  let cs := text.toList
  let (found, rest) ← value (cs.length + 1) cs
  if (skip rest).isEmpty then return found else throw .badText

end Deduction.Json

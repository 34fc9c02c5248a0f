import Deduction.Text.Blank

/-!
# Decimal digits

Every script has its own ten digits, and each set stands in a row from zero to nine. A table of
the zeros is therefore a table of all digits. A whole number may mix them.

## Main definitions

* `Text.digitValue?` — the value of a decimal digit;
* `Text.whole?` — the whole number that a text spells;
* `Text.isWritable` — the whole numbers that can be put into a text.
-/

namespace Deduction.Text

/-- The code points of the digits zero. -/
def zeros : List Nat :=
  [0x30, 0x660, 0x6f0, 0x7c0, 0x966, 0x9e6, 0xa66, 0xae6, 0xb66, 0xbe6, 0xc66, 0xce6, 0xd66,
   0xde6, 0xe50, 0xed0, 0xf20, 0x1040, 0x1090, 0x17e0, 0x1810, 0x1946, 0x19d0, 0x1a80, 0x1a90,
   0x1b50, 0x1bb0, 0x1c40, 0x1c50, 0xa620, 0xa8d0, 0xa900, 0xa9d0, 0xa9f0, 0xaa50, 0xabf0,
   0xff10, 0x104a0, 0x10d30, 0x11066, 0x110f0, 0x11136, 0x111d0, 0x112f0, 0x11450, 0x114d0,
   0x11650, 0x116c0, 0x11730, 0x118e0, 0x11950, 0x11c50, 0x11d50, 0x11da0, 0x16a60, 0x16ac0,
   0x16b50, 0x1d7ce, 0x1d7d8, 0x1d7e2, 0x1d7ec, 0x1d7f6, 0x1e140, 0x1e2f0, 0x1e950, 0x1fbf0]

/-- The value of a decimal digit of any script. -/
def digitValue? (c : Char) : Option Nat :=
  (zeros.find? fun z => z ≤ c.toNat && c.toNat < z + 10).map (c.toNat - ·)

/-- A decimal digit of any script. -/
def isDigit (c : Char) : Bool := (digitValue? c).isSome

/-- The values of digits with single underscores between them, the first one read already. -/
def digitsTail : List Char → Option (List Nat)
  | [] => some []
  | '_' :: c :: cs => do
    let d ← digitValue? c
    return d :: (← digitsTail cs)
  | c :: cs => do
    let d ← digitValue? c
    return d :: (← digitsTail cs)

/-- The values of digits with single underscores between them. -/
def digits? : List Char → Option (List Nat)
  | [] => none
  | c :: cs => do
    let d ← digitValue? c
    return d :: (← digitsTail cs)

/-- The number that digits spell, the most significant one first. -/
def ofDigits (ds : List Nat) : Nat := ds.foldl (fun n d => 10 * n + d) 0

/-- The most digits that a whole number may be spelled with, in a text that is read and in one
that is written. -/
def digitLimit : Nat := 4300

/-- Can a whole number be put into a text? Its sign is no digit. -/
def isWritable (n : Int) : Bool := (Nat.toDigits 10 n.natAbs).length ≤ digitLimit

/-- A blank that may stand around a number. The information separators may not. -/
def isMargin (c : Char) : Bool := isBlank c && !(0x1c ≤ c.toNat && c.toNat ≤ 0x1f)

/-- A text without the margins at its two ends. -/
def trimMargins (cs : List Char) : List Char :=
  ((cs.dropWhile isMargin).reverse.dropWhile isMargin).reverse

/-- The natural number that a text spells, if it has no more digits than allowed. -/
def natural? (cs : List Char) : Option Nat := do
  let ds ← digits? cs
  if digitLimit < ds.length then none else return ofDigits ds

/-- The whole number that a text spells, with a sign perhaps and margins around it. -/
def whole? (text : String) : Option Int :=
  match trimMargins text.toList with
  | '-' :: cs => (natural? cs).map fun n => -(n : Int)
  | '+' :: cs => (natural? cs).map fun n => (n : Int)
  | cs => (natural? cs).map fun n => (n : Int)

end Deduction.Text

/-!
# Decimals

Numbers as they are spelled: a sign, decimal digits and the place of the point.

## Main definitions

* `Decimal` — a decimal number;
* `Decimal.ofSpelling` — the decimal that a text spells.
-/

namespace Deduction

/-- A decimal `± 0.d₁d₂d₃… × 10 ^ point`. The digits neither start nor end with a zero, so a
number has one spelling; zero has no digits. -/
structure Decimal where
  negative : Bool
  digits : List Char
  point : Int
deriving DecidableEq

namespace Decimal

/-- Zero with a sign. -/
def zero (negative : Bool) : Decimal := ⟨negative, [], 0⟩

/-- The decimal spelled by a sign, the digits before and after the point, and an exponent. -/
def ofSpelling (negative : Bool) (before after : List Char) (exponent : Int) : Decimal :=
  let all := before ++ after
  let zeros := (all.takeWhile (· == '0')).length
  let digits := ((all.dropWhile (· == '0')).reverse.dropWhile (· == '0')).reverse
  if digits.isEmpty then zero negative
  else ⟨negative, digits, exponent + before.length - zeros⟩

/-- The number that a list of decimal digits spells. -/
def natOfDigits (digits : List Char) : Nat :=
  digits.foldl (fun n c => 10 * n + (c.toNat - 0x30)) 0

end Decimal

end Deduction

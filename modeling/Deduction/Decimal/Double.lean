import Deduction.Decimal.Basic

/-!
# Numbers of double precision

A decimal stands for the nearest number `m × 2 ^ e` with `m < 2 ^ 53` and `-1074 ≤ e`, and is
shown with the fewest digits that stand for the same number. Both directions are exact: a
comparison of two numbers is one of natural numbers, after both sides have been cleared of
negative powers.

## Main definitions

* `Double.nearest` — the double nearest to a fraction, a half going to the even mantissa;
* `Double.readsBack` — the decimals that stand for a double;
* `Double.shortest?` — the fewest digits that do;
* `Decimal.rounded?` — a decimal with the fewest digits that stand for the same double.
-/

namespace Deduction

/-- The number `mantissa × 2 ^ exponent`. -/
structure Double where
  mantissa : Nat
  exponent : Int

namespace Double

/-- The least exponent. -/
def least : Int := -1074

/-- The greatest exponent. -/
def greatest : Int := 971

/-- The positive part of a power. -/
def up (base : Nat) (e : Int) : Nat := base.pow e.toNat

/-- The negative part of a power, as a denominator. -/
def down (base : Nat) (e : Int) : Nat := base.pow (-e).toNat

/-- A quotient rounded to a whole number, a half to the even neighbour. -/
def roundDiv (a b : Nat) : Nat :=
  let q := a / b
  let r := 2 * (a % b)
  if r < b || (r == b && q % 2 == 0) then q else q + 1

/-- The exponent at which a fraction has a mantissa of 53 bits, or the least one. -/
def exponentOf (a b : Nat) : Int :=
  let e : Int := (a.log2 : Int) - b.log2 - 52
  let e := if a * down 2 e < up 2 52 * (b * up 2 e) then e - 1 else e
  max least e

/-- The double nearest to the fraction of two positive numbers. -/
def nearest (a b : Nat) : Double :=
  let e := exponentOf a b
  let m := roundDiv (a * down 2 e) (b * up 2 e)
  if m == up 2 53 then ⟨up 2 52, e + 1⟩ else ⟨m, e⟩

/-- The whole number that a double is, if it is one. -/
def toNat? (x : Double) : Option Nat :=
  let a := x.mantissa * up 2 x.exponent
  let b := down 2 x.exponent
  if a % b == 0 then some (a / b) else none

/-- Does `n × 10 ^ e` stand for the double? It has to lie between the middles to the neighbours,
and may lie on them if the mantissa is even. The neighbour below a power of two is nearer. -/
def readsBack (x : Double) (n : Nat) (e : Int) : Bool :=
  let gap := if x.mantissa == up 2 52 && least < x.exponent then 1 else 2
  let scaled (k : Nat) : Nat := k * up 2 (x.exponent - 2) * down 10 e
  let value := n * up 10 e * down 2 (x.exponent - 2)
  let low := scaled (4 * x.mantissa - gap)
  let high := scaled (4 * x.mantissa + 2)
  if x.mantissa % 2 == 0 then low ≤ value && value ≤ high else low < value && value < high

/-- The multiple of `10 ^ e` that stands for the double, the nearer one of the two around it if
both do. -/
def onGrid? (x : Double) (e : Int) : Option Nat :=
  let a := x.mantissa * up 2 x.exponent * down 10 e
  let b := down 2 x.exponent * up 10 e
  let near := roundDiv a b
  let far := if near == a / b then near + 1 else a / b
  [near, far].find? fun n => x.readsBack n e

/-- The fewest digits that stand for a double, as a whole number and its power of ten, among the
`tries` powers from `10 ^ e` downward. -/
def shortest? (x : Double) : (tries : Nat) → (e : Int) → Option (Nat × Int)
  | 0, _ => none
  | tries + 1, e => match x.onGrid? e with
    | some n => some (n, e)
    | none => shortest? x tries (e - 1)

theorem readsBack_of_onGrid? {x : Double} {e : Int} {n : Nat} (h : x.onGrid? e = some n) :
    x.readsBack n e = true :=
  List.find?_some (p := fun n => x.readsBack n e) h

theorem readsBack_of_shortest? {x : Double} {tries : Nat} {e f : Int} {n : Nat}
    (h : x.shortest? tries e = some (n, f)) : x.readsBack n f = true := by
  induction tries generalizing e with
  | zero => simp [shortest?] at h
  | succ tries ih =>
    simp only [shortest?] at h
    split at h
    · next hg =>
      obtain ⟨rfl, rfl⟩ := Prod.mk.inj (Option.some.inj h)
      exact readsBack_of_onGrid? hg
    · exact ih h

end Double

namespace Decimal

/-- The double a decimal stands for, without its sign. -/
def toDouble (d : Decimal) : Double :=
  let e := d.point - d.digits.length
  .nearest (natOfDigits d.digits * Double.up 10 e) (Double.down 10 e)

/-- The whole number a decimal stands for, if it stands for one. -/
def toInt? (d : Decimal) : Option Int :=
  if d.digits.isEmpty then some 0
  else d.toDouble.toNat?.map fun n => if d.negative then -(n : Int) else n

/-- The decimal with the fewest digits that stands for the same double, or nothing if there is
no double so large. The points at which every decimal is too large or counts as zero are
decided without computing its value. -/
def rounded? (d : Decimal) : Option Decimal :=
  if d.digits.isEmpty || d.point < -330 then some (zero d.negative)
  else if 310 < d.point then none
  else
    let x := d.toDouble
    if Double.greatest < x.exponent then none
    else if x.mantissa == 0 then some (zero d.negative)
    else match x.shortest? 20 (d.point + 1) with
      | some (n, e) => some (ofSpelling d.negative (Nat.toDigits 10 n) [] e)
      | none => some d

end Decimal

end Deduction

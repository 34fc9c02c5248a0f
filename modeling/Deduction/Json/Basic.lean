import Deduction.Decimal.Double

/-!
# JSON values

The values a rule file is made of. Objects keep the order of their fields, because a text
lists them in an order that later readers and listings show. A whole number is kept exactly, and
a number with a fraction or an exponent as the shortest decimal of its double.

## Main definitions

* `Number`, `Json` — the values;
* `Json.field?` — the value of a field of an object;
* `Json.same` — equality of values: numbers by value, with `true` for one and `false` for zero,
  and objects without regard to the order of their fields.
-/

namespace Deduction

/-- A number of a JSON text. -/
inductive Number where
  | whole (value : Int)
  | decimal (value : Decimal)
  | infinite (negative : Bool)
  | undefined
deriving DecidableEq

/-- A JSON value, objects with their fields in order. -/
inductive Json where
  | null
  | bool (value : Bool)
  | number (value : Number)
  | string (text : String)
  | array (items : List Json)
  | object (fields : List (String × Json))

instance : Inhabited Json := ⟨.null⟩

namespace Number

/-- Equality of numbers by value. -/
def same : Number → Number → Bool
  | .whole a, .whole b => a == b
  | .whole a, .decimal b => b.toInt? == some a
  | .decimal a, .whole b => a.toInt? == some b
  | .decimal a, .decimal b =>
    (a.digits.isEmpty && b.digits.isEmpty) || a == b
  | .infinite a, .infinite b => a == b
  | _, _ => false

/-- The numbers equal to zero. -/
def isZero : Number → Bool
  | .whole n => n == 0
  | .decimal d => d.digits.isEmpty
  | _ => false

/-- A truth value as a number: one for true, zero for false. -/
def ofBool (b : Bool) : Number := .whole (if b then 1 else 0)

end Number

namespace Json

/-- The value of the first field called `name`. -/
def fieldOf? (name : String) : List (String × Json) → Option Json
  | [] => none
  | (key, value) :: rest => if key == name then some value else fieldOf? name rest

/-- The value of a field of an object. -/
def field? (name : String) : Json → Option Json
  | .object fields => fieldOf? name fields
  | _ => none

/-- Fields with `name` set to `value`: in place if the name is there, at the end if not. -/
def setField (name : String) (value : Json) : List (String × Json) → List (String × Json)
  | [] => [(name, value)]
  | (key, old) :: rest =>
    if key == name then (name, value) :: rest else (key, old) :: setField name value rest

@[simp] theorem fieldOf?_setField_self (name : String) (value : Json)
    (fields : List (String × Json)) :
    fieldOf? name (setField name value fields) = some value := by
  induction fields with
  | nil => simp [setField, fieldOf?]
  | cons field rest ih =>
    by_cases h : field.1 = name <;> simp [setField, fieldOf?, h, ih]

theorem fieldOf?_setField_of_ne {name other : String} (h : other ≠ name) (value : Json)
    (fields : List (String × Json)) :
    fieldOf? other (setField name value fields) = fieldOf? other fields := by
  induction fields with
  | nil => simp [setField, fieldOf?, h.symm]
  | cons field rest ih =>
    by_cases hn : field.1 = name
    · have : ¬ field.1 = other := fun ho => h (ho.symm.trans hn)
      simp [setField, fieldOf?, hn, h.symm]
    · simp [setField, fieldOf?, hn, ih]

mutual

/-- Equality of values. -/
def same : Json → Json → Bool
  | .null, .null => true
  | .bool a, .bool b => a == b
  | .bool a, .number b => (Number.ofBool a).same b
  | .number a, .bool b => a.same (Number.ofBool b)
  | .number a, .number b => a.same b
  | .string a, .string b => a == b
  | .array as, .array bs => sameAll as bs
  | .object as, .object bs => as.length == bs.length && sameFields as bs
  | _, _ => false

/-- Equality item by item. -/
def sameAll : List Json → List Json → Bool
  | [], [] => true
  | a :: as, b :: bs => same a b && sameAll as bs
  | _, _ => false

/-- Every field of the first list is in the second with the same value. -/
def sameFields : List (String × Json) → List (String × Json) → Bool
  | [], _ => true
  | (key, a) :: rest, bs =>
    (match fieldOf? key bs with
      | some b => same a b
      | none => false) && sameFields rest bs

end

end Json

end Deduction

import Deduction.Json.Printer
import Deduction.Term.Basic
import Deduction.Text.Digit
import Deduction.Text.Quoted

/-!
# Terms as text

Two ways to write a term. `Term.render` gives the bracketed form that the reader understands:
compounds in round brackets, groups in square ones, atoms as they are. `Term.literal` gives the
form used inside messages, where an atom is quoted, the parts of a compound or list are
separated by commas, and a group keeps its bracketed form.

Both forms spell out the whole numbers of a term: those in its data, and the serials of its
variables. There is such a text only if none of them has more digits than allowed. Whoever needs
a text asks for that first.

## Main definitions

* `Term.isWritable` — can the term be written?
* `Term.render`, `Term.literal` — the two forms of a term that can be written;
* `Json.literal` — data inside messages.
-/

namespace Deduction

/-! ### What can be written -/

/-- Can the number be written? Only whole numbers can be too long. -/
def Number.isWritable : Number → Bool
  | .whole n => Text.isWritable n
  | _ => true

namespace Json

mutual

/-- Can the value be written? -/
def isWritable : Json → Bool
  | .number n => n.isWritable
  | .array items => areWritable items
  | .object fields => haveWritable fields
  | _ => true

/-- Can all the values be written? -/
def areWritable : List Json → Bool
  | [] => true
  | item :: items => isWritable item && areWritable items

/-- Can the values of all the fields be written? -/
def haveWritable : List (String × Json) → Bool
  | [] => true
  | (_, value) :: fields => isWritable value && haveWritable fields

end

end Json

/-- Can the piece of data be written? -/
def Datum.isWritable (d : Datum) : Bool := d.toJson.isWritable

namespace Term

mutual

/-- Can the term be written? -/
def isWritable : Term → Bool
  | .app op args => isWritable op && areWritable args
  | .group items | .list items => areWritable items
  | .var v => Text.isWritable v.serial
  | .datum d => d.isWritable
  | _ => true

/-- Can all the terms be written? -/
def areWritable : List Term → Bool
  | [] => true
  | t :: ts => isWritable t && areWritable ts

end

theorem areWritable_iff {ts : List Term} : areWritable ts = true ↔ ∀ t ∈ ts, t.isWritable := by
  induction ts with
  | nil => simp [areWritable]
  | cons t ts ih => simp [areWritable, ih]

end Term

/-! ### The texts -/

/-- A number inside a message. -/
def Number.literal : Number → String
  | .whole n => toString n
  | .decimal d => d.text
  | .infinite negative => if negative then "-inf" else "inf"
  | .undefined => "nan"

namespace Json

mutual

/-- A JSON value inside a message. -/
def literal : Json → String
  | .null => "None"
  | .bool b => if b then "True" else "False"
  | .number n => n.literal
  | .string s => Text.quoted s
  | .array items => "[" ++ Text.join ", " (literalAll items) ++ "]"
  | .object fields => "\x7b" ++ Text.join ", " (literalFields fields) ++ "\x7d"

/-- The items of an array inside a message. -/
def literalAll : List Json → List String
  | [] => []
  | item :: items => literal item :: literalAll items

/-- The fields of an object inside a message. -/
def literalFields : List (String × Json) → List String
  | [] => []
  | (name, value) :: fields =>
    (Text.quoted name ++ ": " ++ literal value) :: literalFields fields

end

end Json

/-- A piece of data inside a message. -/
def Datum.literal (d : Datum) : String := d.toJson.literal

/-- A variable in bracketed text. -/
def Var.render (v : Var) : String := v.name ++ "#" ++ toString v.serial

namespace Term

mutual

/-- The bracketed form of a term. -/
def render : Term → String
  | .atom s => s
  | .app op args => "(" ++ Text.join " " (render op :: renderAll args) ++ ")"
  | .hollow => "()"
  | .group items => "[" ++ Text.join " " (renderAll items) ++ "]"
  | .var v => v.render
  | .wildcard => "?"
  | .list items => "[" ++ Text.join ", " (literalAll items) ++ "]"
  | .datum d => d.literal

/-- The bracketed forms of several terms. -/
def renderAll : List Term → List String
  | [] => []
  | t :: ts => render t :: renderAll ts

/-- The form of a term inside a message. -/
def literal : Term → String
  | .atom s => Text.quoted s
  | .app op [] => "(" ++ literal op ++ ",)"
  | .app op args => "(" ++ Text.join ", " (literal op :: literalAll args) ++ ")"
  | .hollow => "()"
  | .group items => "[" ++ Text.join " " (renderAll items) ++ "]"
  | .var v => "Var(" ++ v.render ++ ")"
  | .wildcard => "?"
  | .list items => "[" ++ Text.join ", " (literalAll items) ++ "]"
  | .datum d => d.literal

/-- The forms of several terms inside a message. -/
def literalAll : List Term → List String
  | [] => []
  | t :: ts => literal t :: literalAll ts

end

/-- Several terms in bracketed form, separated by blanks. -/
def renderWords (ts : List Term) : String := Text.join " " (ts.map render)

/-- A value that names something, as a plain text: an atom without quotation marks. -/
def plain : Term → String
  | .atom s => s
  | t => t.literal

end Term

end Deduction

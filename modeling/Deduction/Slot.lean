import Deduction.Text.Blank

/-!
# Directions and slots

A rule may be used forward, from its givens to its conclusions, or backward, from its
conclusion to its givens. A *call shape* lists what is expected at each argument of such a use;
its entries are slots.

## Main definitions

* `Direction`, `Slot` — the two enumerations with their spellings;
* `Slot.shapeText` — a call shape as text.
-/

namespace Deduction

/-- The two ways to use a rule. -/
inductive Direction where
  | forward
  | backward
deriving DecidableEq

/-- The spelling of a direction. -/
def Direction.name : Direction → String
  | .forward => "forward"
  | .backward => "backward"

/-- What is expected at one argument of a call. -/
inductive Slot where
  /-- A given that must be supplied. -/
  | mandatory
  /-- A given that may be left open. -/
  | optional
  /-- A given of which at least one must be supplied. -/
  | oneOf
  /-- A given that is solved for. -/
  | query
  /-- An auxiliary input. -/
  | extra
  /-- A conclusion that is solved for. -/
  | output
  /-- The lone conclusion of a call in which a given is solved for too. -/
  | combined
  /-- A given required when stepping backward. -/
  | required
  /-- The conclusion that a backward step starts from. -/
  | goal
deriving DecidableEq

namespace Slot

/-- The two-letter spelling of a slot: `g` for given, `e` for extra, `c` for conclusion, then
`m` mandatory, `o` optional, `1` at least one, `b` backward, `?` solved for. -/
def tag : Slot → String
  | .mandatory => "gm"
  | .optional => "go"
  | .oneOf => "g1"
  | .query => "g?"
  | .extra => "em"
  | .output => "c?"
  | .combined => "co"
  | .required => "gb"
  | .goal => "cm"

/-- A slot as a keyword. -/
def keyword (s : Slot) : String := ":" ++ s.tag

/-- A call shape as text; `nil` where the direction is not available. -/
def shapeText : Option (List Slot) → String
  | none => "nil"
  | some slots => "[" ++ Text.join " " (slots.map keyword) ++ "]"

end Slot

end Deduction

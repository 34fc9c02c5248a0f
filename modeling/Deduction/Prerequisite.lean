import Deduction.Term.Variables

/-!
# Prerequisites

A side condition without variables holds if it is the constant `true`, or if its operator names
a predicate of the object logic that answers *true* for its arguments. A predicate may break
down with a reason, which is an error and not the same as an answer.

## Main definitions

* `Predicate`, `PredicateTable` — the predicates of an object logic;
* `PredicateTable.holds` — does a side condition hold?
-/

namespace Deduction

/-- A predicate answers with a value, or breaks down with a reason. -/
abbrev Predicate := List Term → Except String Term

/-- The predicates of an object logic, by name. -/
structure PredicateTable where
  entries : List (String × Predicate)

namespace PredicateTable

/-- No predicates. -/
def empty : PredicateTable := ⟨[]⟩

/-- The predicate of a name. -/
def find? (table : PredicateTable) (name : String) : Option Predicate :=
  (table.entries.find? (·.1 == name)).map (·.2)

/-- The answers that count as true. -/
def isTrue : Term → Bool
  | .datum (.bool b) => b
  | .atom s => s == "true"
  | _ => false

/-- Does a side condition hold? -/
def holds (table : PredicateTable) : Term → Except Error Bool
  | .atom s => .ok (s == "true")
  | .app op args =>
    if table.entries.isEmpty then .ok false
    else match op with
      | .atom name => match table.find? name with
        | none => .ok false
        | some predicate => match predicate args with
          | .ok answer => .ok (isTrue answer)
          | .error reason => .error (.prereqFailed (.app op args) reason)
      | _ => match op.unkeyed? with
        | some kind => .error (.notAKey kind)
        | none => .ok false
  | _ => .ok false

end PredicateTable

end Deduction

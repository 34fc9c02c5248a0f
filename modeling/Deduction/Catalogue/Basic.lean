import Deduction.CallShape
import Deduction.Log
import Deduction.Prerequisite
import Deduction.Relation.Basic

/-!
# Catalogues

A catalogue holds the rules available to a proof, in the order of their registration, each with
its call shapes and its relation. These are derived when the rule is registered, so that a rule
that cannot be used is refused then and not in the middle of a proof. A rule registered under a
name that is taken replaces the old one in its place.

## Main definitions

* `Entry`, `Catalogue` — registered rules;
* `Catalogue.register`, `Catalogue.registerAll`, `Catalogue.unregister` — changes;
* `Catalogue.find?`, `Catalogue.lookup` — access.
-/

namespace Deduction

/-- A registered rule with what is derived from it. -/
structure Entry where
  rule : Rule
  forward : Option (List Slot)
  backward : Option (List Slot)
  relation : Relation

namespace Entry

/-- The entry of a rule. -/
def ofRule (r : Rule) : Entry := ⟨r, r.forwardShape, r.backwardShape, r.compile⟩

/-- The name of the rule. -/
def id (e : Entry) : String := e.rule.id

/-- The shape of a call in a direction. -/
def shape (e : Entry) : Direction → Option (List Slot)
  | .forward => e.forward
  | .backward => e.backward

end Entry

/-- The rules available to a proof. In a strict catalogue no rule has unreachable variables. -/
structure Catalogue where
  entries : List Entry
  predicates : PredicateTable
  strict : Bool

namespace Catalogue

/-- A catalogue without rules. -/
def empty (predicates : PredicateTable) (strict : Bool) : Catalogue := ⟨[], predicates, strict⟩

/-- The names of the rules, in order. -/
def ids (c : Catalogue) : List String := c.entries.map Entry.id

/-- The rules, in order. -/
def rules (c : Catalogue) : List Rule := c.entries.map Entry.rule

/-- The number of rules. -/
def size (c : Catalogue) : Nat := c.entries.length

/-- The entry of a name. -/
def find? (c : Catalogue) (id : String) : Option Entry := c.entries.find? (·.id == id)

/-- Is a rule of that name registered? -/
def has (c : Catalogue) (id : String) : Bool := (c.find? id).isSome

/-- The entries with `e` in the place of the entry of its name, or at the end. -/
def put (e : Entry) : List Entry → List Entry
  | [] => [e]
  | old :: rest => if old.id == e.id then e :: rest else old :: put e rest

/-- After `put`, the name of the entry leads to it. -/
theorem find?_put_self (e : Entry) (entries : List Entry) :
    (put e entries).find? (·.id == e.id) = some e := by
  induction entries with
  | nil => simp [put]
  | cons old rest ih => by_cases h : old.id = e.id <;> simp [put, h, ih]

/-- `put` leaves every other name alone. -/
theorem find?_put_of_ne (e : Entry) {id : String} (h : id ≠ e.id) (entries : List Entry) :
    (put e entries).find? (·.id == id) = entries.find? (·.id == id) := by
  induction entries with
  | nil => simp [put, h.symm]
  | cons old rest ih =>
    by_cases ho : old.id = e.id
    · simp [put, ho, h.symm]
    · rw [put, if_neg (by simpa using ho), List.find?_cons, List.find?_cons, ih]

/-- Register a rule. -/
def register (c : Catalogue) (r : Rule) : Except Error Catalogue := do
  r.validate c.strict
  return { c with entries := put (.ofRule r) c.entries }

/-- Register rules one by one until one is refused; those before it stay registered. -/
def registerAll (c : Catalogue) : List Rule → Catalogue × Except Error Unit
  | [] => (c, .ok ())
  | r :: rules => match c.register r with
    | .ok c => registerAll c rules
    | .error e => (c, .error e)

/-- The catalogue of a list of rules. -/
def ofRules (rules : List Rule) (predicates : PredicateTable) (strict : Bool) :
    Except Error Catalogue :=
  match registerAll (empty predicates strict) rules with
  | (c, .ok ()) => .ok c
  | (_, .error e) => .error e

/-! ### Names of any kind -/

/-- The entry of a name, where a value of any kind may be asked for. -/
def lookup (c : Catalogue) (id : Term) : Except Error Entry :=
  match id with
  | .atom name => match c.find? name with
    | some e => .ok e
    | none => .error (.ruleNotFound id)
  | _ => match id.unkeyed? with
    | some kind => .error (.notAKey kind)
    | none => .error (.ruleNotFound id)

/-- Is a rule of that name registered? -/
def contains (c : Catalogue) (id : Term) : Except Error Bool :=
  match c.lookup id with
  | .ok _ => .ok true
  | .error (.ruleNotFound _) => .ok false
  | .error e => .error e

/-- Remove the rule of a name. -/
def unregister (c : Catalogue) (id : Term) : Except Error Catalogue := do
  let e ← c.lookup id
  return { c with entries := c.entries.filter (·.id ≠ e.id) }

/-! ### Log -/

/-- What the registration of a rule tells, whether it succeeds or not. -/
def registerLog (c : Catalogue) (r : Rule) : List LogLine :=
  let loose : List LogLine :=
    if r.unreachable.isEmpty then []
    else [⟨.debug, .rules, r.id ++ ": unconstrained variables " ++ Text.quotedList r.unreachable⟩]
  match c.register r with
  | .error _ => []
  | .ok _ =>
    loose ++ [⟨.debug, .relations, "compiled " ++ r.id ++ ":\n" ++ r.compile.listing⟩,
      ⟨.debug, .catalogue, (if c.has r.id then "re-registered " else "registered ") ++ r.id⟩]

/-- What the registration of several rules tells. -/
def registerAllLog (c : Catalogue) : List Rule → List LogLine
  | [] => []
  | r :: rules => c.registerLog r ++ match c.register r with
    | .ok c => registerAllLog c rules
    | .error _ => []

end Catalogue

end Deduction

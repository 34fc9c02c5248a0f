import Deduction.Json.Basic

/-!
# Terms

The objects of the engine. An *expression* is an atom, a compound of an operator name and at
least one argument, a group of expressions, or a logic variable. Rules and arguments are
authored by hand or read from files, so a term may also be something that is no expression:
a compound without arguments or with an operator that is no name, the empty compound, the
wildcard, a list, or a piece of JSON data. Such values are carried along as they are until
`Term.normalize` accepts or refuses them.

Walks over a term enter the arguments of compounds and the items of groups. The operator of a
compound is copied and never entered, and everything else is a leaf.

## Main definitions

* `Var` — a logic variable: a name with a serial number that keeps the variables of different
  uses of one rule apart;
* `Term` — atoms, compounds, groups, variables, and the values that are no expressions;
* `Term.same` — equality of values, which is equality of terms as long as no data is involved;
* `Term.walk` — induction along the places that walks reach.
-/

namespace Deduction

/-- A logic variable. The serial keeps variables of different uses apart. -/
structure Var where
  name : String
  serial : Int
deriving DecidableEq, Inhabited

/-- A piece of data that is neither an atom nor a list. -/
inductive Datum where
  | null
  | bool (value : Bool)
  | number (value : Number)
  | object (fields : List (String × Json))

/-- A term. -/
inductive Term where
  /-- An atom, such as `P`. -/
  | atom (name : String)
  /-- A compound of an operator and its arguments, such as `(and P Q)`. -/
  | app (op : Term) (args : List Term)
  /-- The compound that has not even an operator. -/
  | hollow
  /-- A bracketed group, such as the labels in `(at [i] A)`. -/
  | group (items : List Term)
  /-- A logic variable. -/
  | var (v : Var)
  /-- The mark of an argument to be solved for. -/
  | wildcard
  /-- A list, which normalisation turns into a group. -/
  | list (items : List Term)
  /-- Any other data. -/
  | datum (d : Datum)

instance : Inhabited Term := ⟨.hollow⟩

namespace Datum

/-- The JSON value of a piece of data. -/
def toJson : Datum → Json
  | .null => .null
  | .bool b => .bool b
  | .number n => .number n
  | .object fields => .object fields

/-- Equality of data by value. -/
def same (a b : Datum) : Bool := a.toJson.same b.toJson

end Datum

namespace Term

/-- Induction along a walk: through the arguments of compounds and the items of groups. -/
theorem walk {P : Term → Prop} (atom : ∀ s, P (.atom s))
    (app : ∀ op args, (∀ t ∈ args, P t) → P (.app op args)) (hollow : P .hollow)
    (group : ∀ items, (∀ t ∈ items, P t) → P (.group items)) (var : ∀ v, P (.var v))
    (wildcard : P .wildcard) (list : ∀ items, P (.list items)) (datum : ∀ d, P (.datum d))
    (t : Term) : P t :=
  match t with
  | .atom s => atom s
  | .app op args => app op args fun u _ =>
    walk atom app hollow group var wildcard list datum u
  | .hollow => hollow
  | .group items => group items fun u _ =>
    walk atom app hollow group var wildcard list datum u
  | .var v => var v
  | .wildcard => wildcard
  | .list items => list items
  | .datum d => datum d
termination_by sizeOf t
decreasing_by
  all_goals
    have := List.sizeOf_lt_of_mem ‹u ∈ _›
    simp only [Term.app.sizeOf_spec, Term.group.sizeOf_spec]
    omega

/-- The compound with an operator name. -/
def ofName (op : String) (args : List Term) : Term := .app (.atom op) args

mutual

/-- The term that a JSON value is: texts are atoms, arrays are lists. -/
def ofJson : Json → Term
  | .null => .datum .null
  | .bool b => .datum (.bool b)
  | .number n => .datum (.number n)
  | .string s => .atom s
  | .array items => .list (ofJsonAll items)
  | .object fields => .datum (.object fields)

/-- `ofJson` item by item. -/
def ofJsonAll : List Json → List Term
  | [] => []
  | item :: items => ofJson item :: ofJsonAll items

end

/-! ### Equality -/

mutual

/-- Equality of values. Two terms are the same when they are built alike from the same atoms,
variables and data; data is compared by value. -/
def same : Term → Term → Bool
  | .atom a, .atom b => a == b
  | .app f as, .app g bs => same f g && sameAll as bs
  | .hollow, .hollow => true
  | .group as, .group bs => sameAll as bs
  | .var v, .var w => v == w
  | .wildcard, .wildcard => true
  | .list as, .list bs => sameAll as bs
  | .datum a, .datum b => a.same b
  | _, _ => false

/-- Equality item by item. -/
def sameAll : List Term → List Term → Bool
  | [], [] => true
  | a :: as, b :: bs => same a b && sameAll as bs
  | _, _ => false

end

/-! ### Shapes -/

/-- The reserved constants of the object logics. In a template every other atom is a pattern
variable. -/
def keywords : List String := ["truth", "contradiction", "true", "false"]

/-- Is the name a reserved constant? -/
def isKeyword (name : String) : Bool := keywords.contains name

/-- Is the term the atom of that name? -/
def isAtom (name : String) : Term → Bool
  | .atom s => s == name
  | _ => false

/-- Is the term a compound, with or without an operator? -/
def isCompound : Term → Bool
  | .app _ _ | .hollow => true
  | _ => false

/-- The operator of a compound. -/
def operator? : Term → Option Term
  | .app op _ => some op
  | _ => none

/-- The members of a value that stands where a list is expected: the items of a list or group,
the parts of a compound, the characters of an atom, the field names of an object. Nothing else
has members. -/
def members? : Term → Option (List Term)
  | .list items | .group items => some items
  | .app op args => some (op :: args)
  | .hollow => some []
  | .atom s => some (s.toList.map fun c => .atom (String.singleton c))
  | .datum (.object fields) => some (fields.map fun field => .atom field.1)
  | _ => none

/-- A value that counts as nothing: no members, no truth, or zero. -/
def isVacant : Term → Bool
  | .datum .null => true
  | .datum (.bool b) => !b
  | .datum (.number n) => n.isZero
  | t => match t.members? with
    | some members => members.isEmpty
    | none => false

/-! ### Keys -/

/-- The two kinds of values that cannot be looked up in a table. -/
inductive Unkeyed where
  | list
  | object
deriving DecidableEq

mutual

/-- The first part of a value that keeps it from being a key of a table. -/
def unkeyed? : Term → Option Unkeyed
  | .list _ => some .list
  | .datum (.object _) => some .object
  | .app op args => (unkeyed? op).or (unkeyedIn? args)
  | .group items => unkeyedIn? items
  | _ => none

/-- `unkeyed?` over several values. -/
def unkeyedIn? : List Term → Option Unkeyed
  | [] => none
  | t :: ts => (unkeyed? t).or (unkeyedIn? ts)

end

end Term

end Deduction

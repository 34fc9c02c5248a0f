import Deduction.Rule.Basic

/-!
# Rules as JSON

A rule is written as an object of its fields. A compound is an object with the field `_fn`, a
group an object with the field `_group`, and an atom is a text. When rules are read back, a
field may hold anything that has members: the items of an array, the characters of a text, or
the names of an object's fields.

## Main definitions

* `Term.encodeWith`, `Term.encode` — the JSON form of a term;
* `Term.decode` — the term of a JSON form;
* `Rule.toJson`, `Rule.ofJson` — the same for rules;
* `Rule.fileJson`, `Rule.ofFile` — the same for a whole file of rules.
-/

namespace Deduction

/-- The field of an encoded compound. -/
def compoundField : String := "_fn"

/-- The field of an encoded group. -/
def groupField : String := "_group"

/-- The field of a file that holds its rules. -/
def rulesField : String := "roths"

namespace Term

mutual

/-- The JSON form of a term, with `leaf` for what is neither a compound nor a group. -/
def encodeWith (leaf : Term → Except Error Json) : Term → Except Error Json
  | .app op args => do
    let op ← encodeWith leaf op
    let args ← encodeAllWith leaf args
    return .object [(compoundField, .array (op :: args))]
  | .hollow => return .object [(compoundField, .array [])]
  | .group items => do return .object [(groupField, .array (← encodeAllWith leaf items))]
  | t => leaf t

/-- `encodeWith` item by item. -/
def encodeAllWith (leaf : Term → Except Error Json) : List Term → Except Error (List Json)
  | [] => .ok []
  | t :: ts => do
    let j ← encodeWith leaf t
    let js ← encodeAllWith leaf ts
    return j :: js

end

/-- The JSON form of a leaf: atoms are texts, and variables have none. -/
def encodeLeaf : Term → Except Error Json
  | .atom s => .ok (.string s)
  | .datum d => .ok d.toJson
  | _ => .error .notEncodable

/-- The JSON form of a term. -/
def encode (t : Term) : Except Error Json := encodeWith encodeLeaf t

mutual

/-- The term of a JSON form. An object must be a compound or a group; every other value is
taken as it is. -/
def decode : Json → Except Error Term
  | .object fields =>
    match decodeField compoundField fields with
    | some parts => do
      match ← parts with
      | [] => return .hollow
      | op :: args => return .app op args
    | none => match decodeField groupField fields with
      | some items => do return .group (← items)
      | none => .error (.malformed (.unknownEncoding (.object fields)))
  | value => .ok (ofJson value)

/-- The decoded members of the field called `name`, if there is one. -/
def decodeField (name : String) : List (String × Json) → Option (Except Error (List Term))
  | [] => none
  | (key, value) :: rest =>
    if key == name then some (decodeMembers value) else decodeField name rest

/-- The decoded members of a value that stands where an array belongs. -/
def decodeMembers : Json → Except Error (List Term)
  | .array items => decodeAll items
  | .string s => .ok (s.toList.map fun c => .atom (String.singleton c))
  | .object fields => .ok (fields.map fun field => .atom field.1)
  | _ => .error .notAList

/-- `decode` item by item. -/
def decodeAll : List Json → Except Error (List Term)
  | [] => .ok []
  | j :: js => do
    let t ← decode j
    let ts ← decodeAll js
    return t :: ts

end

end Term

namespace Rule

/-- The JSON object of a rule, with `leaf` for the leaves of its templates. -/
def toJsonWith (leaf : Term → Except Error Json) (r : Rule) : Except Error Json := do
  let given ← Term.encodeAllWith leaf r.given
  let extra ← Term.encodeAllWith leaf r.extra
  let conclusion ← Term.encodeAllWith leaf r.conclusion
  let prereq ← match r.prereq with
    | none => pure []
    | some ts => do pure [(Field.prereq.name, Json.array (← Term.encodeAllWith leaf ts))]
  return .object ([("id", .string r.id), (Field.given.name, .array given),
    (Field.extra.name, .array extra), (Field.conclusion.name, .array conclusion)] ++ prereq)

/-- The JSON object of a rule. -/
def toJson (r : Rule) : Except Error Json := r.toJsonWith Term.encodeLeaf

/-- The decoded templates of a field; a missing field holds none. -/
def decodedField (fields : List (String × Json)) (field : Field) : Except Error (List Term) :=
  match Json.fieldOf? field.name fields with
  | none => .ok []
  | some value => Term.decodeMembers value

/-- The decoded side conditions; `null` stands for no field. -/
def decodedPrereq (fields : List (String × Json)) : Except Error (Option (List Term)) :=
  match Json.fieldOf? Field.prereq.name fields with
  | none => .ok none
  | some .null => .ok none
  | some value => do return some (← Term.decodeMembers value)

/-- The rule of a JSON object. All fields are decoded before the first one is checked. -/
def ofJson : Json → Except Error Rule
  | .object fields =>
    match Json.fieldOf? "id" fields with
    | none => .error (.missingField "id")
    | some id => do
      let given ← decodedField fields .given
      let extra ← decodedField fields .extra
      let conclusion ← decodedField fields .conclusion
      let prereq ← decodedPrereq fields
      author (Term.ofJson id) (.list given) (.list extra) (.list conclusion)
        (prereq.map Term.list)
  | _ => .error .notAnObject

/-- The rules of several JSON values; the first failure counts. -/
def ofJsonAll : List Json → Except Error (List Rule)
  | [] => .ok []
  | j :: js => do
    let r ← ofJson j
    let rs ← ofJsonAll js
    return r :: rs

/-- The JSON objects of several rules. -/
def toJsonAll : List Rule → Except Error (List Json)
  | [] => .ok []
  | r :: rs => do
    let j ← toJson r
    let js ← toJsonAll rs
    return j :: js

/-- The JSON value of a file of rules. -/
def fileJson (rules : List Rule) : Except Error Json := do
  return .object [(rulesField, .array (← toJsonAll rules))]

/-- The rules of a file. The field of rules may hold anything that has members, though only the
items of an array can be rules. -/
def ofFileJson : Json → Except Error (List Rule)
  | .object fields =>
    match Json.fieldOf? rulesField fields with
    | none => .error (.missingField rulesField)
    | some (.array items) => ofJsonAll items
    | some (.string s) => if s.isEmpty then .ok [] else .error .notAnObject
    | some (.object names) => if names.isEmpty then .ok [] else .error .notAnObject
    | some _ => .error .notAList
  | _ => .error .notIndexed

end Rule

end Deduction

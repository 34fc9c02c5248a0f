import Deduction.Rule.Basic

/-!
# Call shapes

The shape of a call says what each argument of a use of a rule is for. It follows from the
templates alone. The operators `infer`, `succ`, `substitution` and `actual` mark a given that
plays a special part: an assumption discharged by the rule, a step to the next state, a formula
left to be substituted into, or a term known to denote.

A forward call lists the givens, the extras and the conclusions; a backward call lists the
conclusion and then the givens. Some rules can be used in one direction only.

## Main definitions

* `Marker` — the marks of special givens;
* `CallShape.forward`, `CallShape.backward` — the shapes, from the marks of the givens;
* `Rule.forwardShape`, `Rule.backwardShape` — the shapes of a rule;
* `CallShape.forwardOf`, `CallShape.backwardOf` — the shapes of templates that have not been
  normalised.
-/

namespace Deduction

/-- The marks of special givens. -/
inductive Marker where
  | infer
  | succ
  | substitution
  | actual
deriving DecidableEq

namespace Marker

/-- The operator of a mark. -/
def name : Marker → String
  | .infer => "infer"
  | .succ => "succ"
  | .substitution => "substitution"
  | .actual => "actual"

/-- The mark of an operator. -/
def ofOperator? (op : Term) : Option Marker :=
  [infer, succ, substitution, actual].find? fun m => op.isAtom m.name

end Marker

namespace Term

/-- The mark of a template. -/
def marker (t : Term) : Option Marker := t.operator?.bind Marker.ofOperator?

/-- `marker` where the template is a term of any kind: a compound must have an operator that
can be looked up. -/
def marker? : Term → Except Error (Option Marker)
  | .hollow => .error .noOperator
  | .app op _ => match op.unkeyed? with
    | some kind => .error (.notAKey kind)
    | none => .ok (Marker.ofOperator? op)
  | _ => .ok none

/-- `marker?` item by item. -/
def markers? : List Term → Except Error (List (Option Marker))
  | [] => .ok []
  | t :: ts => do
    let m ← marker? t
    let ms ← markers? ts
    return m :: ms

end Term

namespace CallShape

/-! ### Forward -/

/-- The slot of a given before the other slots are looked at. -/
def forwardSlot (index : Nat) (mark : Option Marker) : Slot :=
  if mark = some .infer then .query
  else if mark = some .succ ∨ index = 0 then .mandatory
  else .optional

/-- The slots of the givens and extras: with an extra, or a term known to denote, no given is
optional; and where mandatory and optional givens are the only ones, one of them is enough. -/
def inputSlots (marks : List (Option Marker)) (extras : Nat) : List Slot :=
  let slots := marks.mapIdx forwardSlot ++ List.replicate extras .extra
  let slots :=
    if marks.contains (some .actual) || slots.contains .extra then
      slots.map fun s => if s = .optional then .mandatory else s
    else slots
  if slots.contains .mandatory && slots.contains .optional
      && slots.all fun s => s = .mandatory || s = .optional then
    slots.map fun _ => .oneOf
  else slots

/-- Can a rule with such givens not be used forward? -/
def forwardBlocked (marks : List (Option Marker)) (extras : Nat) : Bool :=
  (inputSlots marks extras).head? == some .query || marks.contains (some .substitution)

/-- The shape of a forward call. -/
def forward (marks : List (Option Marker)) (extras conclusions : Nat) : Option (List Slot) :=
  let slots := inputSlots marks extras
  if forwardBlocked marks extras then none
  else if conclusions = 1 && slots.contains .query then some (slots ++ [.combined])
  else some (slots ++ List.replicate conclusions .output)

/-! ### Backward -/

/-- The slot of a given before the other slots are looked at. -/
def backwardSlot (index : Nat) (mark : Option Marker) : Slot :=
  if mark = some .infer ∨ mark = some .substitution then .query
  else if index = 0 then .optional
  else .required

/-- The slots of the givens: without one that is solved for all are required, and a lone given
is solved for. -/
def givenSlots (marks : List (Option Marker)) : List Slot :=
  let slots := marks.mapIdx backwardSlot
  let slots :=
    if slots.contains .optional && slots.contains .required
        && slots.all fun s => s = .optional || s = .required then
      slots.map fun _ => Slot.required
    else slots
  if slots.length = 1 then [.query] else slots

/-- The shape of a backward call. A rule with several conclusions, with extras, without givens,
or with a substitution inside its conclusion has none. -/
def backward (marks : List (Option Marker)) (extras conclusions : Nat)
    (substitutes : Bool) : Option (List Slot) :=
  if conclusions > 1 || extras > 0 || marks.isEmpty || substitutes then none
  else some (.goal :: givenSlots marks)

/-! ### Templates of any kind -/

/-- The members of a field. -/
def members (value : Term) : Except Error (List Term) :=
  match value.members? with
  | some ts => .ok ts
  | none => .error .notAList

/-- The forward shape of fields that have not been normalised. -/
def forwardOf (given extra conclusion : Term) : Except Error (Option (List Slot)) := do
  let marks ← Term.markers? (← members given)
  let extras := (← members extra).length
  if forwardBlocked marks extras then return none
  let conclusions := (← members conclusion).length
  return forward marks extras conclusions

/-- The backward shape of fields that have not been normalised. -/
def backwardOf (given extra conclusion : Term) : Except Error (Option (List Slot)) := do
  let marks ← Term.markers? (← members given)
  let conclusions ← members conclusion
  if conclusions.length > 1 || !extra.isVacant || marks.isEmpty then return none
  match Term.scanIn Marker.substitution.name conclusions with
  | .noOperator => throw .noOperator
  | .found => return none
  | .absent => return backward marks 0 conclusions.length false

end CallShape

namespace Rule

/-- The shape of a forward call of the rule. -/
def forwardShape (r : Rule) : Option (List Slot) :=
  CallShape.forward (r.given.map Term.marker) r.extra.length r.conclusion.length

/-- The shape of a backward call of the rule. -/
def backwardShape (r : Rule) : Option (List Slot) :=
  CallShape.backward (r.given.map Term.marker) r.extra.length r.conclusion.length
    (Term.scanIn Marker.substitution.name r.conclusion == .found)

end Rule

end Deduction

import Deduction.Catalogue.Basic
import Deduction.Logic.FirstOrder
import Deduction.Logic.Propositional
import Deduction.Logic.Temporal

/-!
# Object logics

The engine treats every operator alike; an object logic decides which rules there are and what
the predicates of side conditions compute.

## Main definitions

* `Logic` — an object logic; `Logic.known` — the three of them;
* `Logic.catalogue` — the catalogue of a logic.
-/

namespace Deduction

/-- An object logic. -/
structure Logic where
  name : String
  description : String
  rules : List Rule
  predicates : PredicateTable

namespace Logic

/-- Classical propositional logic. -/
def propositional : Logic :=
  ⟨"prop", "Classical propositional logic", Propositional.rules, .empty⟩

/-- First-order logic. -/
def firstOrder : Logic :=
  ⟨"pred", "First-order predicate logic with equality", FirstOrder.rules, FirstOrder.predicates⟩

/-- Linear temporal logic. -/
def temporal : Logic :=
  ⟨"ltl", "Linear temporal logic, labelled by states", Temporal.rules, .empty⟩

/-- The object logics. -/
def known : List Logic := [propositional, firstOrder, temporal]

/-- Their names. -/
def names : List String := known.map Logic.name

/-- The logic of a name. -/
def find? (name : String) : Option Logic := known.find? (·.name == name)

/-- The logic of a name, where a value of any kind may be asked for. -/
def lookup (name : Term) : Except Error Logic :=
  match name.unkeyed? with
  | some kind => .error (.notAKey kind)
  | none => match known.find? fun logic => name.isAtom logic.name with
    | some logic => .ok logic
    | none => .error (.unknownLogic name names)

/-- The catalogue of a logic. -/
def catalogue (logic : Logic) (strict : Bool) : Except Error Catalogue :=
  Catalogue.ofRules logic.rules logic.predicates strict

end Logic

end Deduction

import Deduction.Logic.Propositional
import Deduction.Logic.Substitution

/-!
# First-order logic with equality

The propositional rules, and rules for the quantifiers and for equality. `(forall [x] phi)` and
`(exists [x] phi)` bind the atom in the group, and `(actual t)` says that `t` denotes an element
of the domain. Conclusions leave substitutions symbolic. Elimination of equality has a side
condition, evaluated by the predicate of the same name.

## Main definitions

* `FirstOrder.rules`, `FirstOrder.predicates` — the catalogue and its predicates.
-/

namespace Deduction.FirstOrder

/-- The formula that `x` ranges over in a schema. -/
def phi : Term := .atom "phi"

/-- A second formula. -/
def chi : Term := .atom "chi"

/-- The bound atom. -/
def x : Term := .atom "x"

/-- The arbitrary element of a sub-proof. -/
def x0 : Term := .atom "x0"

/-- The instantiating term. -/
def t : Term := .atom "t"

/-- The left side of an equation. -/
def a : Term := .atom "a"

/-- The right side of an equation. -/
def b : Term := .atom "b"

/-- Universal quantification. -/
def forAll (v p : Term) : Term := .ofName "forall" [.group [v], p]

/-- Existential quantification. -/
def thereIs (v p : Term) : Term := .ofName "exists" [.group [v], p]

/-- The term denotes. -/
def actual (s : Term) : Term := .ofName "actual" [s]

/-- Equality. -/
def equal (s u : Term) : Term := .ofName "=" [s, u]

/-- A substitution left symbolic. -/
def substituted (p v s : Term) : Term := .ofName Term.substitutionName [p, v, s]

/-- The name of the predicate of substitution. -/
def isSubstitutedName : String := "substitution?"

/-- The rules for quantifiers and equality. -/
def basicRules : List Rule :=
  [.plain "forall-i" [Propositional.infer (actual x0) (substituted phi x x0)] [forAll x phi],
   .plain "forall-e" [forAll x phi, actual t] [substituted phi x t],
   .plain "exists-i" [actual t, substituted phi x t] [thereIs x phi],
   .plain "exists-e"
     [thereIs x phi, Propositional.infer (.group [actual x0, substituted phi x x0]) chi] [chi],
   .plain "equal-i" [] [equal t t],
   { id := "equal-e"
     given := [equal a b, chi]
     extra := [phi, x]
     conclusion := [substituted phi x b]
     prereq := some [.ofName isSubstitutedName [phi, x, a, chi]] }]

/-- The propositional rules, then those for quantifiers and equality. -/
def rules : List Rule := Propositional.rules ++ basicRules

/-- The predicates of side conditions. -/
def predicates : PredicateTable := ⟨[(isSubstitutedName, SubstitutionPredicate.holds)]⟩

end Deduction.FirstOrder

import Deduction.Rule.Basic

/-!
# Classical propositional logic

Natural deduction for `not`, `and`, `or`, `impl` and `equiv`, with the constants `truth` and
`contradiction`. A sub-proof appears in a rule as `(infer A B)`: assuming `A`, `B` was derived.
The theorems after the rules have been proved once and are used like rules.

## Main definitions

* `Propositional.rules` — the catalogue.
-/

namespace Deduction.Propositional

/-- The first schematic letter. -/
def A : Term := .atom "A"

/-- The second schematic letter. -/
def B : Term := .atom "B"

/-- The third schematic letter. -/
def C : Term := .atom "C"

/-- The true constant. -/
def truth : Term := .atom "truth"

/-- The false constant. -/
def contradiction : Term := .atom "contradiction"

/-- Negation. -/
def neg (p : Term) : Term := .ofName "not" [p]

/-- Conjunction. -/
def conj (p q : Term) : Term := .ofName "and" [p, q]

/-- Disjunction. -/
def disj (p q : Term) : Term := .ofName "or" [p, q]

/-- Implication. -/
def imp (p q : Term) : Term := .ofName "impl" [p, q]

/-- Equivalence. -/
def equiv (p q : Term) : Term := .ofName "equiv" [p, q]

/-- The sub-proof of `q` from `p`. -/
def infer (p q : Term) : Term := .ofName "infer" [p, q]

/-- The rules of inference. -/
def basicRules : List Rule :=
  [.plain "and-i" [A, B] [conj A B],
   .plain "and-e1" [conj A B] [A],
   .plain "and-e2" [conj A B] [B],
   .plain "or-i1" [A] [disj A B],
   .plain "or-i2" [B] [disj A B],
   .plain "or-e" [disj A B, infer A C, infer B C] [C],
   .plain "impl-i" [infer A B] [imp A B],
   .plain "impl-e" [A, imp A B] [B],
   .plain "not-i" [infer A contradiction] [neg A],
   .plain "not-e" [neg A, A] [contradiction],
   .plain "efq" [contradiction] [A],
   .plain "raa" [infer (neg A) contradiction] [A],
   .plain "tnd" [] [disj A (neg A)],
   .plain "truth" [] [truth],
   .plain "notnot-i" [A] [neg (neg A)],
   .plain "equiv-i" [imp A B, imp B A] [equiv A B],
   .plain "equiv-e1" [equiv A B] [imp A B],
   .plain "equiv-e2" [equiv A B] [imp B A]]

/-- The theorems. -/
def theorems : List Rule :=
  [.plain "notnot-e" [neg (neg A)] [A],
   .plain "mt" [imp A B, neg B] [neg A],
   .plain "contrap" [imp A B] [imp (neg B) (neg A)],
   .plain "and-comm" [conj A B] [conj B A],
   .plain "and-split" [conj A B] [A, B]]

/-- The rules of inference, then the theorems. -/
def rules : List Rule := basicRules ++ theorems

end Deduction.Propositional
